import Standstill.Proofs.Masks
import Standstill.Proofs.ParkLoop
import Standstill.Proofs.UnderGuard

/-!
No thread is stopped while it holds a lock. Under a guard its level keeps the handler of the stop
signal from parking; on joining a service no record stands for it yet; on leaving its level is raised
or the signal blocked.
-/
namespace Standstill

open World ParkInstr

variable {n : Nat} {w w' : World} {t t' q : ThreadId} {s : ServiceId} {r : RecordId} {l : Lock}
  {i j : Instr} {k : ParkInstr} {code rest : List Instr} {e : Event} {fs gs hs : List Hold}

/-! Which record the handler and the first step of a departure are about. -/

theorem bindingOf_run_of_nested (i : Instr) (h : i.isNested = true) :
    (i.run t w).1.bindingOf t' = w.bindingOf t' := by
  cases i with
  | sync i =>
    obtain ⟨_, _, he⟩ := i.run_fst (w := w) (t := t)
    rw [Instr.run, he]
    rfl
  | guard i => exact i.ofThread_run (fun _ => rfl) (fun _ _ => rfl) fun _ _ => rfl
  | park i => exact i.ofThread_run (fun _ => rfl) (fun _ _ => rfl) fun _ _ => rfl
  | _ => cases h

theorem bindingOf_proceed_of_quiet (h : i.isQuiet = true) :
    (w.proceed t i rest).bindingOf t' = w.bindingOf t' := by
  have hb : (w.setCode t rest).bindingOf t' = w.bindingOf t' := ofThread_setCode fun _ _ => rfl
  have hp : (w.proceed t i rest).bindingOf t' = (i.run t (w.setCode t rest)).1.bindingOf t' :=
    ofThread_push (fun _ _ => rfl) _
  rw [hp, ← hb]
  exact ofThread_congr (i.core_run h) fun _ => rfl

theorem bindingOf_proceed_of_nested (h : i.isNested = true) :
    (w.proceed t i rest).bindingOf t' = w.bindingOf t' := by
  have hb : (w.setCode t rest).bindingOf t' = w.bindingOf t' := ofThread_setCode fun _ _ => rfl
  have hp : (w.proceed t i rest).bindingOf t' = (i.run t (w.setCode t rest)).1.bindingOf t' :=
    ofThread_push (fun _ _ => rfl) _
  rw [hp, bindingOf_run_of_nested i h, hb]

theorem bindingOf_proceed_of_ne (ht : t' ≠ t) :
    (w.proceed t i rest).bindingOf t' = w.bindingOf t' := by
  rcases bindingOf_proceed w t t' i rest with h | ⟨h, _⟩
  · exact h
  · exact absurd h ht

theorem detachRaise_of_run (i : Instr) (h : .member (.detachRaise s r) ∈ (i.run t w).2) :
    i = .member (.detach s) ∧ w.selfIn t s = some r := by
  have calm (hc : ∀ j ∈ (i.run t w).2, j.isUrgent = false) : False := by cases hc _ h
  cases i with
  | user => simp [Instr.run] at h
  | sync i => cases i <;> simp [Instr.run, SyncInstr.run] at h
  | guard i =>
    cases i <;> simp only [Instr.run, GuardInstr.run] at h
    all_goals repeat' split at h
    all_goals simp [stopIfDue] at h
  | park i => cases List.all_eq_true.mp (run_nested (w := w) (t := t) (i := .park i) rfl) _ h
  | stop i => exact False.elim (calm (calm_of_plain i.run_plain))
  | pool i => exact False.elim (calm (calm_of_plain i.run_plain))
  | read i => exact False.elim (calm (calm_of_plain i.run_plain))
  | member i =>
    cases i with
    | detach s' =>
      simp only [Instr.run, MemberInstr.run] at h
      split at h
      · cases h
      next b hs =>
        split at h
        · cases h
        · simp only [List.mem_singleton, Instr.member.injEq, MemberInstr.detachRaise.injEq] at h
          obtain ⟨rfl, rfl⟩ := h
          exact ⟨rfl, hs⟩
    | _ =>
      simp only [Instr.run, MemberInstr.run] at h
      repeat' split at h
      all_goals simp [publishCode, refuseCode, leaveRoster, guarded, locked] at h

theorem remainder_of_ante (ha : i.isAnte = true) (hn : i.isNested = false) :
    w.remainder t i rest = [] := by
  simp only [Instr.isAnte, hn, Bool.false_or] at ha
  split at ha
  · rfl
  · rfl
  · cases ha

structure Handled (w : World) : Prop where
  /-- The handler is run for the record that stands for the thread. -/
  handled : ∀ {t tests r}, .park (.check tests .handler r) ∈ w.codeOf t → w.bindingOf t = some r
  leaving : ∀ {t s r}, .member (.detachRaise s r) ∈ w.codeOf t → w.bindingOf t = some r
  prompt : ∀ t, Prompt (w.codeOf t)

theorem handled_initial (n : Nat) : Handled (World.initial n) := by
  refine ⟨fun h => ?_, fun h => ?_, fun t => ?_⟩
  · cases eq_user_of_initial h
  · cases eq_user_of_initial h
  · apply prompt_of_unbare
    intro j hj
    cases eq_user_of_initial hj
    rfl

section Proceed

variable (d : Handled w) (ho : Orderly (w.codeOf t)) (h : w.codeOf t = i :: rest)
include d ho h

theorem Handled.handled_proceed {tests : List Test}
    (hm : .park (.check tests .handler r) ∈ (w.proceed t i rest).codeOf t') :
    (w.proceed t i rest).bindingOf t' = some r := by
  have hi : i ∈ w.codeOf t := h ▸ List.mem_cons_self
  rcases mem_codeOf_proceed h hm with ⟨rfl, hj⟩ | ⟨rfl, hj⟩ | ⟨ht, hj⟩ | ⟨s, b, _, _, hj, _⟩
  · rcases remainder_park hj with ⟨k', rfl, hl⟩ | ⟨g, m, b, _, _, hk⟩ | ⟨s, m, b, _, _, hk⟩
    · rw [bindingOf_proceed_of_nested rfl]
      cases hl with
      | pass x => exact d.handled hi
      | nest _ hb => exact hb
    · cases hk
    · cases hk
  · cases hn : i.isNested
    · exact absurd hj (not_mem_rest ho h rfl hn)
    · rw [bindingOf_proceed_of_nested hn]
      exact d.handled (h ▸ List.mem_cons_of_mem _ hj)
  · rw [bindingOf_proceed_of_ne ht]
    exact d.handled hj
  · simp [threadCode] at hj

theorem Handled.leaving_proceed
    (hm : .member (.detachRaise s r) ∈ (w.proceed t i rest).codeOf t') :
    (w.proceed t i rest).bindingOf t' = some r := by
  rcases mem_codeOf_proceed h hm with ⟨rfl, hj⟩ | ⟨rfl, hj⟩ | ⟨ht, hj⟩ | ⟨s, b, _, _, hj, _⟩
  · obtain ⟨rfl, hs⟩ := detachRaise_of_run (w := w.setCode t' rest) i hj
    rw [bindingOf_proceed_of_quiet rfl]
    exact (selfIn_eq_some.mp (selfIn_setCode ▸ hs)).1
  · cases hn : i.isNested
    · exact absurd hj (not_mem_rest ho h rfl hn)
    · rw [bindingOf_proceed_of_nested hn]
      exact d.leaving (h ▸ List.mem_cons_of_mem _ hj)
  · rw [bindingOf_proceed_of_ne ht]
    exact d.leaving hj
  · simp [threadCode] at hj

omit ho in
theorem Handled.prompt_proceed (t' : ThreadId) : Prompt ((w.proceed t i rest).codeOf t') := by
  refine codeOf_proceed_cases h ?_ (d.prompt t') List.Pairwise.nil fun s r => by
    simp [Prompt, threadCode, Instr.isBare]
  have hp := d.prompt t
  rw [h] at hp
  refine List.pairwise_append.mpr ⟨run_prompt i, (List.pairwise_cons.mp hp).2, ?_⟩
  intro a ha b hb hbare
  have hi := (List.pairwise_cons.mp hp).1 b hb hbare
  -- what may come before a bare instruction leaves nothing to do, unless it is nested
  cases hn : i.isNested
  · rw [remainder_of_ante hi hn] at ha
    cases ha
  · simp only [Instr.isAnte, Bool.or_eq_true]
    exact Or.inl (List.all_eq_true.mp (run_nested hn) a ha)

end Proceed

theorem Call.code_unbare (c : Call) : ∀ j ∈ c.code w t, j.isBare = false := by
  intro j hj
  rcases c.code_plain (w := w) (t := t) with hp | ⟨s, r, _, _, he⟩
  · exact not_bare_of_record (record_of_plain hp j hj)
  · rw [he, List.mem_singleton] at hj
    subst hj
    rfl

/-- Neither the handler nor a departure begins with a call. -/
theorem Call.code_calls (c : Call) (hj : j ∈ c.code w t) :
    (∀ tests r, j ≠ .park (.check tests .handler r)) ∧ ∀ s r, j ≠ .member (.detachRaise s r) := by
  rcases c.code_plain (w := w) (t := t) with hp | ⟨s, r, _, _, he⟩
  · have hu := calm_of_plain hp j hj
    constructor
    · rintro tests r rfl
      cases hu
    · rintro s r rfl
      cases hu
  · rw [he, List.mem_singleton] at hj
    subst hj
    exact ⟨(fun _ _ h => by cases h), fun _ _ h => by cases h⟩

theorem Handled.unbare_of_user (d : Handled w) (hu : w.inUser t = true) :
    ∀ j ∈ w.codeOf t, j.isBare = false := by
  obtain ⟨rest, hc⟩ := head_user hu
  have hp := d.prompt t
  rw [hc] at hp ⊢
  refine List.forall_mem_cons.mpr ⟨rfl, fun j hj => ?_⟩
  cases hb : j.isBare
  · rfl
  · cases (List.pairwise_cons.mp hp).1 j hj hb

section Undisturbed

variable (d : Handled w) (u : Undisturbed w e w')
include d

theorem Handled.unbare_of_takes (h : Takes w t e code) (hi : e ≠ .interrupt t) :
    ∀ j ∈ code, j.isBare = false := by
  intro j hj
  cases h with
  | interrupt => exact absurd rfl hi
  | invoke c hu =>
    rcases List.mem_append.mp hj with hj | hj
    · exact c.code_unbare j hj
    · exact d.unbare_of_user hu j hj
  | finish p hu =>
    rcases mem_epilogue hj with hj | ⟨s, r, rfl, _⟩
    · exact d.unbare_of_user hu j (List.mem_of_mem_tail hj)
    · rfl

include u

theorem Handled.undisturbed : Handled w' where
  handled := by
    intro t tests r hj
    rw [u.binding]
    cases u.origin hj with
    | kept h => exact d.handled h
    -- the handler checks the record that stands for the thread, which is what is claimed of it
    | handler _ _ h =>
      rcases List.mem_append.mp h with h | h
      · exact handlerCode_record h rfl
      · simp at h
    | call c _ _ h => exact absurd rfl ((c.code_calls h).1 tests r)
    | mourn s b h => cases h
  leaving := by
    intro t s r hj
    rw [u.binding]
    cases u.origin hj with
    | kept h => exact d.leaving h
    | handler _ _ h => cases List.all_eq_true.mp handler_nested _ h
    | call c _ _ h => exact absurd rfl ((c.code_calls h).2 s r)
    | mourn s' b h => cases h
  prompt t := by
    rcases u.code t with hc | hc
    · rw [hc]
      exact d.prompt t
    · by_cases hi : e = .interrupt t
      · subst hi
        generalize w'.codeOf t = code at hc
        cases hc with
        | interrupt =>
          have hnested {j} (hj : j ∈ w.handlerCode t ++ [Instr.guard (.setMask false)]) :=
            List.all_eq_true.mp handler_nested j hj
          refine List.pairwise_append.mpr ⟨?_, d.prompt t, fun a ha b _ _ => ?_⟩
          · exact prompt_of_unbare fun j hj => not_bare_of_nested (hnested hj)
          · simp [Instr.isAnte, hnested ha]
      · exact prompt_of_unbare (d.unbare_of_takes hc hi)

end Undisturbed

theorem Reachable.handled (h : Reachable n w) : Handled w := by
  refine h.induct (handled_initial n) ?_
  intro w e hw d
  rcases w.step_cases e with ⟨t, i, rest, _, hc, _, hs⟩ | u
  · rw [hs]
    exact ⟨d.handled_proceed (hw.orderly t) hc, d.leaving_proceed (hw.orderly t) hc,
      d.prompt_proceed hc⟩
  · exact d.undisturbed u

/-! Levels under guards. -/

/-- The instruction sets no level, makes no record stand for its thread and unblocks the stop signal
for no longer than it was blocked. -/
def Instr.isSteady : Instr → Bool
  | .guard (.mask _) | .guard (.setMask _) | .guard (.setPhase ..) | .guard (.enter ..)
  | .guard .leave => true
  | .guard _ => false
  | .member (.bind _) | .member (.detachRaise ..) | .member (.setLevel ..)
  | .member (.exitRaise ..) => false
  | _ => true

theorem levelOf_run_of_steady (i : Instr) (h : i.isSteady = true) :
    (i.run t w).1.levelOf r = w.levelOf r := by
  cases i with
  | user => rfl
  | sync i =>
    obtain ⟨_, _, he⟩ := i.run_fst (w := w) (t := t)
    rw [Instr.run, he]
    rfl
  | guard i =>
    cases i with
    | mask s =>
      simp only [Instr.run, GuardInstr.run, setMaskFor]
      split <;> rfl
    | setMask b => rfl
    | setPhase b p =>
      simp [Instr.run, GuardInstr.run, levelOf_eq, World.setPhase, ofRecord_modRecord]
    | enter s p =>
      simp only [Instr.run, GuardInstr.run]
      split <;> rfl
    | leave =>
      simp only [Instr.run, GuardInstr.run]
      split
      · simp [levelOf_eq, closeScope, World.setPhase, ofRecord_modRecord]
      · rfl
    | _ => cases h
  | park i => exact i.ofRecord_run (fun _ => rfl) fun _ _ => rfl
  | stop i => exact i.ofRecord_run fun _ _ => rfl
  | pool i => exact ofRecord_congr i.core_run fun _ => rfl
  | member i =>
    apply i.levelOf_run
    cases i <;> first | (cases h; done) | exact fun h => by cases h
  | read i => exact ofRecord_congr i.core_run fun _ => rfl

theorem bindingOf_proceed_of_steady (h : i.isSteady = true)
    (hb : (w.proceed t i rest).bindingOf t' = some r) : w.bindingOf t' = some r := by
  rcases bindingOf_proceed w t t' i rest with hs | ⟨_, hi⟩
  · exact hs.symm.trans hb
  · rw [hi r hb] at h
    cases h

/-- Whoever holds a lock or a guard runs nothing that is not steady, but to open or close the guard. -/
theorem steady_or_guard (hb : i.Bears fs) (hh : ∃ h ∈ i.closes ++ fs, h ≠ .phase) :
    i.isSteady = true ∨ ∃ s, i = .guard (.lower s) := by
  obtain ⟨h, hm, hne⟩ := hh
  -- what is no step of a guard is run only by a thread that holds nothing but phases
  have free (hc : i.closes = []) (hf : i.isFree = false) (hu : i ≠ .user) : False := by
    rw [hc, List.nil_append] at hm
    have hp : i.isFree = true ∨ ∀ h ∈ fs, h = .phase := by
      cases i with
      | user => exact absurd rfl hu
      | _ => exact hb
    rcases hp with hp | hp
    · rw [hf] at hp
      cases hp
    · exact hne (hp h hm)
  cases i with
  | guard g =>
    cases g with
    | lower s => exact Or.inr ⟨s, rfl⟩
    | mask | setMask | setPhase | enter | leave => exact Or.inl rfl
    | _ => exact False.elim (free rfl rfl (fun h => by cases h))
  | member g =>
    cases g with
    | bind | detachRaise | setLevel | exitRaise => exact False.elim (free rfl rfl (fun h => by cases h))
    | _ => exact Or.inl rfl
  | _ => exact Or.inl rfl

theorem steady_of_lock (hb : i.Bears fs) (hl : .lock l ∈ i.closes ++ fs) : i.isSteady = true := by
  rcases steady_or_guard hb ⟨_, hl, fun h => by cases h⟩ with h | ⟨s, rfl⟩
  · exact h
  · have hp : ∀ h ∈ fs, h = .phase := by
      rcases hb with hb | hb
      · cases hb
      · exact hb
    rcases List.mem_cons.mp hl with hl | hl
    · cases hl
    · cases hp _ hl

/-- Every record that stands for a thread does so in the one service that there is. -/
theorem selfIn_of_binding (f : Uniform w) (c : Custody w) (hs : s < w.services.length)
    (hb : w.bindingOf t = some r) : w.selfIn t s = some r := by
  have hr : r < w.records.length := lt_of_ownerOf (c.bound hb)
  obtain ⟨s', hh⟩ := Option.isSome_iff_exists.mp (homeOf_isSome.mpr hr)
  have hs' := f.homes hh
  have h1 := f.single
  have h0 : s = 0 := Nat.lt_one_iff.mp (Nat.lt_of_lt_of_le hs h1)
  have h0' : s' = 0 := Nat.lt_one_iff.mp (Nat.lt_of_lt_of_le hs' h1)
  rw [h0'] at hh
  rw [h0]
  exact selfIn_eq_some.mpr ⟨hb, hh⟩

theorem levelOf_proceed_raise {level : Level} (hr : r < w.records.length)
    (hs : w.selfIn t s = some r) :
    (w.proceed t (.guard (.raise s level)) rest).levelOf r = level := by
  have hl : (w.proceed t (.guard (.raise s level)) rest).levelOf r =
      ((GuardInstr.raise s level).run t (w.setCode t rest)).1.levelOf r := rfl
  have hr' : r < (w.setCode t rest).records.length := hr
  rw [hl]
  simp [GuardInstr.run, selfIn_setCode, hs, levelOf_eq, World.setLevel, openScope,
    ofRecord_modRecord, ofRecord_const, hr']

theorem bindingOf_proceed_raise {level : Level} :
    (w.proceed t (.guard (.raise s level)) rest).bindingOf t' = w.bindingOf t' := by
  have hb : (w.setCode t rest).bindingOf t' = w.bindingOf t' := ofThread_setCode fun _ _ => rfl
  have hp : (w.proceed t (.guard (.raise s level)) rest).bindingOf t' =
      ((GuardInstr.raise s level).run t (w.setCode t rest)).1.bindingOf t' :=
    ofThread_push (fun _ _ => rfl) _
  rw [hp, ← hb]
  exact GuardInstr.ofThread_run _ (fun _ => rfl) (fun _ _ => rfl) fun _ _ => rfl

theorem guard_of_leaves (hi : ∀ s level, i ≠ .guard (.raise s level)) (h : .guard ∈ i.leaves) :
    .guard ∈ i.closes := by
  cases i with
  | sync k =>
    cases k with
    | notifyAll q => cases q <;> simp [Instr.leaves, SyncInstr.leaves] at h
    | _ => simp [Instr.leaves, SyncInstr.leaves] at h
  | guard k =>
    cases k with
    | raise s level => exact absurd rfl (hi s level)
    | _ => simp [Instr.leaves, GuardInstr.opens] at h
  | _ => exact h

/-- As long as a guard is open, the level of the record that stands for the thread is raised. -/
theorem Alone.guarded (hw : Alone n w) :
    ∀ {t r}, w.bindingOf t = some r → .guard ∈ w.kindsOf t → w.levelOf r ≠ .noBlock := by
  refine hw.induct (P := fun w => ∀ {t r}, w.bindingOf t = some r → .guard ∈ w.kindsOf t →
    w.levelOf r ≠ .noBlock) ?_ ?_
  · intro t r hb _
    rw [bindingOf_initial] at hb
    cases hb
  · intro w e hw _ _ hg t r hb hk
    have hreach := hw.reachable
    rcases w.step_cases e with ⟨q, i, rest, _, hc, hr, hs⟩ | u
    · rw [hs] at hb hk ⊢
      by_cases ht : t = q
      · subst ht
        obtain ⟨hs', hkeeps⟩ := hreach.keeping.keeps t
        have hcode := hkeeps.code
        rw [hc] at hcode
        obtain ⟨fs, rfl, hbears, hfit⟩ := hcode
        have hu : i ≠ .user := by
          rintro rfl
          cases hr
        have hnew := hkeeps.proceed hc hu hbears hfit
        rw [hnew.scopes] at hk
        obtain ⟨x, hx, hxg⟩ := List.mem_filterMap.mp hk
        obtain rfl : x = .guard := by cases x <;> simp_all [Hold.scope?]
        -- the guard has just been opened, or it was open before and is not closed by this step
        by_cases hraise : ∃ s level, i = .guard (.raise s level)
        · obtain ⟨s, level, rfl⟩ := hraise
          have hown := hreach.custody.bound (bindingOf_proceed_raise ▸ hb)
          have hs := selfIn_of_binding hw.uniform hreach.custody
            (hw.uniform.placed (hc ▸ List.mem_cons_self) rfl) (bindingOf_proceed_raise ▸ hb)
          rw [levelOf_proceed_raise (lt_of_ownerOf hown) hs]
          have hsober := hreach.parkLoop.sober (hc ▸ List.mem_cons_self)
          simpa [Instr.isSober, Instr.notedPhase?] using hsober
        · have hx' : .guard ∈ i.closes ++ fs := by
            rcases List.mem_append.mp hx with hx | hx
            · exact List.mem_append_left _
                (guard_of_leaves (fun s level he => hraise ⟨s, level, he⟩) hx)
            · exact List.mem_append_right _ hx
          rcases steady_or_guard hbears ⟨_, hx', fun h => by cases h⟩ with hst | ⟨s, rfl⟩
          · have hl : (w.proceed t i rest).levelOf r = w.levelOf r :=
              levelOf_run_of_steady (w := w.setCode t rest) i hst
            rw [hl]
            refine hg (bindingOf_proceed_of_steady hst hb) ?_
            rw [hkeeps.scopes]
            exact List.mem_filterMap.mpr ⟨_, hx', rfl⟩
          · rcases hbears with hbears | hbears
            · cases hbears
            · cases hbears _ hx
      · rw [bindingOf_proceed_of_ne ht] at hb
        rw [kindsOf_proceed_of_ne hc ht] at hk
        rw [levelOf_proceed_of_not_tends]
        · exact hg hb hk
        · exact hreach.custody.not_tends (hreach.orderly q) hc (hreach.custody.bound hb) ht
    · rw [u.binding] at hb
      have hl : (w.step e).levelOf r = w.levelOf r := u.ofRecord
      rw [kindsOf, u.scopes] at hk
      rw [hl]
      exact hg hb hk

theorem steady_of_ante (h : i.isAnte = true) : i.isSteady = true := by
  cases i with
  | guard k => cases k <;> first | rfl | cases h
  | member => cases h
  | _ => rfl

/-! What keeps a thread that holds a lock from being stopped. -/

/-- The instruction belongs to the handler of the stop signal or to the park loop. -/
def Instr.isOfStop : Instr → Bool
  | .park _ | .guard (.setMask _) => true
  | _ => false

theorem urgent_of_ofStop (h : i.isOfStop = true) : i.isUrgent = true := by
  cases i with
  | park => rfl
  | guard k => cases k <;> first | rfl | cases h
  | _ => cases h

theorem not_ofStop_of_calm (h : ∀ j ∈ code, j.isUrgent = false) : ∀ j ∈ code, j.isOfStop = false := by
  intro j hj
  cases hs : j.isOfStop
  · rfl
  · have hu := urgent_of_ofStop hs
    rw [h j hj] at hu
    cases hu

theorem run_not_ofStop (i : Instr) (hi : i.isSteady = true) (hs : i.isOfStop = false) :
    ∀ j ∈ (i.run t w).2, j.isOfStop = false := by
  cases i with
  | user => simp [Instr.run, Instr.isOfStop]
  | sync i => cases i <;> simp [Instr.run, SyncInstr.run, Instr.isOfStop]
  | guard i =>
    cases i with
    | enter s p =>
      simp only [Instr.run, GuardInstr.run]
      split <;> simp [Instr.isOfStop]
    | leave =>
      simp only [Instr.run, GuardInstr.run]
      split <;> exact fun _ hj => by cases hj
    | mask | setPhase => exact fun _ hj => by cases hj
    | setMask => cases hs
    | _ => cases hi
  | park i => cases hs
  | stop i => exact not_ofStop_of_calm (calm_of_plain i.run_plain)
  | pool i => exact not_ofStop_of_calm (calm_of_plain i.run_plain)
  | read i => exact not_ofStop_of_calm (calm_of_plain i.run_plain)
  | member i =>
    intro j hj
    have hn := List.all_eq_true.mp (i.run_unparked (w := w) (t := t)) j hj
    simp only [Bool.and_eq_true, Bool.not_eq_true'] at hn
    cases j with
    | park => cases hn.2
    | guard k =>
      cases k with
      | setMask => cases hn.2
      | _ => rfl
    | _ => rfl

/-- Outside the handler and the loop nothing steady unblocks the signal. -/
theorem isMasked_run_of_steady (i : Instr) (hi : i.isSteady = true) (hs : i.isOfStop = false)
    (ht : t < w.threads.length) (hm : w.isMasked t = true) : (i.run t w).1.isMasked t = true := by
  cases i with
  | user => exact hm
  | sync i =>
    obtain ⟨_, _, he⟩ := i.run_fst (w := w) (t := t)
    rw [Instr.run, he]
    exact hm
  | guard i =>
    cases i with
    -- blocking the signal where it is blocked changes nothing
    | mask s =>
      simp only [Instr.run, GuardInstr.run, setMaskFor]
      split
      · simp [isMasked, World.setMask, ofThread_modThread, ofThread_const, ht]
      · exact hm
    | setPhase b p => exact hm
    | setMask => cases hs
    | enter s p =>
      simp only [Instr.run, GuardInstr.run]
      split <;> simpa [isMasked, openScope, ofThread_modThread] using hm
    | leave =>
      simp only [Instr.run, GuardInstr.run]
      split <;> simpa [isMasked, closeScope, World.setPhase, ofThread_modThread] using hm
    | _ => cases hi
  | park i => cases hs
  | stop i => exact (i.ofThread_run (fun _ => rfl) fun _ _ => rfl).trans hm
  | pool i => exact (ofThread_congr i.core_run fun _ => rfl).trans hm
  | member i => exact (i.ofThread_run ht (fun _ => rfl) fun _ _ => rfl).trans hm
  | read i => exact (ofThread_congr i.core_run fun _ => rfl).trans hm

/-- The handler of the stop signal will not park thread `t`. -/
inductive Covered (w : World) (t : ThreadId) : Prop
  | raised (h : ∀ r, w.bindingOf t = some r → w.levelOf r ≠ .noBlock)
  | masked (hm : w.isMasked t = true) (h : ∀ j ∈ w.codeOf t, j.isOfStop = false)
  | unsent (h0 : 0 < w.services.length) (h : w.mechanism 0 = .safepoint)

section Proceed

variable (h : w.codeOf t = i :: rest)
include h

theorem Covered.proceed (v : Covered w t) (hi : i.isSteady = true) :
    Covered (w.proceed t i rest) t := by
  cases v with
  | raised hl =>
    refine .raised fun r hb => ?_
    have hs : (w.proceed t i rest).levelOf r = w.levelOf r :=
      levelOf_run_of_steady (w := w.setCode t rest) i hi
    rw [hs]
    exact hl r (bindingOf_proceed_of_steady hi hb)
  | masked hm hc =>
    rw [h] at hc
    obtain ⟨hs, hc⟩ := List.forall_mem_cons.mp hc
    refine .masked ?_ ?_
    · rw [isMasked_proceed]
      apply isMasked_run_of_steady i hi hs
      · rw [threads_length_setCode]
        exact lt_of_head h
      · rw [isMasked_setCode, hm]
    · rw [codeOf_proceed h]
      intro j hj
      rcases List.mem_append.mp hj with hj | hj
      · exact run_not_ofStop i hi hs j hj
      · exact hc j hj
  | unsent h0 hm =>
    exact .unsent (Nat.lt_of_lt_of_le h0 services_length_proceed) ((mechanism_proceed h0).trans hm)

theorem Covered.proceed_of_ne (v : Covered w t') (c : Custody w) (ho : Orderly (w.codeOf t))
    (ht : t' ≠ t) (hlt : t' < w.threads.length) : Covered (w.proceed t i rest) t' := by
  cases v with
  | raised hl =>
    refine .raised fun r hb => ?_
    rw [bindingOf_proceed_of_ne ht] at hb
    rw [levelOf_proceed_of_not_tends (c.not_tends ho h (c.bound hb) ht)]
    exact hl r hb
  | masked hm hc =>
    refine .masked ?_ ?_
    · rw [isMasked_proceed, isMasked_run_of_ne i ht (by rwa [threads_length_setCode]),
        isMasked_setCode, hm]
    · rwa [codeOf_proceed_of_ne h ht hlt]
  | unsent h0 hm =>
    exact .unsent (Nat.lt_of_lt_of_le h0 services_length_proceed) ((mechanism_proceed h0).trans hm)

end Proceed

/-- A covered thread stays so under events that run no instruction, but for calls. -/
theorem Covered.undisturbed (v : Covered w t) (u : Undisturbed w e w')
    (hc : w'.codeOf t = w.codeOf t ∨ w.canInterrupt t = true) : Covered w' t := by
  cases v with
  | raised hl =>
    refine .raised fun r hb => ?_
    have hs : w'.levelOf r = w.levelOf r := u.ofRecord
    rw [hs]
    exact hl r (u.binding t ▸ hb)
  | masked hm hn =>
    have hi : w.canInterrupt t = false := by
      cases hi : w.canInterrupt t
      · rfl
      · rw [(canInterrupt_iff.mp hi).2.1] at hm
        cases hm
    rcases hc with hc | hc
    · refine .masked ?_ (hc ▸ hn)
      rcases u.signals t with ⟨_, hk, _⟩ | ⟨hk, _⟩
      · rw [hk, hm]
      · rw [hi] at hk
        cases hk
    · rw [hi] at hc
      cases hc
  | unsent h0 hm => exact .unsent (u.services ▸ h0) ((mechanism_of_services_eq u.services).trans hm)

/-- No stop comes upon thread `t`: the handler will not park it, nor is the thread past the point at
which the handler would give up. -/
structure Spared (w : World) (t : ThreadId) : Prop where
  covered : Covered w t
  /-- The handler may have begun to look at the record, but not yet at its level. -/
  waiting : ∀ {k}, .park k ∈ w.codeOf t → ∃ tests r, k = .check tests .handler r ∧ .level ∈ tests

section Spared

variable (v : Spared w t) (hw : Alone n w) (h : w.codeOf t = i :: rest)
include v hw h

/-- The handler of a covered thread gives up when it reads the level. -/
theorem Spared.waiting_remainder (hi : i.isSteady = true) (hj : .park k ∈ w.remainder t i rest) :
    ∃ tests r, k = .check tests .handler r ∧ .level ∈ tests := by
  rcases remainder_park hj with ⟨k', rfl, hlead⟩ | ⟨g, m, b, rfl, hg, _⟩ | ⟨s, m, b, rfl, _, _⟩
  · have hk' : .park k' ∈ w.codeOf t := h ▸ List.mem_cons_self
    obtain ⟨tests, r, rfl, hlevel⟩ := v.waiting hk'
    cases hlead with
    | pass x tests _ _ hp =>
      refine ⟨tests, r, rfl, ?_⟩
      rcases List.mem_cons.mp hlevel with rfl | hlevel
      · exfalso
        have hbind := hw.reachable.handled.handled hk'
        have hnone : w.levelOf r = .noBlock := by simpa [passes] using hp
        cases v.covered with
        | raised hr => exact hr r hbind hnone
        | masked _ hn => cases hn _ hk'
        | unsent _ hs =>
          have hhow := (hw.uniform.how hk' rfl).2
          rw [hs] at hhow
          cases hhow
      · exact hlevel
    | save => cases hlevel
  · cases g <;> first | (cases hg; done) | cases hi
  · cases hi

theorem Spared.proceed (hi : i.isSteady = true) : Spared (w.proceed t i rest) t where
  covered := v.covered.proceed h hi
  waiting hk := by
    rw [codeOf_proceed h] at hk
    rcases List.mem_append.mp hk with hk | hk
    · exact v.waiting_remainder hw h hi hk
    · exact v.waiting (h ▸ List.mem_cons_of_mem _ hk)

omit v in
theorem Spared.proceed_of_ne (v : Spared w t') (ht : t' ≠ t) (hlt : t' < w.threads.length) :
    Spared (w.proceed t i rest) t' where
  covered :=
    v.covered.proceed_of_ne h hw.reachable.custody (hw.reachable.orderly t) ht hlt
  waiting hk := v.waiting (codeOf_proceed_of_ne h ht hlt ▸ hk)

end Spared

/-- Only a thread in code of its own can be brought to a place where it may park. -/
theorem Spared.undisturbed (v : Spared w t) (u : Undisturbed w e w') (hu : w.inUser t = false) :
    Spared w' t := by
  have hcode := u.code_of_busy hu
  refine ⟨v.covered.undisturbed u (hcode.imp_right And.left), fun {k} hk => ?_⟩
  rcases hcode with hc | ⟨-, hc⟩ <;> rw [hc] at hk
  · exact v.waiting hk
  · rcases List.mem_append.mp hk with hk | hk
    · rcases List.mem_append.mp hk with hk | hk
      · rw [handlerCode_eq] at hk
        split at hk
        · cases hk
        next b _ =>
          simp only [List.mem_singleton, Instr.park.injEq] at hk
          exact ⟨_, b, hk, by simp⟩
      · simp at hk
    · exact v.waiting hk

/-- Who holds a lock cannot be stopped before it has given it back. -/
structure Unparked (w : World) : Prop where
  /-- A thread that will take the lock of the roster without a guard is covered already. -/
  ahead : ∀ {t}, bareSoon (w.codeOf t) = true → Covered w t
  covered : ∀ {t l}, (l, t) ∈ w.held → l.isPark = false → Covered w t
  /-- The handler may have begun to look at the record, but not yet at its level. -/
  waiting : ∀ {t l k}, (l, t) ∈ w.held → l.isPark = false → .park k ∈ w.codeOf t →
    ∃ tests r, k = .check tests .handler r ∧ .level ∈ tests

theorem unparked_initial (n : Nat) : Unparked (World.initial n) where
  ahead := by
    intro t h
    rcases codeOf_initial n t with hc | hc <;> rw [hc] at h <;> cases h
  covered h := nomatch h
  waiting h := nomatch h

theorem Unparked.spared (v : Unparked w) (h : (l, t) ∈ w.held) (hl : l.isPark = false) :
    Spared w t where
  covered := v.covered h hl
  waiting := v.waiting h hl

theorem mem_held_run (i : Instr) (h : (l, t') ∈ (i.run t w).1.held) :
    (l, t') ∈ w.held ∨ t' = t ∧ i = .sync (.acquire l) := by
  by_cases hi : ∃ j, i = .sync j
  · obtain ⟨j, rfl⟩ := hi
    cases j with
    | acquire b =>
      rcases List.mem_cons.mp h with h | h
      · obtain ⟨rfl, rfl⟩ := Prod.mk.inj h
        exact Or.inr ⟨rfl, rfl⟩
      · exact Or.inl h
    | release b => exact Or.inl (List.mem_of_mem_erase h)
    | wait x b d => exact Or.inl (List.mem_of_mem_erase h)
    | notifyOne x =>
      rw [Instr.run, SyncInstr.run, held_wakeFirst] at h
      exact Or.inl h
    | _ => exact Or.inl h
  · rw [held_run i fun j he => hi ⟨j, he⟩] at h
    exact Or.inl h

theorem lt_of_held (k : Keeping w) (h : (l, t) ∈ w.held) : t < w.threads.length := by
  by_contra hn
  obtain ⟨hs, hk⟩ := k.keeps t
  have hc := hk.code
  rw [codeOf, ofThread_of_le _ _ (Nat.le_of_not_lt hn)] at hc
  obtain rfl : hs = [] := hc
  have hl := mem_locksOf.mpr h
  rw [hk.locks] at hl
  cases hl

section Proceed

variable (v : Unparked w) (hw : Managed n w) (h : w.codeOf t = i :: rest)
include v hw h

omit v in
theorem steady_of_held (hl : (l, t) ∈ w.held) : i.isSteady = true := by
  obtain ⟨hs, hk⟩ := hw.alone.reachable.keeping.keeps t
  have hc := hk.code
  rw [h] at hc
  obtain ⟨fs, rfl, hb, _⟩ := hc
  have hm := mem_locksOf.mpr hl
  rw [hk.locks] at hm
  obtain ⟨x, hx, hxl⟩ := List.mem_filterMap.mp hm
  obtain rfl : x = .lock l := by cases x <;> simp_all [Hold.lock?]
  exact steady_of_lock hb hx

/-- A lock is taken under a guard, or by a thread that is covered for another reason. -/
theorem Unparked.covers_acquire (hi : i = .sync (.acquire l)) (hl : l.isPark = false) :
    Covered w t := by
  subst hi
  obtain ⟨hs, hk⟩ := hw.alone.reachable.keeping.keeps t
  have hc := hk.code
  have hroof := hw.roofed hc
  rw [h] at hroof
  rcases hroof.1 with hp | hg | hb
  · rw [hl] at hp
    cases hp
  · refine .raised fun r hb => hw.alone.guarded hb ?_
    rw [hk.scopes]
    exact List.mem_filterMap.mpr ⟨_, hg, rfl⟩
  · apply v.ahead
    rw [h]
    cases rest with
    | nil => cases hb
    | cons j rest =>
      have hj : j.isBare = true := hb
      cases j with
      | member k => simp [bareSoon, hj]
      | _ => cases hj

theorem Unparked.spared_proceed (hm : (l, t') ∈ (w.proceed t i rest).held)
    (hl : l.isPark = false) : Spared (w.proceed t i rest) t' := by
  rcases mem_held_run (w := w.setCode t rest) i hm with hold | ⟨rfl, hi⟩
  · have hs := v.spared hold hl
    by_cases ht : t' = t
    · subst ht
      exact hs.proceed hw.alone h (steady_of_held hw h hold)
    · exact hs.proceed_of_ne hw.alone h ht (lt_of_held hw.alone.reachable.keeping hold)
  · refine ⟨(v.covers_acquire hw h hi hl).proceed h (by rw [hi]; rfl), fun {k} hk => ?_⟩
    -- nothing lies under the taking of a lock that belongs to the handler or the loop
    exfalso
    subst hi
    rw [codeOf_proceed h] at hk
    refine not_mem_rest (hw.alone.reachable.orderly t') h rfl ?_ hk
    cases l <;> first | rfl | cases hl

omit v hw h in
theorem bindingOf_proceed_of_other (hi : ∀ r, i ≠ .member (.bind r))
    (hb : (w.proceed t i rest).bindingOf t' = some r) : w.bindingOf t' = some r := by
  rcases bindingOf_proceed w t t' i rest with hs | ⟨_, hn⟩
  · exact hs.symm.trans hb
  · exact absurd (hn r hb) (hi r)

omit v hw h in
/-- A thread for which no record stands is covered. -/
theorem covered_of_unbound (hi : ∀ r, i ≠ .member (.bind r)) (hb : w.bindingOf t = none) :
    Covered (w.proceed t i rest) t := by
  refine .raised fun r hr => ?_
  rw [bindingOf_proceed_of_other hi hr] at hb
  cases hb

omit v in
theorem covered_of_establish {x : Settings} (hi : i = .member (.establish x))
    (h1 : (w.proceed t i rest).services.length ≤ 1) : Covered (w.proceed t i rest) t := by
  subst hi
  rw [services_length_establish] at h1
  refine covered_of_unbound (fun _ h => by cases h) ?_
  cases hb : w.bindingOf t with
  | none => rfl
  | some r =>
    have hr : r < w.records.length := lt_of_ownerOf (hw.alone.reachable.custody.bound hb)
    obtain ⟨s, hh⟩ := Option.isSome_iff_exists.mp (homeOf_isSome.mpr hr)
    have hs := hw.alone.uniform.homes hh
    have h0 : w.services.length = 0 := Nat.le_zero.mp (Nat.le_of_succ_le_succ h1)
    rw [h0] at hs
    cases hs

omit v in
theorem covered_of_attach {name : String} (hi : i = .member (.attach s name))
    (hr : bareSoon (w.remainder t i rest) = true) : Covered (w.proceed t i rest) t := by
  subst hi
  refine covered_of_unbound (fun _ h => by cases h) ?_
  cases hb : w.bindingOf t with
  | none => rfl
  | some r =>
    have hs := selfIn_of_binding hw.alone.uniform hw.alone.reachable.custody
      (hw.alone.uniform.placed (h ▸ List.mem_cons_self) rfl) hb
    simp only [remainder, Instr.run, MemberInstr.run, selfIn_setCode, hs] at hr
    split at hr <;> cases hr

omit v in
theorem covered_of_detachRaise (hi : i = .member (.detachRaise s r)) :
    Covered (w.proceed t i rest) t := by
  subst hi
  have hb := hw.alone.reachable.handled.leaving (h ▸ List.mem_cons_self)
  have hr := lt_of_ownerOf (hw.alone.reachable.custody.bound hb)
  refine .raised fun b hb' => ?_
  have hsame := bindingOf_proceed_of_other (i := .member (.detachRaise s r)) (fun _ h => by cases h) hb'
  rw [hb] at hsame
  obtain rfl := Option.some.inj hsame
  have hl : (w.proceed t (.member (.detachRaise s r)) rest).levelOf r =
      ((w.setCode t rest).setLevel r .critical).levelOf r := rfl
  rw [hl, levelOf_setLevel, if_pos (show r < (w.setCode t rest).records.length from hr)]
  exact fun h => by cases h

omit v in
/-- A thread that leaves does so masked or with its level raised, unless it leaves on a record that
stands for it no longer. -/
theorem covered_of_exitRaise (hi : i = .member (.exitRaise s r)) (hstale : w.leavesStale t = false)
    (hr : bareSoon (w.remainder t i rest) = true) : Covered (w.proceed t i rest) t := by
  subst hi
  have hreach := hw.alone.reachable
  have hl : w.levelOf r = .blocking := by
    have hs : (w.setCode t rest).levelOf r = w.levelOf r := rfl
    by_contra hn
    simp [remainder, Instr.run, MemberInstr.run, hs, hn, bareSoon] at hr
  have hlevel (b : RecordId) : (w.proceed t (.member (.exitRaise s r)) rest).levelOf b =
      ((w.setCode t rest).setLevel r .blocking).levelOf b := rfl
  -- if its own record is not raised, the mask or the mechanism keeps the signal away
  by_cases hraised : ∀ b, w.bindingOf t = some b → w.levelOf b ≠ .noBlock
  · refine .raised fun b hb => ?_
    have hb' := bindingOf_proceed_of_other (i := .member (.exitRaise s r)) (fun _ h => by cases h) hb
    rw [hlevel]
    by_cases hbr : b = r
    · subst hbr
      have hlt : b < (w.setCode t rest).records.length := lt_of_ownerOf (hreach.custody.bound hb')
      rw [levelOf_setLevel, if_pos hlt]
      exact fun h => by cases h
    · rw [levelOf_setLevel_of_ne _ hbr]
      exact hraised b hb'
  · push Not at hraised
    obtain ⟨b, hb, hn⟩ := hraised
    cases hm : w.isMasked t
    · have hs : w.mechanism s = .safepoint := by
        cases hs : w.mechanism s
        · simp [leavesStale, h, hl, hm, hs, hb, hn] at hstale
        · rfl
      have h0 := hw.alone.uniform.placed (h ▸ List.mem_cons_self) rfl
      obtain rfl := hw.alone.uniform.service_eq_zero h rfl
      exact .unsent (Nat.lt_of_lt_of_le h0 services_length_proceed)
        ((mechanism_proceed h0).trans hs)
    · refine .masked ?_ ?_
      · have hlt : t < (w.setCode t rest).threads.length := by
          rw [threads_length_setCode]
          exact lt_of_head h
        have hk : ((MemberInstr.exitRaise s r).run t (w.setCode t rest)).1.isMasked t =
            (w.setCode t rest).isMasked t :=
          MemberInstr.ofThread_run _ hlt (fun _ => rfl) fun _ _ => rfl
        rw [isMasked_proceed, Instr.run, hk, isMasked_setCode, hm]
      · rw [codeOf_proceed h]
        intro j hj
        rcases List.mem_append.mp hj with hj | hj
        · have hs : (w.setCode t rest).levelOf r = .blocking := hl
          simp only [remainder, Instr.run, MemberInstr.run, hs, if_true, List.nil_append,
            List.mem_cons, List.not_mem_nil, or_false] at hj
          rcases hj with rfl | rfl <;> rfl
        · have ho := hreach.orderly t
          rw [h] at ho
          exact not_ofStop_of_calm (ho.calm rfl) j hj

omit v in
theorem covered_of_mask (hi : i = .guard (.mask s)) : Covered (w.proceed t i rest) t := by
  subst hi
  have h0 := hw.alone.uniform.placed (h ▸ List.mem_cons_self) rfl
  obtain rfl := hw.alone.uniform.service_eq_zero h rfl
  have hm : (w.setCode t rest).mechanism 0 = w.mechanism 0 := rfl
  cases hs : w.mechanism 0
  · refine .masked ?_ ?_
    · have hlt : t < (w.setCode t rest).threads.length := by
        rw [threads_length_setCode]
        exact lt_of_head h
      rw [isMasked_proceed]
      simp [Instr.run, GuardInstr.run, setMaskFor, hm, hs, isMasked, World.setMask,
        ofThread_modThread, ofThread_const, hlt]
    · have ho := hw.alone.reachable.orderly t
      rw [h] at ho
      rw [codeOf_proceed h]
      exact not_ofStop_of_calm (ho.calm rfl)
  · exact .unsent (Nat.lt_of_lt_of_le h0 services_length_proceed) ((mechanism_proceed h0).trans hs)

/-- A thread that is to take the lock of the roster without a guard has made sure that it is covered,
or will block the signal before. -/
theorem Unparked.ahead_proceed (hstale : w.leavesStale t = false)
    (h1 : (w.proceed t i rest).services.length ≤ 1)
    (hb : bareSoon ((w.proceed t i rest).codeOf t') = true) :
    Covered (w.proceed t i rest) t' := by
  have hreach := hw.alone.reachable
  by_cases ht : t' = t
  · subst ht
    have hp := hreach.handled.prompt t'
    rw [h] at hp
    rw [codeOf_proceed h] at hb
    -- the bare acquisition is ahead since this step, or was ahead before it
    by_cases ha : ∃ k, i = .member k ∧ k.isAbrupt = true
    · have hrest : ∀ j ∈ rest, j.isBare = false := by
        intro j hj
        cases hbare : j.isBare
        · rfl
        · obtain ⟨k, rfl, _⟩ := ha
          cases (List.pairwise_cons.mp hp).1 j hj hbare
      have hnew := bareSoon_of_append hrest hb
      obtain ⟨k, rfl, hk⟩ := ha
      cases k with
      | establish x => exact covered_of_establish hw h rfl h1
      | attach s name => exact covered_of_attach hw h rfl hnew
      | detachRaise s r => exact covered_of_detachRaise hw h rfl
      | exitRaise s r => exact covered_of_exitRaise hw h rfl hstale hnew
      | _ => cases hk
    · have hnew : ∀ j ∈ w.remainder t' i rest, j.isBare = false := by
        intro j hj
        cases hbare : j.isBare
        · rfl
        · exact absurd (run_bare i hj hbare) ha
      have hrest := bareSoon_append hnew hb
      obtain ⟨j, hj, hbare⟩ := mem_of_bareSoon hrest
      have hante := (List.pairwise_cons.mp hp).1 j hj hbare
      by_cases hmask : ∃ s, i = .guard (.mask s)
      · obtain ⟨s, rfl⟩ := hmask
        exact covered_of_mask hw h rfl
      · refine (v.ahead ?_).proceed h (steady_of_ante hante)
        rw [h, bareSoon_cons fun s he => hmask ⟨s, he⟩, hrest, Bool.or_true]
  · by_cases hlt : t' < w.threads.length
    · rw [codeOf_proceed_of_ne h ht hlt] at hb
      exact (v.ahead hb).proceed_of_ne h hreach.custody (hreach.orderly t) ht hlt
    · rcases thread_proceed_of_le h (Nat.le_of_not_lt hlt) with hl | ⟨s, r, _, _, hx⟩
      · rw [codeOf, ofThread_of_le _ _ hl] at hb
        cases hb
      · simp only [codeOf, ofThread, hx] at hb
        cases hb

end Proceed

theorem not_held_of_user (k : Keeping w) (hu : w.inUser t = true) : (l, t) ∉ w.held := by
  intro hl
  obtain ⟨hs, hk⟩ := k.keeps t
  obtain rfl := holds_nothing hu hk.code
  have hm := mem_locksOf.mpr hl
  rw [hk.locks] at hm
  cases hm

theorem inUser_of_held (k : Keeping w) (hl : (l, t) ∈ w.held) : w.inUser t = false :=
  Bool.eq_false_iff.mpr fun hu => not_held_of_user k hu hl

theorem World.Takes.interrupt_or_user (h : Takes w t e code) :
    e = .interrupt t ∧ w.canInterrupt t = true ∧
      code = w.handlerCode t ++ [.guard (.setMask false)] ++ w.codeOf t ∨ w.inUser t = true := by
  cases h with
  | interrupt hi => exact Or.inl ⟨rfl, hi, rfl⟩
  | invoke c hu => exact Or.inr hu
  | finish p hu => exact Or.inr hu

section Undisturbed

variable (v : Unparked w) (d : Handled w) (hk : Keeping w) (u : Undisturbed w e w')
include v d hk u

theorem Unparked.undisturbed : Unparked w' where
  ahead := by
    intro t hb
    rcases u.code t with hc | hc
    · exact (v.ahead (hc ▸ hb)).undisturbed u (Or.inl hc)
    · by_cases he : e = .interrupt t
      · rcases hc.interrupt_or_user with ⟨_, hi, hcode⟩ | hu
        · rw [hcode] at hb
          have hold := bareSoon_append
            (fun j hj => not_bare_of_nested (List.all_eq_true.mp handler_nested j hj)) hb
          exact (v.ahead hold).undisturbed u (Or.inr hi)
        · subst he
          generalize w'.codeOf t = code at hc hb
          cases hc with
          | interrupt hi =>
            rw [inUser_iff] at hu
            exact absurd ⟨(canInterrupt_iff.mp hi).1, (canInterrupt_iff.mp hi).2.1⟩ hu.2
      · obtain ⟨j, hj, hbare⟩ := mem_of_bareSoon hb
        rw [d.unbare_of_takes hc he j hj] at hbare
        cases hbare
  covered hl hp := by
    rw [u.held] at hl
    exact ((v.spared hl hp).undisturbed u (inUser_of_held hk hl)).covered
  waiting hl hp hx := by
    rw [u.held] at hl
    exact ((v.spared hl hp).undisturbed u (inUser_of_held hk hl)).waiting hx

end Undisturbed

theorem Managed.unparked (hw : Managed n w) : Unparked w := by
  refine hw.induct (unparked_initial n) ?_
  intro w e hw _ _ htime h1 v
  have hreach := hw.alone.reachable
  rcases w.step_cases e with ⟨t, i, rest, he, hc, _, hs⟩ | u
  · subst he
    have hstale : w.leavesStale t = false := by simpa [Event.isTimely] using htime
    rw [hs] at h1 ⊢
    exact ⟨v.ahead_proceed hw hc hstale h1, fun hm hl => (v.spared_proceed hw hc hm hl).covered,
      fun hm hl => (v.spared_proceed hw hc hm hl).waiting⟩
  · exact v.undisturbed hreach.handled hreach.keeping u

/-- Thread `t` is in its park loop, past all that it looks at before. -/
def InPark (w : World) (t : ThreadId) : Prop :=
  ∃ k, .park k ∈ w.codeOf t ∧ ∀ tests entry r, k ≠ .check tests entry r

theorem Spared.not_inPark (v : Spared w t) : ¬InPark w t := by
  rintro ⟨k, hk, hn⟩
  obtain ⟨tests, r, rfl, _⟩ := v.waiting hk
  exact hn _ _ _ rfl

theorem not_inPark_of_held (hw : Managed n w) (hl : (l, t) ∈ w.held) (hp : l.isPark = false) :
    ¬InPark w t := by
  rintro ⟨k, hk, hn⟩
  obtain ⟨tests, r, rfl, _⟩ := hw.unparked.waiting hl hp hk
  exact hn _ _ _ rfl

/-- The first thread stops all others; the second has a request and takes the stop signal, but under
a guard and with the lock of the roster in its hand. -/
def interruptedCensus : List Event :=
  .invoke 0 (.establish { mechanism := .signal }) :: turns 0 5 ++
    .invoke 1 (.attach 0 "late") :: turns 1 5 ++
    .invoke 0 (.suspendAll 0) :: turns 0 6 ++ .invoke 1 (.census 0) :: turns 1 1 ++ turns 0 6 ++
    turns 1 1 ++ .interrupt 1 :: turns 1 1

theorem interrupted_census_not_inPark :
    (.roster 0, 1) ∈ ((World.initial 2).run interruptedCensus).held ∧
      ((World.initial 2).run interruptedCensus).isRequested 1 = true ∧
      ¬InPark ((World.initial 2).run interruptedCensus) 1 := by
  have hw : Managed 2 ((World.initial 2).run interruptedCensus) :=
    ⟨interruptedCensus, by decide +kernel, rfl, by decide +kernel⟩
  have hl : (.roster 0, 1) ∈ ((World.initial 2).run interruptedCensus).held := by decide +kernel
  exact ⟨hl, by decide +kernel, not_inPark_of_held hw hl rfl⟩

/-- A thread of the service raises its level, detaches and attaches itself anew, and a call of its
own unblocks the stop signal. When its code ends it leaves under its first record, whose level is
raised still, so it does not block the signal; a suspending thread stops it at that moment. -/
def staleLeaver : List Event :=
  .invoke 0 (.establish { mechanism := .signal }) :: turns 0 5 ++
    .invoke 0 (.spawn 0 {}) :: turns 0 9 ++ turns 1 18 ++ turns 0 8 ++
    .invoke 1 (.disableSuspend 0) :: turns 1 2 ++ .invoke 1 (.detach 0) :: turns 1 9 ++
    .invoke 1 (.attach 0 "again") :: turns 1 5 ++ .invoke 1 (.sleep 0 0) :: turns 1 13 ++
    .finish 1 false :: .invoke 0 (.suspend 0 3) :: turns 0 9 ++
    turns 1 2 ++ .interrupt 1 :: turns 1 8

/-- Without the condition on leaving a thread can be parked with the lock of the roster in its hand,
though all calls are made through the one service. -/
theorem parked_under_roster_lock :
    (World.initial 1).admits staleLeaver = true ∧ staleLeaver.all Event.isManaged = true ∧
      ((World.initial 1).run staleLeaver).services.length = 1 ∧
      (.roster 0, 1) ∈ ((World.initial 1).run staleLeaver).held ∧
      InPark ((World.initial 1).run staleLeaver) 1 := by
  refine ⟨by decide +kernel, by decide +kernel, by decide +kernel, by decide +kernel,
    .testRequest ⟨.signal, 2, .running⟩, ?_, fun _ _ _ h => by cases h⟩
  have hc : ((World.initial 1).run staleLeaver).codeOf 1 =
      [.park (.testRequest ⟨.signal, 2, .running⟩), .guard (.setMask false),
        .member (.exitRemove 0 1)] := by decide +kernel
  rw [hc]
  exact List.mem_cons_self

end Standstill
