import Standstill.Proofs.Noticed
import Standstill.Proofs.StoppedWorld
import Standstill.Schedule

/-!
A thread that stops another. It looks the record up and raises its request under one hold of the
roster's lock, so that the record stands in the roster when it is asked to stop; then it waits, and
goes round for as long as it reads the same epoch, no suspended phase, the request and the level
`noBlock`.
-/
namespace Standstill

open World

variable {n : Nat} {w w' : World} {t t' q : ThreadId} {s : ServiceId} {r : RecordId} {i j : Instr}
  {code rest : List Instr} {e : Event} {es : List Event}

/-! What stands above an instruction of some kind in a thread's code. -/

/-- Above an instruction of kind `p` there stand only such of kind `q`. -/
def Topped (p q : Instr → Bool) (code : List Instr) : Prop :=
  code.Pairwise fun i j => p j = true → q i = true

/-- Why only instructions of kind `q` come to stand above those of kind `p`. -/
structure Tops (p q : Instr → Bool) : Prop where
  run : ∀ w t i, Topped p q (Instr.run t w i).2
  /-- What is above leaves nothing of another kind to do. -/
  above : ∀ w t i, q i = true → (Instr.run t w i).2.all q = true
  nested : ∀ i, i.isNested = true → q i = true ∧ p i = false
  user : q .user = false ∧ p .user = false
  mourn : ∀ s r, p (.member (.mourn s r)) = false
  call : ∀ w t (c : Call), ∀ j ∈ c.code w t, p j = false
  thread : ∀ s r, ∀ j ∈ threadCode s r, p j = false

section Topped

variable {p q : Instr → Bool}

theorem topped_of_none (h : ∀ j ∈ code, ¬p j = true) : Topped p q code :=
  List.pairwise_of_forall_mem_list fun _ _ j hj hp => absurd hp (h j hj)

theorem Topped.above {top : List Instr} (h : Topped p q (top ++ j :: rest)) (hj : p j = true) :
    top.all q = true :=
  List.all_eq_true.mpr fun i hi =>
    (List.pairwise_append.mp h).2.2 i hi j List.mem_cons_self hj

theorem Topped.head (h : Topped p q (i :: rest)) (hj : j ∈ rest) (hp : p j = true) :
    q i = true :=
  (List.pairwise_cons.mp h).1 j hj hp

theorem Tops.proceed (d : Tops p q) (h : w.codeOf t = i :: rest)
    (ho : ∀ t, Topped p q (w.codeOf t)) : Topped p q ((w.proceed t i rest).codeOf t') := by
  refine codeOf_proceed_cases h ?_ (ho t') List.Pairwise.nil ?_
  · have hi := ho t
    rw [h] at hi
    refine List.pairwise_append.mpr ⟨d.run _ _ _, (List.pairwise_cons.mp hi).2, ?_⟩
    intro a ha j hj hp
    exact List.all_eq_true.mp (d.above _ _ _ (hi.head hj hp)) a ha
  · intro s r
    exact topped_of_none fun j hj hp => by
      rw [d.thread s r j hj] at hp
      cases hp

theorem Tops.takes (d : Tops p q) (h : Takes w t e code) (ho : Topped p q (w.codeOf t)) :
    Topped p q code := by
  obtain ⟨new, old, rfl, hs, hnew⟩ := h.split
  have none : ∀ j ∈ new, ¬p j = true := by
    intro j hj hp
    have hn : p j = false := by
      rcases hnew with ⟨hn, -⟩ | ⟨-, hc⟩
      · exact (d.nested j (List.all_eq_true.mp hn j hj)).2
      · rcases hc j hj with ⟨c, -, hj⟩ | ⟨s, r, rfl⟩
        · exact d.call w t c j hj
        · exact d.mourn s r
    rw [hn] at hp
    cases hp
  refine List.pairwise_append.mpr ⟨topped_of_none none, ho.sublist hs.sublist, ?_⟩
  intro a ha j hj hp
  rcases hnew with ⟨hn, -⟩ | ⟨hu, -⟩
  · exact (d.nested a (List.all_eq_true.mp hn a ha)).1
  -- the new code goes on top of the thread's own, and below that nothing is marked
  · obtain ⟨below, hc⟩ := head_user hu
    rw [hc] at ho hs
    rcases List.mem_cons.mp (hs.subset hj) with rfl | hj
    · rw [d.user.2] at hp
      cases hp
    · have hq := ho.head hj hp
      rw [d.user.1] at hq
      cases hq

theorem Tops.reachable (d : Tops p q) (hw : Reachable n w) (t : ThreadId) :
    Topped p q (w.codeOf t) := by
  revert t
  refine hw.induct (P := fun w => ∀ t, Topped p q (w.codeOf t)) ?_ ?_
  · intro t
    rcases codeOf_initial n t with h | h <;> rw [h]
    · exact List.pairwise_singleton _ _
    · exact List.Pairwise.nil
  · intro w e _ ho t'
    rcases w.step_cases e with ⟨t, i, rest, _, hc, _, hs⟩ | hu
    · rw [hs]
      exact d.proceed hc ho
    · rcases hu.code t' with hc | hc
      · rw [hc]
        exact ho t'
      · exact d.takes hc (ho t')

end Topped

/-! Whoever is about to raise a request has found the record in the roster, and holds its lock. -/

namespace Instr

/-- A thread that has found record `r` in the roster of service `s` is about to raise its request. -/
def hunts? : Instr → Option (ServiceId × RecordId)
  | .stop (.readEpoch s r) | .stop (.request s r _) => some (s, r)
  | _ => none

end Instr

/-- A hunt is taken up by looking the record up, and all else waits until it is over. -/
theorem hunts_of_run (i : Instr) (hj : j ∈ (i.run t w).2) (hs : j.hunts? = some (s, r)) :
    (i.run t w).2 = [j] ∧
      (i.hunts? = some (s, r) ∨ ∃ h, i = .stop (.suspendFind s h) ∧ (w.roster s).lookup h = some r) := by
  obtain ⟨k, rfl⟩ : ∃ k, j = .stop k := by
    cases j with
    | stop k => exact ⟨k, rfl⟩
    | _ => cases hs
  obtain ⟨m, rfl⟩ := isStop_of_run i hj
  cases m.leads_of_run hj with
  | readEpoch b h x hx =>
    cases hs
    refine ⟨?_, Or.inr ⟨h, rfl, hx⟩⟩
    simp only [Instr.run, StopInstr.run, hx]
  | request b x c hc =>
    cases hs
    refine ⟨?_, Or.inl rfl⟩
    simp only [Instr.run, StopInstr.run, hc]
  | _ => cases hs

theorem aims_of_hunts (h : j.hunts? = some (s, r)) : j.aims? = some r := by
  cases j with
  | stop k => cases k <;> first | (cases h; rfl) | cases h
  | _ => cases h

/-- On top of a hunt there is nothing but what a handler does. -/
theorem tops_hunts : Tops (·.hunts?.isSome) Instr.isNested where
  run w t i := by
    by_cases h : ∃ j ∈ (i.run t w).2, j.hunts? ≠ none
    · obtain ⟨j, hj, hn⟩ := h
      obtain ⟨x, hx⟩ := Option.ne_none_iff_exists'.mp hn
      rw [(hunts_of_run i hj hx).1]
      exact List.pairwise_singleton _ _
    · exact topped_of_none fun j hj hn => h ⟨j, hj, fun hx => by simp [hx] at hn⟩
  above _ _ _ h := run_nested h
  nested i h := by
    refine ⟨h, ?_⟩
    cases i with
    | stop k => cases h
    | _ => rfl
  user := ⟨rfl, rfl⟩
  mourn _ _ := rfl
  call w t c j hj := by
    cases hs : j.hunts? with
    | none => rfl
    | some x =>
      have ha := aims_of_hunts (s := x.1) (r := x.2) hs
      rw [c.code_aimless j hj] at ha
      cases ha
  thread s r j hj := by
    rw [threadCode_none (f := Instr.hunts?) rfl hj]
    rfl

/-- Whoever hunts a record has the lock of its roster. -/
theorem held_of_hunts (hw : Reachable n w) (hj : j ∈ w.codeOf t)
    (hs : j.hunts? = some (s, r)) : (.roster s, t) ∈ w.held := by
  obtain ⟨top, below, hc⟩ := List.append_of_mem hj
  obtain ⟨hs', hk⟩ := hw.keeping.keeps t
  have hfit := hk.code
  have hf := tops_hunts.reachable hw t
  rw [hc] at hfit hf
  have above := hf.above (by rw [hs]; rfl)
  -- the hunt gives the lock back itself, and a handler on top of it does not
  have hl : Hold.lock (.roster s) ∈ hs' := by
    refine mem_of_fits hfit (fun a ha ho => closes_of_nested (List.all_eq_true.mp above a ha) ho) ?_
    cases j with
    | stop k => cases k <;> first | (cases hs; exact List.mem_cons_self) | cases hs
    | _ => cases hs
  rw [← mem_locksOf, hk.locks]
  exact List.mem_filterMap.mpr ⟨_, hl, rfl⟩

theorem held_of_haltRequest (hw : Reachable n w) (hj : .stop (.haltRequest s r) ∈ w.codeOf t) :
    (.roster s, t) ∈ w.held := by
  refine hw.keeping.held_of_sealed (hw.sealed t) hj List.mem_cons_self fun i hi ho => ?_
  simp only [Instr.lets, StopInstr.lets, Bool.or_eq_true] at hi
  rcases hi with hn | hi
  · exact closes_of_nested hn ho
  · cases i with
    | stop k => cases k <;> first | exact ho | cases hi
    | _ => cases hi

/-- Those whose request is about to be raised stand in the roster. -/
structure Aimed (w : World) : Prop where
  hunted : ∀ {t j s r}, j ∈ w.codeOf t → j.hunts? = some (s, r) → r ∈ w.members s
  halted : ∀ {t s r}, .stop (.haltRequest s r) ∈ w.codeOf t → r ∈ w.members s

theorem aimed_initial (n : Nat) : Aimed (World.initial n) := by
  constructor
  case hunted =>
    intro t j s r hj hs
    rw [eq_user_of_initial hj] at hs
    cases hs
  case halted =>
    intro t s r hj
    cases eq_user_of_initial hj

section Proceed

variable (hw : Lawful n w) (h : w.codeOf t = i :: rest) (hu : i.isReady w t = true)
include hw h

theorem held_of_removes (hi : i.removes? = some (s, r)) : (.roster s, t) ∈ w.held := by
  refine hw.reachable.keeping.held_of_head h ?_
  rcases eq_of_removes hi with ⟨l, rfl⟩ | rfl <;> exact List.mem_cons_self

/-- A record is not taken out while another thread has the lock of the roster. -/
theorem mem_members_of_held (hr : r ∈ w.members s) (hl : (.roster s, t') ∈ w.held)
    (hi : t' = t → i.removes? ≠ some (s, r)) : r ∈ (w.proceed t i rest).members s := by
  rcases hw.rostered.mem_members_of_mem hw h hr with hm | hx
  · exact hm
  · exact absurd hx (hi (hw.reachable.keeping.holder_unique hl (held_of_removes hw h hx)))

variable (d : Aimed w)
include d

theorem Aimed.hunted_proceed (hj : j ∈ (w.proceed t i rest).codeOf t')
    (hs : j.hunts? = some (s, r)) : r ∈ (w.proceed t i rest).members s := by
  have hi : i ∈ w.codeOf t := h ▸ List.mem_cons_self
  have so := hw.reachable.sealed t
  rcases mem_codeOf_step so h hj with ⟨rfl, hj⟩ | ⟨hj, hl⟩ | ⟨b, x, -, -, hj, -⟩
  · have hm : r ∈ w.members s := by
      rcases (hunts_of_run i hj hs).2 with hi' | ⟨k, -, hk⟩
      · exact d.hunted hi hi'
      · obtain ⟨x, hx, rfl⟩ := lookup_mem hk
        exact List.mem_map_of_mem hx
    obtain ⟨k, rfl⟩ : ∃ k, i = .stop k := by
      rcases (hunts_of_run i hj hs).2 with hi' | ⟨k, rfl, -⟩
      · cases i with
        | stop k => exact ⟨k, rfl⟩
        | _ => cases hi'
      · exact ⟨_, rfl⟩
    exact (hw.rostered.mem_members_of_mem hw h hm).resolve_right fun hx => by cases hx
  · -- under the lock of the roster nobody else takes the record out
    refine mem_members_of_held hw h (d.hunted hj hs) (held_of_hunts hw.reachable hj hs)
      fun ht hx => ?_
    have hf := tops_hunts.reachable hw.reachable t
    rw [h] at hf
    have hn := hf.head (hl ht).1 (by rw [hs]; rfl)
    rcases eq_of_removes hx with ⟨l, rfl⟩ | rfl <;> cases hn
  · cases (threadCode_none rfl hj).symm.trans hs

include hu

theorem Aimed.halted_proceed (hj : .stop (.haltRequest s r) ∈ (w.proceed t i rest).codeOf t') :
    r ∈ (w.proceed t i rest).members s := by
  rcases marked_cases (hw.reachable.sealed t) h hu hj rfl with
    ⟨rfl, hb⟩ | ⟨hj, hl⟩ | ⟨b, x, -, -, hj, -⟩
  · cases hb with
    | haltRequest _ _ hr =>
      have hm : r ∈ w.members s := (List.mem_filter.mp hr).1
      exact (hw.rostered.mem_members_of_mem hw h hm).resolve_right fun hx => by cases hx
  · refine mem_members_of_held hw h (d.halted hj) (held_of_haltRequest hw.reachable hj)
      fun ht hx => ?_
    have hl := (hl ht).2
    rcases eq_of_removes hx with ⟨l, rfl⟩ | rfl <;> cases hl
  · simp [threadCode] at hj

theorem Aimed.proceed : Aimed (w.proceed t i rest) where
  hunted := d.hunted_proceed hw h
  halted := d.halted_proceed hw h hu

end Proceed

theorem Aimed.undisturbed (d : Aimed w) (u : Undisturbed w e w') : Aimed w' where
  hunted {t j s r} hj hs := by
    rw [members_of_services_eq u.services]
    refine d.hunted (t := t) ?_ hs
    rcases u.code t with hc | hc
    · exact hc ▸ hj
    · exact hc.aimless hj (by rw [aims_of_hunts hs]; exact Option.some_ne_none r)
  halted hj := by
    rw [members_of_services_eq u.services]
    exact d.halted ((u.mem_iff rfl).mp hj)

theorem Lawful.aimed (hw : Lawful n w) : Aimed w := by
  refine hw.induct (aimed_initial n) ?_
  intro w e hw _ d
  rcases w.step_cases e with ⟨t, i, rest, _, h, hu, hs⟩ | u
  · rw [hs]
    exact d.proceed hw h hu
  · exact d.undisturbed u

theorem Aimed.listed (d : Aimed w) (hj : j ∈ w.codeOf t) (ha : j.aims? = some r) :
    ∃ s, r ∈ w.members s := by
  cases j with
  | stop k =>
    cases k with
    | readEpoch s b | request s b c =>
      cases ha
      exact ⟨s, d.hunted hj rfl⟩
    | haltRequest s b =>
      cases ha
      exact ⟨s, d.halted hj⟩
    | _ => cases ha
  | _ => cases ha

/-! From the request that a thread has raised to the end of its wait. -/

/-- The record of a thread that has been asked to stop, until it is seen to have stopped. -/
def StopInstr.seeks? : StopInstr → Option RecordId
  | .readLevel _ r _ _ | .deliver _ r _ _ | .watchStart _ r _ => some r
  | .watchEpoch x | .watchPhase x | .watchRequest x | .watchLevel x | .watchClock x =>
    some x.record
  | _ => none

def Instr.seeks? : Instr → Option RecordId
  | .stop i => i.seeks?
  | _ => none

section Seeks

attribute [local simp] Instr.seeks? StopInstr.seeks?

theorem Call.code_seekless (c : Call) : ∀ j ∈ c.code w t, j.seeks? = none := by
  intro j hj
  cases j with
  | stop k => cases k <;> first | rfl | cases c.stop_of_code hj
  | _ => rfl

theorem seekless_of_nested (h : i.isNested = true) : i.seeks? = none := by
  cases i with
  | stop k => cases h
  | _ => rfl

theorem World.Takes.mem_of_seeks (h : Takes w t e code) (hj : j ∈ code) (hs : j.seeks? ≠ none) :
    j ∈ w.codeOf t := by
  obtain ⟨new, old, rfl, ho, hnew⟩ := h.split
  rcases List.mem_append.mp hj with hj | hj
  · exfalso
    rcases hnew with ⟨hn, -⟩ | ⟨-, hc⟩
    · exact hs (seekless_of_nested (List.all_eq_true.mp hn j hj))
    · rcases hc j hj with ⟨c, -, hj⟩ | ⟨s, r, rfl⟩
      · exact hs (c.code_seekless j hj)
      · exact hs rfl
  · exact ho.subset hj

/-- How a suspending thread goes on, from the request that it raises to the end of its wait. -/
inductive Pursues (w : World) : Instr → Instr → Prop
  | look (s : ServiceId) (r : RecordId) (epoch : Nat) (already : Bool) :
    Pursues w (.stop (.request s r epoch)) (.stop (.readLevel s r epoch already))
  | tell (s : ServiceId) (r : RecordId) (epoch : Nat) (already : Bool)
    (h : w.levelOf r = .noBlock) :
    Pursues w (.stop (.readLevel s r epoch already)) (.stop (.deliver s r epoch already))
  | told (s : ServiceId) (r : RecordId) (epoch : Nat) (already : Bool) :
    Pursues w (.stop (.deliver s r epoch already)) (.stop (.watchStart s r epoch))
  | start (s : ServiceId) (r : RecordId) (epoch : Nat) :
    Pursues w (.stop (.watchStart s r epoch)) (.stop (.watchEpoch ⟨s, r, epoch, w.clock, false⟩))
  | epoch (x : Watch) : Pursues w (.stop (.watchEpoch x)) (.stop (.watchPhase x))
  | phase (x : Watch) (h : w.phaseOf x.record ≠ .suspended) :
    Pursues w (.stop (.watchPhase x)) (.stop (.watchRequest x))
  | request (x : Watch) (h : w.isRequested x.record = true) :
    Pursues w (.stop (.watchRequest x)) (.stop (.watchLevel x))
  | level (x : Watch) (h : w.levelOf x.record = .noBlock) :
    Pursues w (.stop (.watchLevel x)) (.stop (.watchClock x))
  | round (x : Watch) (warned : Bool) :
    Pursues w (.stop (.watchClock x)) (.stop (.watchEpoch { x with warned }))

theorem pursues_of_run (i : Instr) (hj : j ∈ (i.run t w).2) (hs : j.seeks? ≠ none) :
    Pursues w i j := by
  obtain ⟨k, rfl⟩ : ∃ k, j = .stop k := by
    cases j with
    | stop k => exact ⟨k, rfl⟩
    | _ => exact absurd rfl hs
  obtain ⟨m, rfl⟩ := isStop_of_run i hj
  cases m.leads_of_run hj with
  | readLevel s r epoch => exact .look s r epoch _
  | deliver s r epoch already hl => exact .tell s r epoch already hl
  | watchStart s r epoch already => exact .told s r epoch already
  | watchEpoch s r epoch => exact .start s r epoch
  | watchPhase x => exact .epoch x
  | watchRequest x hp => exact .phase x hp
  | watchLevel x hq => exact .request x hq
  | watchClock x hl => exact .level x hl
  | watchAgain x warned => exact .round x warned
  | _ => exact absurd rfl hs

end Seeks

/-- The thread may go on waiting: what it waits for has not come about, and can still. -/
def Watch.lasts (w : World) (x : Watch) : Bool :=
  w.ofRecord x.record false fun c => c.epoch == x.epoch && c.isUnsettled

theorem shouldPark_iff : w.shouldPark r = true ↔ w.isRequested r = true ∧ w.levelOf r = .noBlock := by
  simp only [World.shouldPark, World.isRequested, World.levelOf]
  cases w.records[r]? with
  | none => simp
  | some c => simp [ThreadRecord.shouldPark]

theorem Watch.shouldPark_of_lasts {x : Watch} (h : x.lasts w = true) : w.shouldPark x.record = true := by
  simp only [Watch.lasts, World.ofRecord, World.shouldPark] at h ⊢
  cases hc : w.records[x.record]? with
  | none =>
    rw [hc] at h
    cases h
  | some c =>
    simp only [hc, ThreadRecord.isUnsettled, Bool.and_eq_true] at h
    exact h.2.1

theorem pursues_setCode (h : Pursues (w.setCode t rest) i j) : Pursues w i j := by
  cases h with
  | look s r c a => exact .look s r c a
  | tell s r c a hl => exact .tell s r c a hl
  | told s r c a => exact .told s r c a
  | start s r c => exact .start s r c
  | epoch x => exact .epoch x
  | phase x hp => exact .phase x hp
  | request x hq => exact .request x hq
  | level x hl => exact .level x hl
  | round x b => exact .round x b

theorem mem_step_of_seeks (e : Event) (hj : j ∈ (w.step e).codeOf q) (hs : j.seeks? ≠ none) :
    j ∈ w.codeOf q ∨ ∃ i rest, e = .advance q ∧ w.codeOf q = i :: rest ∧ Pursues w i j := by
  rcases w.step_cases e with ⟨t, i, rest, rfl, h, hu, he⟩ | u
  · rw [he] at hj
    rcases mem_codeOf_proceed h hj with ⟨rfl, hm⟩ | ⟨rfl, hm⟩ | ⟨-, hm⟩ | ⟨s, b, -, -, hm, -⟩
    · exact Or.inr ⟨i, rest, rfl, h, pursues_setCode (pursues_of_run i hm hs)⟩
    · exact Or.inl (h ▸ List.mem_cons_of_mem _ hm)
    · exact Or.inl hm
    · exact absurd (threadCode_none rfl hm) hs
  · rcases u.code q with hc | hc
    · exact Or.inl (hc ▸ hj)
    · exact Or.inl (hc.mem_of_seeks hj hs)

end Standstill
