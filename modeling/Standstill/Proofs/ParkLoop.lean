import Standstill.Proofs.Custody

/-!
The park loop. A record reads `suspended` exactly while its owner has an instruction of the loop
before it, and from the moment at which the owner has found its level to be `noBlock` until it has
left the loop the level stays `noBlock`.
-/
namespace Standstill

open World

namespace ParkInstr

/-- The level has been looked at, or need not be: the thread stops if its request stands. -/
def isCommitted : ParkInstr → Bool
  | .check tests _ _ => !tests.contains .level
  | .awaitSignal => false
  | _ => true

/-- The thread is bound for the park loop and no longer looks whether it is there already. -/
def isFirm : ParkInstr → Bool
  | .check tests _ _ => !tests.contains .phase
  | .awaitSignal | .retestRequest _ | .retestLevel _ => false
  | _ => true

/-- The thread is between its mark and its return to the phase before. -/
def isLoop : ParkInstr → Bool
  | .count _ | .testRequest _ | .testLevel _ | .restore _ => true
  | _ => false

/-- What follows `k` on the way into the park loop and round it. -/
inductive Leads (w : World) (t : ThreadId) : ParkInstr → ParkInstr → Prop
  | pass (x : Test) (tests : List Test) (entry : Entry) (r : RecordId)
    (h : w.passes r x = true) : Leads w t (.check (x :: tests) entry r) (.check tests entry r)
  | save (entry : Entry) (sleep : Mechanism) (r : RecordId) :
    Leads w t (.check [] entry r) (.save sleep r)
  | spill (sleep : Mechanism) (r : RecordId) :
    Leads w t (.save sleep r) (.spill ⟨sleep, r, w.phaseOf r⟩)
  | mark (p : Parking) : Leads w t (.spill p) (.mark p)
  | count (p : Parking) : Leads w t (.mark p) (.count p)
  | begin (p : Parking) : Leads w t (.count p) (.testRequest p)
  | stay (p : Parking) (h : w.isRequested p.record = true) :
    Leads w t (.testRequest p) (.testLevel p)
  | quit (p : Parking) (h : w.isRequested p.record = false) :
    Leads w t (.testRequest p) (.restore p)
  | raised (p : Parking) (h : w.levelOf p.record ≠ .noBlock) : Leads w t (.testLevel p) (.restore p)
  | again (p : Parking) (h : w.levelOf p.record = .noBlock) :
    Leads w t (.testLevel p) (.testRequest p)
  | await (p : Parking) (h : w.levelOf p.record = .noBlock) : Leads w t (.testLevel p) .awaitSignal
  | retest (p : Parking) (h : w.levelOf p.record = .noBlock) :
    Leads w t (.testLevel p) (.retestRequest p.record)
  | stillRequested (r : RecordId) (h : w.isRequested r = true) :
    Leads w t (.retestRequest r) (.retestLevel r)
  | nest (r : RecordId) (h : w.bindingOf t = some r) :
    Leads w t .awaitSignal (.check [.request, .level, .phase] .handler r)

end ParkInstr

open ParkInstr

variable {n : Nat} {w w' : World} {t t' : ThreadId} {r : RecordId} {i j : Instr}
  {k k' : ParkInstr} {rest : List Instr} {e : Event}

theorem ParkInstr.leads_of_run (h : Instr.park k' ∈ (k.run t w).2) : Leads w t k k' := by
  cases k with
  | check tests entry r =>
    rcases tests with _ | ⟨x, tests⟩
    · rcases entry with _ | _ | _ <;> simp only [ParkInstr.run] at h
      · simp only [List.mem_singleton, Instr.park.injEq] at h
        subst h
        exact .save _ _ _
      · split at h
        · cases h
        · simp at h
          subst h
          exact .save _ _ _
      · simp only [List.mem_singleton, Instr.park.injEq] at h
        subst h
        exact .save _ _ _
    · simp only [ParkInstr.run] at h
      split at h
      next hp =>
        simp only [List.mem_singleton, Instr.park.injEq] at h
        subst h
        exact .pass _ _ _ _ hp
      next => cases h
  | awaitSignal =>
    simp only [ParkInstr.run, handlerCode_eq] at h
    split at h
    · cases h
    next b hb =>
      simp only [List.mem_singleton, Instr.park.injEq] at h
      subst h
      exact .nest _ hb
  -- the level still allows it to stop: a sleep of its mechanism, and then another look at the
  -- request
  | testLevel p =>
    simp only [ParkInstr.run] at h
    split at h
    next hl =>
      rcases List.mem_append.mp h with h | h
      · rcases p with ⟨sleep, b, q⟩
        cases sleep <;> simp [Parking.sleepCode, locked] at h <;> subst h
        · exact .await _ hl
        · exact .retest _ hl
      · simp only [List.mem_singleton, Instr.park.injEq] at h
        subst h
        exact .again _ hl
    next hl =>
      simp only [List.mem_singleton, Instr.park.injEq] at h
      subst h
      exact .raised _ hl
  | testRequest p =>
    simp only [ParkInstr.run] at h
    split at h <;> simp only [List.mem_singleton, Instr.park.injEq] at h <;> subst h
    next hq => exact .stay _ hq
    next hq => exact .quit _ (by simpa using hq)
  | retestRequest b =>
    simp only [ParkInstr.run] at h
    split at h
    next hq =>
      simp only [List.mem_singleton, Instr.park.injEq] at h
      subst h
      exact .stillRequested _ hq
    next => cases h
  | retestLevel b =>
    simp only [ParkInstr.run] at h
    split at h <;> simp at h
  | restore p => cases h
  | _ =>
    simp only [ParkInstr.run, List.mem_singleton, Instr.park.injEq] at h
    subst h
    constructor

/-- The instruction lowers the level and then looks at it again before it parks. -/
def GuardInstr.isWary : GuardInstr → Bool
  | .lower _ | .enable _ => true
  | _ => false

theorem GuardInstr.park_of_run (i : GuardInstr) (h : Instr.park k ∈ (i.run t w).2) :
    (∃ m r, i.isWary = true ∧ k = .check [.request, .level] (.call m) r) ∨
      ∃ s m r, i = .enableFast s ∧ w.selfIn t s = some r ∧ k = .check [.request] (.call m) r := by
  cases i with
  | lower s =>
    simp only [GuardInstr.run] at h
    split at h
    · left
      simp only [stopIfDue, List.mem_cons, Instr.park.injEq] at h
      rcases h with rfl | h
      · exact ⟨_, _, rfl, rfl⟩
      · split at h <;> simp at h
    · cases h
  | enable s =>
    simp only [GuardInstr.run] at h
    split at h
    · cases h
    · left
      simp only [stopIfDue, List.mem_cons, Instr.park.injEq] at h
      rcases h with rfl | h
      · exact ⟨_, _, rfl, rfl⟩
      · split at h <;> simp at h
  -- the fast way looks at the request alone, not at the level
  | enableFast s =>
    simp only [GuardInstr.run] at h
    split at h
    · cases h
    next b hs =>
      simp only [List.mem_singleton, Instr.park.injEq] at h
      exact Or.inr ⟨s, _, b, rfl, hs, h⟩
  | raise s l =>
    simp only [GuardInstr.run] at h
    repeat' split at h
    all_goals simp at h
  | disable s =>
    simp only [GuardInstr.run] at h
    repeat' split at h
    all_goals simp at h
  | enter s p | disableFast s | leave =>
    simp only [GuardInstr.run] at h
    split at h <;> simp at h
  | _ => cases h

/-- A thread comes to park by a step of the loop, or because it lowers its level. -/
theorem park_of_run (i : Instr) (h : Instr.park k ∈ (i.run t w).2) :
    (∃ k', i = .park k' ∧ Leads w t k' k) ∨
      (∃ g m r, i = .guard g ∧ g.isWary = true ∧ k = .check [.request, .level] (.call m) r) ∨
      ∃ s m r, i = .guard (.enableFast s) ∧ w.selfIn t s = some r ∧
        k = .check [.request] (.call m) r := by
  have plain (hp : (i.run t w).2.all Instr.isPlain = true) : False := by
    cases calm_of_plain hp _ h
  cases i with
  | user => simp [Instr.run] at h
  | sync i =>
    cases i <;> simp [Instr.run, SyncInstr.run] at h
  | guard i =>
    rcases i.park_of_run h with ⟨m, r, hi, hk⟩ | ⟨s, m, r, rfl, hs, hk⟩
    · exact Or.inr (Or.inl ⟨i, m, r, rfl, hi, hk⟩)
    · exact Or.inr (Or.inr ⟨s, m, r, rfl, hs, hk⟩)
  | park i => exact Or.inl ⟨i, rfl, leads_of_run h⟩
  | stop i => exact False.elim (plain i.run_plain)
  | pool i => exact False.elim (plain i.run_plain)
  -- members come and go without a look at the park loop
  | member i =>
    have hn := List.all_eq_true.mp (i.run_unparked (w := w) (t := t)) _ h
    simp [Instr.isNested] at hn
  | read i => exact False.elim (plain i.run_plain)

theorem not_nested_of_wary {g : GuardInstr} (h : g.isWary = true) :
    (Instr.guard g).isNested = false := by
  cases g <;> first | rfl | cases h

/-- The instruction is one of the park loop of record `r` that passes the test. -/
def Instr.parksOn (test : ParkInstr → Bool) (r : RecordId) : Instr → Bool
  | .park k => test k && k.record? == some r
  | _ => false

theorem parksOn_iff {test : ParkInstr → Bool} :
    i.parksOn test r = true ↔ ∃ k, i = .park k ∧ test k = true ∧ k.record? = some r := by
  cases i <;> simp [Instr.parksOn]

theorem parkRecord_of_parksOn {test : ParkInstr → Bool} (h : i.parksOn test r = true) :
    i.parkRecord? = some r := by
  obtain ⟨k, rfl, _, hr⟩ := parksOn_iff.mp h
  exact hr

theorem urgent_of_parksOn {test : ParkInstr → Bool} (h : i.parksOn test r = true) :
    i.isUrgent = true := by
  obtain ⟨k, rfl, _, _⟩ := parksOn_iff.mp h
  rfl

theorem isCommitted_of_isLoop (h : k.isLoop = true) : k.isCommitted = true := by
  cases k <;> first | rfl | cases h

theorem committed_of_loop (h : i.parksOn isLoop r = true) : i.parksOn isCommitted r = true := by
  obtain ⟨k, rfl, hk, hr⟩ := parksOn_iff.mp h
  exact parksOn_iff.mpr ⟨k, rfl, isCommitted_of_isLoop hk, hr⟩

theorem isFirm_of_isLoop (h : k.isLoop = true) : k.isFirm = true := by
  cases k <;> first | rfl | cases h

/-! New code is bound for no loop twice. -/

theorem unlooped_of_run (i : Instr) (hi : ∀ k, i ≠ .park k) :
    ∀ j ∈ (i.run t w).2, j.parksOn isLoop r = false := by
  intro j hj
  cases hp : j.parksOn isLoop r
  · rfl
  · obtain ⟨k, rfl, hk, _⟩ := parksOn_iff.mp hp
    rcases park_of_run i hj with ⟨k', rfl, _⟩ | ⟨_, _, _, _, _, rfl⟩ | ⟨_, _, _, _, _, rfl⟩
    · exact absurd rfl (hi k')
    · cases hk
    · cases hk

theorem run_apart (i : Instr) :
    (i.run t w).2.Pairwise fun i j =>
      ∀ r, i.parksOn isFirm r = true → j.parksOn isLoop r = false := by
  by_cases hi : ∃ k, i = .park k
  · obtain ⟨k, rfl⟩ := hi
    simp only [Instr.run]
    cases k with
    | check tests entry b =>
      rcases tests with _ | ⟨x, tests⟩
      · rcases entry with _ | _ | _ <;> simp only [ParkInstr.run]
        · exact List.pairwise_singleton _ _
        · split <;> simp [Instr.parksOn]
        · exact List.pairwise_singleton _ _
      · simp only [ParkInstr.run]
        split <;> simp
    | awaitSignal =>
      simp only [ParkInstr.run, handlerCode_eq]
      split <;> simp
    | testLevel p =>
      rcases p with ⟨sleep, b, q⟩
      simp only [ParkInstr.run]
      split
      · cases sleep <;> simp [Parking.sleepCode, locked, Instr.parksOn, isFirm, isLoop]
      · exact List.pairwise_singleton _ _
    | testRequest | retestRequest | retestLevel =>
      simp only [ParkInstr.run]
      split <;> simp
    | _ => simp [ParkInstr.run]
  -- other instructions leave nothing of a loop to do
  · apply List.pairwise_of_forall_mem_list
    intro i' _ j hj r _
    exact unlooped_of_run i (fun k hk => hi ⟨k, hk⟩) j hj

/-! What is true of an instruction of the loop was true before, or has just been found out. -/

theorem ParkInstr.Leads.committed (h : Leads w t k' k) (hk : k.isCommitted = true)
    (hr : k.record? = some r) :
    k'.isCommitted = true ∧ k'.record? = some r ∨ w.levelOf r = .noBlock := by
  cases h with
  | pass x tests entry b hp =>
    cases x with
    | level =>
      right
      obtain rfl := Option.some.inj hr
      simpa [passes] using hp
    | request | phase =>
      left
      exact ⟨by simpa [isCommitted] using hk, hr⟩
  | nest => cases hk
  | await => cases hk
  | _ => exact Or.inl ⟨rfl, hr⟩

theorem ParkInstr.Leads.firm (h : Leads w t k' k) (hk : k.isFirm = true)
    (hr : k.record? = some r) :
    k'.isFirm = true ∧ k'.record? = some r ∨ w.phaseOf r ≠ .suspended := by
  cases h with
  | pass x tests entry b hp =>
    cases x with
    | phase =>
      right
      obtain rfl := Option.some.inj hr
      simpa [passes] using hp
    | request | level =>
      left
      exact ⟨by simpa [isFirm] using hk, hr⟩
  | nest | await | retest | stillRequested => cases hk
  | _ => exact Or.inl ⟨rfl, hr⟩

theorem ParkInstr.Leads.loop (h : Leads w t k' k) (hk : k.isLoop = true)
    (hr : k.record? = some r) :
    (∃ p, k' = .mark p ∧ p.record = r) ∨ k'.isLoop = true ∧ k'.record? = some r := by
  cases h with
  | count p => exact Or.inl ⟨p, rfl, Option.some.inj hr⟩
  | begin | stay | quit | raised | again => exact Or.inr ⟨rfl, hr⟩
  | _ => cases hk

/-! Phases that are noted down to be taken up later. -/

/-- The phase that the instruction will set, or come back to. -/
def Instr.notedPhase? : Instr → Option Phase
  | .guard (.setPhase _ p) | .guard (.enter _ p) => some p
  | .park (.spill p) | .park (.mark p) | .park (.count p) | .park (.testRequest p)
  | .park (.testLevel p) | .park (.restore p) => some p.previous
  | _ => none

/-- The instruction brings no record to the phase `suspended` but through the park loop, and opens no
guard that guards against nothing. -/
def Instr.isSober (i : Instr) : Bool :=
  i.notedPhase? != some .suspended &&
    match i with
    | .guard (.raise _ l) => l != .noBlock
    | _ => true

section Sober

attribute [local simp] Instr.isSober Instr.notedPhase?

theorem sober_of_work (h : i.isWork = true) : i.isSober = true := by
  cases i with
  | guard g =>
    cases g with
    | enter s phase => simpa [Instr.isWork] using h
    | raise => exact h
    | lower | leave => rfl
    | _ => cases h
  | sync => rfl
  | pool | read => rfl
  | _ => cases h

theorem StopInstr.run_sober (i : StopInstr) : (i.run t w).2.all Instr.isSober = true := by
  cases i with
  | scanRequest s d rs settled =>
    cases rs <;> simp only [StopInstr.run]
    · simp
    · split <;> simp
  | _ =>
    simp only [StopInstr.run, resumeAllCode]
    repeat' split
    all_goals simp

theorem MemberInstr.run_sober (i : MemberInstr) : (i.run t w).2.all Instr.isSober = true := by
  cases i <;> simp only [MemberInstr.run] <;> repeat' split
  all_goals simp [publishCode, refuseCode]

theorem GuardInstr.run_sober (i : GuardInstr) (h : (Instr.guard i).isSober = true) :
    (i.run t w).2.all Instr.isSober = true := by
  cases i <;> simp only [GuardInstr.run] <;> repeat' split
  all_goals simp [stopIfDue] at h ⊢
  exact h

/-- New code of the park loop comes back to the phase noted before, or the one read just now. -/
theorem ParkInstr.run_sober (k : ParkInstr) (h : (Instr.park k).isSober = true)
    (hs : ∀ sleep r, k = .save sleep r → w.phaseOf r ≠ .suspended) :
    (k.run t w).2.all Instr.isSober = true := by
  apply List.all_eq_true.mpr
  intro j hj
  cases j with
  | park k' =>
    cases leads_of_run hj with
    | spill sleep r => simpa using hs sleep r rfl
    -- the phase to come back to is handed on through the loop
    | mark | count | begin | stay | quit | raised | again => exact h
    | _ => rfl
  | guard i =>
    have hn := List.all_eq_true.mp (run_nested (w := w) (t := t) (i := .park k) rfl) _ hj
    cases i with
    | setMask => rfl
    | _ => cases hn
  | _ => rfl

theorem Call.code_sober (c : Call) : (c.code w t).all Instr.isSober = true := by
  cases c with
  | safePoint s =>
    simp only [Call.code]
    split <;> simp
  | mutex s a c =>
    cases a <;> cases c <;> simp [Call.code, MutexCall.code]
  | cond s a c =>
    cases a <;> cases c <;> simp [Call.code, CondCall.code]
  | _ => simp [Call.code, inquireCode, suspendAllCode, resumeAllCode, sleepCode]

/-- New code is sober if the code before was and no phase is read in the park loop. -/
theorem run_sober (i : Instr) (h : i.isSober = true)
    (hs : ∀ sleep r, i = .park (.save sleep r) → w.phaseOf r ≠ .suspended) :
    (i.run t w).2.all Instr.isSober = true := by
  cases i with
  | user => rfl
  | sync i => cases i <;> rfl
  | guard i => exact i.run_sober h
  | park k => exact k.run_sober h fun sleep r hk => hs sleep r (congrArg _ hk)
  | stop i => exact i.run_sober
  | pool i => exact all_imp sober_of_work i.run_work
  | member i => exact i.run_sober
  | read i => exact all_imp sober_of_work i.run_work

theorem threadCode_sober (s : ServiceId) (r : RecordId) :
    (threadCode s r).all Instr.isSober = true := by
  simp [threadCode]

end Sober

/-! What the loop keeps. -/

structure ParkLoop (w : World) : Prop where
  level : ∀ {t j r}, j ∈ w.codeOf t → j.parksOn isCommitted r = true → w.levelOf r = .noBlock
  /-- Above a loop that a thread is in, it is not bound for the same loop. -/
  apart : ∀ t, (w.codeOf t).Pairwise fun i j =>
    ∀ r, i.parksOn isFirm r = true → j.parksOn isLoop r = false
  phase : ∀ {t j r}, j ∈ w.codeOf t → j.parksOn isLoop r = true → w.phaseOf r = .suspended
  loop : ∀ {r}, w.phaseOf r = .suspended → ∃ t, ∃ j ∈ w.codeOf t, j.parksOn isLoop r = true
  sober : ∀ {t j}, j ∈ w.codeOf t → j.isSober = true
  noted : ∀ {t r p}, .phase (some r) p ∈ w.scopesOf t → p ≠ .suspended

theorem parkLoop_initial (n : Nat) : ParkLoop (World.initial n) := by
  constructor
  case level =>
    intro t j r hj hp
    cases eq_user_of_initial hj
    cases hp
  case apart =>
    intro t
    rcases codeOf_initial n t with hc | hc <;> rw [hc] <;> simp
  case phase =>
    intro t j r hj hp
    cases eq_user_of_initial hj
    cases hp
  case loop =>
    intro r h
    cases h
  case sober =>
    intro t j hj
    cases eq_user_of_initial hj
    rfl
  case noted =>
    intro t r p hx
    rw [scopesOf_initial] at hx
    cases hx

/-! Reading while the code of the running thread is put away reads the same. -/

theorem leads_setCode (h : Leads (w.setCode t rest) t k k') : Leads w t k k' := by
  have hb : (w.setCode t rest).bindingOf t = w.bindingOf t := ofThread_setCode fun _ _ => rfl
  cases h with
  | pass x tests entry r h => exact .pass x tests entry r (by cases x <;> exact h)
  | save entry sleep r => exact .save entry sleep r
  | spill sleep r => exact .spill sleep r
  | mark p => exact .mark p
  | count p => exact .count p
  | begin p => exact .begin p
  | stay p h => exact .stay p h
  | quit p h => exact .quit p h
  | raised p h => exact .raised p h
  | again p h => exact .again p h
  | await p h => exact .await p h
  | retest p h => exact .retest p h
  | stillRequested r h => exact .stillRequested r h
  | nest r h => exact .nest r (hb ▸ h)

theorem selfIn_setCode {s : ServiceId} : (w.setCode t rest).selfIn t s = w.selfIn t s := by
  have hb : (w.setCode t rest).bindingOf t = w.bindingOf t := ofThread_setCode fun _ _ => rfl
  apply Option.ext
  intro r
  rw [selfIn_eq_some, selfIn_eq_some, hb]
  rfl

theorem remainder_park (h : Instr.park k ∈ w.remainder t i rest) :
    (∃ k', i = .park k' ∧ Leads w t k' k) ∨
      (∃ g m r, i = .guard g ∧ g.isWary = true ∧ k = .check [.request, .level] (.call m) r) ∨
      ∃ s m r, i = .guard (.enableFast s) ∧ w.selfIn t s = some r ∧
        k = .check [.request] (.call m) r := by
  rcases park_of_run (w := w.setCode t rest) i h with ⟨k', hi, hk⟩ | hk | ⟨s, m, r, hi, hs, hk⟩
  · exact Or.inl ⟨k', hi, leads_setCode hk⟩
  · exact Or.inr (Or.inl hk)
  · exact Or.inr (Or.inr ⟨s, m, r, hi, selfIn_setCode ▸ hs, hk⟩)

theorem phaseOf_proceed (w : World) (t : ThreadId) (i : Instr) (rest : List Instr) (r : RecordId) :
    (w.proceed t i rest).phaseOf r = w.phaseOf r ∨
      SetsPhase w t r i ((w.proceed t i rest).phaseOf r) := by
  have hs : (w.setCode t rest).scopesOf t = w.scopesOf t := ofThread_setCode fun _ _ => rfl
  rcases phaseOf_run (w := w.setCode t rest) (t := t) (r := r) i with hp | hp
  · exact Or.inl hp
  · right
    have hq : (w.proceed t i rest).phaseOf r = (i.run t (w.setCode t rest)).1.phaseOf r := rfl
    rw [hq]
    generalize (i.run t (w.setCode t rest)).1.phaseOf r = q at hp
    cases hp with
    | set => exact .set _
    | leave _ hx =>
      rw [innermost_eq, hs, ← innermost_eq] at hx
      exact .leave _ hx
    | mark p hr => exact .mark p hr
    | restore p hr => exact .restore p hr
    | create i hr => exact .create i hr

theorem levelOf_proceed_enableFast {s : ServiceId} (hs : w.selfIn t s = some r) :
    (w.proceed t (.guard (.enableFast s)) rest).levelOf r = .noBlock := by
  have hl : (w.proceed t (.guard (.enableFast s)) rest).levelOf r =
      ((GuardInstr.enableFast s).run t (w.setCode t rest)).1.levelOf r := rfl
  rw [hl]
  simp only [GuardInstr.run, selfIn_setCode, hs, levelOf_eq, World.setLevel, ofRecord_modRecord,
    ofRecord_const, if_true, ite_self]

theorem phaseOf_proceed_mark {p : Parking} (hp : p.record = r) (hr : r < w.records.length) :
    (w.proceed t (.park (.mark p)) rest).phaseOf r = .suspended := by
  have hl : (w.proceed t (.park (.mark p)) rest).phaseOf r =
      ((w.setCode t rest).setPhase p.record .suspended).phaseOf r := rfl
  rw [hl, hp]
  simp only [phaseOf_eq, World.setPhase, ofRecord_modRecord, ofRecord_const, if_true]
  exact if_pos hr

theorem phaseOf_proceed_restore {p : Parking} (hp : p.record = r) (hr : r < w.records.length) :
    (w.proceed t (.park (.restore p)) rest).phaseOf r = p.previous := by
  have hl : (w.proceed t (.park (.restore p)) rest).phaseOf r =
      ((w.setCode t rest).setPhase p.record p.previous).phaseOf r := rfl
  rw [hl, hp]
  simp only [phaseOf_eq, World.setPhase, ofRecord_modRecord, ofRecord_const, if_true]
  exact if_pos hr

section Proceed

variable (c : Custody w) (ho : Orderly (w.codeOf t)) (h : w.codeOf t = i :: rest)
include c ho h

/-- A thread's step is about no record that another thread parks on, and about none that it parks
on itself, unless the step belongs to the parking. -/
theorem Custody.apart_of_parked (hj : t' = t ∧ j ∈ rest ∨ t' ≠ t ∧ j ∈ w.codeOf t')
    (hu : j.isUrgent = true) (hr : j.parkRecord? = some r) :
    t' = t ∧ i.isNested = true ∨ ¬Tends w t i r := by
  rcases hj with ⟨rfl, hj⟩ | ⟨ht, hj⟩
  · left
    refine ⟨rfl, ?_⟩
    cases hn : i.isNested
    · exact absurd hj (not_mem_rest ho h hu hn)
    · rfl
  · exact Or.inr (c.not_tends ho h (c.parked hj hr) ht)

theorem Custody.levelOf_of_parked (hj : t' = t ∧ j ∈ rest ∨ t' ≠ t ∧ j ∈ w.codeOf t')
    (hu : j.isUrgent = true) (hr : j.parkRecord? = some r) :
    (w.proceed t i rest).levelOf r = w.levelOf r := by
  rcases c.apart_of_parked ho h hj hu hr with ⟨_, hn⟩ | hn
  · exact levelOf_proceed_of_nested hn
  · exact levelOf_proceed_of_not_tends hn

variable (l : ParkLoop w)
include l

omit ho h in
/-- A record is in nobody's loop if it is not in its owner's. -/
theorem ParkLoop.not_suspended (hi : ∀ j ∈ w.codeOf t, j.parksOn isLoop r = false)
    (hr : w.ownerOf r = some t) :
    w.phaseOf r ≠ .suspended := by
  intro hs
  obtain ⟨t', j, hj, hl⟩ := l.loop hs
  have hown := c.parked hj (parkRecord_of_parksOn hl)
  rw [hr] at hown
  obtain rfl := Option.some.inj hown
  rw [hi j hj] at hl
  cases hl

theorem ParkLoop.level_proceed (hm : j ∈ (w.proceed t i rest).codeOf t')
    (hp : j.parksOn isCommitted r = true) :
    (w.proceed t i rest).levelOf r = .noBlock := by
  have hi : i ∈ w.codeOf t := h ▸ List.mem_cons_self
  -- nobody else lowers or raises the level of a record that is parked
  have old (hj : j ∈ w.codeOf t') (hj' : t' = t ∧ j ∈ rest ∨ t' ≠ t ∧ j ∈ w.codeOf t') :
      (w.proceed t i rest).levelOf r = .noBlock := by
    rw [c.levelOf_of_parked ho h hj' (urgent_of_parksOn hp) (parkRecord_of_parksOn hp)]
    exact l.level hj hp
  rcases mem_codeOf_proceed h hm with ⟨rfl, hj⟩ | ⟨rfl, hj⟩ | ⟨ht, hj⟩ | ⟨s, b, _, _, hj, _⟩
  · obtain ⟨k, rfl, hk, hr⟩ := parksOn_iff.mp hp
    rcases remainder_park hj with ⟨k', rfl, hl⟩ | ⟨g, m, b, _, _, rfl⟩ | ⟨s, m, b, rfl, hs, rfl⟩
    · rw [levelOf_proceed_of_nested rfl]
      rcases hl.committed hk hr with hk | hl
      · exact l.level hi (parksOn_iff.mpr ⟨_, rfl, hk⟩)
      · exact hl
    · cases hk
    · obtain rfl := Option.some.inj hr
      exact levelOf_proceed_enableFast hs
  · exact old (h ▸ List.mem_cons_of_mem _ hj) (Or.inl ⟨rfl, hj⟩)
  · exact old hj (Or.inr ⟨ht, hj⟩)
  · cases (threadCode_none rfl hj).symm.trans (parkRecord_of_parksOn hp)

/-- A loop under the instruction that runs, or in another thread, keeps its phase. -/
theorem ParkLoop.phaseOf_of_loop (hj : t' = t ∧ j ∈ rest ∨ t' ≠ t ∧ j ∈ w.codeOf t')
    (hp : j.parksOn isLoop r = true) :
    (w.proceed t i rest).phaseOf r = .suspended := by
  have hr := parkRecord_of_parksOn hp
  have hmem : j ∈ w.codeOf t' := by
    rcases hj with ⟨rfl, hj⟩ | ⟨_, hj⟩
    · exact h ▸ List.mem_cons_of_mem _ hj
    · exact hj
  have hapart := c.apart_of_parked ho h hj (urgent_of_parksOn hp) hr
  -- nobody but the loop itself writes the phase of a record that is parked
  rcases phaseOf_proceed w t i rest r with hs | hs
  · rw [hs]
    exact l.phase hmem hp
  · generalize (w.proceed t i rest).phaseOf r = q at hs
    cases hs with
    | set =>
      rcases hapart with ⟨_, hn⟩ | hn
      · cases hn
      · exact absurd (Or.inr (Or.inr rfl)) hn
    | leave _ hx =>
      rcases hapart with ⟨_, hn⟩ | hn
      · cases hn
      · exact absurd rfl (ne_of_innermost hn hx rfl)
    | mark => rfl
    -- a second loop of the same record cannot stand under one that ends
    | restore p hb =>
      rcases hapart with ⟨rfl, _⟩ | hn
      · rcases hj with ⟨_, hj⟩ | ⟨ht, _⟩
        · have ha := l.apart t'
          rw [h] at ha
          have hf := (List.pairwise_cons.mp ha).1 j hj r
            (parksOn_iff.mpr ⟨_, rfl, rfl, congrArg some hb⟩)
          rw [hp] at hf
          cases hf
        · exact absurd rfl ht
      · exact absurd (Or.inr (Or.inr (congrArg some hb))) hn
    | create _ hl =>
      exact absurd hl (Nat.ne_of_lt (lt_of_ownerOf (c.parked hmem hr)))

theorem ParkLoop.phase_proceed (hm : j ∈ (w.proceed t i rest).codeOf t')
    (hp : j.parksOn isLoop r = true) :
    (w.proceed t i rest).phaseOf r = .suspended := by
  have hi : i ∈ w.codeOf t := h ▸ List.mem_cons_self
  rcases mem_codeOf_proceed h hm with ⟨rfl, hj⟩ | ⟨rfl, hj⟩ | ⟨ht, hj⟩ | ⟨s, b, _, _, hj, _⟩
  · obtain ⟨k, rfl, hk, hr⟩ := parksOn_iff.mp hp
    rcases remainder_park hj with ⟨k', rfl, hl⟩ | ⟨g, m, b, _, _, rfl⟩ | ⟨s, m, b, rfl, hs, rfl⟩
    · rcases hl.loop hk hr with ⟨p, rfl, hb⟩ | ⟨hk', hr'⟩
      · have hown := c.parked hi (r := r) (congrArg some hb)
        exact phaseOf_proceed_mark hb (lt_of_ownerOf hown)
      · have hs := l.phase hi (parksOn_iff.mpr ⟨_, rfl, hk', hr'⟩)
        rcases phaseOf_proceed w t' (.park k') rest r with
          he | he
        · rw [he, hs]
        · generalize (w.proceed t' (.park k') rest).phaseOf r = q at he
          cases he with
          | mark => rfl
          | restore p => cases hl
    · cases hk
    · cases hk
  · exact l.phaseOf_of_loop c ho h (Or.inl ⟨rfl, hj⟩) hp
  · exact l.phaseOf_of_loop c ho h (Or.inr ⟨ht, hj⟩) hp
  · cases (threadCode_none rfl hj).symm.trans (parkRecord_of_parksOn hp)

omit c l in
/-- Nothing that lies under an instruction outside the park loop is in the loop. -/
theorem unlooped_of_not_nested (hn : i.isNested = false) :
    ∀ j ∈ w.codeOf t, j.parksOn isLoop r = false := by
  intro j hj
  cases hp : j.parksOn isLoop r
  · rfl
  · rw [h] at hj
    rcases List.mem_cons.mp hj with rfl | hj
    · obtain ⟨k, rfl, _⟩ := parksOn_iff.mp hp
      cases hn
    · exact absurd hj (not_mem_rest ho h (urgent_of_parksOn hp) hn)

omit c ho in
/-- Nothing that lies under an instruction which is firm on a record is in the record's loop. -/
theorem ParkLoop.unlooped_of_firm (hf : i.parksOn isFirm r = true) :
    ∀ j ∈ rest, j.parksOn isLoop r = false := by
  intro j hj
  have ha := l.apart t
  rw [h] at ha
  exact (List.pairwise_cons.mp ha).1 j hj r hf

omit ho in
theorem ParkLoop.save_not_suspended {sleep : Mechanism} (hi : i = .park (.save sleep r)) :
    w.phaseOf r ≠ .suspended := by
  subst hi
  apply l.not_suspended c (t := t)
  · intro j hj
    rw [h] at hj
    rcases List.mem_cons.mp hj with rfl | hj
    · rfl
    · exact l.unlooped_of_firm h (parksOn_iff.mpr ⟨_, rfl, rfl, rfl⟩) j hj
  · exact c.parked (h ▸ List.mem_cons_self) rfl

omit ho in
theorem ParkLoop.sober_proceed (hm : j ∈ (w.proceed t i rest).codeOf t') : j.isSober = true := by
  rcases mem_codeOf_proceed h hm with ⟨rfl, hj⟩ | ⟨rfl, hj⟩ | ⟨_, hj⟩ | ⟨s, b, _, _, hj, _⟩
  · have hsave : ∀ sleep r, i = .park (.save sleep r) → w.phaseOf r ≠ .suspended :=
      fun sleep r hi => l.save_not_suspended c h hi
    have hs := run_sober (w := w.setCode t' rest) (t := t') i (l.sober (h ▸ List.mem_cons_self))
      hsave
    exact List.all_eq_true.mp hs j hj
  · exact l.sober (h ▸ List.mem_cons_of_mem _ hj)
  · exact l.sober hj
  · exact List.all_eq_true.mp (threadCode_sober s b) j hj

theorem ParkLoop.noted_proceed {p : Phase}
    (hx : .phase (some r) p ∈ (w.proceed t i rest).scopesOf t') :
    p ≠ .suspended := by
  rcases mem_scopesOf_proceed hx with hx | ⟨rfl, hn, hx⟩
  · exact l.noted hx
  · cases hx with
    | bare _ hb => cases hb
    | phase _ hb => exact l.not_suspended c (unlooped_of_not_nested ho h hn) (c.bound hb)

theorem ParkLoop.loop_proceed (hs : (w.proceed t i rest).phaseOf r = .suspended) :
    ∃ t', ∃ j ∈ (w.proceed t i rest).codeOf t', j.parksOn isLoop r = true := by
  have hi : i ∈ w.codeOf t := h ▸ List.mem_cons_self
  have hsober := l.sober hi
  have new {k : ParkInstr} (hk : .park k ∈ w.remainder t i rest) (hl : k.isLoop = true)
      (hr : k.record? = some r) :
      ∃ t', ∃ j ∈ (w.proceed t i rest).codeOf t', j.parksOn isLoop r = true := by
    refine ⟨t, .park k, ?_, parksOn_iff.mpr ⟨k, rfl, hl, hr⟩⟩
    rw [codeOf_proceed h]
    exact List.mem_append_left _ hk
  rcases phaseOf_proceed w t i rest r with he | he
  · obtain ⟨t', j, hj, hp⟩ := l.loop (he ▸ hs)
    -- unless the step is of the very loop, that loop still stands
    by_cases hji : t' = t ∧ j = i
    · obtain ⟨rfl, rfl⟩ := hji
      obtain ⟨k, rfl, hk, hr⟩ := parksOn_iff.mp hp
      cases k with
      | count p => exact new (k := .testRequest p) List.mem_cons_self rfl hr
      | testRequest p =>
        by_cases hq : (w.setCode t' rest).isRequested p.record = true
        · refine new (k := .testLevel p) ?_ rfl hr
          simp [remainder, Instr.run, ParkInstr.run, hq]
        · refine new (k := .restore p) ?_ rfl hr
          simp [remainder, Instr.run, ParkInstr.run, hq]
      | testLevel p =>
        by_cases hq : (w.setCode t' rest).levelOf p.record = .noBlock
        · refine new (k := .testRequest p) ?_ rfl hr
          simp [remainder, Instr.run, ParkInstr.run, hq]
        · refine new (k := .restore p) ?_ rfl hr
          simp [remainder, Instr.run, ParkInstr.run, hq]
      | restore p =>
        have hlt := lt_of_ownerOf (c.parked hi hr)
        rw [phaseOf_proceed_restore (Option.some.inj hr) hlt] at hs
        simp [Instr.isSober, Instr.notedPhase?, hs] at hsober
      | _ => cases hk
    · exact ⟨t', j, mem_codeOf_proceed_of_mem h hj fun ht hj' => hji ⟨ht, hj'⟩, hp⟩
  · -- the phase is new, and only the mark at the head of the loop sets this one
    rw [hs] at he
    generalize hq : Phase.suspended = q at he
    cases he with
    | set =>
      subst hq
      cases hsober
    | leave _ hx =>
      subst hq
      rw [innermost_eq] at hx
      exact absurd rfl (l.noted (List.mem_of_mem_head? hx))
    | mark p hr => exact new (k := .count p) List.mem_cons_self rfl (congrArg some hr)
    | restore p hr =>
      simp [Instr.isSober, Instr.notedPhase?, ← hq] at hsober
    | create => cases hq

omit c in
theorem ParkLoop.apart_remainder :
    (w.remainder t i rest ++ rest).Pairwise fun i j =>
      ∀ r, i.parksOn isFirm r = true → j.parksOn isLoop r = false := by
  have ha : (i :: rest).Pairwise fun i j =>
      ∀ r, i.parksOn isFirm r = true → j.parksOn isLoop r = false := h ▸ l.apart t
  refine List.pairwise_append.mpr ⟨run_apart i, (List.pairwise_cons.mp ha).2, ?_⟩
  intro i' hi' j hj r hf
  -- what is not nested stands on no loop at all
  have low (hn : i.isNested = false) : j.parksOn isLoop r = false := by
    apply unlooped_of_not_nested ho h hn
    rw [h]
    exact List.mem_cons_of_mem _ hj
  obtain ⟨k, rfl, hk, hr⟩ := parksOn_iff.mp hf
  rcases remainder_park hi' with ⟨k', rfl, hl⟩ | ⟨g, _, _, rfl, hg, _⟩ | ⟨s, _, _, rfl, _, _⟩
  · rcases hl.firm hk hr with hk' | hs
    · exact l.unlooped_of_firm h (parksOn_iff.mpr ⟨k', rfl, hk'⟩) j hj
    · cases hp : j.parksOn isLoop r
      · rfl
      · exact absurd (l.phase (h ▸ List.mem_cons_of_mem _ hj) hp) hs
  · exact low (not_nested_of_wary hg)
  · exact low rfl

omit c in
theorem ParkLoop.apart_proceed (t' : ThreadId) :
    ((w.proceed t i rest).codeOf t').Pairwise fun i j =>
      ∀ r, i.parksOn isFirm r = true → j.parksOn isLoop r = false := by
  exact codeOf_proceed_cases h (l.apart_remainder ho h) (l.apart t') List.Pairwise.nil fun s b => by
    simp [threadCode, Instr.parksOn]

theorem ParkLoop.proceed : ParkLoop (w.proceed t i rest) where
  level := l.level_proceed c ho h
  apart := l.apart_proceed ho h
  phase := l.phase_proceed c ho h
  loop := l.loop_proceed c ho h
  sober := l.sober_proceed c h
  noted := l.noted_proceed c ho h

end Proceed

/-! Code that comes from no instruction looks at the level and the phase before it parks. -/

/-- The instruction is neither bound for a park loop nor in one. -/
def Instr.isLoose (i : Instr) : Bool :=
  match i with
  | .park k => !k.isCommitted && !k.isFirm
  | _ => true

theorem not_parksOn_of_loose (h : i.isLoose = true) (r : RecordId) :
    i.parksOn isCommitted r = false ∧ i.parksOn isFirm r = false ∧
      i.parksOn isLoop r = false := by
  cases i with
  | park k =>
    simp only [Instr.isLoose, Bool.and_eq_true, Bool.not_eq_true'] at h
    refine ⟨by simp [Instr.parksOn, h.1], by simp [Instr.parksOn, h.2], ?_⟩
    cases hk : k.isLoop
    · simp [Instr.parksOn, hk]
    · rw [isFirm_of_isLoop hk] at h
      cases h.2
  | _ => exact ⟨rfl, rfl, rfl⟩

theorem loose_of_plain {code : List Instr} (h : code.all Instr.isPlain = true) :
    code.all Instr.isLoose = true := by
  apply List.all_eq_true.mpr
  intro j hj
  have hu := calm_of_plain h j hj
  cases j with
  | park => cases hu
  | _ => rfl

theorem Call.code_loose (c : Call) : (c.code w t).all Instr.isLoose = true := by
  rcases c.code_plain (w := w) (t := t) with h | ⟨s, b, _, _, h⟩
  · exact loose_of_plain h
  · rw [h]
    rfl

theorem handlerCode_loose : (w.handlerCode t).all Instr.isLoose = true := by
  rw [handlerCode_eq]
  split <;> rfl

theorem handlerCode_sober : (w.handlerCode t).all Instr.isSober = true := by
  rw [handlerCode_eq]
  split <;> rfl

/-- Code taken otherwise than by an instruction is loose and sober, above the code before. -/
theorem World.Takes.loose {code : List Instr} (h : Takes w t e code) :
    ∃ new old, code = new ++ old ∧ old.Sublist (w.codeOf t) ∧ new.all Instr.isLoose = true ∧
      new.all Instr.isSober = true := by
  cases h with
  | interrupt h =>
    refine ⟨_, _, rfl, List.Sublist.refl _, ?_, ?_⟩
    · rw [List.all_append, handlerCode_loose]
      rfl
    · rw [List.all_append, handlerCode_sober]
      rfl
  | invoke c h => exact ⟨_, _, rfl, List.Sublist.refl _, c.code_loose, c.code_sober⟩
  | finish p h =>
    unfold epilogue
    split
    next s r rest hc =>
      refine ⟨_, _, rfl, ?_, ?_, ?_⟩
      · rw [← hc]
        exact List.tail_sublist _
      · split <;> rfl
      · split <;> rfl
    next => exact ⟨[], _, rfl, List.tail_sublist _, rfl, rfl⟩

section Undisturbed

variable (l : ParkLoop w) (u : Undisturbed w e w')
include l u

theorem ParkLoop.undisturbed : ParkLoop w' := by
  have hlevel (r : RecordId) : w'.levelOf r = w.levelOf r := u.ofRecord
  have hphase (r : RecordId) : w'.phaseOf r = w.phaseOf r := u.ofRecord
  -- no level, phase or scope changes; new code is loose, so none of it parks on a record
  have hold {t j} (hj : j ∈ w'.codeOf t) :
      j ∈ w.codeOf t ∨ j.isLoose = true ∧ j.isSober = true := by
    rcases u.code t with hc | hc
    · exact Or.inl (hc ▸ hj)
    · obtain ⟨new, old, he, hs, hl, hb⟩ := hc.loose
      rw [he] at hj
      rcases List.mem_append.mp hj with hj | hj
      · exact Or.inr ⟨List.all_eq_true.mp hl j hj, List.all_eq_true.mp hb j hj⟩
      · exact Or.inl (hs.subset hj)
  constructor
  case level =>
    intro t j r hj hp
    rw [hlevel]
    rcases hold hj with hj | ⟨hl, _⟩
    · exact l.level hj hp
    · rw [(not_parksOn_of_loose hl r).1] at hp
      cases hp
  -- loose code parks on nothing, so it is apart from all that it is put on
  case apart =>
    intro t
    rcases u.code t with hc | hc
    · rw [hc]
      exact l.apart t
    · obtain ⟨new, old, he, hs, hl, _⟩ := hc.loose
      have hnew : ∀ i ∈ new, ∀ r, i.parksOn isFirm r = false :=
        fun i hi r => (not_parksOn_of_loose (List.all_eq_true.mp hl i hi) r).2.1
      rw [he]
      refine List.pairwise_append.mpr ⟨?_, (l.apart t).sublist hs, ?_⟩
      · apply List.pairwise_of_forall_mem_list
        intro i hi j _ r hf
        rw [hnew i hi r] at hf
        cases hf
      · intro i hi j _ r hf
        rw [hnew i hi r] at hf
        cases hf
  case phase =>
    intro t j r hj hp
    rw [hphase]
    rcases hold hj with hj | ⟨hl, _⟩
    · exact l.phase hj hp
    · rw [(not_parksOn_of_loose hl r).2.2] at hp
      cases hp
  case loop =>
    intro r hs
    rw [hphase] at hs
    obtain ⟨t, j, hj, hp⟩ := l.loop hs
    refine ⟨t, j, ?_, hp⟩
    rcases u.code t with hc | hc
    · rw [hc]
      exact hj
    · refine hc.mem_of_mem hj ?_
      rintro rfl
      cases hp
  case sober =>
    intro t j hj
    rcases hold hj with hj | ⟨_, hs⟩
    · exact l.sober hj
    · exact hs
  case noted =>
    intro t r p hx
    exact l.noted (u.scopes t ▸ hx)

end Undisturbed

theorem Reachable.parkLoop (h : Reachable n w) : ParkLoop w := by
  refine h.induct (parkLoop_initial n) ?_
  intro w e hw l
  rcases w.step_cases e with ⟨t, i, rest, _, hc, _, hs⟩ | hu
  · rw [hs]
    exact l.proceed hw.custody (hw.orderly t) hc
  · exact l.undisturbed hu

end Standstill
