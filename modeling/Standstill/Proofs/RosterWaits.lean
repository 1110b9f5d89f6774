import Standstill.Proofs.StoppedWorld
import Standstill.Proofs.Unparked

/-!
Waiting on a roster. Three kinds of threads sleep in the queue of a roster: one that has started
another and waits until that is on its way, one that waits at the start gate, and one that waits for
the last thread to end that is no daemon. Each looks at what it waits for with the lock of the roster
in its hand, before it goes to sleep and whenever it has been woken.
-/
namespace Standstill

open World

variable {n : Nat} {w w' : World} {t t' q : ThreadId} {s b : ServiceId} {r : RecordId} {l : Lock}
  {m : Option Nat} {i j : Instr} {code rest top : List Instr} {e : Event}

namespace Instr

/-- With the lock of the roster in its hand the thread looks at what it waits for. -/
def isLook (s : ServiceId) : Instr → Bool
  | .member (.spawnWait b _) | .member (.gateWait b _) | .member (.awaitExitCheck b _) => b == s
  | _ => false

/-- What the thread looks at is as it shall be. -/
def isMet (w : World) : Instr → Bool
  | .member (.spawnWait _ r) => w.startedOf r
  | .member (.gateWait s _) => !(w.census s).allSuspended
  | .member (.awaitExitCheck s _) => (w.census s).nonDaemon == 0
  | _ => false

/-- The thread is about to go to sleep in the queue of a roster, or sleeps there. -/
def isBedtime : Instr → Bool
  | .sync (.wait (.roster _) _ _) | .sync (.resting (.roster _) _) => true
  | _ => false

/-- By the instruction something comes to be as others wait for it to be. -/
def isGrant (s : ServiceId) : Instr → Bool
  | .member (.noteStarted _) => true
  | .stop (.openGate b) | .member (.exitRemove b _) => b == s
  | _ => false

/-- The thread is on its way to sleep in the queue of a roster, or to wake those who do. -/
def isLead : Instr → Bool
  | .sync (.wait (.roster _) _ _) | .sync (.resting (.roster _) _) | .stop (.openGate _)
  | .member (.noteStarted _) | .member (.spawnWait ..) => true
  | _ => false

/-- What comes next: after a sleep a look, and a call after a grant. -/
def IsFollowed (i : Instr) (rest : List Instr) : Prop :=
  match i with
  | .sync (.wait (.roster s) l _) => l = .roster s ∧ ∃ j code, rest = j :: code ∧ j.isLook s = true
  | .sync (.resting (.roster s) _) =>
    ∃ j code, rest = .sync (.acquire (.roster s)) :: j :: code ∧ j.isLook s = true
  | .stop (.openGate s) =>
    ∃ code, rest = .sync (.release (.roster s)) :: .sync (.notifyAll (.roster s)) :: code
  | .member (.noteStarted _) =>
    ∃ s code, rest = .sync (.release (.roster s)) :: .sync (.notifyAll (.roster s)) ::
      .guard (.lower s) :: code
  | _ => True

/-- The instruction brings its thread there. -/
def isLeader : Instr → Bool
  | .sync (.wait (.roster _) _ _) | .stop (.freeOthers _) | .member (.spawnNative ..)
  | .member (.spawnWait ..) | .member (.gateWait ..) | .member (.awaitExitCheck ..) => true
  | _ => false

end Instr

/-- Every instruction of the code is followed as it shall be. -/
def Trails : List Instr → Prop
  | [] => True
  | i :: rest => i.IsFollowed rest ∧ Trails rest

theorem followed_of_not_lead (h : i.isLead = false) : i.IsFollowed rest := by
  cases i with
  | sync k =>
    cases k with
    | wait q => cases q <;> trivial
    | resting q => cases q <;> trivial
    | _ => trivial
  | stop k => cases k <;> trivial
  | member k => cases k <;> trivial
  | _ => trivial

theorem Trails.append (hr : Trails rest) (hc : ∀ j ∈ code, j.isLead = false) :
    Trails (code ++ rest) := by
  induction code with
  | nil => exact hr
  | cons i code ih =>
    exact ⟨followed_of_not_lead (hc i List.mem_cons_self),
      ih fun j hj => hc j (List.mem_cons_of_mem _ hj)⟩

theorem trails_of_leadless (h : ∀ j ∈ code, j.isLead = false) : Trails code := by
  have hn : Trails [] := trivial
  simpa using hn.append h

theorem Trails.suffix (hr : Trails rest) (hc : code <:+ rest) : Trails code := by
  obtain ⟨top, rfl⟩ := hc
  induction top with
  | nil => exact hr
  | cons i top ih => exact ih hr.2

theorem Trails.followed (h : Trails (top ++ i :: rest)) : i.IsFollowed rest :=
  (h.suffix (List.suffix_append top _)).1

theorem lead_of_bedtime (h : i.isBedtime = true) : i.isLead = true := by
  cases i with
  | sync k =>
    cases k with
    | wait q => cases q <;> first | rfl | cases h
    | resting q => cases q <;> first | rfl | cases h
    | _ => cases h
  | _ => cases h

theorem leadless_of_nested (h : code.all Instr.isNested = true) : ∀ j ∈ code, j.isLead = false := by
  intro j hj
  have hn := List.all_eq_true.mp h j hj
  cases j with
  | sync k =>
    cases k with
    | wait q => cases q <;> first | rfl | cases hn
    | resting q => cases q <;> first | rfl | cases hn
    | _ => rfl
  | stop | member => cases hn
  | _ => rfl

/-! New code, and where in it leads are. -/

section NewCode

attribute [local simp] Instr.isLead

theorem GuardInstr.run_leadless (i : GuardInstr) : (i.run t w).2.all (!·.isLead) = true := by
  cases i <;> simp only [GuardInstr.run] <;> repeat' split
  all_goals rfl

theorem leadless_of_work (h : i.isWork = true) : (!i.isLead) = true := by
  cases i with
  | sync k =>
    cases k with
    | wait q => cases q <;> first | rfl | cases h
    | resting => cases h
    | _ => rfl
  | stop | member => cases h
  | _ => rfl

theorem StopInstr.run_leadless (i : StopInstr) (h : (Instr.stop i).isLeader = false) :
    (i.run t w).2.all (!·.isLead) = true := by
  cases i with
  | freeOthers => cases h
  | haltOthers s => simp [StopInstr.run, Instr.isLead]
  | scanRequest s d rs settled =>
    cases rs <;> simp only [StopInstr.run]
    · rfl
    · split <;> rfl
  | _ =>
    simp only [StopInstr.run, resumeAllCode]
    repeat' split
    all_goals rfl

theorem MemberInstr.run_leadless (i : MemberInstr) (h : (Instr.member i).isLeader = false) :
    (i.run t w).2.all (!·.isLead) = true := by
  cases i with
  | spawnNative | spawnWait | gateWait | awaitExitCheck => cases h
  | _ =>
    simp only [MemberInstr.run]
    repeat' split
    all_goals rfl

theorem run_leadless (i : Instr) (hu : i ≠ .user) (h : i.isLeader = false) :
    ∀ j ∈ (i.run t w).2, j.isLead = false := by
  have of {code : List Instr} (h : code.all (!·.isLead) = true) : ∀ j ∈ code, j.isLead = false :=
    fun j hj => by simpa using List.all_eq_true.mp h j hj
  cases i with
  | user => exact absurd rfl hu
  | sync k =>
    cases k with
    | wait q =>
      cases q with
      | roster => cases h
      | _ => exact of rfl
    | _ => exact of rfl
  | guard k => exact of k.run_leadless
  | park k => exact leadless_of_nested (run_nested (i := .park k) rfl)
  | stop k => exact of (k.run_leadless h)
  | pool k => exact of (all_imp leadless_of_work k.run_work)
  | member k => exact of (k.run_leadless h)
  | read k => exact of (all_imp leadless_of_work k.run_work)

theorem refuseCode_leadless (s : ServiceId) : (refuseCode s).all (!·.isLead) = true := rfl

theorem Call.code_leadless (c : Call) : (c.code w t).all (!·.isLead) = true := by
  cases c with
  | mutex s a c | cond s a c => cases a <;> cases c <;> rfl
  | safePoint s =>
    simp only [Call.code]
    split <;> rfl
  | _ => rfl

end NewCode

/-- Whatever an instruction leaves to do is followed as it shall be. -/
theorem Trails.run (h : Trails (i :: rest)) (hu : i ≠ .user) : Trails ((i.run t w).2 ++ rest) := by
  obtain ⟨hi, hr⟩ := h
  have leave (s : ServiceId) : Trails (leaveRoster s ++ rest) :=
    hr.append fun j hj => by simp [leaveRoster] at hj; rcases hj with rfl | rfl <;> rfl
  by_cases hl : i.isLeader = true
  · cases i with
    | sync k =>
      cases k with
      -- the sleep in the queue of a roster is followed by the look that it was put on
      | wait q l d =>
        cases q with
        | roster s =>
          obtain ⟨rfl, j, code, rfl, hj⟩ := hi
          exact ⟨⟨j, code, rfl, hj⟩, trivial, hr⟩
        | _ => cases hl
      | _ => cases hl
    | stop k =>
      cases k with
      | freeOthers s =>
        simp only [Instr.run, StopInstr.run, List.append_assoc]
        -- the requests are taken back one by one before the gate is opened
        refine Trails.append ⟨⟨_, rfl⟩, trivial, trivial, trivial, hr⟩ fun j hj => ?_
        obtain ⟨b, _, rfl⟩ := List.mem_map.mp hj
        rfl
      | _ => cases hl
    | member k =>
      cases k with
      | spawnNative s r =>
        simp only [Instr.run, MemberInstr.run]
        split
        · split
          · exact hr
          · split
            · split
              · exact hr.append fun j hj => by
                  simpa using List.all_eq_true.mp (refuseCode_leadless s) j hj
              · exact hr
            · exact ⟨trivial, trivial, trivial, hr⟩
        · exact hr
      | spawnWait s r =>
        simp only [Instr.run, MemberInstr.run]
        split
        · exact leave s
        · split
          · exact leave s
          · exact ⟨⟨rfl, _, _, rfl, beq_self_eq_true s⟩, trivial, hr⟩
      | gateWait s r =>
        simp only [Instr.run, MemberInstr.run]
        split
        · exact ⟨⟨rfl, _, _, rfl, beq_self_eq_true s⟩, trivial, hr⟩
        · exact ⟨trivial, trivial, ⟨s, _, rfl⟩, trivial, trivial, trivial, hr⟩
      | awaitExitCheck s d =>
        simp only [Instr.run, MemberInstr.run]
        split
        · exact leave s
        · split
          · exact leave s
          · exact ⟨⟨rfl, _, _, rfl, beq_self_eq_true s⟩, trivial, hr⟩
      | _ => cases hl
    | _ => cases hl
  · exact hr.append (run_leadless i hu (by simpa using hl))

/-- A thread goes to sleep in the queue of a roster after a look at what it waits for. -/
theorem look_of_run (hu : i ≠ .user) (hj : .sync (.wait (.roster s) l m) ∈ (i.run t w).2) :
    i.isLook s = true ∧ i.isMet w = false ∧
      (i.run t w).2 = [.sync (.wait (.roster s) (.roster s) m), i] := by
  -- only a leader puts a wait in front of other code
  by_cases hl : i.isLeader = true
  · cases i with
    | sync k =>
      cases k with
      | wait q l d => simp [Instr.run, SyncInstr.run] at hj
      | _ => cases hl
    | stop k =>
      cases k with
      | freeOthers s => simp [Instr.run, StopInstr.run] at hj
      | _ => cases hl
    | member k =>
      cases k with
      | spawnNative b r =>
        simp only [Instr.run, MemberInstr.run] at hj
        repeat' split at hj
        all_goals simp [refuseCode, guarded, locked] at hj
      -- each of the three looks goes to sleep only if what it waits for is not met
      | spawnWait b r =>
        simp only [Instr.run, MemberInstr.run] at hj ⊢
        split at hj
        · simp [leaveRoster] at hj
        next c hc =>
          split at hj
          · simp [leaveRoster] at hj
          next hs =>
            simp only [List.mem_cons, Instr.sync.injEq, SyncInstr.wait.injEq, WaitList.roster.injEq,
              reduceCtorEq, List.not_mem_nil, or_false] at hj
            obtain ⟨rfl, rfl, rfl⟩ := hj
            refine ⟨beq_self_eq_true s, ?_, if_neg hs⟩
            simpa [Instr.isMet, startedOf, ofRecord, hc] using hs
      | gateWait b r =>
        simp only [Instr.run, MemberInstr.run] at hj ⊢
        split at hj
        next hs =>
          simp only [List.mem_cons, Instr.sync.injEq, SyncInstr.wait.injEq, WaitList.roster.injEq,
            reduceCtorEq, List.not_mem_nil, or_false] at hj
          obtain ⟨rfl, rfl, rfl⟩ := hj
          exact ⟨beq_self_eq_true s, by simp [Instr.isMet, hs], if_pos hs⟩
        · simp at hj
      | awaitExitCheck b x =>
        simp only [Instr.run, MemberInstr.run] at hj ⊢
        split at hj
        · simp [leaveRoster] at hj
        next hs =>
          split at hj
          · simp [leaveRoster] at hj
          next hx =>
            simp only [List.mem_cons, Instr.sync.injEq, SyncInstr.wait.injEq, WaitList.roster.injEq,
              reduceCtorEq, List.not_mem_nil, or_false] at hj
            obtain ⟨rfl, rfl, rfl⟩ := hj
            refine ⟨beq_self_eq_true s, by simpa [Instr.isMet] using hs, ?_⟩
            rw [if_neg hs, if_neg hx]
      | _ => cases hl
    | _ => cases hl
  · have hn := run_leadless i hu (by simpa using hl) _ hj
    cases hn

theorem resting_of_run (hu : i ≠ .user) (hj : .sync (.resting (.roster s) m) ∈ (i.run t w).2) :
    ∃ l, i = .sync (.wait (.roster s) l m) := by
  by_cases hl : i.isLeader = true
  · cases i with
    | sync k =>
      cases k with
      | wait q l x =>
        simp only [Instr.run, SyncInstr.run, List.mem_cons, Instr.sync.injEq,
          SyncInstr.resting.injEq, reduceCtorEq, List.not_mem_nil, or_false] at hj
        obtain ⟨rfl, rfl⟩ := hj
        exact ⟨l, rfl⟩
      | _ => cases hl
    | stop k =>
      cases k with
      | freeOthers s => simp [Instr.run, StopInstr.run] at hj
      | _ => cases hl
    | member k =>
      cases k with
      | spawnNative | spawnWait | gateWait | awaitExitCheck =>
        simp only [Instr.run, MemberInstr.run] at hj
        repeat' split at hj
        all_goals simp [leaveRoster, refuseCode, guarded, locked] at hj
      | _ => cases hl
    | _ => cases hl
  · have hn := run_leadless i hu (by simpa using hl) _ hj
    cases hn

theorem not_bedtime_of_look (h : i.isLook s = true) : i.isBedtime = false := by
  cases i with
  | sync k => cases h
  | _ => rfl

/-- At bedtime an instruction leaves nothing else to do before. -/
theorem bedtime_of_run (hu : i ≠ .user) (hj : j ∈ (i.run t w).2) (hb : j.isBedtime = true) :
    ∃ k, (i.run t w).2 = [j, k] ∧ k.isBedtime = false := by
  cases j with
  | sync k =>
    cases k with
    | wait q l d =>
      cases q with
      | roster s =>
        obtain ⟨hl, -, hc⟩ := look_of_run hu hj
        rw [hc] at hj ⊢
        rcases List.mem_cons.mp hj with he | hj
        · exact ⟨i, by rw [he], not_bedtime_of_look hl⟩
        · rw [← List.mem_singleton.mp hj] at hl
          cases hl
      | _ => cases hb
    | resting q d =>
      cases q with
      | roster s =>
        obtain ⟨l, rfl⟩ := resting_of_run hu hj
        exact ⟨.sync (.acquire l), rfl, rfl⟩
      | _ => cases hb
    | _ => cases hb
  | _ => cases hb

/-- A thread has nothing but nested code before its bedtime. -/
def Early (code : List Instr) : Prop :=
  code.Pairwise fun i j => j.isBedtime = true → i.isNested = true

theorem early_of_leadless (h : ∀ j ∈ code, j.isLead = false) : Early code :=
  List.Pairwise.imp_of_mem (R := fun _ _ => True)
    (fun _ hj _ hb => absurd (lead_of_bedtime hb) (by rw [h _ hj]; exact Bool.false_ne_true))
    (List.pairwise_of_forall fun _ _ => trivial)

theorem run_early (hu : i ≠ .user) : Early (i.run t w).2 := by
  by_cases hb : ∃ j ∈ (i.run t w).2, j.isBedtime = true
  · obtain ⟨j, hj, hb⟩ := hb
    obtain ⟨k, hc, hk⟩ := bedtime_of_run hu hj hb
    rw [hc, Early, List.pairwise_pair, hk]
    exact fun h => by cases h
  · exact List.Pairwise.imp_of_mem (R := fun _ _ => True) (fun _ hj _ h => absurd ⟨_, hj, h⟩ hb)
      (List.pairwise_of_forall fun _ _ => trivial)

theorem Early.above (h : Early (top ++ j :: rest)) (hj : j.isBedtime = true) :
    top.all Instr.isNested = true :=
  List.all_eq_true.mpr fun i hi =>
    (List.pairwise_append.mp h).2.2 i hi j List.mem_cons_self hj

theorem Early.run (h : Early (i :: rest)) (hu : i ≠ .user) : Early ((i.run t w).2 ++ rest) := by
  obtain ⟨hi, hr⟩ := List.pairwise_cons.mp h
  refine List.pairwise_append.mpr ⟨run_early hu, hr, fun a ha b hb hbed => ?_⟩
  exact List.all_eq_true.mp (run_nested (hi b hb hbed)) a ha

/-- A thread waits for one that has been started by it, and started once. -/
theorem spawnWait_of_run (hu : i ≠ .user) (hj : .member (.spawnWait s r) ∈ (i.run t w).2) :
    i = .member (.spawnNative s r) ∨ i = .member (.spawnWait s r) := by
  by_cases hl : i.isLeader = true
  · cases i with
    | sync k =>
      cases k with
      | wait q l x => simp [Instr.run, SyncInstr.run] at hj
      | _ => cases hl
    | stop k =>
      cases k with
      | freeOthers s => simp [Instr.run, StopInstr.run] at hj
      | _ => cases hl
    | member k =>
      cases k with
      | spawnNative | spawnWait | gateWait | awaitExitCheck =>
        simp only [Instr.run, MemberInstr.run] at hj
        repeat' split at hj
        all_goals simp [leaveRoster, refuseCode, guarded, locked] at hj
        all_goals simp [hj]
      | _ => cases hl
    | _ => cases hl
  · have hn := run_leadless i hu (by simpa using hl) _ hj
    cases hn

/-- Code taken otherwise than by an instruction has nothing to do with the queue of a roster. -/
theorem World.Takes.leadless (h : Takes w t e code) : ∃ new old, code = new ++ old ∧
    old <:+ w.codeOf t ∧ (∀ j ∈ new, j.isLead = false) ∧
      (new.all Instr.isNested = true ∨ w.inUser t = true) := by
  obtain ⟨new, old, hc, hs, hnew⟩ := h.split
  refine ⟨new, old, hc, hs, ?_, hnew.imp And.left And.left⟩
  rcases hnew with ⟨hn, -⟩ | ⟨-, hn⟩
  · exact leadless_of_nested hn
  · intro j hj
    rcases hn j hj with ⟨c, -, hc⟩ | ⟨s, r, rfl⟩
    · simpa using List.all_eq_true.mp c.code_leadless j hc
    · rfl

theorem World.Takes.trails (h : Takes w t e code) (hr : Trails (w.codeOf t)) : Trails code := by
  obtain ⟨new, old, rfl, hs, hn, -⟩ := h.leadless
  exact (hr.suffix hs).append hn

/-- No bedtime lies below code of the thread's own. -/
theorem Early.not_bedtime (h : Early (w.codeOf t)) (hu : w.inUser t = true) (hj : j ∈ w.codeOf t) :
    j.isBedtime = false := by
  obtain ⟨rest, hc⟩ := head_user hu
  rw [hc] at h hj
  rcases List.mem_cons.mp hj with rfl | hj
  · rfl
  · cases hb : j.isBedtime
    · rfl
    · cases (List.pairwise_cons.mp h).1 j hj hb

theorem World.Takes.early (h : Takes w t e code) (hr : Early (w.codeOf t)) : Early code := by
  obtain ⟨new, old, rfl, hs, hn, hx⟩ := h.leadless
  refine List.pairwise_append.mpr ⟨early_of_leadless hn, hr.sublist hs.sublist, ?_⟩
  intro a ha b hb hbed
  rcases hx with hx | hx
  · exact List.all_eq_true.mp hx a ha
  · rw [hr.not_bedtime hx (hs.subset hb)] at hbed
    cases hbed

/-! What a step does to that which threads wait for. -/

section Census

variable {g : Roster} (hs : RosterStep w s i g)
include hs

theorem RosterStep.opens (hn : (w.census s).allSuspended = true)
    (hy : g.census.allSuspended = false) : i = .stop (.openGate s) := by
  have same (h : g.census.allSuspended = (w.census s).allSuspended) : i = .stop (.openGate s) := by
    rw [h, hn] at hy
    cases hy
  cases hs with
  | openGate => rfl
  | closeGate => cases hy
  | still | publish | gateEnter => exact same rfl
  | gatePass r daemon => exact same (by cases daemon <;> rfl)
  | detachRemove r l => exact same (by split <;> rfl)
  | exitRemove r daemon => exact same (by cases daemon <;> rfl)

theorem RosterStep.empties (hn : (w.census s).nonDaemon ≠ 0) (hy : g.census.nonDaemon = 0) :
    ∃ r, i = .member (.exitRemove s r) := by
  have same (h : (w.census s).nonDaemon ≤ g.census.nonDaemon) :
      ∃ r, i = .member (.exitRemove s r) := absurd (Nat.le_zero.mp (hy ▸ h)) hn
  cases hs with
  | exitRemove r daemon => exact ⟨r, rfl⟩
  | still | publish | gateEnter | closeGate | openGate => exact same (Nat.le_refl _)
  | gatePass r daemon =>
    cases daemon
    · exact same (Nat.le_succ _)
    · exact same (Nat.le_refl _)
  | detachRemove r l => exact same (by split <;> exact Nat.le_refl _)

end Census

/-- What a thread waits for comes to be by a grant. -/
theorem grant_of_met (hw : Lawful n w) (h : w.codeOf t = i :: rest) (hj : j.isLook s = true)
    (hk : ∀ b r, j = .member (.spawnWait b r) → r < w.records.length) (hn : j.isMet w = false)
    (hy : j.isMet (w.proceed t i rest) = true) : i.isGrant s = true := by
  have hs := hw.rostered.step hw h s
  cases j with
  | member k =>
    cases k with
    | spawnWait b r =>
      have hn : w.startedOf r = false := hn
      by_contra hi
      rw [Instr.isMet, startedOf_proceed (hk b r rfl) (by rintro rfl; exact hi rfl), hn] at hy
      cases hy
    | gateWait b r =>
      obtain rfl := eq_of_beq hj
      have hy : ((w.proceed t i rest).census b).allSuspended = false := by
        simpa [Instr.isMet] using hy
      -- one instruction alone opens the gate
      rw [hs.opens (by simpa [Instr.isMet] using hn) hy]
      exact beq_self_eq_true b
    | awaitExitCheck b d =>
      obtain rfl := eq_of_beq hj
      have hy : ((w.proceed t i rest).census b).nonDaemon = 0 := by simpa [Instr.isMet] using hy
      obtain ⟨r, rfl⟩ := hs.empties (by simpa [Instr.isMet] using hn) hy
      exact beq_self_eq_true b
    | _ => cases hj
  | _ => cases hj

/-! Who sleeps in the queue of a roster, and what was true when it went to sleep. -/

/-- Threads sleep in the queue of a roster after a look at what they wait for, which was not there. -/
structure Queued (w : World) : Prop where
  trails : ∀ t, Trails (w.codeOf t)
  early : ∀ t, Early (w.codeOf t)
  rests : ∀ {s t}, (.roster s, t) ∈ w.asleep → ∃ d, .sync (.resting (.roster s) d) ∈ w.codeOf t
  once : ∀ s t, w.asleep.count (.roster s, t) ≤ 1
  known : ∀ {t s r}, .member (.spawnWait s r) ∈ w.codeOf t → r < w.records.length
  unmet : ∀ {t s l d j top rest}, w.codeOf t = top ++ .sync (.wait (.roster s) l d) :: j :: rest →
    j.isMet w = false

theorem queued_initial (n : Nat) : Queued (World.initial n) := by
  have hcode (t : ThreadId) : ∀ j ∈ (World.initial n).codeOf t, j.isLead = false := by
    intro j hj
    rw [eq_user_of_initial hj]
    rfl
  constructor
  case trails => exact fun t => trails_of_leadless (hcode t)
  case early => exact fun t => early_of_leadless (hcode t)
  case rests => exact fun hm => absurd hm List.not_mem_nil
  case once => exact fun _ _ => Nat.zero_le _
  case known =>
    intro t s r hj
    cases hcode t _ hj
  case unmet =>
    intro t s l d j top rest hc
    have hj := hcode t (.sync (.wait (.roster s) l d)) (by rw [hc]; simp)
    cases hj

/-- Whoever is about to go to sleep in the queue of a roster has its lock. -/
theorem held_of_wait (k : Keeping w) (he : Early (w.codeOf t))
    (h : w.codeOf t = top ++ .sync (.wait (.roster s) (.roster s) m) :: rest) :
    (.roster s, t) ∈ w.held := by
  obtain ⟨hs, hk⟩ := k.keeps t
  have hf := hk.code
  rw [h] at hf he
  have hl : Hold.lock (.roster s) ∈ hs := mem_of_fits hf
    (fun a ha ho => closes_of_nested (List.all_eq_true.mp (he.above rfl) a ha) ho)
    (List.mem_singleton.mpr rfl)
  rw [← mem_locksOf, hk.locks]
  exact List.mem_filterMap.mpr ⟨_, hl, rfl⟩

/-- Whoever grants something does so with the lock of the roster in its hand. -/
theorem held_of_grant (hw : Alone n w) (hs : s < w.services.length)
    (h : w.codeOf t = i :: rest) (hi : i.isGrant s = true) : (.roster s, t) ∈ w.held := by
  have hmem : i ∈ w.codeOf t := h ▸ List.mem_cons_self
  have k := hw.reachable.keeping
  cases i with
  | stop i =>
    cases i with
    | openGate b =>
      obtain rfl := eq_of_beq hi
      exact k.held_of_head h (List.mem_singleton.mpr rfl)
    | _ => cases hi
  | member i =>
    cases i with
    | exitRemove b r =>
      obtain rfl := eq_of_beq hi
      exact k.held_of_head h (List.mem_singleton.mpr rfl)
    | noteStarted r =>
      have hr := lt_of_record hw.reachable.custody hmem (r := r) rfl
      obtain ⟨b, hb⟩ := Option.isSome_iff_exists.mp (homeOf_isSome.mpr hr)
      have hz : s = b := by
        rw [hw.homeOf_eq hb]
        exact Nat.lt_one_iff.mp (hs.trans_le hw.uniform.single)
      exact hz ▸ (hw.lawful.enrolled.noted hmem hb).2
    | _ => cases hi
  | _ => cases hi

theorem not_grant_of_nested (hn : i.isNested = true) : i.isGrant s = false := by
  cases i with
  | stop | member => cases hn
  | _ => rfl

theorem not_grant_of_look (hj : j.isLook b = true) : j.isGrant s = false := by
  cases j with
  | member k => cases k <;> first | rfl | cases hj
  | stop => cases hj
  | _ => rfl

theorem service_of_look (hj : j.isLook s = true) : j.service? = some s := by
  cases j with
  | member k => cases k <;> first | exact congrArg some (eq_of_beq hj) | cases hj
  | _ => cases hj

theorem isMet_setCode : j.isMet (w.setCode t code) = j.isMet w := by
  cases j with
  | member k => cases k <;> rfl
  | _ => rfl

section Proceed

variable (d : Queued w) (h : w.codeOf t = i :: rest) (hu : i.isReady w t = true)
include d h hu

/-- Code after a step: what the instruction has left on top of the rest, or another thread's. -/
theorem Queued.trails_proceed (t' : ThreadId) : Trails ((w.proceed t i rest).codeOf t') := by
  have hr := d.trails t
  rw [h] at hr
  exact codeOf_proceed_cases h (hr.run (ne_user_of_ready hu)) (d.trails t') trivial
    fun s r => ⟨trivial, trivial, trivial, trivial, trivial, trivial, trivial, trivial, trivial,
      trivial, trivial⟩

theorem Queued.early_proceed (t' : ThreadId) : Early ((w.proceed t i rest).codeOf t') := by
  have hr := d.early t
  rw [h] at hr
  exact codeOf_proceed_cases h (hr.run (ne_user_of_ready hu)) (d.early t') List.Pairwise.nil
    fun s r => early_of_leadless (by simp [threadCode, Instr.isLead])

omit hu in
theorem Queued.rests_proceed (ha : (.roster s, t') ∈ (w.proceed t i rest).asleep) :
    ∃ m, .sync (.resting (.roster s) m) ∈ (w.proceed t i rest).codeOf t' := by
  rcases mem_asleep_proceed ha with hold | ⟨ht, l, m, rfl⟩
  · obtain ⟨m, hm⟩ := d.rests hold
    by_cases hx : t' = t → Instr.sync (.resting (.roster s) m) ≠ i
    · exact ⟨m, mem_codeOf_proceed_of_mem h hm hx⟩
    · -- the thread has run the end of its sleep, and it slept there once
      obtain ⟨rfl, hi⟩ := Classical.not_imp.mp hx
      obtain rfl := Classical.not_not.mp hi
      have hc : 0 < (w.asleep.erase (.roster s, t')).count (.roster s, t') :=
        List.count_pos_iff.mpr ha
      rw [List.count_erase_self] at hc
      have h1 := d.once s t'
      omega
  · obtain rfl : t' = t := ht
    refine ⟨m, ?_⟩
    rw [codeOf_proceed h]
    exact List.mem_append_left _ List.mem_cons_self

omit hu in
/-- A thread that is about to go to sleep in the queue of a roster does not sleep there yet. -/
theorem Queued.awake (hi : i = .sync (.wait (.roster s) l m)) : (.roster s, t) ∉ w.asleep := by
  intro ha
  obtain ⟨x, hx⟩ := d.rests ha
  have he := d.early t
  rw [h, hi] at he
  rw [h, hi] at hx
  rcases List.mem_cons.mp hx with hx | hx
  · cases hx
  · cases (List.pairwise_cons.mp he).1 _ hx rfl

omit hu in
theorem Queued.once_proceed (s : ServiceId) (t' : ThreadId) :
    (w.proceed t i rest).asleep.count (.roster s, t') ≤ 1 := by
  by_cases hi : ∃ l m, i = .sync (.wait (.roster s) l m)
  · obtain ⟨l, m, hi⟩ := hi
    have hn := d.awake h hi
    subst hi
    have ha : (w.proceed t (.sync (.wait (.roster s) l m)) rest).asleep =
      w.asleep ++ [(.roster s, t)] := rfl
    rw [ha, List.count_append]
    by_cases ht : t' = t
    · rw [ht, List.count_eq_zero.mpr hn]
      simp
    · have h0 : [(WaitList.roster s, t)].count (.roster s, t') = 0 :=
        List.count_eq_zero.mpr (by simpa using ht)
      rw [h0]
      exact d.once s t'
  · refine Nat.le_trans ?_ (d.once s t')
    exact count_asleep_run (w := w.setCode t rest) i fun l m he => hi ⟨l, m, he⟩

theorem Queued.known_proceed (c : Custody w)
    (hj : .member (.spawnWait s r) ∈ (w.proceed t i rest).codeOf t') :
    r < (w.proceed t i rest).records.length := by
  refine Nat.lt_of_lt_of_le ?_ World.records_length_proceed
  rcases mem_codeOf_proceed h hj with ⟨-, hj⟩ | ⟨-, hj⟩ | ⟨-, hj⟩ | ⟨_, _, -, -, hj, -⟩
  · rcases spawnWait_of_run (ne_user_of_ready hu) hj with rfl | rfl
    · exact (c.borne (h ▸ List.mem_cons_self)).1
    · exact d.known (h ▸ List.mem_cons_self)
  · exact d.known (h ▸ List.mem_cons_of_mem _ hj)
  · exact d.known hj
  · simp [threadCode] at hj

/-- Nobody else can grant what a thread has just looked at, as it has the lock of the roster. -/
theorem Queued.unmet_proceed (hw : Alone n w) {code : List Instr}
    (hc : (w.proceed t i rest).codeOf t' = top ++ .sync (.wait (.roster s) l m) :: j :: code) :
    j.isMet (w.proceed t i rest) = false := by
  obtain ⟨rfl, x, _, hx, hlook⟩ := (hc ▸ d.trails_proceed h hu t').followed
  obtain ⟨rfl, rfl⟩ := List.cons.inj hx
  have unmet (hn : j.isMet w = false) (hk : j ∈ w.codeOf t')
      (hg : i.isGrant s = true → False) : j.isMet (w.proceed t i rest) = false := by
    cases hy : j.isMet (w.proceed t i rest)
    · rfl
    · exact (hg (grant_of_met hw.lawful h hlook (fun b r he => d.known (he ▸ hk)) hn hy)).elim
  rcases codeOf_proceed_split h hc with
    ⟨rfl, bot, hr, hx⟩ | ⟨rfl, mid, -, hr⟩ | ⟨ht, hc⟩ | ⟨b, r, -, hr⟩
  · -- it has looked at this very step
    have hw : .sync (.wait (.roster s) (.roster s) m) ∈ w.remainder t' i rest := by
      rw [hr]
      simp
    obtain ⟨hk, hn, hi⟩ := look_of_run (ne_user_of_ready hu) hw
    have hi : [.sync (.wait (.roster s) (.roster s) m), i] =
      top ++ .sync (.wait (.roster s) (.roster s) m) :: bot := hi.symm.trans hr
    obtain rfl : j = i := by
      cases top with
      | nil =>
        obtain ⟨-, rfl⟩ := List.cons.inj hi
        exact (List.cons.inj hx).1
      | cons k top =>
        have hm : .sync (.wait (.roster s) (.roster s) m) ∈ [i] := by
          rw [(List.cons.inj hi).2]
          simp
        rw [← List.mem_singleton.mp hm] at hk
        cases hk
    refine unmet (isMet_setCode.symm.trans hn) (h ▸ List.mem_cons_self) fun hg => ?_
    rw [not_grant_of_look hk] at hg
    cases hg
  · -- what it does before it goes to sleep is nested
    have hc : w.codeOf t' = (i :: mid) ++ .sync (.wait (.roster s) (.roster s) m) :: j :: code := by
      rw [h, hr, List.cons_append]
    have hn : i.isNested = true :=
      List.all_eq_true.mp ((hc ▸ d.early t').above rfl) i List.mem_cons_self
    refine unmet (d.unmet hc) (by rw [hc]; simp) fun hg => ?_
    rw [not_grant_of_nested hn] at hg
    cases hg
  · -- another thread has the lock
    have hheld := held_of_wait hw.reachable.keeping (d.early t') hc
    refine unmet (d.unmet hc) (by rw [hc]; simp) fun hg => ht ?_
    have hs : s < w.services.length := hw.uniform.placed (j := j) (by rw [hc]; simp)
      (service_of_look hlook)
    exact hw.reachable.keeping.holder_unique hheld (held_of_grant hw hs h hg)
  · have hm : Instr.sync (.wait (.roster s) (.roster s) m) ∈ threadCode b r := by
      rw [hr]
      simp
    simp [threadCode] at hm

theorem Queued.proceed (hw : Alone n w) : Queued (w.proceed t i rest) where
  trails := d.trails_proceed h hu
  early := d.early_proceed h hu
  rests := d.rests_proceed h
  once := d.once_proceed h
  known := d.known_proceed h hu hw.reachable.custody
  unmet := d.unmet_proceed h hu hw

end Proceed

theorem isMet_of_undisturbed (u : Undisturbed w e w') : j.isMet w' = j.isMet w := by
  cases j with
  | member k =>
    cases k with
    | spawnWait b r => exact u.ofRecord
    | gateWait b r => exact congrArg (fun g : Roster => !g.census.allSuspended) (roster_of_services_eq u.services)
    | awaitExitCheck b x =>
      exact congrArg (fun g : Roster => g.census.nonDaemon == 0) (roster_of_services_eq u.services)
    | _ => rfl
  | _ => rfl

/-- A lead has been there before, with the same code below. -/
theorem World.Takes.lead_below {new : List Instr} (h : Takes w t e new)
    (hc : new = top ++ j :: code) (hj : j.isLead = true) :
    ∃ above, w.codeOf t = above ++ j :: code := by
  obtain ⟨fresh, old, rfl, ⟨gone, ho⟩, hn, -⟩ := h.leadless
  rcases List.append_eq_append_iff.mp hc with ⟨mid, -, hm⟩ | ⟨bot, hf, hm⟩
  · exact ⟨gone ++ mid, by rw [← ho, hm, List.append_assoc]⟩
  · cases bot with
    | nil => exact ⟨gone, by rw [← ho]; exact congrArg _ hm.symm⟩
    | cons k bot =>
      obtain ⟨rfl, -⟩ := List.cons.inj hm
      rw [hn j (by rw [hf]; simp)] at hj
      cases hj

theorem Queued.undisturbed (d : Queued w) (u : Undisturbed w e w') : Queued w' where
  trails t := by
    rcases u.code t with hc | hc
    · exact hc ▸ d.trails t
    · exact hc.trails (d.trails t)
  early t := by
    rcases u.code t with hc | hc
    · exact hc ▸ d.early t
    · exact hc.early (d.early t)
  rests {s t} ha := by
    obtain ⟨m, hm⟩ := d.rests (u.asleep.subset ha)
    refine ⟨m, ?_⟩
    rcases u.code t with hc | hc
    · exact hc ▸ hm
    · exact hc.mem_of_mem hm (by rintro ⟨⟩)
  once s t := Nat.le_trans (u.asleep.count_le _) (d.once s t)
  known {t s r} hj := by
    rw [u.records]
    rcases u.code t with hc | hc
    · exact d.known (hc ▸ hj)
    · obtain ⟨new, old, ho, hs, hn, -⟩ := hc.leadless
      rw [ho] at hj
      rcases List.mem_append.mp hj with hj | hj
      · cases hn _ hj
      · exact d.known (hs.subset hj)
  unmet {t s l m j top rest} hj := by
    rw [isMet_of_undisturbed u]
    rcases u.code t with hc | hc
    · exact d.unmet (hc ▸ hj)
    · obtain ⟨above, ho⟩ := hc.lead_below hj rfl
      exact d.unmet ho

theorem Alone.queued (hw : Alone n w) : Queued w := by
  refine hw.induct (queued_initial n) ?_
  intro w e hw _ _ d
  rcases w.step_cases e with ⟨t, i, rest, -, hc, hr, hs⟩ | u
  · rw [hs]
    exact d.proceed hc hr hw
  · exact d.undisturbed u


end Standstill
