import Standstill.Proofs.Custody

/-!
Worlds with one service at most, in which calls are made on it alone. All threads are then stopped
in the same way, by signal or at safe points.
-/
namespace Standstill

open World

/-- The service that a call is made on. -/
def Call.service? : Call → Option ServiceId
  | .establish _ | .pause _ | .yield => none
  | .spawn s _ | .attach s _ | .detach s | .sleep s _ | .shortSleep s _ | .awaitExit s _
  | .inquire s _ _ | .forEach s | .snapshot s | .census s | .stats s | .suspend s _ | .resume s _
  | .suspendAll s | .resumeAll s | .awaitSuspended s _ | .stopTheWorld s _ | .safePoint s
  | .disableSuspend s | .enableSuspend s | .disableSuspendFast s | .enableSuspendFast s
  | .mutex s _ _ | .cond s _ _ | .condWait s _ _ _ => some s

/-- A call is made only on a service that there is. -/
def Event.isPlaced (w : World) : Event → Bool
  | .invoke _ c => c.service?.all (· < w.services.length)
  | _ => true

def World.admits (w : World) : List Event → Bool
  | [] => true
  | e :: es => e.isPlaced w && (w.step e).admits es

/-- The worlds that `n` threads can bring about with no more than one service. -/
def Alone (n : Nat) (w : World) : Prop :=
  ∃ es, (World.initial n).admits es = true ∧ (World.initial n).run es = w ∧ w.services.length ≤ 1

/-! The services that an instruction works for, and the way of stopping that it goes with. -/

def GuardInstr.service? : GuardInstr → Option ServiceId
  | .raise s _ | .lower s | .mask s | .unmask s | .enter s _ | .disable s | .enable s
  | .disableFast s | .enableFast s => some s
  | .setMask _ | .setPhase .. | .leave => none

def StopInstr.service? : StopInstr → Option ServiceId
  | .countSuspend s | .suspendFind s _ | .readEpoch s _ | .request s .. | .readLevel s ..
  | .deliver s .. | .watchStart s .. | .countResume s | .resumeFind s _ | .resumeClear s _
  | .resumeLevel s _ | .resumeWake s _ | .countSuspendAll s | .haltOthers s | .haltRequest s _
  | .haltLevel s _ | .haltDeliver s _ | .closeGate s | .freeOthers s | .freeClear s _
  | .freeLevel s _ | .freeWake s _ | .openGate s | .settleStart s _ | .settle s _ | .scan s _
  | .scanRequest s .. | .scanLevel s .. | .scanPhase s .. | .verdict s .. | .undoStop s => some s
  | .watchEpoch x | .watchPhase x | .watchRequest x | .watchLevel x | .watchClock x
  | .watchEnd x => some x.service
  | .withdraw _ | .resumePhase _ | .resumeRequest _ => none

def PoolInstr.service? : PoolInstr → Option ServiceId
  | .mutexAllot s _ | .mutexFind s .. | .take s _ | .retake s .. | .mutexDispose s _
  | .mutexIdle s .. | .mutexFree s _ | .condAllot s _ | .condFind s .. | .condDispose s _
  | .condIdle s .. | .condFree s _ | .waitOwner s .. | .waitClock s .. => some s
  | .waitRegister x | .waitGiveUp x _ | .waitCheck x _ | .waitRetire x => some x.service
  | .tryTake _ | .giveUp _ | .signal _ | .broadcast _ => none

def MemberInstr.service? : MemberInstr → Option ServiceId
  | .publish s _ | .attach s _ | .detach s | .detachRaise s _ | .detachRemove s .. | .spawn s _
  | .spawnRecord s .. | .spawnNative s _ | .noThread s | .spawnWait s _ | .gateEnter s _
  | .gateWait s _ | .gatePass s _ | .mourn s _ | .exitRaise s _ | .exitRemove s _
  | .awaitExit s _ | .awaitExitCheck s _ => some s
  | .establish _ | .bind _ | .unbind _ | .clearRequest _ | .setLevel .. | .own _ | .capture _
  | .noteStarted _ => none

/-- The service for which a record is stopped or woken, and the record. -/
def StopInstr.addressee? : StopInstr → Option (ServiceId × RecordId)
  | .readEpoch s r | .request s r _ | .readLevel s r .. | .deliver s r .. | .resumeClear s r
  | .resumeLevel s r | .resumeWake s r | .haltRequest s r | .haltLevel s r | .haltDeliver s r
  | .freeClear s r | .freeLevel s r | .freeWake s r => some (s, r)
  | _ => none

def ReadInstr.service? : ReadInstr → Option ServiceId
  | .find s .. | .all s _ | .census s | .statsCensus s | .statsMutexes s | .statsConds s
  | .statsCounters s => some s
  | .phase _ | .name _ | .rename .. | .priority _ | .setPriority .. | .isSuspendable _ | .stack _
  | .record _ | .row _ => none

def ParkInstr.how : ParkInstr → Mechanism
  | .check _ .handler _ | .awaitSignal => .signal
  | .check _ (.call m) _ | .save m _ => m
  | .spill p | .mark p | .count p | .testRequest p | .testLevel p | .restore p => p.sleep
  | .retestRequest _ | .retestLevel _ => .safepoint

namespace Instr

def service? : Instr → Option ServiceId
  | .user | .sync _ | .park _ => none
  | .guard i => i.service?
  | .stop i => i.service?
  | .pool i => i.service?
  | .member i => i.service?
  | .read i => i.service?

/-- The way of stopping that brings a thread to the instruction. -/
def how? : Instr → Option Mechanism
  | .park i => some i.how
  | .sync (.wait (.park _) _ _) | .sync (.resting (.park _) _) => some .safepoint
  | _ => none

def addressee? : Instr → Option (ServiceId × RecordId)
  | .stop i => i.addressee?
  | _ => none

/-- The instruction works for service `s`, or for none. -/
def isFor (s : ServiceId) (i : Instr) : Bool := i.service?.all (· == s)

end Instr

variable {n : Nat} {w w' : World} {t t' : ThreadId} {s : ServiceId} {r : RecordId} {i j : Instr}
  {m : Mechanism} {code rest : List Instr} {e : Event}

section NewCode

attribute [local simp] Instr.isFor Instr.service? GuardInstr.service? StopInstr.service?
  PoolInstr.service? MemberInstr.service? ReadInstr.service?

theorem GuardInstr.run_isFor (i : GuardInstr) (h : (Instr.guard i).isFor s = true) :
    (i.run t w).2.all (Instr.isFor s) = true := by
  cases i <;> simp only [GuardInstr.run] <;> repeat' split
  all_goals simp [stopIfDue] at h ⊢
  all_goals exact h

theorem StopInstr.run_isFor (i : StopInstr) (h : (Instr.stop i).isFor s = true) :
    (i.run t w).2.all (Instr.isFor s) = true := by
  cases i with
  | scanRequest s d rs settled =>
    cases rs <;> simp only [StopInstr.run]
    · simpa using h
    · split <;> simpa using h
  | _ =>
    simp only [StopInstr.run, resumeAllCode]
    repeat' split
    all_goals simp_all

theorem PoolInstr.run_isFor (i : PoolInstr) (h : (Instr.pool i).isFor s = true) :
    (i.run t w).2.all (Instr.isFor s) = true := by
  cases i with
  | mutexFind s k use =>
    simp only [PoolInstr.run]
    split <;> cases use <;> simp [MutexUse.found, MutexUse.missing] at h ⊢
    all_goals exact h
  | condFind s k use =>
    simp only [PoolInstr.run]
    split <;> cases use <;> simp [CondUse.found, CondUse.missing] at h ⊢
    all_goals exact h
  | _ =>
    simp only [PoolInstr.run]
    repeat' split
    all_goals simp at h ⊢
    all_goals exact h

theorem MemberInstr.run_isFor (i : MemberInstr) (h : (Instr.member i).isFor s = true) :
    (i.run t w).2.all (Instr.isFor s) = true ∨ ∃ x, i = .establish x := by
  cases i with
  | establish x => exact Or.inr ⟨x, rfl⟩
  | _ =>
    left
    simp only [MemberInstr.run]
    repeat' split
    all_goals simp [publishCode, refuseCode] at h ⊢
    all_goals exact h

theorem ReadInstr.run_isFor (i : ReadInstr) (h : (Instr.read i).isFor s = true) :
    (i.run t w).2.all (Instr.isFor s) = true := by
  cases i with
  | find s h q =>
    simp only [ReadInstr.run]
    split
    · simpa using h
    · cases q <;> simpa [Inquiry.code] using h
  | all s withNames => cases withNames <;> simp [ReadInstr.run, List.all_flatMap]
  | _ =>
    simp only [ReadInstr.run, ReadInstr.tell, ReadInstr.consult]
    repeat' split
    all_goals simp

theorem isFor_of_nested {code : List Instr} (h : code.all Instr.isNested = true) :
    code.all (Instr.isFor s) = true := by
  apply List.all_eq_true.mpr
  intro i hi
  have hn := List.all_eq_true.mp h i hi
  cases i with
  | guard i => cases i <;> first | rfl | cases hn
  | sync | park => rfl
  | _ => cases hn

/-- New code is for the service that its instruction is for, unless that makes a service. -/
theorem run_isFor (i : Instr) (h : i.isFor s = true) :
    (i.run t w).2.all (Instr.isFor s) = true ∨ ∃ x, i = .member (.establish x) := by
  cases i with
  | user => exact Or.inl rfl
  | sync i =>
    left
    cases i <;> rfl
  | guard i => exact Or.inl (i.run_isFor h)
  | park i => exact Or.inl (isFor_of_nested (run_nested rfl))
  | stop i => exact Or.inl (i.run_isFor h)
  | pool i => exact Or.inl (i.run_isFor h)
  | member i =>
    rcases i.run_isFor (w := w) (t := t) h with h | ⟨x, rfl⟩
    · exact Or.inl h
    · exact Or.inr ⟨x, rfl⟩
  | read i => exact Or.inl (i.run_isFor h)

theorem threadCode_isFor (s : ServiceId) (r : RecordId) :
    (threadCode s r).all (Instr.isFor s) = true := by
  simp [threadCode]

theorem Call.code_isFor (c : Call) (h : c.service?.all (· == s) = true) :
    (c.code w t).all (Instr.isFor s) = true := by
  cases c with
  | safePoint s =>
    simp only [Call.code]
    split <;> rfl
  | mutex s a c =>
    cases a <;> cases c <;> simpa [Call.code, MutexCall.code, Call.service?] using h
  | cond s a c => cases a <;> cases c <;> simpa [Call.code, CondCall.code, Call.service?] using h
  | establish | pause | yield => rfl
  | _ =>
    simpa [Call.code, Call.service?, inquireCode, suspendAllCode, resumeAllCode, sleepCode,
      sleeping] using h

end NewCode

/-- The service that new code is for. -/
theorem run_service (i : Instr) (hj : j ∈ (i.run t w).2) (hs : j.service? = some s) :
    i.service? = some s ∨ ∃ x, i = .member (.establish x) := by
  have same (s₀ : ServiceId) (hi : i.isFor s₀ = true) :
      s₀ = s ∨ ∃ x, i = .member (.establish x) := by
    rcases run_isFor (w := w) (t := t) i hi with ha | he
    · left
      have hf := List.all_eq_true.mp ha j hj
      simp only [Instr.isFor, hs, Option.all_some, beq_iff_eq] at hf
      exact hf.symm
    · exact Or.inr he
  cases hi : i.service? with
  | some s₀ =>
    rcases same s₀ (by simp [Instr.isFor, hi]) with rfl | he
    · exact Or.inl rfl
    · exact Or.inr he
  | none =>
    right
    rcases same (s + 1) (by simp [Instr.isFor, hi]) with he | he
    · exact absurd he (Nat.succ_ne_self s)
    · exact he

/-- The code of a call is for the service that the call is made on. -/
theorem Call.service_of_code (c : Call) (hj : j ∈ c.code w t) (hs : j.service? = some s) :
    c.service? = some s := by
  cases hc : c.service? with
  | none =>
    have hf := List.all_eq_true.mp (c.code_isFor (s := s + 1) (by rw [hc]; rfl)) j hj
    simp [Instr.isFor, hs] at hf
  | some s₀ =>
    have hf := List.all_eq_true.mp (c.code_isFor (s := s₀) (by rw [hc]; simp)) j hj
    simp only [Instr.isFor, hs, Option.all_some, beq_iff_eq] at hf
    rw [hf]

theorem service_of_nested {code : List Instr} (h : code.all Instr.isNested = true) (hj : j ∈ code) :
    j.service? = none := by
  cases hs : j.service? with
  | none => rfl
  | some s =>
    have hn := List.all_eq_true.mp (isFor_of_nested (s := s + 1) h) j hj
    simp [Instr.isFor, hs] at hn

/-! The way in which threads are stopped. -/

theorem how_of_plain {code : List Instr} (h : code.all Instr.isPlain = true) :
    ∀ j ∈ code, j.how? = none := by
  intro j hj
  have hr := record_of_plain h j hj
  have hc := calm_of_plain h j hj
  cases j with
  | park k => cases hc
  | sync i =>
    cases i with
    | wait q l d => cases q <;> first | rfl | cases hr
    | resting q d => cases q <;> first | rfl | cases hr
    | _ => rfl
  | _ => rfl

theorem handlerCode_how (h : j ∈ w.handlerCode t) : j.how? = some .signal := by
  rw [handlerCode_eq] at h
  split at h
  · cases h
  · rw [List.mem_singleton] at h
    subst h
    rfl

theorem GuardInstr.run_how (i : GuardInstr) : ∀ j ∈ (i.run t w).2,
    j.how? = none ∨ j.how? = i.service?.map w.mechanism := by
  cases i <;> simp only [GuardInstr.run] <;> repeat' split
  all_goals simp [stopIfDue, Instr.how?, ParkInstr.how, GuardInstr.service?]

theorem ParkInstr.run_how (i : ParkInstr) (hj : j ∈ (i.run t w).2) (hm : j.how? = some m) :
    i.how = m := by
  cases i with
  | check tests entry b =>
    rcases tests with _ | ⟨x, rest⟩
    · rcases entry with _ | _ | _ <;> simp only [ParkInstr.run] at hj
      · rw [List.mem_singleton] at hj
        subst hj
        exact Option.some.inj hm
      · split at hj
        · cases hj
        · simp only [List.mem_cons, List.not_mem_nil, or_false] at hj
          rcases hj with rfl | rfl
          · exact Option.some.inj hm
          · cases hm
      · rw [List.mem_singleton] at hj
        subst hj
        exact Option.some.inj hm
    · simp only [ParkInstr.run] at hj
      split at hj
      · rw [List.mem_singleton] at hj
        subst hj
        rcases entry with _ | _ <;> exact Option.some.inj hm
      · cases hj
  -- the handler parks in the way of a signal, whatever it has interrupted
  | awaitSignal =>
    have hh := handlerCode_how hj
    rw [hm] at hh
    exact (Option.some.inj hh).symm
  | testLevel p =>
    rcases p with ⟨sleep, b, q⟩
    simp only [ParkInstr.run] at hj
    split at hj
    · cases sleep <;> simp [Parking.sleepCode, locked] at hj
      · rcases hj with rfl | rfl <;> exact Option.some.inj hm
      · rcases hj with rfl | rfl | rfl | rfl <;> first | exact Option.some.inj hm | cases hm
    · rw [List.mem_singleton] at hj
      subst hj
      exact Option.some.inj hm
  | testRequest | retestRequest | retestLevel =>
    simp only [ParkInstr.run] at hj
    split at hj
    all_goals simp at hj
    all_goals
      subst hj
      exact Option.some.inj hm
  | restore p => cases hj
  | _ =>
    simp only [ParkInstr.run, List.mem_singleton] at hj
    subst hj
    exact Option.some.inj hm

/-- A thread comes to a place where it may park in the way that it is at already, or in that of the
service on which it lowers its level. -/
theorem run_how (i : Instr) (hj : j ∈ (i.run t w).2) (hm : j.how? = some m) :
    i.how? = some m ∨ ∃ s, i.service? = some s ∧ w.mechanism s = m := by
  have plain (hp : (i.run t w).2.all Instr.isPlain = true) : False := by
    rw [how_of_plain hp j hj] at hm
    cases hm
  cases i with
  | user =>
    rw [Instr.run, List.mem_singleton] at hj
    subst hj
    cases hm
  | sync i =>
    left
    cases i with
    | wait q l d =>
      simp only [Instr.run, SyncInstr.run, List.mem_cons, List.not_mem_nil, or_false] at hj
      rcases hj with rfl | rfl
      · cases q <;> exact hm
      · cases hm
    | doze k =>
      simp only [Instr.run, SyncInstr.run, List.mem_singleton] at hj
      subst hj
      cases hm
    | _ => cases hj
  | guard i =>
    right
    rcases i.run_how j hj with hn | hn
    · rw [hn] at hm
      cases hm
    · rw [hn] at hm
      exact Option.map_eq_some_iff.mp hm
  | park i => exact Or.inl (congrArg some (i.run_how hj hm))
  | stop i => exact False.elim (plain i.run_plain)
  | pool i => exact False.elim (plain i.run_plain)
  -- no member instruction leads to a place where its thread parks
  | member i =>
    have hn := List.all_eq_true.mp (i.run_unparked (w := w) (t := t)) j hj
    cases j with
    | park => simp [Instr.isNested] at hn
    | sync j =>
      cases j with
      | wait q l d =>
        cases q with
        | park => simp [Instr.parkRecord?] at hn
        | _ => cases hm
      | resting q d =>
        cases q with
        | park => simp [Instr.parkRecord?] at hn
        | _ => cases hm
      | _ => cases hm
    | _ => cases hm
  | read i => exact False.elim (plain i.run_plain)

/-! A service never changes what it was made with, its way of stopping threads least of all. -/

theorem settingsOf_of_services_eq (h : w'.services = w.services) :
    w'.settingsOf s = w.settingsOf s := by
  simp only [settingsOf, h]

theorem mechanism_of_settingsOf (h : w'.settingsOf s = w.settingsOf s) :
    w'.mechanism s = w.mechanism s := by
  have hm (v : World) :
      v.mechanism s = ((v.settingsOf s).map (·.mechanism)).getD .safepoint := by
    simp only [mechanism, settingsOf]
    cases v.services[s]? <;> rfl
  rw [hm, hm, h]

theorem mechanism_of_services_eq (h : w'.services = w.services) :
    w'.mechanism s = w.mechanism s :=
  mechanism_of_settingsOf (settingsOf_of_services_eq h)

theorem settingsOf_modService {s' : ServiceId} (f : Service → Service)
    (hf : ∀ v, (f v).settings = v.settings) :
    (w.modService s' f).settingsOf s = w.settingsOf s := by
  simp only [settingsOf, modService, List.getElem?_modify]
  by_cases h : s' = s
  · subst h
    cases w.services[s']? <;> simp [hf]
  · simp only [h, if_false]
    cases w.services[s]? <;> rfl

theorem settingsOf_modRoster {s' : ServiceId} (f : Roster → Roster) :
    (w.modRoster s' f).settingsOf s = w.settingsOf s := settingsOf_modService _ fun _ => rfl

theorem settingsOf_modCensus {s' : ServiceId} (f : Census → Census) :
    (w.modCensus s' f).settingsOf s = w.settingsOf s := settingsOf_modRoster _

theorem StopInstr.settingsOf_run (i : StopInstr) :
    (i.run t w).1.settingsOf s = w.settingsOf s := by
  by_cases hq : (Instr.stop i).isQuiet = true
  · exact settingsOf_congr (i.core_run hq)
  · exact settingsOf_of_services_eq (i.services_run hq)

theorem MemberInstr.settingsOf_run (i : MemberInstr) (hs : s < w.services.length) :
    (i.run t w).1.settingsOf s = w.settingsOf s := by
  by_cases hq : (Instr.member i).isQuiet = true
  · exact settingsOf_congr (i.core_run hq)
  cases i with
  | establish x =>
    -- a new service is put behind those that are there
    have hv (v : Service) : (w.addService v).settingsOf s = w.settingsOf s := by
      simp only [settingsOf, addService, List.getElem?_append_left hs]
    exact hv _
  | publish b r | gateEnter b r =>
    simp only [MemberInstr.run]
    split
    · rfl
    · exact (settingsOf_modCensus _).trans (settingsOf_modRoster _)
  | detachRemove b r l =>
    simp only [MemberInstr.run]
    repeat' split
    · rfl
    · rfl
    · exact (settingsOf_modCensus _).trans (settingsOf_modRoster _)
  | exitRemove b r =>
    simp only [MemberInstr.run]
    repeat' split
    · rfl
    · exact settingsOf_modCensus _
    · exact (settingsOf_modCensus _).trans (settingsOf_modRoster _)
  | attach | unbind | spawnNative =>
    apply settingsOf_of_services_eq
    simp only [MemberInstr.run]
    repeat' split
    all_goals rfl
  | bind | detachRaise | clearRequest | setLevel | spawnRecord | own | exitRaise => rfl
  | _ => exact absurd rfl hq

theorem settingsOf_run (i : Instr) (hs : s < w.services.length) :
    (i.run t w).1.settingsOf s = w.settingsOf s := by
  cases i with
  | user => rfl
  | sync i =>
    obtain ⟨_, _, he⟩ := i.run_fst (w := w) (t := t)
    rw [Instr.run, he]
    rfl
  | guard i => exact settingsOf_of_services_eq i.services_run
  | park i => exact settingsOf_of_services_eq i.services_run
  | stop i => exact i.settingsOf_run
  | pool i => exact settingsOf_congr i.core_run
  | member i => exact i.settingsOf_run hs
  | read i => exact settingsOf_congr i.core_run

theorem mechanism_run (i : Instr) (hs : s < w.services.length) :
    (i.run t w).1.mechanism s = w.mechanism s :=
  mechanism_of_settingsOf (settingsOf_run i hs)

/-! A stop signal is sent only by a thread that works for a service which stops threads so, and is
taken back by nobody but the thread that waits for it. -/

theorem isPending_signalOwner (w : World) (r : RecordId) (t' : ThreadId) :
    (w.signalOwner r).isPending t' = w.isPending t' ∨
      w.ownerOf r = some t' ∧ (w.signalOwner r).isPending t' = true := by
  simp only [signalOwner]
  split
  next o ho =>
    by_cases ht : t' = o
    · subst ht
      by_cases hl : t' < w.threads.length
      · right
        refine ⟨ho, ?_⟩
        simp [isPending, sendSignal, ofThread_modThread, ofThread_const, hl]
      · left
        have hl' := Nat.le_of_not_lt hl
        rw [isPending, isPending, ofThread_of_le _ _ hl']
        exact ofThread_of_le _ _ (by simpa [sendSignal] using hl')
    · left
      simp [isPending, sendSignal, ofThread_modThread, ht]
  next => exact Or.inl rfl

theorem service_of_addressee (h : i.addressee? = some (s, r)) : i.service? = some s := by
  cases i with
  | stop k => cases k <;> first | (cases h; rfl) | cases h
  | _ => cases h

theorem StopInstr.isPending_run (i : StopInstr) (t t' : ThreadId) :
    (i.run t w).1.isPending t' = w.isPending t' ∨ (i.run t w).1.isPending t' = true ∧
      ∃ s r, i.addressee? = some (s, r) ∧ w.ownerOf r = some t' ∧ w.mechanism s = .signal := by
  by_cases hq : (Instr.stop i).isQuiet = true
  · exact Or.inl (ofThread_congr (i.core_run hq) fun _ => rfl)
  have signal (s : ServiceId) (r : RecordId) (hs : i.addressee? = some (s, r))
      (hm : w.mechanism s = .signal) :
      (w.signalOwner r).isPending t' = w.isPending t' ∨ (w.signalOwner r).isPending t' = true ∧
        ∃ s r, i.addressee? = some (s, r) ∧ w.ownerOf r = some t' ∧ w.mechanism s = .signal := by
    rcases isPending_signalOwner w r t' with h | ⟨ho, h⟩
    · exact Or.inl h
    · exact Or.inr ⟨h, s, r, hs, ho, hm⟩
  cases i with
  | deliver s r | resumeWake s r =>
    simp only [StopInstr.run]
    split
    · left
      simp [isPending, fail, say, ofThread_modThread]
    · split
      next hm => exact signal s r rfl hm
      next => exact Or.inl rfl
  | haltDeliver s r | freeWake s r =>
    simp only [StopInstr.run]
    split
    next hm => exact signal s r rfl hm
    next => exact Or.inl rfl
  | request | withdraw | resumeClear | haltRequest | freeClear => exact Or.inl rfl
  | _ => exact absurd rfl hq

theorem MemberInstr.isPending_run (i : MemberInstr) :
    (i.run t w).1.isPending t' = w.isPending t' := by
  by_cases hi : (Instr.member i).isQuiet = true
  · exact ofThread_congr (i.core_run hi) fun _ => rfl
  cases i with
  | spawnNative s b =>
    have hnew : w.ofThread w.threads.length false (·.pending) = false :=
      ofThread_of_le _ _ (Nat.le_refl _)
    simp only [MemberInstr.run]
    repeat' split
    all_goals
      simp only [isPending, answer, fail, say, ofThread_modThread, ofThread_addThread, ite_self]
    split
    next ht => rw [ht, hnew]
    next => rfl
  | _ =>
    simp only [MemberInstr.run, isPending]
    repeat' split
    all_goals
      simp [Instr.isQuiet, World.setLevel, World.setRequest, setBinding, answer, fail, say,
        modCensus, modRoster, ofThread_modThread] at hi ⊢

theorem isPending_run (i : Instr) (t t' : ThreadId) :
    (i.run t w).1.isPending t' = w.isPending t' ∨ i = .park .awaitSignal ∧ t' = t ∨
      (i.run t w).1.isPending t' = true ∧
        ∃ s r, i.addressee? = some (s, r) ∧ w.ownerOf r = some t' ∧ w.mechanism s = .signal := by
  cases i with
  | user => exact Or.inl rfl
  | sync i =>
    obtain ⟨_, _, he⟩ := i.run_fst (w := w) (t := t)
    left
    rw [Instr.run, he]
    rfl
  | guard i => exact Or.inl (i.ofThread_run (fun _ => rfl) (fun _ _ => rfl) fun _ _ => rfl)
  | park i =>
    by_cases hi : i = .awaitSignal ∧ t' = t
    · obtain ⟨rfl, rfl⟩ := hi
      exact Or.inr (Or.inl ⟨rfl, rfl⟩)
    · left
      cases i with
      | awaitSignal =>
        have ht : t' ≠ t := fun ht => hi ⟨rfl, ht⟩
        simp [Instr.run, ParkInstr.run, isPending, ofThread_modThread, ht]
      | check tests entry b =>
        rcases tests with _ | ⟨x, rest⟩
        · rcases entry with _ | _ | _ <;> simp only [Instr.run, ParkInstr.run]
          split <;> simp [isPending, World.setMask, ofThread_modThread]
        · rfl
      | _ => rfl
  | stop i =>
    rcases i.isPending_run (w := w) t t' with h | h
    · exact Or.inl h
    · exact Or.inr (Or.inr h)
  | pool i => exact Or.inl (ofThread_congr i.core_run fun _ => rfl)
  | member i => exact Or.inl i.isPending_run
  | read i => exact Or.inl (ofThread_congr i.core_run fun _ => rfl)

/-! A record belongs to the service that it was made for. -/

theorem MemberInstr.homeOf_run (i : MemberInstr) :
    (i.run t w).1.homeOf r = w.homeOf r ∨
      (∃ s, i.service? = some s ∧ (i.run t w).1.homeOf r = some s) ∨
      ∃ x, i = .establish x ∧ (i.run t w).1.homeOf r = some w.services.length := by
  by_cases hr : r < w.records.length
  · exact Or.inl (i.ofRecord_run hr (fun _ => rfl) (fun _ _ => rfl) (fun _ _ => rfl) fun _ _ => rfl)
  -- a record that is there keeps its home, so only a new one is left to look at
  have hnone : w.homeOf r = none := ofRecord_of_le _ _ (Nat.le_of_not_lt hr)
  have same (h : i.isMaker = false) : (i.run t w).1.homeOf r = w.homeOf r := by
    have ho := i.outline_run (t := t) (w := w) h
    simp only [World.outline, Prod.mk.injEq] at ho
    rw [hnone]
    apply ofRecord_of_le
    rw [ho.1.2.1]
    exact Nat.le_of_not_lt hr
  cases i with
  | establish x =>
    by_cases hl : r = w.records.length
    · refine Or.inr (Or.inr ⟨x, rfl, ?_⟩)
      simp [MemberInstr.run, homeOf, answer, say, ofRecord_addRecord, hl, ThreadRecord.bindTo,
        ThreadRecord.create]
    · left
      simp [MemberInstr.run, homeOf, answer, say, ofRecord_addRecord, hl]
  | attach s name =>
    simp only [MemberInstr.run]
    split
    · left
      split <;> rfl
    · by_cases hl : r = w.records.length
      · refine Or.inr (Or.inl ⟨s, rfl, ?_⟩)
        simp [homeOf, answer, say, ofRecord_addRecord, hl, ThreadRecord.bindTo,
          ThreadRecord.create]
      · left
        simp [homeOf, answer, say, ofRecord_addRecord, hl]
  | spawnRecord s o k =>
    by_cases hl : r = w.records.length
    · refine Or.inr (Or.inl ⟨s, rfl, ?_⟩)
      simp [MemberInstr.run, homeOf, ofRecord_addRecord, hl, ThreadRecord.create]
    · left
      simp [MemberInstr.run, homeOf, ofRecord_addRecord, hl]
  | spawnNative s b =>
    left
    rw [hnone]
    apply ofRecord_of_le
    simp only [MemberInstr.run]
    repeat' split
    all_goals exact Nat.le_of_not_lt hr
  | _ => exact Or.inl (same rfl)

theorem homeOf_run (i : Instr) :
    (i.run t w).1.homeOf r = w.homeOf r ∨
      (∃ s, i.service? = some s ∧ (i.run t w).1.homeOf r = some s) ∨
      ∃ x, i = .member (.establish x) ∧ (i.run t w).1.homeOf r = some w.services.length := by
  cases i with
  | user => exact Or.inl rfl
  | sync i =>
    obtain ⟨_, _, he⟩ := i.run_fst (w := w) (t := t)
    left
    rw [Instr.run, he]
    rfl
  | guard i => exact Or.inl (i.ofRecord_run (fun _ _ => rfl) fun _ _ => rfl)
  | park i => exact Or.inl (i.ofRecord_run (fun _ => rfl) fun _ _ => rfl)
  | stop i => exact Or.inl (i.ofRecord_run fun _ _ => rfl)
  | pool i => exact Or.inl (ofRecord_congr i.core_run fun _ => rfl)
  | member i =>
    rcases i.homeOf_run (w := w) (t := t) (r := r) with h | h | ⟨x, rfl, h⟩
    · exact Or.inl h
    · exact Or.inr (Or.inl h)
    · exact Or.inr (Or.inr ⟨x, rfl, h⟩)
  | read i => exact Or.inl (ofRecord_congr i.core_run fun _ => rfl)

/-! What holds of all worlds with one service. -/

theorem services_length_step (w : World) (e : Event) :
    w.services.length ≤ (w.step e).services.length := by
  rcases w.step_cases e with ⟨t, i, rest, _, _, _, hs⟩ | u
  · rw [hs]
    exact (sizes_run (w := w.setCode t rest) i).2.2
  · rw [u.services]

theorem services_length_run (w : World) (es : List Event) :
    w.services.length ≤ (w.run es).services.length := by
  induction es generalizing w with
  | nil => exact Nat.le_refl _
  | cons e es ih => exact (services_length_step w e).trans (ih (w.step e))

theorem admits_append (w : World) (es fs : List Event) :
    w.admits (es ++ fs) = (w.admits es && (w.run es).admits fs) := by
  induction es generalizing w with
  | nil => rfl
  | cons e es ih => simp only [List.cons_append, admits, ih, run_cons, Bool.and_assoc]

theorem Alone.reachable (h : Alone n w) : Reachable n w := by
  obtain ⟨es, _, hr, _⟩ := h
  exact ⟨es, hr⟩

theorem Alone.step (h : Alone n w) (hp : e.isPlaced w = true)
    (h1 : (w.step e).services.length ≤ 1) : Alone n (w.step e) := by
  obtain ⟨es, ha, rfl, -⟩ := h
  refine ⟨es ++ [e], ?_, run_append _ es [e], h1⟩
  rw [admits_append, ha]
  simpa [admits] using hp

/-- What holds at first and is kept by every event that makes no second service, and calls none that
there is not, holds of all worlds with one service. -/
theorem Alone.induct {P : World → Prop} (h : Alone n w) (h0 : P (World.initial n))
    (hs : ∀ w e, Alone n w → e.isPlaced w = true → (w.step e).services.length ≤ 1 → P w →
      P (w.step e)) : P w := by
  obtain ⟨es, ha, rfl, h1⟩ := h
  induction es using List.reverseRecOn with
  | nil => exact h0
  | append_singleton es e ih =>
    rw [run_append] at h1 ⊢
    rw [admits_append, Bool.and_eq_true] at ha
    have hp : e.isPlaced ((World.initial n).run es) = true := by
      have hc := ha.2
      simp only [admits, Bool.and_true] at hc
      exact hc
    have hl := Nat.le_trans (services_length_step _ e) h1
    exact hs _ e ⟨es, ha.1, rfl, hl⟩ hp h1 (ih ha.1 hl)

theorem mechanism_proceed (hs : s < w.services.length) :
    (w.proceed t i rest).mechanism s = w.mechanism s :=
  mechanism_run (w := w.setCode t rest) i hs

theorem services_length_proceed :
    w.services.length ≤ (w.proceed t i rest).services.length :=
  (sizes_run (w := w.setCode t rest) i).2.2

theorem services_length_establish {x : Settings} :
    (w.proceed t (.member (.establish x)) rest).services.length = w.services.length + 1 := by
  simp [World.proceed, World.push, Instr.run, MemberInstr.run, answer, say, World.setCode]

/-! What all threads do stays for services that there are. -/

section Placed

variable (placed : ∀ {t j s}, j ∈ w.codeOf t → j.service? = some s → s < w.services.length)
include placed

theorem placed_proceed (h : w.codeOf t = i :: rest) (hx : j ∈ (w.proceed t i rest).codeOf t')
    (hs : j.service? = some s) : s < (w.proceed t i rest).services.length := by
  have old {t₀ : ThreadId} {j : Instr} (hj : j ∈ w.codeOf t₀) (hs : j.service? = some s) :
      s < (w.proceed t i rest).services.length :=
    Nat.lt_of_lt_of_le (placed hj hs) services_length_proceed
  have hi : i ∈ w.codeOf t := h ▸ List.mem_cons_self
  rcases mem_codeOf_proceed h hx with ⟨rfl, hj⟩ | ⟨rfl, hj⟩ | ⟨_, hj⟩ | ⟨s', b, rfl, _, hj, _⟩
  · rcases run_service i hj hs with hi' | ⟨x, rfl⟩
    · exact old hi hi'
    -- the code that publishes a new service names the service that has just been added
    · obtain rfl : s = w.services.length := by
        simp only [remainder, Instr.run, MemberInstr.run, publishCode, locked, List.cons_append,
          List.nil_append, List.mem_cons, List.not_mem_nil, or_false] at hj
        rcases hj with rfl | rfl | rfl | rfl <;> cases hs
        rfl
      rw [services_length_establish]
      exact Nat.lt_succ_self _
  · exact old (h ▸ List.mem_cons_of_mem _ hj) hs
  · exact old hj hs
  · have hf := List.all_eq_true.mp (threadCode_isFor s' b) j hj
    simp only [Instr.isFor, hs, Option.all_some, beq_iff_eq] at hf
    subst hf
    exact old hi rfl

theorem homes_proceed (homes : ∀ {r s}, w.homeOf r = some s → s < w.services.length)
    (h : w.codeOf t = i :: rest) (hr : (w.proceed t i rest).homeOf r = some s) :
    s < (w.proceed t i rest).services.length := by
  rcases homeOf_run (w := w.setCode t rest) (t := t) (r := r) i with he | ⟨s', hs, he⟩ | ⟨x, rfl, he⟩
  · exact Nat.lt_of_lt_of_le (homes (he.symm.trans hr)) services_length_proceed
  · obtain rfl : s' = s := Option.some.inj (he.symm.trans hr)
    exact Nat.lt_of_lt_of_le (placed (h ▸ List.mem_cons_self) hs) services_length_proceed
  · obtain rfl : w.services.length = s := Option.some.inj (he.symm.trans hr)
    rw [services_length_establish]
    exact Nat.lt_succ_self _

theorem placed_undisturbed (u : Undisturbed w e w') (he : e.isPlaced w = true)
    (hj : j ∈ w'.codeOf t) (hs : j.service? = some s) : s < w'.services.length := by
  rw [u.services]
  cases u.origin hj with
  | kept h => exact placed h hs
  | handler _ _ h => cases (service_of_nested handler_nested h).symm.trans hs
  | call c _ hec h =>
    subst hec
    simpa [Event.isPlaced, c.service_of_code h hs] using he
  | mourn s₀ r h hx =>
    subst h
    obtain rfl := Option.some.inj hs
    exact placed hx rfl

end Placed

structure Uniform (w : World) : Prop where
  single : w.services.length ≤ 1
  placed : ∀ {t j s}, j ∈ w.codeOf t → j.service? = some s → s < w.services.length
  /-- All sleep in the same way, that of the service. -/
  how : ∀ {t j m}, j ∈ w.codeOf t → j.how? = some m → 0 < w.services.length ∧ w.mechanism 0 = m
  sent : ∀ {t}, w.isPending t = true → 0 < w.services.length ∧ w.mechanism 0 = .signal
  homes : ∀ {r s}, w.homeOf r = some s → s < w.services.length

theorem uniform_initial (n : Nat) : Uniform (World.initial n) := by
  refine ⟨Nat.zero_le _, ?_, ?_, ?_, ?_⟩
  · intro t j s hj hs
    cases eq_user_of_initial hj
    cases hs
  · intro t j m hj hm
    cases eq_user_of_initial hj
    cases hm
  · intro t ht
    by_cases hl : t < n
    · simp [isPending, ofThread, initial, hl] at ht
    · rw [isPending, ofThread_of_le _ _ (by simpa [initial] using hl)] at ht
      cases ht
  · intro r s hr
    rw [homeOf, ofRecord_of_le none _ (Nat.zero_le _)] at hr
    cases hr

section Proceed

variable (u : Uniform w) (h : w.codeOf t = i :: rest)
include u h

theorem Uniform.service_eq_zero (hs : i.service? = some s) : s = 0 := by
  have hl := u.placed (t := t) (h ▸ List.mem_cons_self) hs
  exact Nat.lt_one_iff.mp (Nat.lt_of_lt_of_le hl u.single)

theorem Uniform.how_proceed (hx : j ∈ (w.proceed t i rest).codeOf t') (hm : j.how? = some m) :
    0 < (w.proceed t i rest).services.length ∧ (w.proceed t i rest).mechanism 0 = m := by
  have hi : i ∈ w.codeOf t := h ▸ List.mem_cons_self
  have keep (hk : 0 < w.services.length ∧ w.mechanism 0 = m) :
      0 < (w.proceed t i rest).services.length ∧ (w.proceed t i rest).mechanism 0 = m :=
    ⟨Nat.lt_of_lt_of_le hk.1 services_length_proceed, (mechanism_proceed hk.1).trans hk.2⟩
  rcases mem_codeOf_proceed h hx with ⟨rfl, hj⟩ | ⟨rfl, hj⟩ | ⟨_, hj⟩ | ⟨s', b, rfl, _, hj, _⟩
  · rcases run_how i hj hm with hi' | ⟨s, hs, hw⟩
    · exact keep (u.how hi hi')
    · have hl := u.placed hi hs
      obtain rfl := u.service_eq_zero h hs
      exact keep ⟨hl, hw⟩
  · exact keep (u.how (h ▸ List.mem_cons_of_mem _ hj) hm)
  · exact keep (u.how hj hm)
  · cases (threadCode_none rfl hj).symm.trans hm

omit u h in
theorem isPending_proceed :
    (w.proceed t i rest).isPending t' = (i.run t (w.setCode t rest)).1.isPending t' :=
  ofThread_push (fun _ _ => rfl) _

theorem Uniform.sent_proceed (hp : (w.proceed t i rest).isPending t' = true) :
    0 < (w.proceed t i rest).services.length ∧ (w.proceed t i rest).mechanism 0 = .signal := by
  have hi : i ∈ w.codeOf t := h ▸ List.mem_cons_self
  have keep (hk : 0 < w.services.length ∧ w.mechanism 0 = .signal) :
      0 < (w.proceed t i rest).services.length ∧ (w.proceed t i rest).mechanism 0 = .signal :=
    ⟨Nat.lt_of_lt_of_le hk.1 services_length_proceed, (mechanism_proceed hk.1).trans hk.2⟩
  have hs : (w.setCode t rest).isPending t' = w.isPending t' := ofThread_setCode fun _ _ => rfl
  rw [isPending_proceed] at hp
  rcases isPending_run (w := w.setCode t rest) i t t' with
    he | ⟨rfl, _⟩ | ⟨_, s, _, hk, _, hm⟩
  · rw [he, hs] at hp
    exact keep (u.sent hp)
  · exact keep (u.how hi rfl)
  · have hs' := service_of_addressee hk
    have hl := u.placed hi hs'
    obtain rfl := u.service_eq_zero h hs'
    exact keep ⟨hl, hm⟩

end Proceed

/-- The code of a call on the one service parks in the way of that service. -/
theorem Call.how_of_code (c : Call) (hc : c.service?.all (· < w.services.length) = true)
    (h1 : w.services.length ≤ 1) (hj : j ∈ c.code w t) (hm : j.how? = some m) :
    0 < w.services.length ∧ w.mechanism 0 = m := by
  rcases c.code_plain (w := w) (t := t) with hp | ⟨s, r, rfl, _, he⟩
  · rw [how_of_plain hp j hj] at hm
    cases hm
  · rw [he, List.mem_singleton] at hj
    subst hj
    have hl : s < w.services.length := by simpa [Call.service?] using hc
    obtain rfl : s = 0 := Nat.lt_one_iff.mp (Nat.lt_of_lt_of_le hl h1)
    exact ⟨hl, Option.some.inj hm⟩

section Undisturbed

variable (f : Uniform w) (u : Undisturbed w e w') (he : e.isPlaced w = true)
include f u he

theorem Uniform.undisturbed : Uniform w' := by
  have hmech : w'.mechanism 0 = w.mechanism 0 := mechanism_of_services_eq u.services
  refine ⟨u.services ▸ f.single, placed_undisturbed f.placed u he, ?_, ?_, ?_⟩
  · intro t j m hj hm
    rw [u.services, hmech]
    cases u.origin hj with
    | kept h => exact f.how h hm
    | handler hi _ h =>
      rcases List.mem_append.mp h with h | h
      · rw [handlerCode_how h] at hm
        obtain rfl := Option.some.inj hm
        exact f.sent (canInterrupt_iff.mp hi).1
      · rw [List.mem_singleton.mp h] at hm
        cases hm
    | call c _ hec h =>
      subst hec
      exact c.how_of_code he f.single h hm
    | mourn s r h =>
      subst h
      cases hm
  · intro t ht
    rw [u.services, hmech]
    rcases u.signals t with ⟨hs, _, _⟩ | ⟨hs, _⟩
    · exact f.sent (hs.symm.trans ht)
    · exact f.sent (canInterrupt_iff.mp hs).1
  · intro r s hr
    rw [u.services]
    have hh : w'.homeOf r = w.homeOf r := u.ofRecord
    exact f.homes (hh.symm.trans hr)

end Undisturbed

theorem Alone.uniform (h : Alone n w) : Uniform w := by
  refine h.induct (uniform_initial n) ?_
  intro w e _ he h1 f
  rcases w.step_cases e with ⟨t, i, rest, _, hc, _, hs⟩ | hu
  · rw [hs] at h1 ⊢
    exact ⟨h1, placed_proceed f.placed hc, f.how_proceed hc, f.sent_proceed hc,
      homes_proceed f.placed f.homes hc⟩
  · exact f.undisturbed hu he

theorem Alone.homeOf_eq (hw : Alone n w) (hs : w.homeOf r = some s) : s = 0 :=
  Nat.lt_one_iff.mp ((hw.uniform.homes hs).trans_le hw.uniform.single)

end Standstill
