import Standstill.Proofs.Writes

/-!
What an instruction leaves its thread to do in its place.
-/
namespace Standstill

open World

variable {w : World} {t : ThreadId} {r : RecordId} {i j : Instr}

theorem handlerCode_nested : (w.handlerCode t).all Instr.isNested = true := by
  rw [handlerCode_eq]
  split <;> rfl

/-- What an interrupt puts before the code of its thread. -/
theorem handler_nested :
    (w.handlerCode t ++ [Instr.guard (.setMask false)]).all Instr.isNested = true := by
  rw [List.all_append, handlerCode_nested]
  rfl

theorem handlerCode_record (h : j ∈ w.handlerCode t) (hj : j.record? = some r) :
    w.bindingOf t = some r := by
  rw [handlerCode_eq] at h
  split at h
  · cases h
  next b hb =>
    rw [List.mem_singleton] at h
    subst h
    rw [← hj]
    exact hb

/-- On top of code that is not its own, an instruction puts only more of its kind. -/
theorem run_nested (h : i.isNested = true) : (i.run t w).2.all Instr.isNested = true := by
  cases i with
  | sync i =>
    cases i with
    | wait q l d =>
      cases q <;> cases l <;> simp_all [Instr.run, SyncInstr.run, Instr.isNested]
    | _ => simp_all [Instr.run, SyncInstr.run, Instr.isNested]
  | guard i =>
    cases i <;> simp_all [Instr.run, GuardInstr.run, Instr.isNested]
  | park i =>
    cases i with
    | check tests entry b =>
      rcases tests with _ | ⟨x, rest⟩
      · rcases entry with _ | _ | _ <;> simp only [Instr.run, ParkInstr.run]
        · rfl
        · split <;> rfl
        · rfl
      · simp only [Instr.run, ParkInstr.run]
        split <;> rfl
    | awaitSignal => exact handlerCode_nested
    | testLevel p =>
      rcases p with ⟨sleep, b, q⟩
      simp only [Instr.run, ParkInstr.run]
      split
      · cases sleep <;> rfl
      · rfl
    | testRequest | retestRequest | retestLevel =>
      simp only [Instr.run, ParkInstr.run]
      split <;> rfl
    | _ => rfl
  | _ => simp_all [Instr.isNested]

/-- Only the first instruction may be urgent, or what is above it is nested. -/
theorem orderly_of_late {code : List Instr} (h : code.tail.all (!·.isUrgent) = true) :
    Orderly code := by
  cases code with
  | nil => exact List.Pairwise.nil
  | cons i code =>
    have hc : ∀ j ∈ code, j.isUrgent = false := by simpa using h
    refine List.pairwise_cons.mpr ⟨fun j hj hu => ?_, orderly_of_calm hc⟩
    rw [hc j hj] at hu
    cases hu

theorem GuardInstr.run_orderly (i : GuardInstr) : Orderly (i.run t w).2 := by
  cases i <;> simp only [GuardInstr.run] <;> repeat' split
  all_goals first
    | exact orderly_of_late rfl
    | simp [Orderly, stopIfDue, Instr.isNested]

theorem MemberInstr.run_orderly (i : MemberInstr) : Orderly (i.run t w).2 := by
  cases i <;> simp only [MemberInstr.run] <;> repeat' split
  all_goals exact orderly_of_late rfl

/-- Whatever an instruction leaves to do is orderly. -/
theorem run_orderly (i : Instr) : Orderly (i.run t w).2 := by
  cases i with
  | user => exact orderly_of_late rfl
  | sync i => cases i <;> exact orderly_of_late rfl
  | guard i => exact i.run_orderly
  | park i => exact orderly_of_nested (run_nested rfl)
  | stop i => exact orderly_of_calm (calm_of_plain i.run_plain)
  | pool i => exact orderly_of_calm (calm_of_plain i.run_plain)
  | member i => exact i.run_orderly
  | read i => exact orderly_of_calm (calm_of_plain i.run_plain)

/-! Which records new code is about, and which threads and records it makes. -/

/-- The instruction is not about record `r`. -/
def Instr.avoids (r : RecordId) (i : Instr) : Bool := i.record? != some r

theorem avoids_of_plain {code : List Instr} (h : code.all Instr.isPlain = true) :
    code.all (Instr.avoids r) = true := by
  apply List.all_eq_true.mpr
  intro j hj
  simp [Instr.avoids, record_of_plain h j hj]

section Avoids

attribute [local simp] Instr.avoids Instr.record? Instr.parkRecord? ParkInstr.record?
  MemberInstr.record?

theorem GuardInstr.run_avoids (i : GuardInstr) (h : ¬Tends w t (.guard i) r) :
    (i.run t w).2.all (Instr.avoids r) = true := by
  cases i <;> simp only [GuardInstr.run]
  case raise s l =>
    split
    · rfl
    · split <;> simp
  case lower s =>
    split
    next b l p hx =>
      have hb := (ne_of_innermost h hx rfl).symm
      split <;> simp [stopIfDue, hb]
    next => rfl
  case mask | unmask | setMask | setPhase => rfl
  case leave => split <;> rfl
  all_goals
    split
    next => rfl
    next b hs =>
      have hb := (ne_of_selfIn h hs).symm
      repeat' split
      all_goals simp [stopIfDue, hb]

theorem handlerCode_avoids (h : w.bindingOf t ≠ some r) :
    (w.handlerCode t).all (Instr.avoids r) = true := by
  rw [handlerCode_eq]
  split
  next => rfl
  next b hb =>
    rw [hb] at h
    simp only [List.all_cons, List.all_nil, Bool.and_true, Instr.avoids, bne_iff_ne]
    exact h

/-- But for the handler, what follows in a park loop is for the record that the loop is for. -/
theorem ParkInstr.run_avoids_of_record (i : ParkInstr) (hb : i.record? ≠ some r)
    (hi : i ≠ .awaitSignal) : (i.run t w).2.all (Instr.avoids r) = true := by
  cases i with
  | check tests entry b =>
    rcases tests with _ | ⟨x, rest⟩
    · rcases entry with _ | _ | _ <;> simp only [ParkInstr.run]
      · simpa using hb
      · split
        · rfl
        · simpa using hb
      · simpa using hb
    · simp only [ParkInstr.run]
      split
      · simpa using hb
      · rfl
  | awaitSignal => exact absurd rfl hi
  | testLevel p =>
    rcases p with ⟨sleep, b, q⟩
    simp only [ParkInstr.run]
    split
    · cases sleep <;> simpa [Parking.sleepCode] using hb
    · simpa using hb
  | testRequest =>
    simp only [ParkInstr.run]
    split <;> simpa using hb
  | retestRequest | retestLevel =>
    simp only [ParkInstr.run]
    split
    · simpa using hb
    · rfl
  | restore => rfl
  | _ => simpa [ParkInstr.run] using hb

theorem ParkInstr.run_avoids (i : ParkInstr) (h : ¬Tends w t (.park i) r) :
    (i.run t w).2.all (Instr.avoids r) = true := by
  by_cases hi : i = .awaitSignal
  · rw [hi]
    exact handlerCode_avoids fun hb => h (Or.inl hb)
  · exact i.run_avoids_of_record (fun hb => h (Or.inr (Or.inr hb))) hi

theorem SyncInstr.run_avoids (i : SyncInstr) (h : ¬Tends w t (.sync i) r) :
    (i.run t w).2.all (Instr.avoids r) = true := by
  by_cases hb : (Instr.sync i).record? = some r
  · exact False.elim (h (Or.inr (Or.inr hb)))
  cases i with
  | wait q l d => cases q <;> simp_all [SyncInstr.run]
  | _ => rfl

theorem MemberInstr.run_avoids (i : MemberInstr) (h : ¬Tends w t (.member i) r) :
    (i.run t w).2.all (Instr.avoids r) = true ∨ (i.run t w).1.ownerOf r = some t := by
  by_cases hb : i.record? = some r
  · exact False.elim (h (Or.inr (Or.inr hb)))
  cases i with
  | detach s =>
    left
    simp only [MemberInstr.run]
    split
    next => rfl
    next b hs =>
      have hb := (ne_of_selfIn h hs).symm
      split <;> simp [hb]
  -- the code is about the record only if it is the new one, and that is the thread's own
  | establish settings =>
    by_cases hr : r = w.records.length
    · right
      simp [MemberInstr.run, ownerOf_eq, hr, World.answer, World.say, ofRecord_addRecord,
        ThreadRecord.bindTo]
    · left
      simp [MemberInstr.run, publishCode, Ne.symm hr]
  | attach s name =>
    simp only [MemberInstr.run]
    split
    · left
      split <;> rfl
    · by_cases hr : r = w.records.length
      · right
        simp [ownerOf_eq, hr, World.answer, World.say, ofRecord_addRecord, ThreadRecord.bindTo]
      · left
        simp [publishCode, Ne.symm hr]
  | _ =>
    left
    simp only [MemberInstr.run]
    repeat' split
    all_goals simp [refuseCode] at hb ⊢
    all_goals exact hb

/-- New code is about no record that its thread does not look after, unless that is new too and has
the thread for its owner. -/
theorem run_avoids (i : Instr) (h : ¬Tends w t i r) :
    (i.run t w).2.all (Instr.avoids r) = true ∨ (i.run t w).1.ownerOf r = some t := by
  cases i with
  | user => exact Or.inl rfl
  | sync i => exact Or.inl (i.run_avoids h)
  | guard i => exact Or.inl (i.run_avoids h)
  | park i => exact Or.inl (i.run_avoids h)
  | stop i => exact Or.inl (avoids_of_plain i.run_plain)
  | pool i => exact Or.inl (avoids_of_plain i.run_plain)
  | member i => exact i.run_avoids h
  | read i => exact Or.inl (avoids_of_plain i.run_plain)

end Avoids

theorem MemberInstr.run_unparked (i : MemberInstr) :
    (i.run t w).2.all (fun j => j.parkRecord?.isNone && !j.isNested) = true := by
  cases i <;> simp only [MemberInstr.run] <;> repeat' split
  all_goals rfl

theorem record_of_parkRecord (h : i.parkRecord? = some r) : i.record? = some r := by
  cases i with
  | park i => exact h
  | sync i => exact h
  | _ => cases h

/-- A thread gets into a park loop on the record that stands for it or one that it has guarded. -/
theorem run_parkRecord (i : Instr) (hj : j ∈ (i.run t w).2) (hr : j.parkRecord? = some r) :
    w.bindingOf t = some r ∨ (∃ x ∈ w.scopesOf t, x.record? = some r) ∨
      i.parkRecord? = some r := by
  have plain (h : (i.run t w).2.all Instr.isPlain = true) : False := by
    have hn := record_of_plain h j hj
    rw [record_of_parkRecord hr] at hn
    cases hn
  have tends (h : ¬Tends w t i r → (i.run t w).2.all (Instr.avoids r) = true) : Tends w t i r := by
    by_contra hn
    have ha := List.all_eq_true.mp (h hn) j hj
    simp [Instr.avoids, record_of_parkRecord hr] at ha
  cases i with
  | user =>
    rw [Instr.run, List.mem_singleton] at hj
    subst hj
    cases hr
  | sync i => exact tends i.run_avoids
  | guard i =>
    rcases tends i.run_avoids with h | h | h
    · exact Or.inl h
    · exact Or.inr (Or.inl h)
    · cases i with
      | setPhase => cases hj
      | _ => cases h
  | park i => exact tends i.run_avoids
  | stop i => exact False.elim (plain i.run_plain)
  | pool i => exact False.elim (plain i.run_plain)
  | member i =>
    have hn := List.all_eq_true.mp (i.run_unparked (w := w) (t := t)) j hj
    simp [hr] at hn
  | read i => exact False.elim (plain i.run_plain)

/-- The instruction belongs to the birth of a thread that a service starts. -/
def Instr.isBirth : Instr → Bool
  | .member (.own _) | .member (.spawnNative ..) => true
  | _ => false

theorem unborn_of_plain {code : List Instr} (h : code.all Instr.isPlain = true) :
    ∀ j ∈ code, j.isBirth = false := by
  intro j hj
  have hu := calm_of_plain h j hj
  cases j with
  | member m => cases m <;> first | rfl | exact hu
  | _ => rfl

theorem unborn_of_nested {code : List Instr} (h : code.all Instr.isNested = true) :
    ∀ j ∈ code, j.isBirth = false := by
  intro j hj
  have hn := List.all_eq_true.mp h j hj
  cases j with
  | member m => cases hn
  | _ => rfl

theorem GuardInstr.run_unborn (i : GuardInstr) : (i.run t w).2.all (!·.isBirth) = true := by
  cases i <;> simp only [GuardInstr.run] <;> repeat' split
  all_goals simp [stopIfDue, Instr.isBirth]

theorem MemberInstr.run_unborn (i : MemberInstr)
    (h : ∀ s o n, i ≠ .spawnRecord s o n) :
    (i.run t w).2.all (!·.isBirth) = true := by
  cases i with
  | spawnRecord s o n => exact absurd rfl (h s o n)
  | _ =>
    simp only [MemberInstr.run]
    repeat' split
    all_goals rfl

/-- A thread is born only of a record that is new. -/
theorem run_birth (i : Instr) (hj : j ∈ (i.run t w).2) (hb : j.isBirth = true) :
    ∃ s o n, i = .member (.spawnRecord s o n) ∧
      j = .member (.spawnNative s w.records.length) := by
  have none (h : j.isBirth = false) : False := by
    rw [h] at hb
    cases hb
  cases i with
  | user =>
    rw [Instr.run, List.mem_singleton] at hj
    subst hj
    cases hb
  | sync i =>
    cases i with
    | wait q l d =>
      simp only [Instr.run, SyncInstr.run, List.mem_cons, List.not_mem_nil, or_false] at hj
      rcases hj with rfl | rfl <;> cases hb
    | doze n =>
      simp only [Instr.run, SyncInstr.run, List.mem_singleton] at hj
      subst hj
      cases hb
    | _ => cases hj
  | guard i =>
    have hn := List.all_eq_true.mp (i.run_unborn (w := w) (t := t)) j hj
    rw [hb] at hn
    cases hn
  | park i => exact False.elim (none (unborn_of_nested (run_nested rfl) j hj))
  | stop i => exact False.elim (none (unborn_of_plain i.run_plain j hj))
  | pool i => exact False.elim (none (unborn_of_plain i.run_plain j hj))
  | read i => exact False.elim (none (unborn_of_plain i.run_plain j hj))
  | member i =>
    -- of the member instructions one alone leads to a birth
    by_cases hs : ∃ s o n, i = .spawnRecord s o n
    · obtain ⟨s, o, n, rfl⟩ := hs
      exact ⟨s, o, n, rfl, List.mem_singleton.mp hj⟩
    · have hi : ∀ s o n, i ≠ .spawnRecord s o n := fun s o n he => hs ⟨s, o, n, he⟩
      have hn := List.all_eq_true.mp (i.run_unborn (w := w) (t := t) hi) j hj
      rw [hb] at hn
      cases hn

/-! Stopping threads and letting them go, one instruction after the other. -/

/-- How an instruction that stops threads or lets them go leads on to another. -/
inductive StopInstr.Leads (w : World) (t : ThreadId) : StopInstr → StopInstr → Prop
  | readEpoch (s : ServiceId) (h : Handle) (r : RecordId) (hr : (w.roster s).lookup h = some r) :
    Leads w t (.suspendFind s h) (.readEpoch s r)
  | request (s : ServiceId) (r : RecordId) (c : ThreadRecord) (hc : w.records[r]? = some c) :
    Leads w t (.readEpoch s r) (.request s r c.epoch)
  | readLevel (s : ServiceId) (r : RecordId) (epoch : Nat) :
    Leads w t (.request s r epoch) (.readLevel s r epoch (w.isRequested r))
  | deliver (s : ServiceId) (r : RecordId) (epoch : Nat) (already : Bool)
    (hl : w.levelOf r = .noBlock) :
    Leads w t (.readLevel s r epoch already) (.deliver s r epoch already)
  | withdraw (s : ServiceId) (r : RecordId) (epoch : Nat) (already : Bool)
    (ho : w.isOutOfReach s r = true) : Leads w t (.deliver s r epoch already) (.withdraw r)
  | watchStart (s : ServiceId) (r : RecordId) (epoch : Nat) (already : Bool) :
    Leads w t (.deliver s r epoch already) (.watchStart s r epoch)
  | watchEpoch (s : ServiceId) (r : RecordId) (epoch : Nat) :
    Leads w t (.watchStart s r epoch) (.watchEpoch ⟨s, r, epoch, w.clock, false⟩)
  | watchPhase (x : Watch) : Leads w t (.watchEpoch x) (.watchPhase x)
  | watchRequest (x : Watch) (hp : w.phaseOf x.record ≠ .suspended) :
    Leads w t (.watchPhase x) (.watchRequest x)
  | watchLevel (x : Watch) (hq : w.isRequested x.record = true) :
    Leads w t (.watchRequest x) (.watchLevel x)
  | watchClock (x : Watch) (hl : w.levelOf x.record = .noBlock) :
    Leads w t (.watchLevel x) (.watchClock x)
  | watchAgain (x : Watch) (warned : Bool) :
    Leads w t (.watchClock x) (.watchEpoch { x with warned })
  | otherEpoch (x : Watch) : Leads w t (.watchEpoch x) (.watchEnd x)
  | isSuspended (x : Watch) : Leads w t (.watchPhase x) (.watchEnd x)
  | isReleased (x : Watch) : Leads w t (.watchRequest x) (.watchEnd x)
  | isBlocked (x : Watch) : Leads w t (.watchLevel x) (.watchEnd x)
  | resumeClear (s : ServiceId) (h : Handle) (r : RecordId)
    (hr : (w.roster s).lookup h = some r) : Leads w t (.resumeFind s h) (.resumeClear s r)
  | resumeLevel (s : ServiceId) (r : RecordId) : Leads w t (.resumeClear s r) (.resumeLevel s r)
  | resumeWake (s : ServiceId) (r : RecordId) : Leads w t (.resumeLevel s r) (.resumeWake s r)
  | resumePhase (s : ServiceId) (r : RecordId) : Leads w t (.resumeWake s r) (.resumePhase r)
  | resumeRequest (r : RecordId) : Leads w t (.resumePhase r) (.resumeRequest r)
  | resumeAgain (r : RecordId) : Leads w t (.resumeRequest r) (.resumePhase r)
  | haltRequest (s : ServiceId) (r : RecordId) (hr : r ∈ w.others t s) :
    Leads w t (.haltOthers s) (.haltRequest s r)
  | closeGate (s : ServiceId) : Leads w t (.haltOthers s) (.closeGate s)
  | haltLevel (s : ServiceId) (r : RecordId) : Leads w t (.haltRequest s r) (.haltLevel s r)
  | haltDeliver (s : ServiceId) (r : RecordId) (hl : w.levelOf r = .noBlock) :
    Leads w t (.haltLevel s r) (.haltDeliver s r)
  | freeClear (s : ServiceId) (r : RecordId) (hr : r ∈ w.others t s) :
    Leads w t (.freeOthers s) (.freeClear s r)
  | openGate (s : ServiceId) : Leads w t (.freeOthers s) (.openGate s)
  | freeLevel (s : ServiceId) (r : RecordId) : Leads w t (.freeClear s r) (.freeLevel s r)
  | freeWake (s : ServiceId) (r : RecordId) : Leads w t (.freeLevel s r) (.freeWake s r)
  | settle (s : ServiceId) (micros d : Nat) : Leads w t (.settleStart s micros) (.settle s d)
  | scan (s : ServiceId) (d : Nat) : Leads w t (.settle s d) (.scan s d)
  | scanRequest (s : ServiceId) (d : Nat) (rs : List RecordId) (b : Bool) :
    Leads w t (.scan s d) (.scanRequest s d rs b)
  | scanLevel (s : ServiceId) (d : Nat) (r : RecordId) (rs : List RecordId) (b : Bool) :
    Leads w t (.scanRequest s d (r :: rs) b) (.scanLevel s d r rs b)
  | scanPhase (s : ServiceId) (d : Nat) (r : RecordId) (rs : List RecordId) (b : Bool) :
    Leads w t (.scanLevel s d r rs b) (.scanPhase s d r rs b)
  | scanUnasked (s : ServiceId) (d : Nat) (r : RecordId) (rs : List RecordId) (b : Bool) :
    Leads w t (.scanRequest s d (r :: rs) b) (.scanRequest s d rs b)
  | scanRaised (s : ServiceId) (d : Nat) (r : RecordId) (rs : List RecordId) (b : Bool) :
    Leads w t (.scanLevel s d r rs b) (.scanRequest s d rs b)
  | scanNext (s : ServiceId) (d : Nat) (r : RecordId) (rs : List RecordId) (b b' : Bool) :
    Leads w t (.scanPhase s d r rs b) (.scanRequest s d rs b')
  | verdict (s : ServiceId) (d : Nat) (b : Bool) :
    Leads w t (.scanRequest s d [] b) (.verdict s d b)
  | settleAgain (s : ServiceId) (d : Nat) (b : Bool) : Leads w t (.verdict s d b) (.settle s d)
  | freeOthers (s : ServiceId) : Leads w t (.undoStop s) (.freeOthers s)

theorem StopInstr.leads_of_run (i : StopInstr) {k : StopInstr} (hk : .stop k ∈ (i.run t w).2) :
    i.Leads w t k := by
  cases i with
  | haltOthers s | freeOthers s =>
    simp only [StopInstr.run, leaveRoster, List.mem_append, List.mem_map, List.mem_cons,
      List.not_mem_nil, or_false, reduceCtorEq, Instr.stop.injEq] at hk
    rcases hk with ⟨r, hr, rfl⟩ | rfl <;> constructor
    exact hr
  | scanRequest s d rs b =>
    cases rs with
    | nil =>
      obtain rfl : k = .verdict s d b := by simpa [StopInstr.run] using hk
      constructor
    | cons r rs =>
      simp only [StopInstr.run] at hk
      split at hk <;> cases List.mem_singleton.mp hk <;> constructor
  | _ =>
    simp only [StopInstr.run, resumeAllCode, ringPark, leaveRoster, guarded, locked] at hk
    repeat' split at hk
    all_goals simp at hk
    all_goals subst hk; constructor
    all_goals assumption

/-! Work on the pools, one instruction after the other. -/

/-- How an instruction on the pools leads on to another. -/
inductive PoolInstr.Leads (w : World) (t : ThreadId) : PoolInstr → PoolInstr → Prop
  | take (s : ServiceId) (i : Nat) (m : MutexRef) (h : (w.mutexSlots s).get i = .ok m) :
    Leads w t (.mutexFind s i .lock) (.take s m)
  | takeRaw (s : ServiceId) (i : Nat) (m : MutexRef) (h : (w.mutexSlots s).get i = .ok m) :
    Leads w t (.mutexFind s i .rawLock) (.take s m)
  | tryTake (s : ServiceId) (i : Nat) (m : MutexRef) (h : (w.mutexSlots s).get i = .ok m) :
    Leads w t (.mutexFind s i .tryLock) (.tryTake m)
  | giveUp (s : ServiceId) (i : Nat) (m : MutexRef) (h : (w.mutexSlots s).get i = .ok m) :
    Leads w t (.mutexFind s i .unlock) (.giveUp m)
  | waitOwner (s : ServiceId) (i : Nat) (m : MutexRef) (c : CondRef) (micros : Option Nat)
    (h : (w.mutexSlots s).get i = .ok m) :
    Leads w t (.mutexFind s i (.wait c micros)) (.waitOwner s c m micros)
  | retake (s : ServiceId) (m : MutexRef) : Leads w t (.take s m) (.retake s m w.clock)
  | retakeAgain (s : ServiceId) (m : MutexRef) (since : Nat) :
    Leads w t (.retake s m since) (.retake s m since)
  | mutexIdle (s : ServiceId) (i : Nat) (m : MutexRef) (h : (w.mutexSlots s).get i = .ok m) :
    Leads w t (.mutexDispose s i) (.mutexIdle s i m)
  | mutexFree (s : ServiceId) (i : Nat) (m : MutexRef) (h : (w.mutex m).isTaken = false) :
    Leads w t (.mutexIdle s i m) (.mutexFree s i)
  | signal (s : ServiceId) (i : Nat) (c : CondRef) (h : (w.condSlots s).get i = .ok c) :
    Leads w t (.condFind s i .signal) (.signal c)
  | broadcast (s : ServiceId) (i : Nat) (c : CondRef) (h : (w.condSlots s).get i = .ok c) :
    Leads w t (.condFind s i .broadcast) (.broadcast c)
  | mutexFind (s : ServiceId) (i : Nat) (c : CondRef) (k : Nat) (micros : Option Nat)
    (h : (w.condSlots s).get i = .ok c) :
    Leads w t (.condFind s i (.wait k micros)) (.mutexFind s k (.wait c micros))
  | condIdle (s : ServiceId) (i : Nat) (c : CondRef) (h : (w.condSlots s).get i = .ok c) :
    Leads w t (.condDispose s i) (.condIdle s i c)
  | condFree (s : ServiceId) (i : Nat) (c : CondRef) : Leads w t (.condIdle s i c) (.condFree s i)
  | waitClock (s : ServiceId) (c : CondRef) (m : MutexRef) (micros : Option Nat)
    (h : (w.mutex m).isOwnedBy t = true) :
    Leads w t (.waitOwner s c m micros) (.waitClock s c m micros)
  | waitRegister (s : ServiceId) (c : CondRef) (m : MutexRef) (micros : Option Nat) :
    Leads w t (.waitClock s c m micros) (.waitRegister ⟨s, c, m, micros.map (w.clock + ·)⟩)
  | waitGiveUp (x : CondWait) :
    Leads w t (.waitRegister x) (.waitGiveUp x (w.cond x.cond).generation)
  | waitCheck (x : CondWait) (ticket : Nat) :
    Leads w t (.waitGiveUp x ticket) (.waitCheck x ticket)
  | waitAgain (x : CondWait) (ticket : Nat) :
    Leads w t (.waitCheck x ticket) (.waitCheck x ticket)
  | waitRetire (x : CondWait) (ticket : Nat) : Leads w t (.waitCheck x ticket) (.waitRetire x)
  | takeBack (x : CondWait) : Leads w t (.waitRetire x) (.take x.service x.mutex)

theorem PoolInstr.leads_of_run (i : PoolInstr) {k : PoolInstr} (hk : .pool k ∈ (i.run t w).2) :
    i.Leads w t k := by
  cases i with
  | mutexFind s i use | condFind s i use =>
    simp only [PoolInstr.run] at hk
    split at hk <;> cases use <;>
      simp [MutexUse.found, MutexUse.missing, CondUse.found, CondUse.missing, sleeping, takeCode,
        guarded, locked] at hk
    all_goals subst hk; constructor; assumption
  | _ =>
    simp only [PoolInstr.run, takeCode, locked] at hk
    repeat' split at hk
    all_goals simp at hk
    all_goals subst hk; constructor
    all_goals first | assumption | simp_all

/-! The code of calls, and what a thread does after its own code has ended. -/

/-- The instruction is in the code of a call from the first. -/
def StopInstr.isOpening : StopInstr → Bool
  | .countSuspend _ | .suspendFind .. | .countResume _ | .resumeFind .. | .countSuspendAll _
  | .haltOthers _ | .freeOthers _ | .settleStart .. | .undoStop _ => true
  | _ => false

/-- The instruction is the first of a call on the pools. -/
def PoolInstr.isOpening : PoolInstr → Bool
  | .mutexFind _ _ (.wait ..) => false
  | .mutexAllot .. | .mutexFind .. | .mutexDispose .. | .condAllot .. | .condFind ..
  | .condDispose .. => true
  | _ => false

/-- The instruction may stand in the code of a call; any other is left to do by one that is run. -/
def Instr.isOpening : Instr → Bool
  | .user => false
  | .sync (.acquire (.roster _)) | .sync (.release (.roster _)) => true
  | .sync (.acquire (.mutexTable _)) | .sync (.release (.mutexTable _)) => true
  | .sync (.acquire (.condTable _)) | .sync (.release (.condTable _)) => true
  | .sync (.doze _) => true
  | .sync _ => false
  | .guard (.mask _) | .guard (.unmask _) | .guard (.setMask _) | .guard (.setPhase ..) => false
  | .guard _ => true
  | .park (.check [.request, .level, .phase] (.call _) _) => true
  | .park _ => false
  | .stop k => k.isOpening
  | .pool k => k.isOpening
  | .member (.establish _) | .member (.attach ..) | .member (.detach _) => true
  | .member (.spawn ..) | .member (.awaitExit ..) => true
  | .member _ => false
  | .read (.find ..) | .read (.all ..) | .read (.census _) | .read (.statsCensus _) => true
  | .read (.statsMutexes _) | .read (.statsConds _) | .read (.statsCounters _) => true
  | .read _ => false

theorem Call.opening_of_code (c : Call) (hj : j ∈ c.code w t) : j.isOpening = true := by
  have h : (c.code w t).all Instr.isOpening = true := by
    cases c with
    | mutex s a c | cond s a c => cases a <;> cases c <;> rfl
    | safePoint s =>
      simp only [Call.code]
      split <;> rfl
    | _ => rfl
  exact List.all_eq_true.mp h j hj

section Calls

attribute [local simp] Instr.isPlain Instr.record? Instr.parkRecord? Instr.isUrgent

theorem MutexCall.code_plain (c : MutexCall) (s : ServiceId) :
    (c.code s).all Instr.isPlain = true := by
  cases c <;> simp [MutexCall.code]

theorem CondCall.code_plain (c : CondCall) (s : ServiceId) :
    (c.code s).all Instr.isPlain = true := by
  cases c <;> simp [CondCall.code]

/-- The code of a call is plain, but for a safe point, where the caller may park. -/
theorem Call.code_plain (c : Call) :
    (c.code w t).all Instr.isPlain = true ∨ ∃ s r, c = .safePoint s ∧ w.selfIn t s = some r ∧
      c.code w t = [.park (.check [.request, .level, .phase] (.call (w.mechanism s)) r)] := by
  cases c with
  | safePoint s =>
    simp only [Call.code]
    split
    next => exact Or.inl rfl
    next b hs => exact Or.inr ⟨s, b, rfl, hs, rfl⟩
  | mutex s a c =>
    left
    cases a
    · cases c <;> simp [Call.code, MutexCall.code]
    · exact c.code_plain s
  | cond s a c =>
    left
    cases a
    · simpa [Call.code] using c.code_plain s
    · exact c.code_plain s
  | inquire s h q =>
    left
    simp [Call.code, inquireCode, Instr.isPlain]
  | suspendAll | resumeAll | stopTheWorld =>
    left
    simp [Call.code, suspendAllCode, resumeAllCode]
  | sleep | shortSleep =>
    left
    simp [Call.code, sleepCode]
  | _ =>
    left
    simp [Call.code, MemberInstr.record?]

theorem Call.code_orderly (c : Call) : Orderly (c.code w t) := by
  rcases c.code_plain (w := w) (t := t) with h | ⟨s, r, _, _, h⟩
  · exact orderly_of_calm (calm_of_plain h)
  · rw [h]
    exact List.pairwise_singleton _ _

theorem Call.code_record (c : Call) (hj : j ∈ c.code w t) (hr : j.record? = some r) :
    w.bindingOf t = some r := by
  rcases c.code_plain (w := w) (t := t) with h | ⟨s, b, _, hs, h⟩
  · rw [record_of_plain h j hj] at hr
    cases hr
  · rw [h, List.mem_singleton] at hj
    subst hj
    obtain rfl : b = r := Option.some.inj hr
    exact (selfIn_eq_some.mp hs).1

theorem Call.code_unborn (c : Call) : ∀ j ∈ c.code w t, j.isBirth = false := by
  rcases c.code_plain (w := w) (t := t) with h | ⟨s, b, _, hs, h⟩
  · exact unborn_of_plain h
  · rw [h]
    exact unborn_of_nested rfl

theorem mem_epilogue {panicked : Bool} {code : List Instr} (h : j ∈ epilogue panicked code) :
    j ∈ code ∨ ∃ s r, j = .member (.mourn s r) ∧ .member (.exitRaise s r) ∈ code := by
  unfold epilogue at h
  split at h
  next s r rest =>
    rcases List.mem_append.mp h with h | h
    · split at h
      · rw [List.mem_singleton] at h
        exact Or.inr ⟨s, r, h, List.mem_cons_self⟩
      · cases h
    · exact Or.inl h
  next => exact Or.inl h

theorem mem_epilogue_of_mem {panicked : Bool} {code : List Instr} (h : j ∈ code) :
    j ∈ epilogue panicked code := by
  unfold epilogue
  split
  · exact List.mem_append_right _ h
  · exact h

/-- What tells nothing of any instruction that a new thread has to do. -/
theorem threadCode_none {α : Type} {s : ServiceId} {f : Instr → Option α}
    (h : (threadCode s r).all (fun j => (f j).isNone) = true) (hj : j ∈ threadCode s r) :
    f j = none :=
  Option.isNone_iff_eq_none.mp (List.all_eq_true.mp h j hj)

end Calls

end Standstill
