import Standstill.Proofs.Frame

/-!
What can be told from an instruction alone: the record it is about, whether it may run on top of
other code, and whether it has to. A stop signal's handler lies on top of whatever its thread was
doing, so a thread's code is a stretch of nested instructions above the rest.
-/
namespace Standstill

def Scope.record? : Scope → Option RecordId
  | .guard r _ _ => r
  | .phase r _ => r

def ParkInstr.record? : ParkInstr → Option RecordId
  | .check _ _ r | .save _ r | .retestRequest r | .retestLevel r => some r
  | .spill p | .mark p | .count p | .testRequest p | .testLevel p | .restore p => some p.record
  | .awaitSignal => none

def MemberInstr.record? : MemberInstr → Option RecordId
  | .publish _ r | .bind r | .detachRaise _ r | .detachRemove _ r _ | .clearRequest r
  | .setLevel r _ | .own r | .capture r | .gateEnter _ r | .gateWait _ r | .gatePass _ r
  | .noteStarted r | .mourn _ r | .exitRaise _ r | .exitRemove _ r => some r
  | _ => none

namespace Instr

/-- The record in whose park loop the instruction lies, or on the way to it. -/
def parkRecord? : Instr → Option RecordId
  | .park i => i.record?
  | .sync (.wait (.park r) _ _) | .sync (.resting (.park r) _) => some r
  | _ => none

/-- The record that the instruction is about, where only the record's own thread runs it. -/
def record? : Instr → Option RecordId
  | .guard (.setPhase r _) => some r
  | .member i => i.record?
  | i => i.parkRecord?

/-- The instruction may lie on top of code that is not its own. -/
def isNested : Instr → Bool
  | .park _ | .guard (.setMask _) => true
  | .sync (.acquire (.park _)) | .sync (.release (.park _)) => true
  | .sync (.wait (.park _) (.park _) _) | .sync (.resting (.park _) _) => true
  | _ => false

/-- Nothing but nested instructions comes before the instruction. -/
def isUrgent : Instr → Bool
  | .park _ | .sync (.wait (.park _) (.park _) _) | .sync (.resting (.park _) _) => true
  | .guard (.mask _) | .guard (.unmask _) | .guard (.setMask _) => true
  | .member (.own _) | .member (.spawnNative ..) | .member (.detachRaise ..) => true
  | _ => false

/-- The instruction is about no record and can stand anywhere. -/
def isPlain (i : Instr) : Bool := i.record?.isNone && !i.isUrgent

end Instr

/-- Urgent instructions come with nothing but nested ones before them. -/
def Orderly (code : List Instr) : Prop :=
  code.Pairwise fun i j => j.isUrgent = true → i.isNested = true

variable {w : World} {t : ThreadId} {s : ServiceId} {r : RecordId} {code rest : List Instr}

theorem orderly_of_nested (h : code.all Instr.isNested = true) : Orderly code := by
  apply List.pairwise_iff_forall_sublist.mpr
  intro a b hab _
  exact List.all_eq_true.mp h a (hab.subset (by simp))

theorem orderly_of_calm (h : ∀ i ∈ code, i.isUrgent = false) : Orderly code := by
  apply List.pairwise_iff_forall_sublist.mpr
  intro a b hab hb
  rw [h b (hab.subset (by simp))] at hb
  cases hb

theorem Orderly.calm (h : Orderly (i :: rest)) (hi : i.isNested = false) :
    ∀ j ∈ rest, j.isUrgent = false := by
  intro j hj
  have hp := (List.pairwise_cons.mp h).1 j hj
  cases hu : j.isUrgent
  · rfl
  · rw [hi] at hp
    exact absurd (hp hu) (by simp)

theorem Orderly.append_nested (h : Orderly rest) (hc : code.all Instr.isNested = true) :
    Orderly (code ++ rest) :=
  List.pairwise_append.mpr
    ⟨orderly_of_nested hc, h, fun i hi _ _ _ => List.all_eq_true.mp hc i hi⟩

theorem Orderly.append_calm (h : Orderly code) (hr : ∀ i ∈ rest, i.isUrgent = false) :
    Orderly (code ++ rest) := by
  refine List.pairwise_append.mpr ⟨h, orderly_of_calm hr, ?_⟩
  intro i _ j hj hu
  rw [hr j hj] at hu
  cases hu

/-- Code of one kind is code of any wider kind. -/
theorem all_imp {p q : Instr → Bool} (hi : ∀ {i}, p i = true → q i = true)
    (h : code.all p = true) : code.all q = true :=
  List.all_eq_true.mpr fun _ hx => hi (List.all_eq_true.mp h _ hx)

theorem calm_of_plain (h : code.all Instr.isPlain = true) : ∀ i ∈ code, i.isUrgent = false := by
  intro i hi
  have hp := List.all_eq_true.mp h i hi
  simp only [Instr.isPlain, Bool.and_eq_true, Bool.not_eq_true'] at hp
  exact hp.2

theorem record_of_plain (h : code.all Instr.isPlain = true) : ∀ i ∈ code, i.record? = none := by
  intro i hi
  have hp := List.all_eq_true.mp h i hi
  simp only [Instr.isPlain, Bool.and_eq_true, Option.isNone_iff_eq_none] at hp
  exact hp.1

/-! The pieces of code that calls are put together from, under a test of single instructions. -/

section Pieces

variable (p : Instr → Bool) (l : Lock) (level : Level) (phase : Phase) (body : List Instr)

@[simp] theorem all_locked :
    (locked l body).all p = (p (.sync (.acquire l)) && (body.all p && p (.sync (.release l)))) := by
  simp [locked]

@[simp] theorem all_guarded :
    (guarded s level body).all p =
      (p (.guard (.raise s level)) && (body.all p && p (.guard (.lower s)))) := by
  simp [guarded]

@[simp] theorem all_sleeping :
    (sleeping s phase body).all p =
      (p (.guard (.enter s phase)) && ((guarded s .blocking body).all p && p (.guard .leave))) := by
  simp [sleeping]

@[simp] theorem all_leaveRoster :
    (leaveRoster s).all p = (p (.sync (.release (.roster s))) && p (.guard (.lower s))) := by
  simp [leaveRoster]

@[simp] theorem all_takeCode (m : MutexRef) :
    (takeCode s m).all p = (locked (.mutexState m) [.pool (.take s m)]).all p := rfl

@[simp] theorem all_ringPark :
    (ringPark r).all p = (locked (.park r) [.sync (.notifyAll (.park r))]).all p := rfl

end Pieces

/-! What work on the pools and readings leave to do. -/

def Lock.isPooled : Lock → Bool
  | .mutexTable _ | .condTable _ | .mutexState _ | .condState _ => true
  | _ => false

def WaitList.isPooled : WaitList → Bool
  | .mutex _ | .cond _ => true
  | _ => false

/-- More of its kind, a lock but that of a park loop, a queue of a pool object, or what belongs to a
guard. -/
def Instr.isWork : Instr → Bool
  | .pool _ | .read _ => true
  | .guard (.raise _ level) => level != .noBlock
  | .guard (.enter _ phase) => phase != .suspended
  | .guard (.lower _) | .guard .leave => true
  | .sync (.acquire l) | .sync (.release l) =>
    match l with
    | .park _ => false
    | _ => true
  | .sync (.wait q ..) | .sync (.notifyOne q) | .sync (.notifyAll q) => q.isPooled
  | _ => false

theorem PoolInstr.run_work (i : PoolInstr) : (i.run t w).2.all Instr.isWork = true := by
  cases i with
  | mutexFind s k use | condFind s k use =>
    simp only [PoolInstr.run]
    split <;> cases use
    all_goals first | rfl | simp only [MutexUse.found]; split <;> rfl
  | _ =>
    simp only [PoolInstr.run]
    repeat' split
    all_goals rfl

theorem ReadInstr.run_work (i : ReadInstr) : (i.run t w).2.all Instr.isWork = true := by
  cases i with
  | find s h q =>
    simp only [ReadInstr.run]
    split
    · rfl
    · cases q <;> rfl
  | all s withNames => cases withNames <;> simp [ReadInstr.run, List.all_flatMap, Instr.isWork]
  | _ =>
    simp only [ReadInstr.run, ReadInstr.tell, ReadInstr.consult]
    repeat' split
    all_goals rfl

/-! New code of the instructions that neither guard nor park nor change membership is plain. -/

theorem plain_of_work {i : Instr} (h : i.isWork = true) : i.isPlain = true := by
  cases i with
  | sync k =>
    cases k with
    | wait q => cases q <;> first | rfl | cases h
    | acquire | release | notifyOne | notifyAll => rfl
    | _ => cases h
  | guard g => cases g <;> first | rfl | cases h
  | pool | read => rfl
  | _ => cases h

theorem PoolInstr.run_plain (i : PoolInstr) : (i.run t w).2.all Instr.isPlain = true :=
  all_imp plain_of_work i.run_work

theorem ReadInstr.run_plain (i : ReadInstr) : (i.run t w).2.all Instr.isPlain = true :=
  all_imp plain_of_work i.run_work

theorem StopInstr.run_plain (i : StopInstr) : (i.run t w).2.all Instr.isPlain = true := by
  cases i with
  | haltOthers s | freeOthers s =>
    simp [StopInstr.run, Instr.isPlain, Instr.record?, Instr.parkRecord?, Instr.isUrgent]
  | scanRequest s d rs settled =>
    cases rs <;> simp only [StopInstr.run]
    · rfl
    · split <;> rfl
  | _ =>
    simp only [StopInstr.run, resumeAllCode]
    repeat' split
    all_goals rfl

end Standstill
