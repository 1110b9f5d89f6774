import Standstill.Proofs.Views

/-!
The part of a world on which stopping and locking rest, and the instructions that leave it alone.
Pools, counts, names and what a call answers are not in it.
-/
namespace Standstill

def Thread.core (x : Thread) : Thread := { x with outcome := .value .unit }

def ThreadRecord.core (c : ThreadRecord) : ThreadRecord :=
  { c with
    name := "", priority := 0, epoch := 0, stackTop := .unset, baseSet := false, started := false }

def Service.core (v : Service) : Service :=
  { v with
    roster := { v.roster with census := {} }
    mutexes := .empty 0, conds := .empty 0, counters := {} }

namespace World

def core (w : World) : World :=
  { w with
    threads := w.threads.map Thread.core
    records := w.records.map ThreadRecord.core
    services := w.services.map Service.core
    mutexes := [], conds := [], clock := 0 }

variable {w w' : World} {t : ThreadId} {r : RecordId} {s : ServiceId}

theorem map_modify_of_comp {α β : Type} (l : List α) (n : Nat) (f : α → α) (g : α → β)
    (h : ∀ x, g (f x) = g x) :
    (l.modify n f).map g = l.map g := by
  apply List.ext_getElem?
  intro i
  simp only [List.getElem?_map, List.getElem?_modify]
  by_cases hi : n = i
  · cases l[i]? <;> simp [hi, h]
  · cases l[i]? <;> simp [hi]

theorem core_modThread (f : Thread → Thread) (h : ∀ x, (f x).core = x.core) :
    (w.modThread t f).core = w.core := by
  simp only [core, modThread, map_modify_of_comp _ _ _ _ h]

theorem core_modRecord (f : ThreadRecord → ThreadRecord) (h : ∀ c, (f c).core = c.core) :
    (w.modRecord r f).core = w.core := by
  simp only [core, modRecord, map_modify_of_comp _ _ _ _ h]

theorem core_modService (f : Service → Service) (h : ∀ v, (f v).core = v.core) :
    (w.modService s f).core = w.core := by
  simp only [core, modService, map_modify_of_comp _ _ _ _ h]

@[simp] theorem core_say (o : Outcome) : (w.say t o).core = w.core :=
  core_modThread _ fun _ => rfl

@[simp] theorem core_fail (f : Fault) : (w.fail t f).core = w.core := core_say _

@[simp] theorem core_answer (v : Value) : (w.answer t v).core = w.core := core_say _

@[simp] theorem core_count (x : Tally) : (w.count s x).core = w.core :=
  core_modService _ fun _ => rfl

@[simp] theorem core_modCensus (f : Census → Census) : (w.modCensus s f).core = w.core :=
  core_modService _ fun _ => rfl

@[simp] theorem core_setMutexSlots (p : Slots MutexRef) : (w.setMutexSlots s p).core = w.core :=
  core_modService _ fun _ => rfl

@[simp] theorem core_setCondSlots (p : Slots CondRef) : (w.setCondSlots s p).core = w.core :=
  core_modService _ fun _ => rfl

@[simp] theorem core_modMutex (m : MutexRef) (f : PoolLock → PoolLock) :
    (w.modMutex m f).core = w.core := rfl

@[simp] theorem core_modCond (c : CondRef) (f : PoolCondition → PoolCondition) :
    (w.modCond c f).core = w.core := rfl

@[simp] theorem core_addMutex (ms : List PoolLock) : { w with mutexes := ms }.core = w.core := rfl

@[simp] theorem core_addCond (cs : List PoolCondition) : { w with conds := cs }.core = w.core := rfl

@[simp] theorem core_modStats (f : Stats → Stats) : (w.modStats t f).core = w.core := by
  apply core_modThread
  intro x
  split <;> rfl

@[simp] theorem core_addRow (c : ThreadRecord) : (w.addRow t c).core = w.core := by
  apply core_modThread
  intro x
  split <;> rfl

/-! Whatever is asked about threads and records can be told from the core. -/

section Told

variable {α : Type} {d : α}

theorem ofThread_core {f : Thread → α} (h : ∀ x, f x.core = f x) :
    w.core.ofThread t d f = w.ofThread t d f := by
  simp only [ofThread, core, List.getElem?_map]
  cases w.threads[t]? <;> simp [h]

theorem ofRecord_core {f : ThreadRecord → α} (h : ∀ c, f c.core = f c) :
    w.core.ofRecord r d f = w.ofRecord r d f := by
  simp only [ofRecord, core, List.getElem?_map]
  cases w.records[r]? <;> simp [h]

theorem ofThread_congr {f : Thread → α} (h : w.core = w'.core) (hf : ∀ x, f x.core = f x) :
    w.ofThread t d f = w'.ofThread t d f := by
  rw [← ofThread_core hf, h, ofThread_core hf]

theorem ofRecord_congr {f : ThreadRecord → α} (h : w.core = w'.core) (hf : ∀ c, f c.core = f c) :
    w.ofRecord r d f = w'.ofRecord r d f := by
  rw [← ofRecord_core hf, h, ofRecord_core hf]

theorem threads_congr (h : w.core = w'.core) : w.threads.length = w'.threads.length := by
  have ht := congrArg (fun x : World => x.threads.length) h
  simpa [core] using ht

theorem records_congr (h : w.core = w'.core) : w.records.length = w'.records.length := by
  have hr := congrArg (fun x : World => x.records.length) h
  simpa [core] using hr

theorem services_congr (h : w.core = w'.core) : w.services.length = w'.services.length := by
  have hs := congrArg (fun x : World => x.services.length) h
  simpa [core] using hs

theorem held_congr (h : w.core = w'.core) : w.held = w'.held := by
  have hh := congrArg World.held h
  exact hh

theorem asleep_congr (h : w.core = w'.core) : w.asleep = w'.asleep := by
  have ha := congrArg World.asleep h
  exact ha

theorem settingsOf_core : w.core.settingsOf s = w.settingsOf s := by
  simp only [settingsOf, core, List.getElem?_map]
  cases w.services[s]? <;> rfl

theorem settingsOf_congr (h : w.core = w'.core) : w.settingsOf s = w'.settingsOf s := by
  rw [← settingsOf_core, h, settingsOf_core]

theorem entriesOf_core : w.core.entriesOf s = w.entriesOf s := by
  simp only [entriesOf, roster, core, List.getElem?_map]
  cases w.services[s]? <;> rfl

theorem entriesOf_congr (h : w.core = w'.core) : w.entriesOf s = w'.entriesOf s := by
  rw [← entriesOf_core, h, entriesOf_core]

end Told

end World

open World

variable {w : World} {t : ThreadId}

theorem PoolInstr.core_run (i : PoolInstr) : (i.run t w).1.core = w.core := by
  cases i <;> simp only [PoolInstr.run] <;> repeat' split
  all_goals simp

theorem ReadInstr.core_run (i : ReadInstr) : (i.run t w).1.core = w.core := by
  cases i <;> simp only [ReadInstr.run, ReadInstr.tell, ReadInstr.consult] <;> repeat' split
  all_goals first | (simp; done) | exact core_modRecord _ fun _ => rfl

/-- The instruction leaves the core alone. -/
def Instr.isQuiet : Instr → Bool
  | .user | .pool _ | .read _ => true
  | .guard _ => false
  | .sync (.doze _) | .sync (.dozing _) => true
  | .sync _ => false
  | .park (.check [] (.call .signal) _) | .park (.mark _) | .park .awaitSignal
  | .park (.restore _) => false
  | .park _ => true
  | .stop (.request ..) | .stop (.deliver ..) | .stop (.withdraw _) | .stop (.resumeClear ..)
  | .stop (.resumeWake ..) | .stop (.haltRequest ..) | .stop (.haltDeliver ..)
  | .stop (.freeClear ..) | .stop (.freeWake ..) => false
  | .stop _ => true
  | .member (.detach _) | .member (.spawn ..) | .member (.noThread _) | .member (.spawnWait ..)
  | .member (.capture _) | .member (.gateWait ..) | .member (.gatePass ..)
  | .member (.noteStarted _) | .member (.mourn ..) | .member (.awaitExit ..)
  | .member (.awaitExitCheck ..) => true
  | .member _ => false

theorem ParkInstr.core_run (i : ParkInstr) (h : (Instr.park i).isQuiet = true) :
    (i.run t w).1.core = w.core := by
  cases i with
  | check tests entry r =>
    cases tests with
    | cons x rest => simp [ParkInstr.run]
    | nil =>
      rcases entry with _ | _ | _ <;> simp_all [ParkInstr.run, Instr.isQuiet]
  | spill p => exact core_modRecord _ fun _ => rfl
  | count p => exact core_modRecord _ fun _ => rfl
  | _ => simp_all [ParkInstr.run, Instr.isQuiet]

theorem StopInstr.core_run (i : StopInstr) (h : (Instr.stop i).isQuiet = true) :
    (i.run t w).1.core = w.core := by
  cases i with
  | scanRequest s d rs settled => cases rs <;> rfl
  | _ =>
    simp only [StopInstr.run] <;> repeat' split
    all_goals simp_all [Instr.isQuiet]

theorem MemberInstr.core_run (i : MemberInstr) (h : (Instr.member i).isQuiet = true) :
    (i.run t w).1.core = w.core := by
  cases i <;> simp only [MemberInstr.run] <;> repeat' split
  all_goals first | exact core_modRecord _ fun _ => rfl | simp_all [Instr.isQuiet]

theorem Instr.core_run (i : Instr) (h : i.isQuiet = true) : (i.run t w).1.core = w.core := by
  cases i with
  | user => rfl
  | pool i => exact i.core_run
  | read i => exact i.core_run
  | guard i => cases h
  | park i => exact i.core_run h
  | stop i => exact i.core_run h
  | member i => exact i.core_run h
  | sync i => cases i <;> first | rfl | cases h

end Standstill
