import Standstill.Proofs.Lawful
import Standstill.Proofs.Layers
import Standstill.Proofs.ParkLoop
import Standstill.Proofs.Registered

/-!
What an instruction does to the rosters. A record enters the roster of a service by `publish` or
`gateEnter` and leaves it by `detachRemove` or `exitRemove`; nothing else changes who is there.
-/
namespace Standstill

open World

namespace World

/-- The records that the roster of service `s` knows. -/
def members (w : World) (s : ServiceId) : List RecordId := (w.roster s).records

/-- The owner of record `r` has gone through the start gate, or joined without one. -/
def startedOf (w : World) (r : RecordId) : Bool := w.ofRecord r false (·.started)

end World

/-- What a record says whatever its owner does at present: whose it is, and how it was made. -/
def ThreadRecord.label (c : ThreadRecord) : ThreadRecord :=
  { c with
    phase := .creating, level := .noBlock, requested := false, epoch := 0, stackTop := .unset,
    baseSet := false, owner := none }

def World.labelOf (w : World) (r : RecordId) : Option ThreadRecord :=
  w.ofRecord r none fun c => some c.label

/-- The record whose label the instruction writes. -/
def Instr.labels? : Instr → Option RecordId
  | .member (.noteStarted r) | .read (.rename r _) | .read (.setPriority r _) => some r
  | _ => none

/-- The record that the instruction enters, and the service with whose roster it does so. -/
def MemberInstr.inserts? : MemberInstr → Option (ServiceId × RecordId)
  | .publish s r | .gateEnter s r => some (s, r)
  | _ => none

/-- The record that the instruction takes out. -/
def MemberInstr.removes? : MemberInstr → Option (ServiceId × RecordId)
  | .detachRemove s r _ | .exitRemove s r => some (s, r)
  | _ => none

/-- The service whose roster the instruction changes. -/
def MemberInstr.roster? : MemberInstr → Option ServiceId
  | .publish s _ | .gateEnter s _ | .gatePass s _ | .detachRemove s .. | .exitRemove s _ => some s
  | _ => none

namespace Instr

def inserts? : Instr → Option (ServiceId × RecordId)
  | .member i => i.inserts?
  | _ => none

def removes? : Instr → Option (ServiceId × RecordId)
  | .member i => i.removes?
  | _ => none

def roster? : Instr → Option ServiceId
  | .member i => i.roster?
  | .stop (.closeGate s) | .stop (.openGate s) => some s
  | _ => none

end Instr

variable {n : Nat} {w w' : World} {t t' : ThreadId} {s b : ServiceId} {r : RecordId} {h : Handle}
  {i j : Instr} {g : Roster} {rest : List Instr} {e : Event}

/-! Elementary changes. -/

section Elementary

theorem roster_of_services_eq (hs : w'.services = w.services) : w'.roster s = w.roster s := by
  simp only [roster, hs]

@[simp] theorem roster_modThread (f : Thread → Thread) : (w.modThread t f).roster s = w.roster s :=
  rfl

@[simp] theorem roster_modRecord (f : ThreadRecord → ThreadRecord) :
    (w.modRecord r f).roster s = w.roster s := rfl

@[simp] theorem roster_addRecord (c : ThreadRecord) : (w.addRecord c).roster s = w.roster s := rfl

@[simp] theorem roster_addThread (x : Thread) : (w.addThread x).roster s = w.roster s := rfl

@[simp] theorem roster_modMutex (m : MutexRef) (f : PoolLock → PoolLock) :
    (w.modMutex m f).roster s = w.roster s := rfl

@[simp] theorem roster_modCond (c : CondRef) (f : PoolCondition → PoolCondition) :
    (w.modCond c f).roster s = w.roster s := rfl

@[simp] theorem roster_mutexes (ms : List PoolLock) :
    { w with mutexes := ms }.roster s = w.roster s := rfl

@[simp] theorem roster_conds (cs : List PoolCondition) :
    { w with conds := cs }.roster s = w.roster s := rfl

@[simp] theorem roster_push (c : List Instr) : (w.push t c).roster s = w.roster s := rfl

theorem roster_modService_of {f : Service → Service} (hf : ∀ v, (f v).roster = v.roster) :
    (w.modService b f).roster s = w.roster s := by
  simp only [roster, modService, List.getElem?_modify]
  by_cases hb : b = s
  · subst hb
    cases w.services[b]? <;> simp [hf]
  · simp only [hb, if_false]
    cases w.services[s]? <;> rfl

theorem roster_modRoster_of_ne {f : Roster → Roster} (hb : b ≠ s) :
    (w.modRoster b f).roster s = w.roster s := by
  simp only [roster, modRoster, modService, List.getElem?_modify, hb, if_false]
  cases w.services[s]? <;> rfl

theorem roster_modCensus_of_ne {f : Census → Census} (hb : b ≠ s) :
    (w.modCensus b f).roster s = w.roster s := roster_modRoster_of_ne hb

theorem roster_modRoster {f : Roster → Roster} (hs : s < w.services.length) :
    (w.modRoster s f).roster s = f (w.roster s) := by
  simp [roster, modRoster, modService, hs]

theorem roster_modCensus {f : Census → Census} (hs : s < w.services.length) :
    (w.modCensus s f).roster s = { w.roster s with census := f (w.census s) } :=
  roster_modRoster hs

theorem roster_modRoster_modCensus {f : Roster → Roster} {f' : Census → Census}
    (hs : s < w.services.length) : ((w.modRoster s f).modCensus s f').roster s =
      { f (w.roster s) with census := f' (f (w.roster s)).census } := by
  simp [roster, modCensus, modRoster, modService, hs]

@[simp] theorem roster_count (x : Tally) : (w.count b x).roster s = w.roster s :=
  roster_modService_of fun _ => rfl

@[simp] theorem roster_setMutexSlots (p : Slots MutexRef) :
    (w.setMutexSlots b p).roster s = w.roster s := roster_modService_of fun _ => rfl

@[simp] theorem roster_setCondSlots (p : Slots CondRef) :
    (w.setCondSlots b p).roster s = w.roster s := roster_modService_of fun _ => rfl

@[simp] theorem roster_addService {v : Service} (hv : v.roster = {}) :
    (w.addService v).roster s = w.roster s := by
  simp only [roster, addService]
  rcases Nat.lt_trichotomy s w.services.length with hl | rfl | hl
  · rw [List.getElem?_append_left hl]
  · simp [hv]
  · have hn : w.services.length + 1 ≤ s := hl
    rw [List.getElem?_eq_none (by simpa using hn), List.getElem?_eq_none (Nat.le_of_lt hl)]

end Elementary

/-! Instructions that leave a roster alone. -/

section Frame

theorem PoolInstr.roster_run (i : PoolInstr) : (i.run t w).1.roster s = w.roster s := by
  cases i <;> simp only [PoolInstr.run] <;> repeat' split
  all_goals simp [fail, answer, say]

theorem ReadInstr.roster_run (i : ReadInstr) : (i.run t w).1.roster s = w.roster s := by
  cases i <;> simp only [ReadInstr.run, ReadInstr.tell, ReadInstr.consult] <;> repeat' split
  all_goals rfl

theorem StopInstr.roster_run (i : StopInstr) (h : (Instr.stop i).roster? ≠ some s) :
    (i.run t w).1.roster s = w.roster s := by
  have signal (r : RecordId) : (w.signalOwner r).roster s = w.roster s := by
    simp only [signalOwner]
    split <;> rfl
  cases i with
  | closeGate b | openGate b =>
    apply roster_modCensus_of_ne
    rintro rfl
    exact h rfl
  | deliver b r | resumeWake b r =>
    simp only [StopInstr.run]
    repeat' split
    all_goals first | rfl | exact signal r
  | haltDeliver b r | freeWake b r =>
    simp only [StopInstr.run]
    split
    · exact signal r
    · rfl
  | scanRequest b d rs settled => cases rs <;> rfl
  | _ =>
    simp only [StopInstr.run]
    repeat' split
    all_goals first | rfl | exact roster_count _

theorem MemberInstr.roster_run (i : MemberInstr) (h : i.roster? ≠ some s) :
    (i.run t w).1.roster s = w.roster s := by
  -- what writes a roster and its census writes those of its own service
  have both (b : ServiceId) (f : Roster → Roster) (f' : Census → Census) (hb : b ≠ s) :
      ((w.modRoster b f).modCensus b f').roster s = w.roster s := by
    rw [roster_modCensus_of_ne hb, roster_modRoster_of_ne hb]
  have ne {b : ServiceId} (hb : some b ≠ some s) : b ≠ s := fun he => hb (congrArg some he)
  cases i with
  | establish x => simp [MemberInstr.run, answer, say]
  | publish b r | gateEnter b r =>
    simp only [MemberInstr.run]
    split
    · rfl
    · exact both b _ _ (ne h)
  | gatePass b r =>
    simp only [MemberInstr.run]
    split
    · rfl
    · exact roster_modCensus_of_ne (ne h)
  | detachRemove b r l =>
    simp only [MemberInstr.run]
    repeat' split
    · rfl
    · rfl
    · exact both b _ _ (ne h)
  | exitRemove b r =>
    simp only [MemberInstr.run]
    repeat' split
    · rfl
    · exact roster_modCensus_of_ne (ne h)
    · exact both b _ _ (ne h)
  | _ =>
    simp only [MemberInstr.run]
    repeat' split
    all_goals rfl

/-- Only the instruction that says so changes the roster of a service. -/
theorem roster_run (i : Instr) (h : i.roster? ≠ some s) : (i.run t w).1.roster s = w.roster s := by
  cases i with
  | user => rfl
  | sync i =>
    obtain ⟨_, _, he⟩ := i.run_fst (w := w) (t := t)
    rw [Instr.run, he]
    rfl
  | guard i => exact roster_of_services_eq i.services_run
  | park i => exact roster_of_services_eq i.services_run
  | stop i => exact i.roster_run h
  | pool i => exact i.roster_run
  | member i => exact i.roster_run h
  | read i => exact i.roster_run

theorem roster_proceed (h : i.roster? ≠ some s) :
    (w.proceed t i rest).roster s = w.roster s :=
  roster_run (w := w.setCode t rest) i h

end Frame

/-! A roster in which every record stands under its own handle, once. -/

namespace Roster

structure IsTagged (g : Roster) : Prop where
  tagged : ∀ x ∈ g.entries, x.1 = x.2 + 1
  nodup : g.records.Nodup

theorem isTagged_empty : IsTagged {} where
  tagged := fun _ h => absurd h List.not_mem_nil
  nodup := List.nodup_nil

theorem IsTagged.census (h : g.IsTagged) (c : Census) : IsTagged { g with census := c } :=
  ⟨h.tagged, h.nodup⟩

/-- A record is taken out by its handle. -/
theorem IsTagged.records_filter (h : g.IsTagged) (r : RecordId) :
    (g.entries.filter (·.1 != r + 1)).map (·.2) = g.records.filter (· != r) := by
  rw [records, List.filter_map]
  congr 1
  apply List.filter_congr
  intro x hx
  simp [h.tagged x hx]

theorem IsTagged.erase (h : g.IsTagged) (r : RecordId) : (g.erase (r + 1)).IsTagged where
  tagged x hx := h.tagged x (List.mem_filter.mp hx).1
  nodup := by
    have hr : (g.erase (r + 1)).records = g.records.filter (· != r) := h.records_filter r
    rw [hr]
    exact h.nodup.filter _

theorem IsTagged.records_insert (h : g.IsTagged) (r : RecordId) :
    (g.insert (r + 1) r).records = g.records.filter (· != r) ++ [r] := by
  rw [records, Roster.insert, List.map_append, h.records_filter r]
  rfl

theorem IsTagged.insert (h : g.IsTagged) (r : RecordId) : (g.insert (r + 1) r).IsTagged where
  tagged x hx := by
    rcases List.mem_append.mp hx with hx | hx
    · exact h.tagged x (List.mem_filter.mp hx).1
    · rw [List.mem_singleton] at hx
      rw [hx]
  nodup := by
    rw [h.records_insert r]
    refine (h.nodup.filter _).append (List.nodup_singleton r) ?_
    simp [List.Disjoint]

theorem IsTagged.lookup_isSome (h : g.IsTagged) : g.lookup (r + 1) = some r ↔ r ∈ g.records := by
  constructor
  · intro hl
    obtain ⟨x, hx, rfl⟩ := lookup_mem hl
    exact List.mem_map.mpr ⟨x, hx, rfl⟩
  · intro hr
    obtain ⟨x, hx, rfl⟩ := List.mem_map.mp hr
    cases hl : g.lookup (x.2 + 1) with
    | none =>
      have hn := List.lookup_eq_none_iff.mp hl x hx
      simp [h.tagged x hx] at hn
    | some b =>
      -- the look-up ends at an entry with the same handle, so at the same record
      obtain ⟨l₁, l₂, he, _⟩ := List.lookup_eq_some_iff.mp hl
      have hb : x.2 + 1 = b + 1 := by
        refine h.tagged (x.2 + 1, b) ?_
        rw [he]
        exact List.mem_append_right _ List.mem_cons_self
      rw [Nat.succ.inj hb]

theorem IsTagged.lookup_eq_none (h : g.IsTagged) (hr : r ∉ g.records) : g.lookup (r + 1) = none := by
  apply List.lookup_eq_none_iff.mpr
  intro x hx
  have hne : r ≠ x.2 := fun he => hr (List.mem_map.mpr ⟨x, hx, he.symm⟩)
  simp [h.tagged x hx, hne]

/-- The owner of a record takes it out, if it is there. -/
theorem IsTagged.removeBy (h : g.IsTagged) {ownerOf : RecordId → Option ThreadId}
    (ho : ownerOf r = some t) : g.removeBy ownerOf t (r + 1) =
      if r ∈ g.records then .ok (r, g.erase (r + 1)) else .error .unknownHandle := by
  by_cases hr : r ∈ g.records
  · simp only [Roster.removeBy, h.lookup_isSome.mpr hr, ho, hr, if_true]
  · simp only [Roster.removeBy, h.lookup_eq_none hr, hr, if_false]

end Roster

/-! What the instructions do that change a roster. -/

section Effect

variable (hs : s < w.services.length)
include hs

theorem roster_closeGate : (w.proceed t (.stop (.closeGate s)) rest).roster s =
    { w.roster s with census := { w.census s with allSuspended := true } } := by
  simp only [World.proceed, Instr.run, StopInstr.run, roster_push]
  exact roster_modCensus (w := w.setCode t rest) hs

theorem roster_openGate : (w.proceed t (.stop (.openGate s)) rest).roster s =
    { w.roster s with census := { w.census s with allSuspended := false } } := by
  simp only [World.proceed, Instr.run, StopInstr.run, roster_push]
  exact roster_modCensus (w := w.setCode t rest) hs

theorem roster_gatePass {c : ThreadRecord} (hc : w.records[r]? = some c) :
    (w.proceed t (.member (.gatePass s r)) rest).roster s =
      { w.roster s with census := (w.census s).passGate c.daemon } := by
  have hc' : (w.setCode t rest).records[r]? = some c := hc
  simp only [World.proceed, Instr.run, MemberInstr.run, hc', roster_push]
  exact roster_modCensus (w := w.setCode t rest) hs

section Insert

variable (hh : w.handleOf r = some (r + 1))
include hh

theorem roster_publish : (w.proceed t (.member (.publish s r)) rest).roster s =
    { (w.roster s).insert (r + 1) r with census := (w.census s).arrive } := by
  have hr : (w.setCode t rest).handleOf r = some (r + 1) := hh
  simp only [World.proceed, Instr.run, MemberInstr.run, hr, roster_push]
  exact roster_modRoster_modCensus (w := w.setCode t rest) hs

theorem roster_gateEnter : (w.proceed t (.member (.gateEnter s r)) rest).roster s =
    { (w.roster s).insert (r + 1) r with census := (w.census s).queueUp } := by
  have hr : (w.setCode t rest).handleOf r = some (r + 1) := hh
  simp only [World.proceed, Instr.run, MemberInstr.run, hr, roster_push]
  exact roster_modRoster_modCensus (w := w.setCode t rest) hs

end Insert

section Remove

variable (hg : (w.roster s).IsTagged) (ho : w.ownerOf r = some t)
include hg ho

theorem roster_detachRemove {l : Level} (hh : w.handleOf r = some (r + 1)) :
    (w.proceed t (.member (.detachRemove s r l)) rest).roster s =
      if r ∈ w.members s then
        { (w.roster s).erase (r + 1) with census := (w.census s).leave }
      else w.roster s := by
  have hr : (w.setCode t rest).handleOf r = some (r + 1) := hh
  have hrm : ((w.setCode t rest).roster s).removeBy (w.setCode t rest).ownerOf t (r + 1) =
      if r ∈ (w.roster s).records then .ok (r, (w.roster s).erase (r + 1))
      else .error .unknownHandle := hg.removeBy ho
  simp only [World.proceed, Instr.run, MemberInstr.run, hr, hrm, members, roster_push]
  by_cases hm : r ∈ (w.roster s).records
  · simp only [hm, if_true]
    exact roster_modRoster_modCensus (w := w.setCode t rest) hs
  · simp only [hm, if_false]
    rfl

theorem roster_exitRemove {c : ThreadRecord} (hc : w.records[r]? = some c)
    (hh : c.handle = r + 1) :
    (w.proceed t (.member (.exitRemove s r)) rest).roster s =
      { (if r ∈ w.members s then (w.roster s).erase (r + 1) else w.roster s) with
        census := (w.census s).finish c.daemon } := by
  have hc' : (w.setCode t rest).records[r]? = some c := hc
  have hrm : ((w.setCode t rest).roster s).removeBy (w.setCode t rest).ownerOf t (r + 1) =
      if r ∈ (w.roster s).records then .ok (r, (w.roster s).erase (r + 1))
      else .error .unknownHandle := hg.removeBy ho
  simp only [World.proceed, Instr.run, MemberInstr.run, hc', hh, hrm, members, roster_push]
  by_cases hm : r ∈ (w.roster s).records
  · simp only [hm, if_true]
    exact roster_modRoster_modCensus (w := w.setCode t rest) hs
  · simp only [hm, if_false]
    exact roster_modCensus (w := w.setCode t rest) hs

end Remove

end Effect

/-! What a record says of its home and of its start. -/

section Records

attribute [local simp] World.setLevel World.setPhase World.setRequest World.openScope
  World.closeScope World.setMask World.setMaskFor World.fail World.answer World.say
  World.setBinding World.sendSignal World.signalOwner World.modCensus World.modRoster
  ofRecord_modRecord ofRecord_addRecord ofRecord_addThread

theorem PoolInstr.labelOf_run (i : PoolInstr) : (i.run t w).1.labelOf r = w.labelOf r := by
  cases i <;> simp only [PoolInstr.run] <;> repeat' split
  all_goals rfl

theorem ReadInstr.labelOf_run (i : ReadInstr) (hi : (Instr.read i).labels? ≠ some r) :
    (i.run t w).1.labelOf r = w.labelOf r := by
  have hne {b : RecordId} (hb : (Instr.read i).labels? = some b) : r ≠ b := by
    rintro rfl
    exact hi hb
  cases i with
  | rename b x => simp [ReadInstr.run, labelOf, hne rfl]
  | setPriority b x =>
    simp only [ReadInstr.run]
    repeat' split
    all_goals simp [labelOf, hne rfl]
  | _ =>
    simp only [ReadInstr.run, ReadInstr.tell, ReadInstr.consult]
    repeat' split
    all_goals rfl

theorem ParkInstr.labelOf_run (i : ParkInstr) : (i.run t w).1.labelOf r = w.labelOf r :=
  i.keeps (·.labelOf r) rfl rfl (by simp [labelOf, ThreadRecord.label])
    (by simp [labelOf, ThreadRecord.label]) (by simp [labelOf, ThreadRecord.label])

theorem StopInstr.labelOf_run (i : StopInstr) : (i.run t w).1.labelOf r = w.labelOf r := by
  have signal (b : RecordId) : (w.signalOwner b).labelOf r = w.labelOf r := by
    simp only [signalOwner]
    split <;> rfl
  have ask (b : RecordId) (q : Bool) : (w.setRequest b q).labelOf r = w.labelOf r := by
    simp [labelOf, ThreadRecord.label]
  cases i with
  | scanRequest b d rs settled => cases rs <;> rfl
  | _ =>
    simp only [StopInstr.run]
    repeat' split
    all_goals first | rfl | exact signal _ | exact ask _ _

theorem MemberInstr.labelOf_run (i : MemberInstr) (hr : r < w.records.length)
    (hi : i ≠ .noteStarted r) : (i.run t w).1.labelOf r = w.labelOf r := by
  have hne : r ≠ w.records.length := Nat.ne_of_lt hr
  cases i with
  | noteStarted b =>
    have hb : r ≠ b := fun he => hi (by rw [he])
    simp [MemberInstr.run, labelOf, hb]
  | _ =>
    simp only [MemberInstr.run]
    repeat' split
    all_goals simp [labelOf, ThreadRecord.label, hne]

theorem labelOf_run (i : Instr) (hr : r < w.records.length) (hi : i.labels? ≠ some r) :
    (i.run t w).1.labelOf r = w.labelOf r := by
  cases i with
  | user => rfl
  | sync i =>
    obtain ⟨_, _, he⟩ := i.run_fst (w := w) (t := t)
    rw [Instr.run, he]
    rfl
  | guard i => exact i.ofRecord_run (fun _ _ => rfl) fun _ _ => rfl
  | park i => exact i.labelOf_run
  | stop i => exact i.labelOf_run
  | pool i => exact i.labelOf_run
  | member i => exact i.labelOf_run hr fun he => hi (by rw [he]; rfl)
  | read i => exact i.labelOf_run hi

theorem ofRecord_of_labelOf {α : Type} {d : α} {f : ThreadRecord → α}
    (h : w'.labelOf r = w.labelOf r) (hf : ∀ c, f c.label = f c) :
    w'.ofRecord r d f = w.ofRecord r d f := by
  have hx (v : World) : v.ofRecord r d f = ((v.labelOf r).map f).getD d := by
    simp only [labelOf, ofRecord]
    cases v.records[r]? <;> simp [hf]
  rw [hx, hx, h]

/-- A record is marked as started by `noteStarted` alone. -/
theorem startedOf_run (i : Instr) (hr : r < w.records.length)
    (hi : i ≠ .member (.noteStarted r)) : (i.run t w).1.startedOf r = w.startedOf r := by
  by_cases hl : i.labels? = some r
  · cases i with
    | member k => cases k <;> first | (cases hl; done) | (cases hl; exact absurd rfl hi)
    | read k =>
      cases k with
      | rename | setPriority =>
        simp only [Instr.run, ReadInstr.run]
        repeat' split
        all_goals simp [startedOf]
      | _ => cases hl
    | _ => cases hl
  · exact ofRecord_of_labelOf (labelOf_run i hr hl) fun _ => rfl

/-- What a record is made with, and nobody writes, stays as it is. -/
theorem ofRecord_run_of_lt {α : Type} {d : α} {f : ThreadRecord → α} (i : Instr)
    (hr : r < w.records.length) (hf : ∀ c, f c.core = f c) (hl : ∀ c l, f { c with level := l } = f c)
    (hp : ∀ c p, f { c with phase := p } = f c) (hq : ∀ c q, f { c with requested := q } = f c)
    (ho : ∀ c o, f { c with owner := o } = f c) :
    (i.run t w).1.ofRecord r d f = w.ofRecord r d f := by
  cases i with
  | user => rfl
  | sync i =>
    obtain ⟨_, _, he⟩ := i.run_fst (w := w) (t := t)
    rw [Instr.run, he]
    rfl
  | guard i => exact i.ofRecord_run hl hp
  | park i => exact i.ofRecord_run hf hp
  | stop i => exact i.ofRecord_run hq
  | pool i => exact ofRecord_congr i.core_run hf
  | member i => exact i.ofRecord_run hr hf hl hq ho
  | read i => exact ofRecord_congr i.core_run hf

theorem homeOf_run_of_lt (i : Instr) (hr : r < w.records.length) :
    (i.run t w).1.homeOf r = w.homeOf r :=
  ofRecord_run_of_lt i hr (fun _ => rfl) (fun _ _ => rfl) (fun _ _ => rfl) (fun _ _ => rfl)
    fun _ _ => rfl

theorem startedOf_proceed (hr : r < w.records.length) (hi : i ≠ .member (.noteStarted r)) :
    (w.proceed t i rest).startedOf r = w.startedOf r :=
  startedOf_run (w := w.setCode t rest) i hr hi

theorem startedOf_proceed_noteStarted (hr : r < w.records.length) :
    (w.proceed t (.member (.noteStarted r)) rest).startedOf r = true := by
  have hs : (w.proceed t (.member (.noteStarted r)) rest).startedOf r =
      (w.modRecord r fun c => { c with started := true }).startedOf r := rfl
  rw [hs]
  simp [startedOf, ofRecord_const, hr]

theorem startedOf_proceed_of_started (h : w.startedOf r = true) :
    (w.proceed t i rest).startedOf r = true := by
  have hr : r < w.records.length := by
    by_contra hn
    rw [startedOf, ofRecord_of_le _ _ (Nat.le_of_not_lt hn)] at h
    cases h
  by_cases hi : i = .member (.noteStarted r)
  · rw [hi]
    exact startedOf_proceed_noteStarted hr
  · rw [startedOf_proceed hr hi, h]

theorem homeOf_proceed (hr : r < w.records.length) :
    (w.proceed t i rest).homeOf r = w.homeOf r :=
  homeOf_run_of_lt (w := w.setCode t rest) i hr

theorem lt_of_homeOf (h : w.homeOf r = some s) : r < w.records.length :=
  homeOf_isSome.mp (by rw [h]; rfl)

theorem homeOf_proceed_of_some (h : w.homeOf r = some s) :
    (w.proceed t i rest).homeOf r = some s :=
  (homeOf_proceed (lt_of_homeOf h)).trans h

end Records

/-! The three ways in which a record comes into the world. -/

section New

variable {x : Settings} {name : String} {o : SpawnOptions} {k : Nat}

theorem records_establish : (w.proceed t (.member (.establish x)) rest).records = w.records ++
    [{ (ThreadRecord.create w.nextHandle w.services.length "main" normalPriority 0 false).bindTo t with
      phase := .running, started := true }] := rfl

theorem records_attach (h : w.selfIn t s = none) :
    (w.proceed t (.member (.attach s name)) rest).records = w.records ++
      [{ (ThreadRecord.create w.nextHandle s name normalPriority 0 true).bindTo t with
        phase := .running, started := true }] := by
  have hs : (w.setCode t rest).selfIn t s = none := by rw [selfIn_setCode, h]
  simp only [World.proceed, Instr.run, MemberInstr.run, hs]
  rfl

theorem records_spawnRecord : (w.proceed t (.member (.spawnRecord s o k)) rest).records =
    w.records ++ [ThreadRecord.create w.nextHandle s o.name o.priority k o.daemon] := rfl

theorem ofRecord_new {α : Type} {d : α} {f : ThreadRecord → α} {c : ThreadRecord}
    (h : w'.records = w.records ++ [c]) : w'.ofRecord w.records.length d f = f c := by
  simp [ofRecord, h]

end New

end Standstill
