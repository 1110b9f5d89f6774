import Standstill.Proofs.CondBook
import Standstill.Proofs.OneService

/-!
The two slot tables of a service as the world goes on. Four instructions write them: two hand a slot
out and two take one back. A table that is in order stays so as long as only taken slots are given
back, and then its counter tells how many slots a list of the taken ones has.
-/
namespace Standstill

open World

namespace Slots

variable {α : Type} {p p' : Slots α} {i : Nat} {name : String} {v : α} {f : Fault} {l l' : List Nat}

theorem IsSound.allocate (hp : p.IsSound) (h : p.allocate name v = .ok (i, p')) :
    p'.IsSound ∧ p'.capacity = p.capacity := by
  obtain ⟨-, hs, hc⟩ := hp.step_allocate name v
  rw [perform, h] at hs hc
  exact ⟨hs, hc⟩

theorem IsSound.full (hp : p.IsSound) (h : p.allocate name v = .error f) :
    p.inUse = p.capacity := by
  rw [hp.inUse_eq, Finset.filter_true_of_mem, Finset.card_range]
  intro i hi
  rw [hp.isSome_cell, Option.any_eq_true]
  have hl : i < p.slots.length := Finset.mem_range.mp hi
  refine ⟨p.slots[i], List.getElem?_eq_getElem hl, ?_⟩
  have hn : p.free? = none := by
    unfold Slots.allocate at h
    split at h
    next hn => exact hn
    · cases h
  by_contra hu
  exact free_eq_none hn ⟨_, List.getElem?_eq_getElem hl, by simpa using hu⟩

theorem IsSound.inUse_le (hp : p.IsSound) : p.inUse ≤ p.capacity := by
  rw [hp.counted]
  exact List.countP_le_length

/-- A taken slot is given back. -/
theorem IsSound.free (hp : p.IsSound) (h : (p.cell? i).isSome = true) : (p.free i).IsSound := by
  obtain ⟨x, hx⟩ := Option.isSome_iff_exists.mp h
  have hs := cell_eq_some.mp hx
  have hpos : 0 < p.slots.countP (·.used) :=
    List.countP_pos_iff.mpr ⟨_, List.mem_of_getElem? hs, rfl⟩
  have hc := hp.counted
  refine hp.set hs rfl (fun _ => rfl) ?_
  simp
  omega

/-- The list names every taken slot once. -/
structure Lists (p : Slots α) (l : List Nat) : Prop where
  nodup : l.Nodup
  mem : ∀ i, i ∈ l ↔ (p.cell? i).isSome = true

theorem Lists.perm (h : p.Lists l) (hl : l.Perm l') : p.Lists l' :=
  ⟨hl.nodup h.nodup, fun i => hl.mem_iff.symm.trans (h.mem i)⟩

theorem Lists.inUse (h : p.Lists l) (hp : p.IsSound) : p.inUse = l.length := by
  have hf : (Finset.range p.capacity).filter (fun i => (p.cell? i).isSome = true) = l.toFinset := by
    ext i
    rw [Finset.mem_filter, Finset.mem_range, List.mem_toFinset, h.mem]
    refine ⟨And.right, fun hi => ⟨?_, hi⟩⟩
    obtain ⟨x, hx⟩ := Option.isSome_iff_exists.mp hi
    exact lt_of_cell hx
  rw [hp.inUse_eq, hf, List.toFinset_card_of_nodup h.nodup]

theorem Lists.allocate (h : p.Lists l) (ha : p.allocate name v = .ok (i, p')) :
    p'.Lists (i :: l) := by
  obtain ⟨hn, hv, ho⟩ := cell_allocate ha
  have hi : i ∉ l := by
    intro hm
    rw [h.mem, hn] at hm
    cases hm
  refine ⟨List.nodup_cons.mpr ⟨hi, h.nodup⟩, fun j => ?_⟩
  rw [List.mem_cons]
  by_cases hj : j = i
  · subst hj
    have hs : (p'.cell? j).isSome = true := by
      cases hc : p'.cell? j with
      | none =>
        rw [hc] at hv
        cases hv
      | some => rfl
    exact ⟨fun _ => hs, fun _ => Or.inl rfl⟩
  · rw [ho j hj, ← h.mem]
    exact ⟨fun hm => hm.resolve_left hj, Or.inr⟩

theorem Lists.free (h : p.Lists (i :: l)) : (p.free i).Lists l := by
  obtain ⟨hi, hn⟩ := List.nodup_cons.mp h.nodup
  refine ⟨hn, fun j => ?_⟩
  rw [cell_free]
  by_cases hj : j = i
  · rw [hj, if_pos rfl]
    exact ⟨fun hm => absurd hm hi, fun hm => by cases hm⟩
  · rw [if_neg hj, ← h.mem, List.mem_cons]
    exact ⟨Or.inr, fun hm => hm.resolve_left hj⟩

theorem lists_empty (c : Nat) : (empty c : Slots α).Lists [] := by
  refine ⟨List.nodup_nil, fun i => ?_⟩
  rw [cell_empty]
  exact ⟨fun hm => absurd hm List.not_mem_nil, fun hm => by cases hm⟩

end Slots

namespace World

/-- What service `s` was set up with, and its slot tables. -/
def fittings (w : World) (s : ServiceId) : Option (Settings × Slots MutexRef × Slots CondRef) :=
  w.services[s]?.map fun v => (v.settings, v.mutexes, v.conds)

variable {w w' : World} {t : ThreadId} {r : RecordId} {s s' : ServiceId} {x : Settings}
  {p : Slots MutexRef} {q : Slots CondRef}

theorem fittings_of_services (h : w'.services = w.services) : w'.fittings s = w.fittings s := by
  simp only [fittings, h]

theorem slots_of_fittings (h : w.fittings s = some (x, p, q)) :
    w.mutexSlots s = p ∧ w.condSlots s = q := by
  obtain ⟨v, hv, hf⟩ := Option.map_eq_some_iff.mp h
  obtain ⟨-, hf⟩ := Prod.mk.inj hf
  obtain ⟨rfl, rfl⟩ := Prod.mk.inj hf
  simp only [mutexSlots, condSlots, hv, and_self]

theorem slots_of_no_fittings (h : w.fittings s = none) :
    w.mutexSlots s = .empty 0 ∧ w.condSlots s = .empty 0 := by
  have hn : w.services[s]? = none := by simpa [fittings] using h
  simp only [mutexSlots, condSlots, hn, and_self]

theorem slots_congr (h : w'.fittings s = w.fittings s) :
    w'.mutexSlots s = w.mutexSlots s ∧ w'.condSlots s = w.condSlots s := by
  rcases hf : w.fittings s with _ | ⟨x, p, q⟩
  · obtain ⟨hm, hc⟩ := slots_of_no_fittings hf
    obtain ⟨hm', hc'⟩ := slots_of_no_fittings (h.trans hf)
    exact ⟨hm'.trans hm.symm, hc'.trans hc.symm⟩
  · obtain ⟨hm, hc⟩ := slots_of_fittings hf
    obtain ⟨hm', hc'⟩ := slots_of_fittings (h.trans hf)
    exact ⟨hm'.trans hm.symm, hc'.trans hc.symm⟩

theorem fittings_eq_none : w.fittings s = none ↔ w.services.length ≤ s := by
  simp [fittings]

@[simp] theorem fittings_modThread (f : Thread → Thread) :
    (w.modThread t f).fittings s = w.fittings s := rfl

@[simp] theorem fittings_modRecord (f : ThreadRecord → ThreadRecord) :
    (w.modRecord r f).fittings s = w.fittings s := rfl

@[simp] theorem fittings_addRecord (c : ThreadRecord) :
    (w.addRecord c).fittings s = w.fittings s := rfl

@[simp] theorem fittings_addThread (x : Thread) : (w.addThread x).fittings s = w.fittings s := rfl

theorem fittings_modService (f : Service → Service)
    (hf : ∀ v, (f v).settings = v.settings ∧ (f v).mutexes = v.mutexes ∧ (f v).conds = v.conds) :
    (w.modService s' f).fittings s = w.fittings s := by
  simp only [fittings, modService, List.getElem?_modify]
  by_cases hs : s' = s <;> cases w.services[s]? <;> simp [hs, hf]

@[simp] theorem fittings_modRoster (f : Roster → Roster) :
    (w.modRoster s' f).fittings s = w.fittings s :=
  fittings_modService _ fun _ => ⟨rfl, rfl, rfl⟩

@[simp] theorem fittings_modCensus (f : Census → Census) :
    (w.modCensus s' f).fittings s = w.fittings s :=
  fittings_modRoster _

@[simp] theorem fittings_count (x : Tally) : (w.count s' x).fittings s = w.fittings s :=
  fittings_modService _ fun _ => ⟨rfl, rfl, rfl⟩

/-- A new service comes with the tables that it is given, and the others keep theirs. -/
theorem fittings_addService (v : Service) : (w.addService v).fittings s =
    if s = w.services.length then some (v.settings, v.mutexes, v.conds) else w.fittings s := by
  simp only [fittings, addService]
  rcases Nat.lt_trichotomy s w.services.length with h | rfl | h
  · rw [List.getElem?_append_left h, if_neg (Nat.ne_of_lt h)]
  · simp
  · have hn : w.services.length + 1 ≤ s := h
    rw [List.getElem?_eq_none (by simpa using hn), List.getElem?_eq_none (Nat.le_of_lt h),
      if_neg (Nat.ne_of_gt h)]

theorem fittings_setMutexSlots (p : Slots MutexRef) : (w.setMutexSlots s' p).fittings s =
    (w.fittings s).map fun (x, p', q) => (x, if s' = s then p else p', q) := by
  simp only [fittings, setMutexSlots, modService, List.getElem?_modify]
  by_cases h : s' = s <;> cases w.services[s]? <;> simp [h]

theorem fittings_setCondSlots (q : Slots CondRef) : (w.setCondSlots s' q).fittings s =
    (w.fittings s).map fun (x, p, q') => (x, p, if s' = s then q else q') := by
  simp only [fittings, setCondSlots, modService, List.getElem?_modify]
  by_cases h : s' = s <;> cases w.services[s]? <;> simp [h]

end World

variable {n : Nat} {w w' : World} {t t' : ThreadId} {s : ServiceId} {i j : Instr}
  {k : PoolInstr} {rest : List Instr} {e : Event} {m : MutexRef} {c : CondRef}

section Frame

attribute [local simp] World.setLevel World.setPhase World.setRequest World.openScope
  World.closeScope World.setMask World.setMaskFor World.fail World.answer World.say
  World.setBinding World.sendSignal World.signalOwner World.modStats World.addRow

theorem StopInstr.fittings_run (i : StopInstr) : (i.run t w).1.fittings s = w.fittings s := by
  cases i with
  | scanRequest s d rs settled => cases rs <;> rfl
  | _ =>
    simp only [StopInstr.run] <;> repeat' split
    all_goals simp
    all_goals repeat' split
    all_goals simp

theorem MemberInstr.fittings_run (i : MemberInstr) (hi : ∀ x, i ≠ .establish x) :
    (i.run t w).1.fittings s = w.fittings s := by
  cases i with
  | establish x => exact absurd rfl (hi x)
  | _ =>
    simp only [MemberInstr.run] <;> repeat' split
    all_goals simp

theorem ReadInstr.fittings_run (i : ReadInstr) : (i.run t w).1.fittings s = w.fittings s := by
  cases i <;> simp only [ReadInstr.run, ReadInstr.tell, ReadInstr.consult] <;> repeat' split
  all_goals simp

/-- Nothing but an instruction on the pools writes a slot table, and only a new service has new
ones. -/
theorem fittings_run (i : Instr) (hp : ∀ j, i ≠ .pool j) (he : ∀ x, i ≠ .member (.establish x)) :
    (i.run t w).1.fittings s = w.fittings s := by
  cases i with
  | user => rfl
  | sync i =>
    obtain ⟨_, _, he⟩ := i.run_fst (w := w) (t := t)
    rw [Instr.run, he]
    rfl
  | guard i => exact fittings_of_services i.services_run
  | park i => exact fittings_of_services i.services_run
  | stop i => exact i.fittings_run
  | pool i => exact absurd rfl (hp i)
  | member i => exact i.fittings_run fun x hx => he x (congrArg Instr.member hx)
  | read i => exact i.fittings_run

end Frame

theorem fittings_establish (x : Settings) : ((MemberInstr.establish x).run t w).1.fittings s =
    if s = w.services.length then some (x, .empty x.mutexCapacity, .empty x.condCapacity)
    else w.fittings s :=
  fittings_addService (w := w) _

namespace PoolInstr

/-- What the instruction makes of the table of the mutexes of service `s`, when the next mutex gets
number `m`. -/
def onMutexes (s : ServiceId) (m : MutexRef) (p : Slots MutexRef) : PoolInstr → Slots MutexRef
  | .mutexAllot s' name =>
    if s' = s then
      match p.allocate name m with
      | .ok (_, p') => p'
      | .error _ => p
    else p
  | .mutexFree s' i => if s' = s then p.free i else p
  | _ => p

/-- What the instruction makes of the table of the conditions. -/
def onConds (s : ServiceId) (c : CondRef) (p : Slots CondRef) : PoolInstr → Slots CondRef
  | .condAllot s' name =>
    if s' = s then
      match p.allocate name c with
      | .ok (_, p') => p'
      | .error _ => p
    else p
  | .condFree s' i => if s' = s then p.free i else p
  | _ => p

/-- The instruction hands a slot out or takes one back. -/
def writesTable : PoolInstr → Bool
  | .mutexAllot .. | .mutexFree .. | .condAllot .. | .condFree .. => true
  | _ => false

theorem onMutexes_of_not_writes (h : k.writesTable = false) (p : Slots MutexRef) :
    k.onMutexes s m p = p := by
  cases k <;> first | rfl | cases h

theorem onConds_of_not_writes (h : k.writesTable = false) (p : Slots CondRef) :
    k.onConds s c p = p := by
  cases k <;> first | rfl | cases h

theorem fittings_run_of_not_writes (h : k.writesTable = false) :
    (k.run t w).1.fittings s = w.fittings s := by
  cases k with
  | mutexAllot | mutexFree | condAllot | condFree => cases h
  | retake s' m since =>
    simp only [PoolInstr.run]
    split
    · rfl
    · exact fittings_count _
  | _ =>
    simp only [PoolInstr.run]
    repeat' split
    all_goals rfl

theorem fittings_run (k : PoolInstr) : (k.run t w).1.fittings s =
    (w.fittings s).map fun (x, p, q) =>
      (x, k.onMutexes s w.mutexes.length p, k.onConds s w.conds.length q) := by
  cases k with
  -- an allocation that fails leaves the table of its service alone, and no instruction writes
  -- another's
  | mutexAllot s' name =>
    simp only [PoolInstr.run, onMutexes, onConds]
    cases ha : (w.mutexSlots s').allocate name w.mutexes.length with
    | error f =>
      have hs : (w.fail t f).fittings s = w.fittings s := rfl
      rcases hf : w.fittings s with _ | ⟨x, p, q⟩
      · exact hs.trans hf
      · obtain ⟨rfl, -⟩ := slots_of_fittings hf
        by_cases h : s' = s
        · subst h
          simp [hs, hf, ha]
        · simp [hs, hf, h]
    | ok y =>
      have hs : ((({ w with mutexes := w.mutexes ++ [({} : PoolLock)] }).setMutexSlots s' y.2).answer
          t (.number y.1)).fittings s = (w.setMutexSlots s' y.2).fittings s := rfl
      rw [hs, fittings_setMutexSlots]
      rcases hf : w.fittings s with _ | ⟨x, p, q⟩
      · rfl
      · obtain ⟨rfl, -⟩ := slots_of_fittings hf
        by_cases h : s' = s
        · subst h
          simp [ha]
        · simp [h]
  | condAllot s' name =>
    simp only [PoolInstr.run, onMutexes, onConds]
    cases ha : (w.condSlots s').allocate name w.conds.length with
    | error f =>
      have hs : (w.fail t f).fittings s = w.fittings s := rfl
      rcases hf : w.fittings s with _ | ⟨x, p, q⟩
      · exact hs.trans hf
      · obtain ⟨-, rfl⟩ := slots_of_fittings hf
        by_cases h : s' = s
        · subst h
          simp [hs, hf, ha]
        · simp [hs, hf, h]
    | ok y =>
      have hs : ((({ w with conds := w.conds ++ [({} : PoolCondition)] }).setCondSlots s' y.2).answer
          t (.number y.1)).fittings s = (w.setCondSlots s' y.2).fittings s := rfl
      rw [hs, fittings_setCondSlots]
      rcases hf : w.fittings s with _ | ⟨x, p, q⟩
      · rfl
      · obtain ⟨-, rfl⟩ := slots_of_fittings hf
        by_cases h : s' = s
        · subst h
          simp [ha]
        · simp [h]
  | mutexFree s' i =>
    simp only [PoolInstr.run, onMutexes, onConds, fittings_setMutexSlots]
    rcases hf : w.fittings s with _ | ⟨x, p, q⟩
    · rfl
    · obtain ⟨rfl, -⟩ := slots_of_fittings hf
      by_cases h : s' = s
      · subst h
        rfl
      · simp [h]
  | condFree s' i =>
    simp only [PoolInstr.run, onMutexes, onConds, fittings_setCondSlots]
    rcases hf : w.fittings s with _ | ⟨x, p, q⟩
    · rfl
    · obtain ⟨-, rfl⟩ := slots_of_fittings hf
      by_cases h : s' = s
      · subst h
        rfl
      · simp [h]
  | _ =>
    rw [fittings_run_of_not_writes rfl]
    exact Option.map_id'.symm

end PoolInstr

/-- One event writes the tables as the instruction does that it runs on the pools, if there is one;
otherwise they stay as they are, unless the service is new. -/
theorem fittings_step_of_ran (h : w.ran e = some k) : (w.step e).fittings s =
    (w.fittings s).map fun (x, p, q) =>
      (x, k.onMutexes s w.mutexes.length p, k.onConds s w.conds.length q) := by
  obtain ⟨t, rest, rfl, hp⟩ := poolRun_of_ran h
  obtain ⟨below, hc⟩ := hp.head
  rw [step_of_code hc rfl]
  exact (fittings_modThread _).trans (k.fittings_run (w := w.setCode t below))

theorem slots_step_of_ran (h : w.ran e = some k) (hs : s < w.services.length) :
    (w.step e).mutexSlots s = k.onMutexes s w.mutexes.length (w.mutexSlots s) ∧
      (w.step e).condSlots s = k.onConds s w.conds.length (w.condSlots s) := by
  rcases hf : w.fittings s with _ | ⟨x, p, q⟩
  · exact absurd hs (Nat.not_lt_of_le (fittings_eq_none.mp hf))
  · have hf' := fittings_step_of_ran (s := s) h
    rw [hf] at hf'
    obtain ⟨rfl, rfl⟩ := slots_of_fittings hf
    exact slots_of_fittings hf'

/-- An instruction that leaves the tables as they are. -/
theorem slots_step_of_same (h : w.ran e = some k)
    (hm : k.onMutexes s w.mutexes.length (w.mutexSlots s) = w.mutexSlots s)
    (hc : k.onConds s w.conds.length (w.condSlots s) = w.condSlots s) :
    (w.step e).mutexSlots s = w.mutexSlots s ∧ (w.step e).condSlots s = w.condSlots s := by
  by_cases hs : s < w.services.length
  · rw [← hm, ← hc]
    exact slots_step_of_ran h hs
  · have hf : w.fittings s = none := fittings_eq_none.mpr (Nat.le_of_not_lt hs)
    apply slots_congr
    rw [fittings_step_of_ran h, hf]
    rfl

theorem fittings_step_of_not_ran (h : w.ran e = none) (s : ServiceId) :
    (w.step e).fittings s = w.fittings s ∨
      w.fittings s = none ∧ ∃ t x rest, e = .advance t ∧
        w.codeOf t = .member (.establish x) :: rest ∧
        (w.step e).fittings s = some (x, .empty x.mutexCapacity, .empty x.condCapacity) := by
  rcases w.step_cases e with ⟨t, i, below, rfl, hc, -, hp⟩ | u
  · have hrun : (w.step (.advance t)).fittings s =
        (i.run t (w.setCode t below)).1.fittings s := by
      rw [hp]
      exact fittings_modThread _
    rw [hrun]
    by_cases he : ∃ x, i = .member (.establish x)
    · obtain ⟨x, rfl⟩ := he
      rw [Instr.run, fittings_establish]
      by_cases hs : s = (w.setCode t below).services.length
      · rw [if_pos hs]
        have hl : w.services.length ≤ s := Nat.le_of_eq hs.symm
        exact Or.inr ⟨fittings_eq_none.mpr hl, t, x, below, rfl, hc, rfl⟩
      · rw [if_neg hs]
        exact Or.inl rfl
    · refine Or.inl (fittings_run i (fun k hk => ?_) fun x hx => he ⟨x, hx⟩)
      rw [ran, head_eq, hc, hk] at h
      cases h
  · exact Or.inl (fittings_of_services u.services)

/-- Where there is no service there is none until somebody sets one up. -/
theorem fittings_step_of_none (hf : w.fittings s = none)
    (h : ∀ t x rest, e = .advance t → w.codeOf t ≠ .member (.establish x) :: rest) :
    (w.step e).fittings s = none := by
  cases hr : w.ran e with
  | some j => rw [fittings_step_of_ran hr, hf, Option.map_none]
  | none =>
    rcases fittings_step_of_not_ran hr s with hf' | ⟨-, t, x, rest, he, hc, -⟩
    · exact hf'.trans hf
    · exact absurd hc (h t x rest he)

/-! A condition is in one slot at most, as a mutex is. -/

def CondsApart (w : World) : Prop :=
  ∀ s s' i i' c, w.condAt s i = some c → w.condAt s' i' = some c → s = s' ∧ i = i'

theorem condsApart_initial (n : Nat) : CondsApart (World.initial n) := by
  intro s s' i i' c h
  cases h

theorem CondsApart.run (a : CondsApart w) (h : PoolRun w t (.pool k) rest w') (r : Referring w) :
    CondsApart w' := by
  intro s s' i i' c hs hs'
  have hca : w'.condAt = (k.run t w).1.condAt := condAt_congr h.pools
  rw [hca] at hs hs'
  rcases k.condAt_run (t := t) (w := w) s i with he | ⟨name, p, rfl, hp, _, he⟩ | ⟨_, he⟩ <;>
    rw [he] at hs
  · rcases k.condAt_run (t := t) (w := w) s' i' with he' | ⟨_, _, _, _, _, he'⟩ | ⟨_, he'⟩ <;>
      rw [he'] at hs'
    · exact a s s' i i' c hs hs'
    · have hlt := r.condSlot hs
      obtain rfl := Option.some.inj hs'
      exact absurd hlt (Nat.lt_irrefl _)
    · cases hs'
  · obtain rfl := Option.some.inj hs
    rcases PoolInstr.condAt_run (t := t) (w := w) (.condAllot s name) s' i' with
      he' | ⟨_, _, hi, hp', _, _⟩ | ⟨hi, _⟩
    · rw [he'] at hs'
      exact absurd (r.condSlot hs') (Nat.lt_irrefl _)
    · obtain ⟨rfl, rfl⟩ := PoolInstr.condAllot.inj hi
      rw [hp] at hp'
      exact ⟨rfl, (Prod.mk.inj (Except.ok.inj hp')).1⟩
    · cases hi
  · cases hs

theorem Reachable.condsApart (h : Reachable n w) : CondsApart w := by
  refine h.induct (condsApart_initial n) fun w e hr a => ?_
  cases hn : w.ran e with
  | some k =>
    obtain ⟨t, rest, -, hs⟩ := poolRun_of_ran hn
    exact a.run hs hr.referring
  | none =>
    unfold CondsApart
    rw [condAt_congr (hr.pacing.pools_of_not_ran hn)]
    exact a

end Standstill
