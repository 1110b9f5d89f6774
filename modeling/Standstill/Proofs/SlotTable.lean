import Mathlib.Tactic
import Standstill.Slots

/-!
The slot table as a finite map. Seen from outside a pool is a map from the taken indices to names and
values, with the index that was handed out or given back last; a new value goes to the free index
that comes first when one goes round from there.
-/
namespace Standstill

variable {α : Type} {c i j : Nat} {name : String} {v : α}

namespace Slots

variable {p p' : Slots α}

/-! What the operations do to a single slot. -/

theorem cell_eq_some {x : Cell α} :
    p.cell? i = some x ↔ p.slots[i]? = some ⟨true, x.name, some x.value⟩ := by
  obtain ⟨name, value⟩ := x
  unfold cell?
  split
  next n a hs =>
    rw [hs]
    simp
  next hn =>
    constructor
    · intro h
      cases h
    · intro h
      exact absurd h (hn _ _)

theorem cell_of_unused {x : Slot α} (h : p.slots[i]? = some x) (hx : x.used = false) :
    p.cell? i = none := by
  rw [Option.eq_none_iff_forall_ne_some]
  intro y hy
  rw [cell_eq_some.mp hy] at h
  obtain rfl := Option.some.inj h
  cases hx

theorem cell_of_le (h : p.capacity ≤ i) : p.cell? i = none := by
  have hn : p.slots[i]? = none := List.getElem?_eq_none h
  simp only [cell?, hn]

theorem lt_of_cell {x : Cell α} (h : p.cell? i = some x) : i < p.capacity := by
  by_contra hi
  rw [cell_of_le (Nat.le_of_not_lt hi)] at h
  cases h

theorem cell_empty : (empty c : Slots α).cell? i = none := by
  by_cases hi : i < c
  · exact cell_of_unused (x := {}) (by simp [empty, hi]) rfl
  · exact cell_of_le (by simpa [empty, capacity] using hi)

/-- Slot `i` as it is after it has been written. -/
theorem cell_set {x : Slot α} {h n : Nat} (hi : i < p.capacity) :
    Slots.cell? ⟨p.slots.set i x, h, n⟩ j =
      if j = i then Slots.cell? ⟨[x], 0, 0⟩ 0 else p.cell? j := by
  unfold cell?
  by_cases hj : j = i
  · subst hj
    have hl : j < p.slots.length := hi
    simp [hl]
  · rw [if_neg hj, List.getElem?_set_ne (Ne.symm hj)]

theorem cell_free : (p.free i).cell? j = if j = i then none else p.cell? j := by
  by_cases hi : i < p.capacity
  · exact cell_set hi
  · have hc : p.slots.length ≤ i := Nat.le_of_not_lt hi
    by_cases hj : j = i
    · rw [if_pos hj, hj]
      exact cell_of_le (by simpa [free, capacity] using hc)
    · rw [if_neg hj]
      unfold cell? free
      rw [List.set_eq_of_length_le hc]

theorem get_error {f : Fault} (h : p.get i = .error f) : f = .badArgument .slotIndex := by
  simp only [get] at h
  split at h
  · cases h
  · exact (Except.error.inj h).symm

/-- What is found in a pool is what its taken slots hold. -/
theorem get_eq : p.get i =
    match p.cell? i with
    | some x => .ok x.value
    | none => .error (.badArgument .slotIndex) := by
  unfold get cell?
  split <;> rfl

theorem get_eq_ok : p.get i = .ok v ↔ (p.cell? i).map (·.value) = some v := by
  rw [get_eq]
  cases p.cell? i <;> simp

/-! The search for a free slot. -/

/-- Slot `i` is there and free. -/
def IsVacant (p : Slots α) (i : Nat) : Prop := ∃ x, p.slots[i]? = some x ∧ x.used = false

theorem IsVacant.lt (h : p.IsVacant i) : i < p.capacity := by
  obtain ⟨x, hx, -⟩ := h
  exact (List.getElem?_eq_some_iff.mp hx).1

/-- How far index `i` is from index `h`, going round a table of `c` slots. -/
def turn (c h i : Nat) : Int := ((i : Int) - h) % c

theorem turn_of_le {h : Nat} (hh : h ≤ i) (hi : i < c) : turn c h i = i - h := by
  unfold turn
  exact Int.emod_eq_of_lt (by omega) (by omega)

theorem turn_of_lt {h : Nat} (hi : i < h) (hh : h < c) : turn c h i = i - h + c := by
  unfold turn
  have hc : ((i : Int) - h) % c = ((i : Int) - h + c) % c := by simp
  rw [hc]
  exact Int.emod_eq_of_lt (by omega) (by omega)

/-- No two indices of the table are equally far from `h`. -/
theorem turn_inj {h : Nat} (hi : i < c) (hj : j < c) (he : turn c h i = turn c h j) : i = j := by
  have hd : (c : Int) ∣ (j : Int) - h - (i - h) := Int.ModEq.dvd he
  have hz : (j : Int) - h - (i - h) = 0 := by
    apply Int.eq_zero_of_abs_lt_dvd hd
    rw [abs_lt]
    omega
  omega

/-- A search finds the first free slot of a list. -/
theorem first_of_findIdx {l : List (Slot α)} {k : Nat} (h : l.findIdx? (!·.used) = some k) :
    (∃ x, l[k]? = some x ∧ x.used = false) ∧
      ∀ (j : Nat) (x : Slot α), l[j]? = some x → x.used = false → k ≤ j := by
  obtain ⟨hk, hu, hb⟩ := List.findIdx?_eq_some_iff_getElem.mp h
  refine ⟨⟨l[k], List.getElem?_eq_getElem hk, by simpa using hu⟩, ?_⟩
  intro j x hj hx
  by_contra hlt
  obtain ⟨hl, rfl⟩ := List.getElem?_eq_some_iff.mp hj
  have hn := hb j (Nat.lt_of_not_le hlt)
  rw [hx] at hn
  simp at hn

theorem used_of_findIdx {l : List (Slot α)} {x : Slot α} (h : l.findIdx? (!·.used) = none)
    (hj : l[j]? = some x) : x.used = true := by
  have hn := List.findIdx?_eq_none_iff.mp h x (List.mem_of_getElem? hj)
  simpa using hn

theorem isVacant_of_free (h : p.free? = some i) : p.IsVacant i := by
  unfold free? at h
  split at h
  next k hk =>
    obtain rfl := Option.some.inj h
    obtain ⟨⟨x, hx, hu⟩, -⟩ := first_of_findIdx hk
    rw [List.getElem?_drop] at hx
    exact ⟨x, hx, hu⟩
  next =>
    obtain ⟨⟨x, hx, hu⟩, -⟩ := first_of_findIdx h
    rw [List.getElem?_take] at hx
    split at hx
    · exact ⟨x, hx, hu⟩
    · cases hx

/-- The slot that is found is the first free one that is met going round from the hint. -/
theorem turn_le_of_free (hh : 0 < p.capacity → p.hint < p.capacity) (h : p.free? = some i)
    (hj : p.IsVacant j) : turn p.capacity p.hint i ≤ turn p.capacity p.hint j := by
  have hi := (isVacant_of_free h).lt
  have hjc := hj.lt
  have hhc := hh (Nat.zero_lt_of_lt hjc)
  obtain ⟨y, hy, hu⟩ := hj
  unfold free? at h
  split at h
  next k hk =>
    -- Found at or after the hint: a vacant slot there is no nearer, and one before it is met later.
    obtain rfl := Option.some.inj h
    obtain ⟨-, hb⟩ := first_of_findIdx hk
    rw [turn_of_le (Nat.le_add_right ..) hi]
    by_cases hle : p.hint ≤ j
    · have hk' : k ≤ j - p.hint := by
        apply hb (j - p.hint) y _ hu
        rw [List.getElem?_drop, Nat.add_sub_cancel' hle]
        exact hy
      rw [turn_of_le hle hjc]
      omega
    · rw [turn_of_lt (Nat.lt_of_not_le hle) hhc]
      omega
  next hn =>
    -- All slots from the hint on are taken, so both indices lie before it.
    obtain ⟨⟨x, hx, -⟩, hb⟩ := first_of_findIdx h
    have hih : i < p.hint := by
      have hl := (List.getElem?_eq_some_iff.mp hx).1
      rw [List.length_take] at hl
      omega
    have hjh : j < p.hint := by
      by_contra hle
      have hyd : (p.slots.drop p.hint)[j - p.hint]? = some y := by
        rw [List.getElem?_drop, Nat.add_sub_cancel' (Nat.le_of_not_lt hle)]
        exact hy
      rw [used_of_findIdx hn hyd] at hu
      cases hu
    have hij : i ≤ j := by
      apply hb j y _ hu
      rw [List.getElem?_take, if_pos hjh]
      exact hy
    rw [turn_of_lt hih hhc, turn_of_lt hjh hhc]
    omega

/-- The slot that is handed out was free, and it is the only one that changes. -/
theorem cell_allocate (h : p.allocate name v = .ok (i, p')) : p.cell? i = none ∧
    (p'.cell? i).map (·.value) = some v ∧ ∀ j, j ≠ i → p'.cell? j = p.cell? j := by
  unfold allocate at h
  split at h
  · cases h
  next k hk =>
    obtain ⟨rfl, rfl⟩ := Prod.mk.inj (Except.ok.inj h)
    have hv := isVacant_of_free hk
    have hi := hv.lt
    obtain ⟨x, hx, hu⟩ := hv
    refine ⟨cell_of_unused hx hu, ?_, fun j hj => ?_⟩
    · rw [cell_set hi, if_pos rfl]
      rfl
    · rw [cell_set hi, if_neg hj]

theorem free_eq_none (h : p.free? = none) : ¬p.IsVacant i := by
  rintro ⟨x, hx, hu⟩
  unfold free? at h
  split at h
  · cases h
  next hn =>
    have ht : x.used = true := by
      by_cases hi : i < p.hint
      · apply used_of_findIdx h (j := i)
        rw [List.getElem?_take, if_pos hi]
        exact hx
      · apply used_of_findIdx hn (j := i - p.hint)
        rw [List.getElem?_drop, Nat.add_sub_cancel' (Nat.le_of_not_lt hi)]
        exact hx
    rw [hu] at ht
    cases ht

/-! What a table is like at all times. -/

/-- Taken slots hold a value, free ones neither a value nor a name; the taken ones are counted, and
the search has a place to start. -/
structure IsSound (p : Slots α) : Prop where
  valued : ∀ x ∈ p.slots, x.value.isSome = x.used
  unnamed : ∀ x ∈ p.slots, x.used = false → x.name = ""
  counted : p.inUse = p.slots.countP (·.used)
  hinted : 0 < p.capacity → p.hint < p.capacity

theorem isSound_empty (c : Nat) : (empty c : Slots α).IsSound where
  valued x hx := by
    rw [List.eq_of_mem_replicate hx]
    rfl
  unnamed x hx _ := by rw [List.eq_of_mem_replicate hx]
  counted := by simp [empty, List.countP_replicate]
  hinted h := h

/-- A slot is written over: the number of taken ones changes by what the slot was and is. -/
theorem countP_set {l : List (Slot α)} {x y : Slot α} (hx : l[i]? = some x) :
    (l.set i y).countP (·.used) + x.used.toNat = l.countP (·.used) + y.used.toNat := by
  induction l generalizing i with
  | nil => cases hx
  | cons z l ih =>
    cases i with
    | zero =>
      obtain rfl := Option.some.inj hx
      simp only [List.set_cons_zero, List.countP_cons]
      cases z.used <;> cases y.used <;> simp
    | succ i =>
      have hs := ih hx
      simp only [List.set_cons_succ, List.countP_cons]
      omega

section Sound

variable (hp : p.IsSound)
include hp

theorem IsSound.cell_eq_none : p.cell? i = none ↔ p.capacity ≤ i ∨ p.IsVacant i := by
  constructor
  · intro hn
    by_cases hi : i < p.capacity
    · right
      have hx : p.slots[i]? = some p.slots[i] := List.getElem?_eq_getElem hi
      refine ⟨_, hx, ?_⟩
      by_contra hu
      have hu' : p.slots[i].used = true := by simpa using hu
      have hv := hp.valued _ (List.getElem_mem hi)
      rw [hu', Option.isSome_iff_exists] at hv
      obtain ⟨a, ha⟩ := hv
      have hc : p.cell? i = some ⟨p.slots[i].name, a⟩ := by
        rw [cell_eq_some, hx]
        simp only [← hu', ← ha]
      rw [hn] at hc
      cases hc
    · exact Or.inl (Nat.le_of_not_lt hi)
  · rintro (hi | ⟨x, hx, hu⟩)
    · exact cell_of_le hi
    · exact cell_of_unused hx hu

theorem IsSound.isVacant_iff : p.IsVacant i ↔ i < p.capacity ∧ p.cell? i = none := by
  rw [hp.cell_eq_none]
  constructor
  · intro hv
    exact ⟨hv.lt, Or.inr hv⟩
  · rintro ⟨hi, hc | hv⟩
    · exact absurd hi (Nat.not_lt_of_le hc)
    · exact hv

/-- A slot is written over by one that is fit to be in a table. -/
theorem IsSound.set {x y : Slot α} {n : Nat} (hx : p.slots[i]? = some x)
    (hv : y.value.isSome = y.used) (hu : y.used = false → y.name = "")
    (hn : n + x.used.toNat = p.inUse + y.used.toNat) :
    IsSound { slots := p.slots.set i y, hint := i, inUse := n } where
  valued z hz := by
    rcases List.mem_or_eq_of_mem_set hz with hz | rfl
    · exact hp.valued z hz
    · exact hv
  unnamed z hz := by
    rcases List.mem_or_eq_of_mem_set hz with hz | rfl
    · exact hp.unnamed z hz
    · exact hu
  counted := by
    have hc := countP_set (y := y) hx
    have ho := hp.counted
    simp only at hc ⊢
    omega
  hinted _ := by
    have hi : i < p.slots.length := (List.getElem?_eq_some_iff.mp hx).1
    simpa [capacity] using hi

end Sound

end Slots

/-! The map that a pool stands for. -/

/-- An operation on a pool. -/
inductive SlotCall (α : Type)
  | allocate (name : String) (value : α)
  | get (i : Nat)
  | nameAt (i : Nat)
  | freeIf (i : Nat) (check : α → Except Fault Unit)
  | inUse
  | capacity

inductive SlotAnswer (α : Type)
  | index (i : Nat)
  | value (v : α)
  | name (s : String)
  | freed
  | number (n : Nat)
  | refused (f : Fault)

namespace Slots

/-- What the pool answers to an operation, and the pool after it. -/
def perform (p : Slots α) : SlotCall α → SlotAnswer α × Slots α
  | .allocate name value =>
    match p.allocate name value with
    | .ok (i, p') => (.index i, p')
    | .error f => (.refused f, p)
  | .get i =>
    match p.get i with
    | .ok v => (.value v, p)
    | .error f => (.refused f, p)
  | .nameAt i =>
    match p.nameAt i with
    | .ok s => (.name s, p)
    | .error f => (.refused f, p)
  | .freeIf i check =>
    match p.freeIf i check with
    | .ok p' => (.freed, p')
    | .error f => (.refused f, p)
  | .inUse => (.number p.inUse, p)
  | .capacity => (.number p.capacity, p)

/-- What the pool answers to operations one after the other, and the pool after them. -/
def performAll (p : Slots α) : List (SlotCall α) → List (SlotAnswer α) × Slots α
  | [] => ([], p)
  | k :: ks =>
    let rest := (p.perform k).2.performAll ks
    ((p.perform k).1 :: rest.1, rest.2)

end Slots

/-- A finite map from indices to names and values, and the index that was taken or freed last. -/
structure Holdings (α : Type) where
  at? : Nat → Option (Cell α) := fun _ => none
  last : Nat := 0

/-- What operation `k` answers on a map of indices below `c`, and the map after it. -/
inductive Holdings.Step (c : Nat) (m : Holdings α) :
    SlotCall α → SlotAnswer α → Holdings α → Prop
  | full (name : String) (v : α) (h : ∀ i < c, m.at? i ≠ none) :
    Step c m (.allocate name v) (.refused (.exhausted c)) m
  | taken (name : String) (v : α) (i : Nat) (hi : i < c) (hn : m.at? i = none)
    (hf : ∀ j < c, m.at? j = none → ((i : Int) - m.last) % c ≤ ((j : Int) - m.last) % c) :
    Step c m (.allocate name v) (.index i)
      ⟨Function.update m.at? i (some ⟨Label.clamp name, v⟩), i⟩
  | get (i : Nat) (x : Cell α) (h : m.at? i = some x) : Step c m (.get i) (.value x.value) m
  | getFree (i : Nat) (h : m.at? i = none) :
    Step c m (.get i) (.refused (.badArgument .slotIndex)) m
  | nameAt (i : Nat) (x : Cell α) (h : m.at? i = some x) : Step c m (.nameAt i) (.name x.name) m
  | nameAtFree (i : Nat) (h : m.at? i = none) :
    Step c m (.nameAt i) (.refused (.badArgument .slotIndex)) m
  | freed (i : Nat) (check : α → Except Fault Unit) (x : Cell α) (h : m.at? i = some x)
    (hc : check x.value = .ok ()) :
    Step c m (.freeIf i check) .freed ⟨Function.update m.at? i none, i⟩
  | kept (i : Nat) (check : α → Except Fault Unit) (x : Cell α) (f : Fault)
    (h : m.at? i = some x) (hc : check x.value = .error f) :
    Step c m (.freeIf i check) (.refused f) m
  | freedFree (i : Nat) (check : α → Except Fault Unit) (h : m.at? i = none) :
    Step c m (.freeIf i check) (.refused (.badArgument .slotIndex)) m
  | inUse : Step c m .inUse
      (.number ((Finset.range c).filter fun i => (m.at? i).isSome).card) m
  | capacity : Step c m .capacity (.number c) m

/-- The answers to operations one after the other, and the map after them. -/
inductive Holdings.Run (c : Nat) :
    Holdings α → List (SlotCall α) → List (SlotAnswer α) → Holdings α → Prop
  | nil (m : Holdings α) : Run c m [] [] m
  | cons {m m₁ m₂ : Holdings α} {k : SlotCall α} {a : SlotAnswer α} {ks : List (SlotCall α)}
    {as : List (SlotAnswer α)} (hs : Step c m k a m₁) (hr : Run c m₁ ks as m₂) :
    Run c m (k :: ks) (a :: as) m₂

/-- The answer to an operation and the map after it are determined by the map before it. -/
theorem Holdings.Step.unique {m m₁ m₂ : Holdings α} {k : SlotCall α} {a b : SlotAnswer α}
    (h₁ : Step c m k a m₁) (h₂ : Step c m k b m₂) : a = b ∧ m₁ = m₂ := by
  cases h₁ <;> cases h₂ <;> simp_all
  case taken.taken i hi hn hf j hj hm hg =>
    -- Two nearest free indices are equally far, hence the same.
    obtain rfl : i = j := Slots.turn_inj hi hj (le_antisymm (hf j hj hm) (hg i hi hn))
    exact ⟨rfl, rfl, rfl⟩

theorem Holdings.Run.unique {m m₁ m₂ : Holdings α} {ks : List (SlotCall α)}
    {as bs : List (SlotAnswer α)} (h₁ : Run c m ks as m₁) (h₂ : Run c m ks bs m₂) :
    as = bs ∧ m₁ = m₂ := by
  induction h₁ generalizing bs with
  | nil m =>
    cases h₂
    exact ⟨rfl, rfl⟩
  | cons hs hr ih =>
    cases h₂ with
    | cons hs' hr' =>
      obtain ⟨rfl, rfl⟩ := hs.unique hs'
      obtain ⟨rfl, rfl⟩ := ih hr'
      exact ⟨rfl, rfl⟩

namespace Slots

variable {p : Slots α}

/-- The map that the pool stands for. -/
def holdings (p : Slots α) : Holdings α := ⟨p.cell?, p.hint⟩

theorem holdings_empty (c : Nat) : (empty c : Slots α).holdings = {} := by
  have hn : (empty c : Slots α).cell? = fun _ => none := funext fun _ => cell_empty
  unfold holdings
  rw [hn]
  rfl

theorem capacity_free : (p.free i).capacity = p.capacity := List.length_set

theorem IsSound.step_allocate (hp : p.IsSound) (name : String) (v : α) :
    p.holdings.Step p.capacity (.allocate name v) (p.perform (.allocate name v)).1
        (p.perform (.allocate name v)).2.holdings ∧
      (p.perform (.allocate name v)).2.IsSound ∧
      (p.perform (.allocate name v)).2.capacity = p.capacity := by
  unfold perform allocate
  cases hf : p.free? with
  | none =>
    refine ⟨.full name v fun i hi hn => ?_, hp, rfl⟩
    exact free_eq_none hf (hp.isVacant_iff.mpr ⟨hi, hn⟩)
  | some i =>
    have hv := isVacant_of_free hf
    obtain ⟨hi, hn⟩ := hp.isVacant_iff.mp hv
    obtain ⟨x, hx, hu⟩ := hv
    refine ⟨?_, hp.set hx rfl (fun h => by cases h) (by simp [hu]), List.length_set⟩
    have hm : Slots.holdings ⟨p.slots.set i ⟨true, Label.clamp name, some v⟩, i, p.inUse + 1⟩ =
        ⟨Function.update p.holdings.at? i (some ⟨Label.clamp name, v⟩), i⟩ := by
      unfold holdings
      congr 1
      funext j
      rw [cell_set hi]
      by_cases hj : j = i <;> simp [hj, cell?]
    simp only [hm]
    exact .taken name v i hi hn fun j hj hjn =>
      turn_le_of_free hp.hinted hf (hp.isVacant_iff.mpr ⟨hj, hjn⟩)

theorem IsSound.step_freeIf (hp : p.IsSound) (i : Nat) (check : α → Except Fault Unit) :
    p.holdings.Step p.capacity (.freeIf i check) (p.perform (.freeIf i check)).1
        (p.perform (.freeIf i check)).2.holdings ∧
      (p.perform (.freeIf i check)).2.IsSound ∧
      (p.perform (.freeIf i check)).2.capacity = p.capacity := by
  have refused (hn : p.cell? i = none)
      (hf : p.freeIf i check = .error (.badArgument .slotIndex)) :
      p.holdings.Step p.capacity (.freeIf i check) (p.perform (.freeIf i check)).1
          (p.perform (.freeIf i check)).2.holdings ∧
        (p.perform (.freeIf i check)).2.IsSound ∧
        (p.perform (.freeIf i check)).2.capacity = p.capacity := by
    simp only [perform, hf]
    exact ⟨.freedFree i check hn, hp, trivial⟩
  cases hx : p.slots[i]? with
  | none =>
    refine refused (cell_of_le (List.getElem?_eq_none_iff.mp hx)) ?_
    simp only [freeIf, hx]
  | some x =>
    cases hu : x.used with
    | false =>
      refine refused (cell_of_unused hx hu) ?_
      simp [freeIf, hx, hu]
    | true =>
      -- A taken slot holds a value, so the check is made.
      have hv := hp.valued x (List.mem_of_getElem? hx)
      rw [hu, Option.isSome_iff_exists] at hv
      obtain ⟨v, hv⟩ := hv
      have hc : p.cell? i = some ⟨x.name, v⟩ := by
        rw [cell_eq_some, hx]
        simp only [← hu, ← hv]
      cases hk : check v with
      | error f =>
        have hf : p.freeIf i check = .error f := by simp [freeIf, hx, hu, hv, hk]
        simp only [perform, hf]
        exact ⟨.kept i check _ f hc hk, hp, trivial⟩
      | ok =>
        have hf : p.freeIf i check = .ok (p.free i) := by simp [freeIf, hx, hu, hv, hk]
        have hm : (p.free i).holdings = ⟨Function.update p.holdings.at? i none, i⟩ := by
          unfold holdings
          congr 1
          funext j
          rw [cell_free]
          by_cases hj : j = i <;> simp [hj]
        have hpos : 0 < p.slots.countP (·.used) :=
          List.countP_pos_iff.mpr ⟨x, List.mem_of_getElem? hx, hu⟩
        simp only [perform, hf, hm]
        refine ⟨.freed i check _ hc hk, hp.set hx rfl (fun _ => rfl) ?_, capacity_free⟩
        have hcount := hp.counted
        simp only [hu]
        simp
        omega

theorem card_taken (p : Slots α) (n : Nat) :
    ((Finset.range n).filter fun i => (p.slots[i]?).any (·.used)).card =
      (p.slots.take n).countP (·.used) := by
  induction n with
  | zero => simp
  | succ n ih =>
    rw [Finset.range_add_one, Finset.filter_insert, List.take_add_one, List.countP_append, ← ih]
    cases hx : p.slots[n]? with
    | none => simp
    | some x => cases hu : x.used <;> simp [hu]

theorem IsSound.isSome_cell (hp : p.IsSound) :
    (p.cell? i).isSome = (p.slots[i]?).any (·.used) := by
  cases hx : p.slots[i]? with
  | none =>
    rw [cell_of_le (List.getElem?_eq_none_iff.mp hx)]
    rfl
  | some x =>
    cases hu : x.used with
    | false => rw [cell_of_unused hx hu, Option.any_some, hu]; rfl
    | true =>
      have hn : p.cell? i ≠ none := by
        rw [ne_eq, hp.cell_eq_none]
        rintro (hl | ⟨y, hy, hyu⟩)
        · rw [List.getElem?_eq_none hl] at hx
          cases hx
        · rw [hx] at hy
          obtain rfl := Option.some.inj hy
          rw [hu] at hyu
          cases hyu
      rw [Option.isSome_iff_ne_none.mpr hn, Option.any_some, hu]

/-- The counter is the number of taken indices. -/
theorem IsSound.inUse_eq (hp : p.IsSound) :
    p.inUse = ((Finset.range p.capacity).filter fun i => (p.cell? i).isSome).card := by
  have ht : p.slots.take p.capacity = p.slots := List.take_length
  rw [hp.counted, ← ht, ← card_taken]
  simp only [hp.isSome_cell]

theorem IsSound.nameAt_eq (hp : p.IsSound) : p.nameAt i =
    match p.cell? i with
    | some x => .ok x.name
    | none => .error (.badArgument .slotIndex) := by
  cases hc : p.cell? i with
  | some x => simp [nameAt, cell_eq_some.mp hc]
  | none =>
    rcases hp.cell_eq_none.mp hc with hl | ⟨x, hx, hu⟩
    · simp [nameAt, List.getElem?_eq_none hl]
    · simp [nameAt, hx, hu]

/-- One operation on the table is one operation on the map. -/
theorem IsSound.step (hp : p.IsSound) (k : SlotCall α) :
    p.holdings.Step p.capacity k (p.perform k).1 (p.perform k).2.holdings ∧
      (p.perform k).2.IsSound ∧ (p.perform k).2.capacity = p.capacity := by
  cases k with
  | allocate name v => exact hp.step_allocate name v
  | freeIf i check => exact hp.step_freeIf i check
  | get i =>
    simp only [perform, get_eq]
    cases hc : p.cell? i with
    | some x => exact ⟨.get i x hc, hp, rfl⟩
    | none => exact ⟨.getFree i hc, hp, rfl⟩
  | nameAt i =>
    simp only [perform, hp.nameAt_eq]
    cases hc : p.cell? i with
    | some x => exact ⟨.nameAt i x hc, hp, rfl⟩
    | none => exact ⟨.nameAtFree i hc, hp, rfl⟩
  | inUse =>
    refine ⟨?_, hp, rfl⟩
    simp only [perform, hp.inUse_eq]
    exact .inUse
  | capacity => exact ⟨.capacity, hp, rfl⟩

/-- Operations one after the other on the table are operations on the map. -/
theorem IsSound.run (hp : p.IsSound) (ks : List (SlotCall α)) :
    p.holdings.Run p.capacity ks (p.performAll ks).1 (p.performAll ks).2.holdings ∧
      (p.performAll ks).2.IsSound ∧ (p.performAll ks).2.capacity = p.capacity := by
  induction ks generalizing p with
  | nil => exact ⟨.nil _, hp, rfl⟩
  | cons k ks ih =>
    obtain ⟨hs, hp', hc⟩ := hp.step k
    obtain ⟨hr, hq, hc'⟩ := ih hp'
    rw [hc] at hr hc'
    exact ⟨.cons hs hr, hq, hc'⟩

/-- An operation that is refused leaves the pool as it was. -/
theorem perform_of_refused {k : SlotCall α} {f : Fault} (h : (p.perform k).1 = .refused f) :
    (p.perform k).2 = p := by
  cases k <;> simp only [perform] at h ⊢
  case allocate name v => cases ha : p.allocate name v <;> simp_all
  case get i => cases hg : p.get i <;> rfl
  case nameAt i => cases hg : p.nameAt i <;> rfl
  case freeIf i check => cases hf : p.freeIf i check <;> simp_all

end Slots

section Map

variable {m m' : Holdings α}

/-- A value never goes to an index that is taken, and what stands there stays. -/
theorem Holdings.Step.keeps {x : Cell α} (h : Step c m (.allocate name v) (.index i) m')
    (hx : m.at? j = some x) : i ≠ j ∧ m'.at? j = some x := by
  cases h with
  | taken _ _ _ hi hn hf =>
    have hij : i ≠ j := by
      rintro rfl
      rw [hn] at hx
      cases hx
    refine ⟨hij, ?_⟩
    simpa [Ne.symm hij] using hx

theorem Holdings.Step.taken_of_freed {check : α → Except Fault Unit}
    (h : Step c m (.freeIf i check) .freed m') : ∃ x, m.at? i = some x := by
  cases h with
  | freed _ _ x hx hc => exact ⟨x, hx⟩

/-- The index that has just been given back is the one that is handed out next. -/
theorem Holdings.Step.reuses {check : α → Except Fault Unit} {a : SlotAnswer α}
    {m'' : Holdings α} (h : Step c m (.freeIf i check) .freed m') (hi : i < c)
    (ha : Step c m' (.allocate name v) a m'') : a = .index i := by
  cases h with
  | freed _ _ x hx hc =>
    have hn : Function.update m.at? i none i = none := Function.update_self ..
    have hf (j : Nat) : ((i : Int) - i) % c ≤ ((j : Int) - i) % c := by
      rw [sub_self, Int.zero_emod]
      exact Int.emod_nonneg _ (by omega)
    exact (ha.unique (.taken name v i hi hn fun j _ _ => hf j)).1

end Map

namespace Slots

/-- For every capacity and every sequence of operations the pool answers as a finite map would, in
which a new value goes to the free index that comes first when one goes round from the index that was
taken or freed last; and there is only one way in which such a map can answer. Hence no index beyond
the capacity is ever taken, a refused operation changes nothing, a taken slot is never overwritten,
and a slot that has just been given back is handed out next. -/
theorem slots_are_a_map (c : Nat) (ks : List (SlotCall α)) :
    Holdings.Run c {} ks ((empty c).performAll ks).1 ((empty c).performAll ks).2.holdings ∧
    (∀ as m, Holdings.Run c {} ks as m →
      as = ((empty c).performAll ks).1 ∧ m = ((empty c).performAll ks).2.holdings) ∧
    (∀ i, c ≤ i → ((empty c).performAll ks).2.cell? i = none) ∧
    (∀ k f, (((empty c).performAll ks).2.perform k).1 = .refused f →
      (((empty c).performAll ks).2.perform k).2 = ((empty c).performAll ks).2) ∧
    (∀ name v i j x, (((empty c).performAll ks).2.perform (.allocate name v)).1 = .index i →
      ((empty c).performAll ks).2.cell? j = some x →
      i ≠ j ∧ (((empty c).performAll ks).2.perform (.allocate name v)).2.cell? j = some x) ∧
    ∀ i check name v, (((empty c).performAll ks).2.perform (.freeIf i check)).1 = .freed →
      ((((empty c).performAll ks).2.perform (.freeIf i check)).2.perform
        (.allocate name v)).1 = .index i := by
  have hcap : (empty c : Slots α).capacity = c := List.length_replicate
  obtain ⟨hr, hp, hc⟩ := (isSound_empty (α := α) c).run ks
  rw [hcap, holdings_empty] at hr
  rw [hcap] at hc
  -- from here on it is any sound pool of this capacity, with the answers and the map that go with
  -- it
  generalize ((empty c).performAll ks).1 = as at hr ⊢
  generalize ((empty c).performAll ks).2 = p at hr hp hc ⊢
  refine ⟨hr, fun bs m hb => hb.unique hr, ?_, fun k f hk => perform_of_refused hk, ?_, ?_⟩
  · intro i hi
    exact cell_of_le (hc ▸ hi)
  · intro name v i j x ha hx
    have hs := (hp.step (.allocate name v)).1
    rw [ha] at hs
    exact hs.keeps hx
  · intro i check name v hf
    obtain ⟨hs, hq, hcq⟩ := hp.step (.freeIf i check)
    rw [hf, hc] at hs
    rw [hc] at hcq
    obtain ⟨x, hx⟩ := hs.taken_of_freed
    have hi : i < c := hc ▸ lt_of_cell hx
    have ha := (hq.step (.allocate name v)).1
    rw [hcq] at ha
    exact hs.reuses hi ha

end Slots

end Standstill
