import Standstill.Proofs.StressRuns

/-!
How many stress workers the pools have room for. As long as nobody gives anything back, a worker is
refused something only if a pool is full, and a full pool stays so. So once all workers have asked for
what they need, the number of those refused is a matter of how many they are and of the two capacities,
in whatever order they came; and it does not change any more when they give things back.
-/
namespace Standstill.Stress

open World

namespace Lot

/-- The worker has been given, or refused, what it asks for. -/
def hasAsked : Lot → Bool
  | .poor | .half _ => false
  | _ => true

def isRefused : Lot → Bool
  | .refused | .stranded _ | .gone true => true
  | _ => false

/-- It has given something back. -/
def hasReturned : Lot → Bool
  | .spent _ | .gone false => true
  | _ => false

end Lot

/-- The instruction gives a slot back. -/
def frees (w : World) : Move → Bool
  | .event e =>
    match w.ran e with
    | some (.mutexFree ..) | some (.condFree ..) => true
    | _ => false
  | .turn _ => false

def mutexCount (ls : List Lot) : Nat := (ls.filterMap Lot.mutex?).length

def condCount (ls : List Lot) (lost : List Nat) : Nat := (ls.filterMap Lot.cond? ++ lost).length

/-- The tables of the service have room for so many. -/
structure HasRoom (w : World) (conds mutexes : Nat) : Prop where
  conds : (w.condSlots service).capacity = conds
  mutexes : (w.mutexSlots service).capacity = mutexes

/-- Nobody has given anything back, and each refusal so far had its reason. -/
structure Asking (conds mutexes : Nat) (ls : List Lot) (lost : List Nat) : Prop where
  kept : ∀ l ∈ ls, l.hasReturned = false
  noMutex : lost ≠ [] ∨ (∃ c, .stranded c ∈ ls) → mutexes ≤ mutexCount ls
  full : (∃ l ∈ ls, l.isRefused = true) → conds ≤ condCount ls lost ∨ mutexes ≤ mutexCount ls

/-- All of `n` workers have asked for what they need, and as many as the pools have room for were not
refused. -/
structure Served (n conds mutexes : Nat) (ls : List Lot) : Prop where
  size : ls.length = n
  asked : ∀ l ∈ ls, l.hasAsked = true
  refused : ls.countP Lot.isRefused = n - min n (min conds mutexes)

variable {n conds mutexes : Nat} {w w' : World} {ls ls' : List Lot} {lost new : List Nat} {i : Nat}
  {l l' : Lot} {mv : Move} {j : PoolInstr} {x : Settings} {p : Slots MutexRef} {q : Slots CondRef}

/-! The capacities are those of the settings. -/

theorem capacity_of_allocate {α : Type} {a b : Slots α} {name : String} {v : α}
    (h : a.allocate name v = .ok (i, b)) : b.capacity = a.capacity := by
  unfold Slots.allocate at h
  split at h
  · cases h
  · cases h
    exact List.length_set

theorem capacity_onMutexes (j : PoolInstr) (s : ServiceId) (m : MutexRef) :
    (j.onMutexes s m p).capacity = p.capacity := by
  unfold PoolInstr.onMutexes
  repeat' split
  case _ ha => exact capacity_of_allocate ha
  all_goals first | rfl | exact Slots.capacity_free

theorem capacity_onConds (j : PoolInstr) (s : ServiceId) (c : CondRef) :
    (j.onConds s c q).capacity = q.capacity := by
  unfold PoolInstr.onConds
  repeat' split
  case _ ha => exact capacity_of_allocate ha
  all_goals first | rfl | exact Slots.capacity_free

theorem capacities (hw : Reachable n w) {s : ServiceId} (hf : w.fittings s = some (x, p, q)) :
    p.capacity = x.mutexCapacity ∧ q.capacity = x.condCapacity := by
  revert x p q
  refine hw.induct (P := fun w => ∀ {x p q}, w.fittings s = some (x, p, q) →
    p.capacity = x.mutexCapacity ∧ q.capacity = x.condCapacity) ?_ ?_
  · intro x p q hf
    cases hf
  intro w e _ ih x p q hf
  cases hr : w.ran e with
  | some k =>
    rw [fittings_step_of_ran hr] at hf
    obtain ⟨⟨x₀, p₀, q₀⟩, hf₀, hx⟩ := Option.map_eq_some_iff.mp hf
    cases hx
    rw [capacity_onMutexes, capacity_onConds]
    exact ih hf₀
  | none =>
    rcases fittings_step_of_not_ran hr s with hf' | ⟨-, _, x', _, -, -, hf'⟩
    · exact ih (hf'.symm.trans hf)
    · rw [hf'] at hf
      cases hf
      exact ⟨List.length_replicate, List.length_replicate⟩

theorem hasRoom_of_fittings (hw : Reachable n w) (hf : w.fittings service = some (x, p, q)) :
    HasRoom w x.condCapacity x.mutexCapacity := by
  obtain ⟨hm, hc⟩ := slots_of_fittings hf
  obtain ⟨hp, hq⟩ := capacities hw hf
  exact ⟨hc ▸ hq, hm ▸ hp⟩

section Account

variable (a : Account w ls lost)
include a

theorem Account.mutexCount_eq : mutexCount ls = (w.mutexSlots service).inUse :=
  (a.mutexes.inUse a.mutexesSound).symm

theorem Account.condCount_eq : condCount ls lost = (w.condSlots service).inUse :=
  (a.conds.inUse a.condsSound).symm

theorem Account.mutexCount_le (hr : HasRoom w conds mutexes) : mutexCount ls ≤ mutexes := by
  rw [a.mutexCount_eq, ← hr.mutexes]
  exact a.mutexesSound.inUse_le

theorem Account.condCount_le (hr : HasRoom w conds mutexes) : condCount ls lost ≤ conds := by
  rw [a.condCount_eq, ← hr.conds]
  exact a.condsSound.inUse_le

/-- Who is refused a condition finds all conditions in use. -/
theorem Account.conds_full {name : String} {k : CondRef} {f : Fault} (hr : HasRoom w conds mutexes)
    (h : (w.condSlots service).allocate name k = .error f) : condCount ls lost = conds := by
  rw [a.condCount_eq, ← hr.conds]
  exact a.condsSound.full h

theorem Account.mutexes_full {name : String} {m : MutexRef} {f : Fault}
    (hr : HasRoom w conds mutexes) (h : (w.mutexSlots service).allocate name m = .error f) :
    mutexCount ls = mutexes := by
  rw [a.mutexCount_eq, ← hr.mutexes]
  exact a.mutexesSound.full h

end Account

/-! Nobody gives anything back. -/

theorem asking_nil (conds mutexes : Nat) : Asking conds mutexes [] [] where
  kept l hl := absurd hl List.not_mem_nil
  noMutex h := by
    rcases h with h | ⟨c, h⟩
    · exact absurd rfl h
    · exact absurd h List.not_mem_nil
  full h := by
    obtain ⟨l, hl, -⟩ := h
    exact absurd hl List.not_mem_nil

/-- One lot is exchanged for another, by which no count goes down. -/
theorem Asking.exchange (a : Asking conds mutexes ls lost) (l' : Lot)
    (hm : mutexCount ls ≤ mutexCount (ls.set i l'))
    (hc : condCount ls lost ≤ condCount (ls.set i l') (lost ++ new))
    (hk : l'.hasReturned = false)
    (hn : new ≠ [] ∨ (∃ c, l' = .stranded c) → mutexes ≤ mutexCount ls)
    (hf : l'.isRefused = true → conds ≤ condCount ls lost ∨ mutexes ≤ mutexCount ls) :
    Asking conds mutexes (ls.set i l') (lost ++ new) where
  kept l hl := by
    rcases List.mem_or_eq_of_mem_set hl with hl | rfl
    · exact a.kept l hl
    · exact hk
  noMutex h := by
    refine Nat.le_trans ?_ hm
    rcases h with h | ⟨c, h⟩
    · by_cases hnew : new = []
      · rw [hnew, List.append_nil] at h
        exact a.noMutex (.inl h)
      · exact hn (.inl hnew)
    · rcases List.mem_or_eq_of_mem_set h with h | h
      · exact a.noMutex (.inr ⟨c, h⟩)
      · exact hn (.inr ⟨c, h.symm⟩)
  full h := by
    obtain ⟨l, hl, hr⟩ := h
    have old : conds ≤ condCount ls lost ∨ mutexes ≤ mutexCount ls := by
      rcases List.mem_or_eq_of_mem_set hl with hl | rfl
      · exact a.full ⟨l, hl, hr⟩
      · exact hf hr
    rcases old with h | h
    · exact .inl (Nat.le_trans h hc)
    · exact .inr (Nat.le_trans h hm)

theorem condCount_le_of_perm {xs ys : List Nat} (h : xs.Perm ys) (lost : List Nat) :
    (xs ++ lost).length = (ys ++ lost).length :=
  (h.append_right lost).length_eq

/-- As long as nobody gives anything back, no count goes down, and a refusal means that one is at its
height. -/
theorem Asking.trade (a : Asking conds mutexes ls lost) (ac : Account w ls lost)
    (hr : HasRoom w conds mutexes) (hi : ls[i]? = some l) (ht : Trade w j l l')
    (hj : ∀ s m, j ≠ .mutexFree s m ∧ j ≠ .condFree s m) :
    Asking conds mutexes (ls.set i l') lost := by
  have hold : l.hasReturned = false := a.kept l (List.mem_of_getElem? hi)
  have same (l' : Lot) (hm : l'.mutex? = l.mutex?) (hc : l'.cond? = l.cond?) :
      mutexCount ls ≤ mutexCount (ls.set i l') ∧
        condCount ls lost ≤ condCount (ls.set i l') (lost ++ []) := by
    have hpm := Account.perm_set (f := Lot.mutex?) hi l' hm
    have hpc := Account.perm_set (f := Lot.cond?) hi l' hc
    rw [List.append_nil]
    exact ⟨Nat.le_of_eq hpm.length_eq, Nat.le_of_eq (condCount_le_of_perm hpc lost)⟩
  rw [← List.append_nil lost]
  cases ht with
  | same j l h =>
    rw [set_self hi, List.append_nil]
    exact a
  | condGiven name c q hq =>
    have hp := Account.perm_gain (f := Lot.cond?) hi (.half c) rfl rfl
    have hpm := Account.perm_set (f := Lot.mutex?) hi (.half c) rfl
    refine a.exchange _ (Nat.le_of_eq hpm.length_eq) ?_ rfl ?_ fun h => by cases h
    · have hlen := condCount_le_of_perm hp lost
      rw [List.append_nil]
      show (ls.filterMap Lot.cond? ++ lost).length ≤ _
      rw [condCount, ← hlen]
      simp
    · rintro (h | ⟨c, h⟩)
      · exact absurd rfl h
      · cases h
  -- a refused condition means that the table of conditions is full
  | condRefused name f hf =>
    obtain ⟨hm, hc⟩ := same .refused rfl rfl
    refine a.exchange _ hm hc rfl ?_ fun _ => .inl (Nat.le_of_eq (ac.conds_full hr hf).symm)
    rintro (h | ⟨c, h⟩)
    · exact absurd rfl h
    · cases h
  | mutexGiven c name m q hq =>
    have hp := Account.perm_gain (f := Lot.mutex?) hi (.equipped c m) rfl rfl
    have hpc := Account.perm_set (f := Lot.cond?) hi (.equipped c m) rfl
    refine a.exchange _ ?_ ?_ rfl ?_ fun h => by cases h
    · have hlen := hp.length_eq
      rw [List.length_cons] at hlen
      exact Nat.le_of_succ_le (Nat.le_of_eq hlen)
    · rw [List.append_nil]
      exact Nat.le_of_eq (condCount_le_of_perm hpc lost)
    · rintro (h | ⟨c, h⟩)
      · exact absurd rfl h
      · cases h
  -- a worker without a mutex keeps its condition, and the table of mutexes is full
  | mutexRefused c name f hf =>
    obtain ⟨hm, hc⟩ := same (.stranded c) rfl rfl
    have hfull := Nat.le_of_eq (ac.mutexes_full hr hf).symm
    exact a.exchange _ hm hc rfl (fun _ => hfull) fun _ => .inr hfull
  | mutexFreed c m => exact absurd rfl (hj service m).1
  | condFreed c => exact absurd rfl (hj service c).2

/-- A worker comes back. -/
theorem Asking.back (a : Asking conds mutexes ls lost) (hi : ls[i]? = some l) :
    Asking conds mutexes (ls.set i l.back) (lost ++ l.lost) := by
  have hl := List.mem_of_getElem? hi
  have hpm := Account.perm_set (f := Lot.mutex?) hi l.back (by cases l <;> rfl)
  refine a.exchange _ (Nat.le_of_eq hpm.length_eq)
    (Nat.le_of_eq (Account.perm_back hi lost).length_eq) ?_ ?_ ?_
  · have hk := a.kept l hl
    cases l <;> first | rfl | exact hk
  · intro h
    refine a.noMutex (.inr ?_)
    cases l with
    | stranded c => exact ⟨c, hl⟩
    | _ =>
      rcases h with h | ⟨c, h⟩
      · exact absurd rfl h
      · cases h
  · intro h
    refine a.full ⟨l, hl, ?_⟩
    cases l <;> first | rfl | exact h

theorem Asking.hire (a : Asking conds mutexes ls lost) :
    Asking conds mutexes (ls ++ [.poor]) lost := by
  have hcount {f : Lot → Option Nat} (hf : f .poor = none) :
      (ls ++ [Lot.poor]).filterMap f = ls.filterMap f := by
    rw [List.filterMap_append, List.filterMap_cons, hf, List.filterMap_nil, List.append_nil]
  have hm : mutexCount (ls ++ [.poor]) = mutexCount ls := by rw [mutexCount, hcount rfl, mutexCount]
  have hc : condCount (ls ++ [.poor]) lost = condCount ls lost := by
    rw [condCount, hcount rfl, condCount]
  have old {l : Lot} (hl : l ∈ ls ++ [.poor]) (hp : l ≠ .poor) : l ∈ ls := by
    rcases List.mem_append.mp hl with hl | hl
    · exact hl
    · exact absurd (List.mem_singleton.mp hl) hp
  constructor
  · intro l hl
    rcases List.mem_append.mp hl with hl | hl
    · exact a.kept l hl
    · rw [List.mem_singleton.mp hl]
      rfl
  · rw [hm]
    rintro (h | ⟨c, h⟩)
    · exact a.noMutex (.inl h)
    · exact a.noMutex (.inr ⟨c, old h fun h => by cases h⟩)
  · rw [hm, hc]
    rintro ⟨l, hl, hr⟩
    exact a.full ⟨l, old hl (by rintro rfl; cases hr), hr⟩

/-- A move by which nothing is given back. -/
theorem Asking.shift (a : Asking conds mutexes ls lost) (ac : Account w ls lost)
    (hr : ls ≠ [] → HasRoom w conds mutexes) (h : Shift w ls mv ls' new)
    (hf : frees w mv = false) : Asking conds mutexes ls' (lost ++ new) := by
  cases h with
  | same => rwa [List.append_nil]
  | trade e j i l l' hran hi ht =>
    rw [List.append_nil]
    refine a.trade ac (hr (List.ne_nil_of_mem (List.mem_of_getElem? hi))) hi ht fun s m => ?_
    simp only [frees, hran] at hf
    constructor
    · rintro rfl
      cases hf
    · rintro rfl
      cases hf
  | back t i l hi => exact a.back hi
  | hire =>
    rw [List.append_nil]
    exact a.hire

/-! All have asked. -/

/-- The number of the refused comes out the same for every order in which the workers asked. -/
theorem Asking.served (a : Asking conds mutexes ls lost) (hn : ls.length = n)
    (hask : ∀ l ∈ ls, l.hasAsked = true) (hc : condCount ls lost ≤ conds)
    (hm : mutexCount ls ≤ mutexes) : Served n conds mutexes ls := by
  refine ⟨hn, hask, ?_⟩
  -- who has a mutex was refused nothing, and who was refused nothing has a mutex
  have hequipped : mutexCount ls = ls.countP fun l => !l.isRefused := by
    rw [mutexCount, List.length_filterMap_eq_countP]
    refine List.countP_congr fun l hl => ?_
    have hk := a.kept l hl
    have hq := hask l hl
    rcases l with _ | _ | _ | _ | _ | _ | _ | _ <;>
      first | (cases hk; done) | (cases hq; done) | exact Iff.rfl
  have hsplit : ls.countP Lot.isRefused + mutexCount ls = n := by
    rw [hequipped, ← hn]
    have h := List.length_eq_countP_add_countP Lot.isRefused (l := ls)
    simpa using h.symm
  have hconds : mutexCount ls ≤ condCount ls lost := by
    rw [mutexCount, condCount, List.length_append, List.length_filterMap_eq_countP,
      List.length_filterMap_eq_countP]
    refine Nat.le_trans (List.countP_mono_left fun l _ h => ?_) (Nat.le_add_right _ _)
    cases l <;> first | rfl | cases h
  rcases Nat.eq_zero_or_pos (ls.countP Lot.isRefused) with hz | hpos
  · omega
  obtain ⟨l, hl, hr⟩ := List.countP_pos_iff.mp hpos
  by_cases hs : lost ≠ [] ∨ ∃ c, .stranded c ∈ ls
  · have hfull := a.noMutex hs
    omega
  -- nobody has a condition alone, so the conditions are as many as the mutexes
  have hlost : lost = [] := by
    by_contra h
    exact hs (.inl h)
  have hpairs : condCount ls lost = mutexCount ls := by
    rw [hlost, condCount, List.append_nil, mutexCount, List.length_filterMap_eq_countP,
      List.length_filterMap_eq_countP]
    refine List.countP_congr fun l hl => ?_
    have hk := a.kept l hl
    have hq := hask l hl
    have hst : ∀ c, l ≠ .stranded c := fun c h => hs (.inr ⟨c, h ▸ hl⟩)
    rcases l with _ | _ | _ | _ | _ | _ | _ | _ <;>
      first | (cases hk; done) | (cases hq; done) | exact absurd rfl (hst _) | exact Iff.rfl
  have hfull := a.full ⟨l, hl, hr⟩
  omega

/-- A lot is exchanged for one of the same kind. -/
theorem Served.exchange (a : Served n conds mutexes ls) (hi : ls[i]? = some l) (l' : Lot)
    (ha : l'.hasAsked = true) (hr : l'.isRefused = l.isRefused) :
    Served n conds mutexes (ls.set i l') where
  size := by rw [List.length_set, a.size]
  asked x hx := by
    rcases List.mem_or_eq_of_mem_set hx with hx | rfl
    · exact a.asked x hx
    · exact ha
  refused := by
    rw [← a.refused]
    have hl : i < ls.length := (List.getElem?_eq_some_iff.mp hi).1
    have hp := (List.set_perm_cons_eraseIdx hl l').countP_eq Lot.isRefused
    have hq := (List.set_perm_cons_eraseIdx hl l).countP_eq Lot.isRefused
    rw [set_self hi] at hq
    rw [hp, hq, List.countP_cons, List.countP_cons, hr]

/-- Whatever is given back, nobody is refused anything any more. -/
theorem Served.shift (a : Served n conds mutexes ls) (h : Shift w ls mv ls' new)
    (hn : ls'.length ≤ n) : Served n conds mutexes ls' := by
  cases h with
  | same => exact a
  | trade e j i l l' hran hi ht =>
    have hl := a.asked l (List.mem_of_getElem? hi)
    cases ht with
    | same j l => exact a.exchange hi l hl rfl
    | condGiven | condRefused | mutexGiven | mutexRefused => cases hl
    | mutexFreed | condFreed => exact a.exchange hi _ rfl rfl
  | back t i l hi =>
    have hl := a.asked l (List.mem_of_getElem? hi)
    refine a.exchange hi _ ?_ ?_
    · cases l <;> first | rfl | exact hl
    · cases l <;> rfl
  | hire =>
    rw [List.length_append, a.size] at hn
    exact absurd hn (Nat.not_succ_le_self n)

/-- Who leaves a condition behind has failed. -/
theorem Shift.gone_of_lost (h : Shift w ls mv ls' new) (hl : lost ≠ [] → .gone true ∈ ls) :
    lost ++ new ≠ [] → .gone true ∈ ls' := by
  -- who has failed stays so, whatever else is exchanged
  have keep {i : Nat} {l l' : Lot} (hi : ls[i]? = some l) (hg : l = .gone true → l' = .gone true)
      (h : .gone true ∈ ls) : .gone true ∈ ls.set i l' := by
    obtain ⟨k, hk⟩ := List.getElem?_of_mem h
    by_cases hki : k = i
    · subst hki
      have hlt : k < ls.length := (List.getElem?_eq_some_iff.mp hi).1
      rw [← hg (Option.some.inj (hi.symm.trans hk))]
      exact List.mem_of_getElem? (List.getElem?_set_self hlt)
    · exact List.mem_of_getElem? ((List.getElem?_set_ne (Ne.symm hki)).trans hk)
  cases h with
  | same =>
    rw [List.append_nil]
    exact hl
  | trade e j i l l' hran hi ht =>
    rw [List.append_nil]
    refine fun h => keep hi ?_ (hl h)
    rintro rfl
    cases ht
    rfl
  | back t i l hi =>
    intro h
    by_cases hs : ∃ c, l = .stranded c
    · obtain ⟨c, rfl⟩ := hs
      have hlt : i < ls.length := (List.getElem?_eq_some_iff.mp hi).1
      exact List.mem_of_getElem? (List.getElem?_set_self hlt)
    · have hlost : l.lost = [] := by
        cases l <;> first | rfl | exact absurd ⟨_, rfl⟩ hs
      rw [hlost, List.append_nil] at h
      exact keep hi (by rintro rfl; rfl) (hl h)
  | hire =>
    rw [List.append_nil]
    exact fun h => List.mem_append_left _ (hl h)

end Standstill.Stress
