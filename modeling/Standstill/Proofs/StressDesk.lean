import Standstill.Proofs.StressCourse

/-!
All stress workers at once. Between them and the slot tables of the service there is an account: each
taken slot is in the hand of one worker, but for those conditions whose workers gave up when they were
refused a mutex. One event brings at most one worker on, and leaves the things of the others alone.
-/
namespace Standstill.Stress

open World

/-- What worker `i` has in hand, given its stage and whether its call is under way. -/
def lotOf (w : World) (i : Nat) (e : Stage × Bool) : Lot :=
  if e.2 then e.1.lotIn (w.doing (i + 1)) (w.outcomeOf (i + 1)) else e.1.lot

/-- What each of the workers has in hand. -/
def lots (w : World) (ws : List (Stage × Bool)) : List Lot := ws.mapIdx (lotOf w)

/-- What the tables hold agrees with what the workers have in hand, and with the conditions `lost` that
no worker will give back. -/
structure Account (w : World) (ls : List Lot) (lost : List Nat) : Prop where
  mutexesSound : (w.mutexSlots service).IsSound
  condsSound : (w.condSlots service).IsSound
  mutexes : (w.mutexSlots service).Lists (ls.filterMap Lot.mutex?)
  conds : (w.condSlots service).Lists (ls.filterMap Lot.cond? ++ lost)

/-- The workers are at their places, and the account is in order. -/
structure Desk (w : World) (ws : List (Stage × Bool)) (lost : List Nat) : Prop where
  reach : Reachable 1 w
  idle : ∀ t, (∀ i stage, t = i + 1 → ws[i]? ≠ some (stage, true)) → w.doing t = none
  busy : ∀ {i stage}, ws[i]? = some (stage, true) → ∃ base, w.Calling (i + 1) (.user :: base)
  course : ∀ {i stage}, ws[i]? = some (stage, true) →
    Course (i + 1) stage (w.doing (i + 1)) (w.outcomeOf (i + 1)) ((lotOf w i (stage, true)).view w)
  rest : ∀ {i stage}, ws[i]? = some (stage, false) → Rest (i + 1) stage (stage.lot.view w)
  account : Account w (lots w ws) lost

variable {w w' : World} {ws : List (Stage × Bool)} {lost : List Nat} {i i' : Nat} {t : ThreadId}
  {stage : Stage} {x : Stage × Bool} {e : Event} {l l' : Lot} {j : PoolInstr} {c m : Nat}
  {k : CondRef} {r : MutexRef} {rest : List Instr} {p : Plan} {call : Call}

/-! Lists of lots. -/

theorem lots_getElem : (lots w ws)[i]? = (ws[i]?).map (lotOf w i) := List.getElem?_mapIdx

theorem lots_at (w : World) (hi : ws[i]? = some x) : (lots w ws)[i]? = some (lotOf w i x) := by
  rw [lots_getElem, hi]
  rfl

theorem lots_congr (h : ∀ i x, ws[i]? = some x → lotOf w' i x = lotOf w i x) :
    lots w' ws = lots w ws := by
  apply List.ext_getElem?
  intro i
  rw [lots_getElem, lots_getElem]
  exact Option.map_congr fun x hx => h i x hx

/-- The lot of one worker changes, whatever becomes of its stage. -/
theorem lots_set (w' : World) (hi : ws[i]? = some x) (x' : Stage × Bool)
    (h : ∀ i' x, i' ≠ i → ws[i']? = some x → lotOf w' i' x = lotOf w i' x) :
    lots w' (ws.set i x') = (lots w ws).set i (lotOf w' i x') := by
  have hl : i < ws.length := (List.getElem?_eq_some_iff.mp hi).1
  apply List.ext_getElem?
  intro i'
  rw [lots_getElem]
  by_cases hii : i' = i
  · subst hii
    have hl' : i' < (lots w ws).length := by simpa [lots] using hl
    rw [List.getElem?_set_self hl, List.getElem?_set_self hl']
    rfl
  · rw [List.getElem?_set_ne (Ne.symm hii), List.getElem?_set_ne (Ne.symm hii), lots_getElem]
    exact Option.map_congr fun x hx => h i' x hii hx

section FilterMap

variable {α β : Type} {f : α → Option β} {l : List α} {a b : α} {y : β}

theorem set_self (h : l[i]? = some a) : l.set i a = l := by
  obtain ⟨hl, rfl⟩ := List.getElem?_eq_some_iff.mp h
  exact List.set_getElem_self hl

theorem getElem_concat (h : (l ++ [b])[i]? = some a) : l[i]? = some a ∨ a = b := by
  by_cases hi : i < l.length
  · rw [List.getElem?_append_left hi] at h
    exact Or.inl h
  · rw [List.getElem?_append_right (Nat.le_of_not_lt hi)] at h
    exact Or.inr (List.mem_singleton.mp (List.mem_of_getElem? h))

theorem getElem?_set_cases (h : (l.set i b)[i']? = some a) :
    i' = i ∧ a = b ∨ i' ≠ i ∧ l[i']? = some a := by
  rw [List.getElem?_set] at h
  split at h
  next hi =>
    split at h
    · exact Or.inl ⟨hi.symm, (Option.some.inj h).symm⟩
    · cases h
  next hi => exact Or.inr ⟨Ne.symm hi, h⟩

theorem filterMap_set (h : l[i]? = some a) (b : α) :
    ((l.set i b).filterMap f).Perm ((f b).toList ++ (l.eraseIdx i).filterMap f) := by
  have hl : i < l.length := (List.getElem?_eq_some_iff.mp h).1
  have hp := (List.set_perm_cons_eraseIdx hl b).filterMap f
  rw [List.filterMap_cons] at hp
  cases hb : f b with
  | none => simpa [hb] using hp
  | some y => simpa [hb] using hp

theorem filterMap_split (h : l[i]? = some a) :
    (l.filterMap f).Perm ((f a).toList ++ (l.eraseIdx i).filterMap f) := by
  obtain ⟨hl, rfl⟩ := List.getElem?_eq_some_iff.mp h
  have hp := filterMap_set (f := f) h l[i]
  rwa [set_self h] at hp

/-- One thing is in one place. -/
theorem eq_of_filterMap (hn : (l.filterMap f).Nodup) (ha : l[i]? = some a) (hb : l[i']? = some b)
    (hy : f a = some y) (hy' : f b = some y) : i = i' := by
  rw [List.Nodup, List.pairwise_filterMap, List.pairwise_iff_getElem] at hn
  obtain ⟨hi, rfl⟩ := List.getElem?_eq_some_iff.mp ha
  obtain ⟨hi', rfl⟩ := List.getElem?_eq_some_iff.mp hb
  rcases Nat.lt_trichotomy i i' with h | h | h
  · exact absurd rfl (hn i i' hi hi' h y hy y hy')
  · exact h
  · exact absurd rfl (hn i' i hi' hi h y hy' y hy)

end FilterMap

/-! The account. -/

namespace Account

variable {ls : List Lot}

/-- Nothing is run on the pools; at most there is a new service, with empty tables. -/
theorem keep (a : Account w ls lost) (h : w.ran e = none) : Account (w.step e) ls lost := by
  obtain ⟨hms, hcs, hm, hc⟩ := a
  rcases fittings_step_of_not_ran h service with hf | ⟨hf, _, x, _, _, _, hf'⟩
  · obtain ⟨hm', hc'⟩ := slots_congr hf
    rw [← hm'] at hms hm
    rw [← hc'] at hcs hc
    exact ⟨hms, hcs, hm, hc⟩
  · obtain ⟨hm₀, hc₀⟩ := slots_of_no_fittings hf
    obtain ⟨hm₁, hc₁⟩ := slots_of_fittings hf'
    have none_of {α : Type} {l : List Nat} (h : (Slots.empty 0 : Slots α).Lists l) : l = [] := by
      rw [List.eq_nil_iff_forall_not_mem]
      intro i hi
      rw [h.mem, Slots.cell_empty] at hi
      cases hi
    rw [hm₀] at hm
    rw [hc₀] at hc
    constructor
    · rw [hm₁]
      exact Slots.isSound_empty _
    · rw [hc₁]
      exact Slots.isSound_empty _
    · rw [hm₁, none_of hm]
      exact Slots.lists_empty _
    · rw [hc₁, none_of hc]
      exact Slots.lists_empty _

theorem same (a : Account w ls lost) (h : w'.mutexSlots service = w.mutexSlots service ∧
    w'.condSlots service = w.condSlots service) (ls' : List Lot)
    (hm : (ls.filterMap Lot.mutex?).Perm (ls'.filterMap Lot.mutex?))
    (hc : (ls.filterMap Lot.cond?).Perm (ls'.filterMap Lot.cond?)) : Account w' ls' lost where
  mutexesSound := by
    rw [h.1]
    exact a.mutexesSound
  condsSound := by
    rw [h.2]
    exact a.condsSound
  mutexes := by
    rw [h.1]
    exact a.mutexes.perm hm
  conds := by
    rw [h.2]
    exact a.conds.perm (hc.append_right lost)

/-- A lot is exchanged for one with the same things in it. -/
theorem perm_set {β : Type} {f : Lot → Option β} {ls : List Lot} (hi : ls[i]? = some l) (l' : Lot)
    (h : f l' = f l) : (ls.filterMap f).Perm ((ls.set i l').filterMap f) := by
  refine (filterMap_split hi).trans ?_
  rw [← h]
  exact (filterMap_set hi l').symm

theorem perm_gain {β : Type} {f : Lot → Option β} {y : β} (hi : ls[i]? = some l) (l' : Lot)
    (h : f l = none) (h' : f l' = some y) : (y :: ls.filterMap f).Perm ((ls.set i l').filterMap f) := by
  have hs := filterMap_split (f := f) hi
  have hs' := filterMap_set (f := f) hi l'
  rw [h] at hs
  rw [h'] at hs'
  exact (hs.cons y).trans hs'.symm

theorem perm_lose {β : Type} {f : Lot → Option β} {y : β} (hi : ls[i]? = some l) (l' : Lot)
    (h : f l = some y) (h' : f l' = none) : (ls.filterMap f).Perm (y :: (ls.set i l').filterMap f) := by
  have hs := filterMap_split (f := f) hi
  have hs' := filterMap_set (f := f) hi l'
  rw [h] at hs
  rw [h'] at hs'
  exact hs.trans (hs'.symm.cons y)

/-- What is in hand is in a slot. -/
theorem isSome_mutex (a : Account w ls lost) (hi : ls[i]? = some l) (h : l.mutex? = some m) :
    ((w.mutexSlots service).cell? m).isSome = true :=
  (a.mutexes.mem m).mp (List.mem_filterMap.mpr ⟨l, List.mem_of_getElem? hi, h⟩)

theorem isSome_cond (a : Account w ls lost) (hi : ls[i]? = some l) (h : l.cond? = some c) :
    ((w.condSlots service).cell? c).isSome = true :=
  (a.conds.mem c).mp
    (List.mem_append_left _ (List.mem_filterMap.mpr ⟨l, List.mem_of_getElem? hi, h⟩))

theorem lt_of_isSome {α : Type} {f : Service → Slots α} {q : Slots α}
    (hq : q = match w.services[service]? with | some v => f v | none => .empty 0)
    (h : (q.cell? i).isSome = true) : service < w.services.length := by
  by_contra hs
  have hn : w.services[service]? = none := List.getElem?_eq_none (Nat.le_of_not_lt hs)
  rw [hq, hn, Slots.cell_empty] at h
  cases h

/-- The account goes along with what a worker runs. -/
theorem trade (a : Account w ls lost) (h : w.ran e = some j) (hi : ls[i]? = some l)
    (ht : Trade w j l l') : Account (w.step e) (ls.set i l') lost := by
  cases ht with
  | same j l hj =>
    have hs := slots_step_of_same (s := service) h (PoolInstr.onMutexes_of_not_writes hj _)
      (PoolInstr.onConds_of_not_writes hj _)
    exact a.same hs _ (perm_set hi _ rfl) (perm_set hi _ rfl)
  | condRefused name f hf =>
    have hs := slots_step_of_same (s := service) h rfl (by simp [PoolInstr.onConds, hf])
    exact a.same hs _ (perm_set hi _ rfl) (perm_set hi _ rfl)
  | mutexRefused c name f hf =>
    have hs := slots_step_of_same (s := service) h (by simp [PoolInstr.onMutexes, hf]) rfl
    exact a.same hs _ (perm_set hi _ rfl) (perm_set hi _ rfl)
  -- what is granted goes from the table to the lot, at the place of the worker that asked
  | condGiven name c q hq =>
    obtain ⟨hm, hc⟩ := slots_step_of_ran h (lt_of_condSlots hq)
    simp only [PoolInstr.onConds, if_true, hq] at hc
    constructor
    · rw [hm]
      exact a.mutexesSound
    · rw [hc]
      exact (a.condsSound.allocate hq).1
    · rw [hm]
      exact a.mutexes.perm (perm_set hi _ rfl)
    · rw [hc]
      have hp := perm_gain (f := Lot.cond?) hi (.half c) rfl rfl
      exact (a.conds.allocate hq).perm (hp.append_right lost)
  | mutexGiven c name m q hq =>
    obtain ⟨hm, hc⟩ := slots_step_of_ran h (lt_of_mutexSlots hq)
    simp only [PoolInstr.onMutexes, if_true, hq] at hm
    constructor
    · rw [hm]
      exact (a.mutexesSound.allocate hq).1
    · rw [hc]
      exact a.condsSound
    · rw [hm]
      exact (a.mutexes.allocate hq).perm (perm_gain hi _ rfl rfl)
    · rw [hc]
      have hp := perm_set (f := Lot.cond?) hi (.equipped c m) rfl
      exact a.conds.perm (hp.append_right lost)
  -- what is given back was in the lot, so its slot was in use and is vacant now
  | mutexFreed c m =>
    have hin := a.isSome_mutex hi rfl
    obtain ⟨hm, hc⟩ := slots_step_of_ran h (lt_of_isSome rfl hin)
    simp only [PoolInstr.onMutexes, if_true] at hm
    constructor
    · rw [hm]
      exact a.mutexesSound.free hin
    · rw [hc]
      exact a.condsSound
    · rw [hm]
      exact (a.mutexes.perm (perm_lose hi _ rfl rfl)).free
    · rw [hc]
      have hp := perm_set (f := Lot.cond?) hi (.spent c) rfl
      exact a.conds.perm (hp.append_right lost)
  | condFreed c =>
    have hin := a.isSome_cond hi rfl
    obtain ⟨hm, hc⟩ := slots_step_of_ran h (lt_of_isSome rfl hin)
    simp only [PoolInstr.onConds, if_true] at hc
    constructor
    · rw [hm]
      exact a.mutexesSound
    · rw [hc]
      exact a.condsSound.free hin
    · rw [hm]
      exact a.mutexes.perm (perm_set hi _ rfl)
    · rw [hc]
      have hp := perm_lose (f := Lot.cond?) hi (.gone false) rfl rfl
      exact (a.conds.perm (hp.append_right lost)).free

/-- What a worker gives up goes to the rest of what is lost. -/
theorem perm_back {ls : List Lot} (hi : ls[i]? = some l) (lost : List Nat) :
    (ls.filterMap Lot.cond? ++ lost).Perm
      ((ls.set i l.back).filterMap Lot.cond? ++ (lost ++ l.lost)) := by
  by_cases h : ∃ c, l = .stranded c
  · obtain ⟨c, rfl⟩ := h
    have hp := perm_lose (f := Lot.cond?) hi (.gone true) rfl rfl
    refine (hp.append_right lost).trans ?_
    rw [List.cons_append, Lot.lost, ← List.append_assoc]
    exact (List.perm_append_singleton c _).symm
  · have hlost : l.lost = [] := by
      cases l <;> first | rfl | exact absurd ⟨_, rfl⟩ h
    have hback : l.back.cond? = l.cond? := by
      cases l <;> first | rfl | exact absurd ⟨_, rfl⟩ h
    rw [hlost, List.append_nil]
    exact (perm_set hi _ hback).append_right lost

theorem back (a : Account w ls lost) (hi : ls[i]? = some l) :
    Account w (ls.set i l.back) (lost ++ l.lost) := by
  obtain ⟨hms, hcs, hm, hc⟩ := a
  refine ⟨hms, hcs, hm.perm (perm_set hi _ ?_), hc.perm (perm_back hi lost)⟩
  cases l <;> rfl

end Account

/-! One event, as all the workers see it. -/

theorem lotOf_rest (w : World) (i : Nat) (stage : Stage) : lotOf w i (stage, false) = stage.lot := rfl

theorem lotOf_busy (w : World) (i : Nat) (stage : Stage) : lotOf w i (stage, true) =
    stage.lotIn (w.doing (i + 1)) (w.outcomeOf (i + 1)) := rfl

namespace Desk

variable (a : Desk w ws lost)
include a

/-- Nothing is run on the pools, and nobody begins a call there. -/
theorem keep (h : w.ran e = none) (hd : ∀ t, (w.step e).doing t = w.doing t)
    (hb : ∀ i stage, ws[i]? = some (stage, true) → e.isBy (i + 1) = false) :
    lots (w.step e) ws = lots w ws ∧ Desk (w.step e) ws lost := by
  have hp := a.reach.pacing.pools_of_not_ran h
  have hout {i stage} (hi : ws[i]? = some (stage, true)) :
      (w.step e).outcomeOf (i + 1) = w.outcomeOf (i + 1) := by
    obtain ⟨base, hc⟩ := a.busy hi
    exact hc.outcome_step (hb i stage hi) fun _ => h
  have hl (i : Nat) (x : Stage × Bool) (hi : ws[i]? = some x) : lotOf (w.step e) i x = lotOf w i x := by
    obtain ⟨stage, b⟩ := x
    cases b with
    | false => rfl
    | true => rw [lotOf_busy, lotOf_busy, hd, hout hi]
  refine ⟨lots_congr hl, a.reach.step e, ?_, ?_, ?_, ?_, ?_⟩
  · intro t ht
    rw [hd]
    exact a.idle t ht
  · intro i stage hi
    obtain ⟨base, hc⟩ := a.busy hi
    exact ⟨base, hc.step (hb i stage hi)⟩
  · intro i stage hi
    rw [hl i _ hi, hd, hout hi, Lot.view_congr hp]
    exact a.course hi
  · intro i stage hi
    rw [Lot.view_congr hp]
    exact a.rest hi
  · rw [lots_congr hl]
    exact a.account.keep h

/-- Two workers have nothing in hand together. -/
theorem view_of_other {x x' : Stage × Bool} (hs : PoolRun w t (.pool j) rest w')
    (hi : ws[i]? = some x) (hi' : ws[i']? = some x') (hne : i' ≠ i)
    (hab : Course (i + 1) stage (some j) (w.outcomeOf (i + 1)) ((lotOf w i x).view w))
    (hx : lotOf w i x = stage.lotIn (some j) (w.outcomeOf (i + 1))) :
    (lotOf w i' x').view w' = (lotOf w i' x').view w := by
  rw [hx] at hab
  obtain ⟨hcond, hmutex, hcf, hmf⟩ := hab.about
  rw [← hx] at hcond hmutex hcf hmf
  have apart_cond {c} (h : (lotOf w i x).cond? = some c) (h' : (lotOf w i' x').cond? = some c) :
      False := by
    have hn := (List.nodup_append.mp a.account.conds.nodup).1
    exact hne (eq_of_filterMap hn (lots_at w hi') (lots_at w hi) h' h)
  have apart_mutex {m} (h : (lotOf w i x).mutex? = some m)
      (h' : (lotOf w i' x').mutex? = some m) : False :=
    hne (eq_of_filterMap a.account.mutexes.nodup (lots_at w hi') (lots_at w hi) h' h)
  -- were it on a thing of this lot, that would be in the lot of the other as well
  refine Lot.view_run hs a.reach.referring ?_ ?_
  · intro c hc
    refine ⟨fun hj => apart_cond (hcf c hj) hc, ?_⟩
    obtain ⟨y, hy⟩ := Option.isSome_iff_exists.mp (a.account.isSome_cond (lots_at w hi') hc)
    have hk : w.condAt service c = some y.value := by
      rw [condAt, hy]
      rfl
    refine ⟨y.value, hk, fun hj => ?_⟩
    obtain ⟨c', hc', hk'⟩ := hcond y.value hj
    obtain ⟨-, rfl⟩ := a.reach.condsApart service service c c' _ hk hk'
    exact apart_cond hc' hc
  · intro m hm
    refine ⟨fun hj => apart_mutex (hmf m hj) hm, ?_⟩
    obtain ⟨y, hy⟩ := Option.isSome_iff_exists.mp (a.account.isSome_mutex (lots_at w hi') hm)
    have hr : w.mutexAt service m = some y.value := by
      rw [mutexAt, hy]
      rfl
    refine ⟨y.value, hr, fun hj => ?_⟩
    obtain ⟨m', hm', hr'⟩ := hmutex y.value hj
    obtain ⟨-, rfl⟩ := a.reach.referring.unique hr hr'
    exact apart_mutex hm' hm

/-- Only a worker with a call under way runs anything on the pools. -/
theorem exists_of_doing (hd : w.doing t = some j) :
    ∃ i stage, t = i + 1 ∧ ws[i]? = some (stage, true) := by
  by_contra hn
  have hd' := a.idle t fun i stage ht hi => hn ⟨i, stage, ht, hi⟩
  rw [hd] at hd'
  cases hd'

/-- A worker runs something on the pools. -/
theorem run (h : w.ran e = some j) : ∃ i l l', (lots w ws)[i]? = some l ∧ Trade w j l l' ∧
    lots (w.step e) ws = (lots w ws).set i l' ∧ Desk (w.step e) ws lost := by
  obtain ⟨t, rest, rfl, hs⟩ := poolRun_of_ran h
  obtain ⟨hd, hd'⟩ := hs.doing_pool a.reach.pacing
  obtain ⟨i, stage, rfl, hi⟩ := a.exists_of_doing hd
  obtain ⟨base, hcall⟩ := a.busy hi
  have hout : (w.step (.advance (i + 1))).outcomeOf (i + 1) =
      (j.run (i + 1) w).1.outcomeOf (i + 1) := outcomeOf_of_ran hcall.lt h
  have hcourse := a.course hi
  have hlot : lotOf w i (stage, true) = stage.lotIn (some j) (w.outcomeOf (i + 1)) := by
    rw [lotOf_busy, hd]
  rw [hd, hlot] at hcourse
  obtain ⟨hcourse', htrade⟩ := hcourse.run hcall.lt a.reach.referring
  have hlot' : lotOf (w.step (.advance (i + 1))) i (stage, true) =
      stage.lotIn (firstPool (j.run (i + 1) w).2) ((j.run (i + 1) w).1.outcomeOf (i + 1)) := by
    rw [lotOf_busy, hd', hout]
  -- the others go on with what they do, and see what they saw
  have hother (i' : Nat) (x : Stage × Bool) (hne : i' ≠ i) (hi' : ws[i']? = some x) :
      lotOf (w.step (.advance (i + 1))) i' x = lotOf w i' x ∧
        (x.2 = true → (w.step (.advance (i + 1))).doing (i' + 1) = w.doing (i' + 1) ∧
          (w.step (.advance (i + 1))).outcomeOf (i' + 1) = w.outcomeOf (i' + 1)) := by
    obtain ⟨stage', b⟩ := x
    have ht : i' + 1 ≠ i + 1 := fun h => hne (Nat.succ.inj h)
    cases b with
    | false => exact ⟨rfl, fun h => by cases h⟩
    | true =>
      have hd₂ := hs.doing_of_ne ht
      have ho₂ : (w.step (.advance (i + 1))).outcomeOf (i' + 1) = w.outcomeOf (i' + 1) := by
        obtain ⟨base', hc'⟩ := a.busy hi'
        exact hc'.outcome_step rfl fun he => absurd (Event.advance.inj he).symm ht
      exact ⟨by rw [lotOf_busy, lotOf_busy, hd₂, ho₂], fun _ => ⟨hd₂, ho₂⟩⟩
  have hview {i' : Nat} {x : Stage × Bool} (hne : i' ≠ i) (hi' : ws[i']? = some x) :
      (lotOf w i' x).view (w.step (.advance (i + 1))) = (lotOf w i' x).view w :=
    a.view_of_other hs hi hi' hne (hlot ▸ hcourse) hlot
  have hlots : lots (w.step (.advance (i + 1))) ws = (lots w ws).set i
      (stage.lotIn (firstPool (j.run (i + 1) w).2) ((j.run (i + 1) w).1.outcomeOf (i + 1))) := by
    have hset := lots_set (w.step (.advance (i + 1))) hi (stage, true)
      fun i' x hne hi' => (hother i' x hne hi').1
    rwa [set_self hi, hlot'] at hset
  have hat := lots_at w hi
  rw [hlot] at hat
  refine ⟨i, _, _, hat, htrade, hlots, a.reach.step _, ?idle, ?busy, ?course, ?rest, ?account⟩
  case idle =>
    intro t ht
    by_cases hti : t = i + 1
    · exact absurd hi (ht i stage hti)
    · rw [hs.doing_of_ne hti]
      exact a.idle t ht
  case busy =>
    intro i' stage' hi'
    obtain ⟨base', hc'⟩ := a.busy hi'
    exact ⟨base', hc'.step rfl⟩
  case course =>
    intro i' stage' hi'
    by_cases hne : i' = i
    · subst hne
      obtain ⟨rfl, -⟩ := Prod.mk.inj (Option.some.inj (hi.symm.trans hi'))
      rw [hlot', hd', hout, Lot.view_congr hs.pools]
      exact hcourse'
    · obtain ⟨hl, hdo⟩ := hother i' _ hne hi'
      obtain ⟨hd₂, ho₂⟩ := hdo rfl
      rw [hl, hd₂, ho₂, hview hne hi']
      exact a.course hi'
  case rest =>
    intro i' stage' hi'
    have hne : i' ≠ i := by
      rintro rfl
      rw [hi] at hi'
      cases hi'
    have hv := hview hne hi'
    rw [lotOf_rest] at hv
    rw [hv]
    exact a.rest hi'
  case account =>
    rw [hlots]
    exact a.account.trade h hat htrade

/-- A worker begins the call of its stage. -/
theorem begin (hi : ws[i]? = some (stage, false)) (hc : stage.call? p service i = some call)
    (hu : w.inUser (i + 1) = true) :
    lots (w.step (.invoke (i + 1) call)) (ws.set i (stage, true)) = lots w ws ∧
      Desk (w.step (.invoke (i + 1) call)) (ws.set i (stage, true)) lost := by
  obtain ⟨hmute, hr⟩ := call_mute (w := w) (t := i + 1) hc
  obtain ⟨hcode, hout⟩ := invoke_admitted hu hr
  obtain ⟨base, hbase⟩ := head_user hu
  have hran : w.ran (.invoke (i + 1) call) = none := rfl
  have hp := a.reach.pacing.pools_of_not_ran hran
  have hd := doing_of_admitted a.reach hu hr
  have hd₂ {t} (ht : t ≠ i + 1) : (w.step (.invoke (i + 1) call)).doing t = w.doing t := by
    rcases a.reach.pacing.doing_of_not_ran hran t with h | ⟨-, c, he, -⟩
    · exact h
    · exact absurd (Event.invoke.inj he).1.symm ht
  have hby {t} (ht : t ≠ i + 1) : (Event.invoke (i + 1) call).isBy t = false := by
    simpa [Event.isBy] using Ne.symm ht
  -- a call of one worker changes neither what the others do nor what they were answered
  have hout₂ {i' stage'} (hne : i' ≠ i) (hi' : ws[i']? = some (stage', true)) :
      (w.step (.invoke (i + 1) call)).outcomeOf (i' + 1) = w.outcomeOf (i' + 1) := by
    obtain ⟨base', hc'⟩ := a.busy hi'
    exact hc'.outcome_step (hby fun h => hne (Nat.succ.inj h)) fun _ => hran
  obtain ⟨hcourse, hlot⟩ := (a.rest hi).begin (w := w) hc
  have hlot' : lotOf (w.step (.invoke (i + 1) call)) i (stage, true) = stage.lot := by
    rw [lotOf_busy, hd, hout, hlot]
  -- a worker that begins a call has in hand what it had at rest
  have hlots : lots (w.step (.invoke (i + 1) call)) (ws.set i (stage, true)) = lots w ws := by
    have hset := lots_set (w := w) (w.step (.invoke (i + 1) call)) hi (stage, true)
      fun i' x hne hi' => by
        obtain ⟨stage', b⟩ := x
        cases b with
        | false => rfl
        | true => rw [lotOf_busy, lotOf_busy, hd₂ fun h => hne (Nat.succ.inj h), hout₂ hne hi']
    rw [hset, hlot']
    exact set_self (lots_at w hi)
  have hl : i < ws.length := (List.getElem?_eq_some_iff.mp hi).1
  refine ⟨hlots, a.reach.step _, ?idle, ?busy, ?course, ?rest, ?account⟩
  case idle =>
    intro t ht
    have hti : t ≠ i + 1 := fun hti => ht i stage hti (List.getElem?_set_self hl)
    rw [hd₂ hti]
    refine a.idle t fun i' stage' hi' hi₀ => ht i' stage' hi' ?_
    have hne : i ≠ i' := by
      rintro rfl
      exact hti hi'
    exact (List.getElem?_set_ne hne).trans hi₀
  case busy =>
    intro i' stage' hi'
    rcases getElem?_set_cases hi' with ⟨rfl, -⟩ | ⟨hne, hi'⟩
    · exact ⟨base, call.code w (i' + 1), hcode.trans (by rw [hbase]), hmute⟩
    · obtain ⟨base', hc'⟩ := a.busy hi'
      exact ⟨base', hc'.step (hby fun h => hne (Nat.succ.inj h))⟩
  case course =>
    intro i' stage' hi'
    rcases getElem?_set_cases hi' with ⟨rfl, hx⟩ | ⟨hne, hi'⟩
    · obtain ⟨rfl, -⟩ := Prod.mk.inj hx
      rw [hlot', hd, hout, Lot.view_congr hp]
      exact hcourse
    · rw [lotOf_busy, hd₂ fun h => hne (Nat.succ.inj h), hout₂ hne hi', Lot.view_congr hp,
        ← lotOf_busy]
      exact a.course hi'
  case rest =>
    intro i' stage' hi'
    rcases getElem?_set_cases hi' with ⟨-, hx⟩ | ⟨-, hi'⟩
    · cases hx
    · rw [Lot.view_congr hp]
      exact a.rest hi'
  case account =>
    rw [hlots]
    exact a.account.keep hran

/-- A worker comes back from its call. -/
theorem back (p : Plan) (hi : ws[i]? = some (stage, true)) (hu : w.inUser (i + 1) = true) :
    lots w (ws.set i (stage.next p (w.outcomeOf (i + 1)), false)) =
      (lots w ws).set i (lotOf w i (stage, true)).back ∧
    Desk w (ws.set i (stage.next p (w.outcomeOf (i + 1)), false))
      (lost ++ (lotOf w i (stage, true)).lost) := by
  obtain ⟨base, hbase⟩ := head_user hu
  have hd := a.reach.pacing.doing_of_user hbase
  have hcourse := a.course hi
  rw [lotOf_busy, hd] at hcourse
  obtain ⟨hlot, hrest⟩ := hcourse.back (p := p)
  -- what the lot loses on the way back, nobody has in hand any more
  have hlots : lots w (ws.set i (stage.next p (w.outcomeOf (i + 1)), false)) =
      (lots w ws).set i (lotOf w i (stage, true)).back := by
    rw [lots_set _ hi _ fun _ _ _ _ => rfl, lotOf_rest, hlot, ← hd, ← lotOf_busy]
  refine ⟨hlots, a.reach, ?idle, ?busy, ?course, ?rest, ?account⟩
  case idle =>
    intro t ht
    by_cases hti : t = i + 1
    · rw [hti]
      exact hd
    · refine a.idle t fun i' stage' hi' hi₀ => ht i' stage' hi' ?_
      have hne : i ≠ i' := by
        rintro rfl
        exact hti hi'
      exact (List.getElem?_set_ne hne).trans hi₀
  case busy =>
    intro i' stage' hi'
    rcases getElem?_set_cases hi' with ⟨-, hx⟩ | ⟨-, hi'⟩
    · cases hx
    · exact a.busy hi'
  case course =>
    intro i' stage' hi'
    rcases getElem?_set_cases hi' with ⟨-, hx⟩ | ⟨-, hi'⟩
    · cases hx
    · exact a.course hi'
  case rest =>
    intro i' stage' hi'
    rcases getElem?_set_cases hi' with ⟨rfl, hx⟩ | ⟨-, hi'⟩
    · obtain ⟨rfl, -⟩ := Prod.mk.inj hx
      exact hrest
    · exact a.rest hi'
  case account =>
    rw [hlots]
    exact a.account.back (lots_at w hi)

/-- A worker is hired. -/
theorem hire : lots w (ws ++ [(.createCond, false)]) = lots w ws ++ [.poor] ∧
    Desk w (ws ++ [(.createCond, false)]) lost := by
  have hlots : lots w (ws ++ [(.createCond, false)]) = lots w ws ++ [.poor] := List.mapIdx_concat
  refine ⟨hlots, a.reach, ?idle, ?busy, ?course, ?rest, ?account⟩
  case idle =>
    intro t ht
    refine a.idle t fun i stage hti hi => ht i stage hti ?_
    exact (List.getElem?_append_left (List.getElem?_eq_some_iff.mp hi).1).trans hi
  case busy =>
    intro i stage hi
    rcases getElem_concat hi with hi | h
    · exact a.busy hi
    · cases h
  case course =>
    intro i stage hi
    rcases getElem_concat hi with hi | h
    · exact a.course hi
    · cases h
  case rest =>
    intro i stage hi
    rcases getElem_concat hi with hi | h
    · exact a.rest hi
    · obtain ⟨rfl, -⟩ := Prod.mk.inj h
      rw [Lot.view_bare rfl rfl]
      exact .createCond
  case account =>
    obtain ⟨hms, hcs, hm, hc⟩ := a.account
    rw [hlots]
    -- the poor lot has nothing in it to account for
    have hpoor (f : Lot → Option Nat) (h : f .poor = none) :
        (lots w ws ++ [Lot.poor]).filterMap f = (lots w ws).filterMap f := by
      rw [List.filterMap_append, List.filterMap_cons, h, List.filterMap_nil, List.append_nil]
    refine ⟨hms, hcs, ?_, ?_⟩
    · rw [hpoor _ rfl]
      exact hm
    · rw [hpoor _ rfl]
      exact hc

end Desk

theorem desk_initial : Desk (World.initial 1) [] [] where
  reach := ⟨[], rfl⟩
  idle t _ := doing_initial 1 t
  busy h := by cases h
  course h := by cases h
  rest h := by cases h
  account := ⟨Slots.isSound_empty 0, Slots.isSound_empty 0, Slots.lists_empty 0, Slots.lists_empty 0⟩

end Standstill.Stress
