import Standstill.Proofs.PoolSteps

/-!
References to pool objects. They come from the slots only, a slot gets one for a new object, and
nothing takes an object away; so each leads to an object, and no two slots have the same one.
-/
namespace Standstill

open World

namespace PoolInstr

/-- The mutex that the instruction is about. -/
def mutex? : PoolInstr → Option MutexRef
  | .tryTake m | .take _ m | .retake _ m _ | .giveUp m | .mutexIdle _ _ m
  | .waitOwner _ _ m _ | .waitClock _ _ m _ => some m
  | .waitRegister x | .waitGiveUp x _ | .waitCheck x _ | .waitRetire x => some x.mutex
  | _ => none

/-- The condition that the instruction is about. -/
def cond? : PoolInstr → Option CondRef
  | .signal c | .broadcast c | .condIdle _ _ c | .waitOwner _ c _ _ | .waitClock _ c _ _
  | .mutexFind _ _ (.wait c _) => some c
  | .waitRegister x | .waitGiveUp x _ | .waitCheck x _ | .waitRetire x => some x.cond
  | _ => none

end PoolInstr

def Instr.mutex? : Instr → Option MutexRef
  | .pool i => i.mutex?
  | _ => none

def Instr.cond? : Instr → Option CondRef
  | .pool i => i.cond?
  | _ => none

variable {n : Nat} {w w' : World} {t t' : ThreadId} {s s' : ServiceId} {i j : Instr}
  {code rest : List Instr} {e : Event} {m : MutexRef} {c : CondRef} {k : Nat}

/-! References that code has come from those that it had before, or from a slot. -/

section Code

attribute [local simp] Instr.mutex? Instr.cond? PoolInstr.mutex? PoolInstr.cond? takeCode locked
  guarded sleeping Slots.get_eq_ok

theorem SyncInstr.run_refs (i : SyncInstr) :
    ∀ j ∈ (i.run t w).2, j.mutex? = none ∧ j.cond? = none := by
  have h : (i.run t w).2.all (fun j => j.mutex?.isNone && j.cond?.isNone) = true := by
    cases i <;> rfl
  simpa using h

theorem PoolInstr.run_mutex (i : PoolInstr) : ∀ j ∈ (i.run t w).2, ∀ m, j.mutex? = some m →
    i.mutex? = some m ∨ ∃ s k, w.mutexAt s k = some m := by
  intro j hj m hm
  cases j with
  | pool k =>
    cases i.leads_of_run hj with
    | take s i m' h | takeRaw s i m' h | tryTake s i m' h | giveUp s i m' h
    | waitOwner s i m' c micros h | mutexIdle s i m' h =>
      obtain rfl : m' = m := Option.some.inj hm
      exact Or.inr ⟨s, i, Slots.get_eq_ok.mp h⟩
    | _ => first | exact Or.inl hm | cases hm
  | _ => cases hm

theorem PoolInstr.run_cond (i : PoolInstr) : ∀ j ∈ (i.run t w).2, ∀ c, j.cond? = some c →
    i.cond? = some c ∨ ∃ s k, w.condAt s k = some c := by
  intro j hj c hc
  cases j with
  | pool k =>
    cases i.leads_of_run hj with
    | signal s i c' h | broadcast s i c' h | mutexFind s i c' k micros h | condIdle s i c' h =>
      obtain rfl : c' = c := Option.some.inj hc
      exact Or.inr ⟨s, i, Slots.get_eq_ok.mp h⟩
    | _ => first | exact Or.inl hc | cases hc
  | _ => cases hc

theorem Call.code_refs (c : Call) : ∀ j ∈ c.code w t, j.mutex? = none ∧ j.cond? = none := by
  intro j hj
  have ho := c.opening_of_code hj
  cases j with
  | pool k =>
    cases k with
    | mutexFind s i use => cases use <;> first | exact ⟨rfl, rfl⟩ | cases ho
    | _ => first | exact ⟨rfl, rfl⟩ | cases ho
  | _ => exact ⟨rfl, rfl⟩

end Code

/-! Slots. -/

section Values

variable {α : Type} {p p' : Slots α} {name : String} {v : α} {x : Nat}

/-- A slot that is given a value was empty, and the others stay as they are. -/
theorem value_allocate (h : p.allocate name v = .ok (x, p')) (k : Nat) :
    (p'.cell? k).map (·.value) = (p.cell? k).map (·.value) ∨
      k = x ∧ (p.cell? k).map (·.value) = none ∧ (p'.cell? k).map (·.value) = some v := by
  obtain ⟨hn, hv, ho⟩ := Slots.cell_allocate h
  by_cases hk : k = x
  · subst hk
    exact Or.inr ⟨rfl, by rw [hn]; rfl, hv⟩
  · exact Or.inl (by rw [ho k hk])

theorem value_free (p : Slots α) (i k : Nat) :
    ((p.free i).cell? k).map (·.value) = (p.cell? k).map (·.value) ∨
      k = i ∧ ((p.free i).cell? k).map (·.value) = none := by
  rw [Slots.cell_free]
  by_cases hk : k = i
  · exact Or.inr ⟨hk, by rw [if_pos hk]; rfl⟩
  · exact Or.inl (by rw [if_neg hk])

end Values

theorem mutexAt_setMutexSlots (p : Slots MutexRef) :
    (w.setMutexSlots s p).mutexAt s' k = if s' = s ∧ s < w.services.length then
      (p.cell? k).map (·.value) else w.mutexAt s' k := by
  simp only [mutexAt, mutexSlots, setMutexSlots, modService, List.getElem?_modify]
  by_cases hs : s = s'
  · subst hs
    by_cases hl : s < w.services.length
    · simp [hl]
    · simp [hl]
  · simp [hs, Ne.symm hs]

theorem condAt_setCondSlots (p : Slots CondRef) :
    (w.setCondSlots s p).condAt s' k = if s' = s ∧ s < w.services.length then
      (p.cell? k).map (·.value) else w.condAt s' k := by
  simp only [condAt, condSlots, setCondSlots, modService, List.getElem?_modify]
  by_cases hs : s = s'
  · subst hs
    by_cases hl : s < w.services.length
    · simp [hl]
    · simp [hl]
  · simp [hs, Ne.symm hs]

section Slots

@[local simp] theorem mutexAt_count (x : Tally) : (w.count s x).mutexAt = w.mutexAt :=
  mutexAt_congr (pools_count x)

@[local simp] theorem condAt_count (x : Tally) : (w.count s x).condAt = w.condAt :=
  condAt_congr (pools_count x)

@[local simp] theorem mutexAt_setCondSlots (p : Slots CondRef) :
    (w.setCondSlots s p).mutexAt = w.mutexAt := by
  funext s' k
  simp only [mutexAt, mutexSlots, setCondSlots, modService, List.getElem?_modify]
  by_cases hs : s = s' <;> cases w.services[s']? <;> simp [hs]

@[local simp] theorem condAt_setMutexSlots (p : Slots MutexRef) :
    (w.setMutexSlots s p).condAt = w.condAt := by
  funext s' k
  simp only [condAt, condSlots, setMutexSlots, modService, List.getElem?_modify]
  by_cases hs : s = s' <;> cases w.services[s']? <;> simp [hs]

/-- A slot is given a new mutex or given back, or stays as it is. -/
theorem PoolInstr.mutexAt_run (i : PoolInstr) (s : ServiceId) (k : Nat) :
    (i.run t w).1.mutexAt s k = w.mutexAt s k ∨
    (∃ name p, i = .mutexAllot s name ∧
      (w.mutexSlots s).allocate name w.mutexes.length = .ok (k, p) ∧ w.mutexAt s k = none ∧
      (i.run t w).1.mutexAt s k = some w.mutexes.length) ∨
    i = .mutexFree s k ∧ (i.run t w).1.mutexAt s k = none := by
  cases i with
  | mutexAllot s' name =>
    simp only [PoolInstr.run]
    split
    · exact Or.inl rfl
    next k' p hp =>
      -- the answer and the new lock are in no table
      have hat (p' : Slots MutexRef) (ms : List PoolLock) :
          ((({ w with mutexes := ms }).setMutexSlots s' p').answer t (.number k')).mutexAt s k =
            (w.setMutexSlots s' p').mutexAt s k := rfl
      rw [hat, mutexAt_setMutexSlots]
      by_cases hs : s = s' ∧ s' < w.services.length
      · rw [if_pos hs]
        obtain ⟨rfl, _⟩ := hs
        refine (value_allocate hp k).imp_right ?_
        rintro ⟨rfl, hn, hv⟩
        exact Or.inl ⟨name, p, rfl, hp, hn, hv⟩
      · rw [if_neg hs]
        exact Or.inl rfl
  | mutexFree s' k' =>
    simp only [PoolInstr.run, mutexAt_setMutexSlots]
    by_cases hs : s = s' ∧ s' < w.services.length
    · rw [if_pos hs]
      obtain ⟨rfl, _⟩ := hs
      refine (value_free (w.mutexSlots s) k' k).imp_right ?_
      rintro ⟨rfl, hn⟩
      exact Or.inr ⟨rfl, hn⟩
    · rw [if_neg hs]
      exact Or.inl rfl
  | retake s' m since =>
    left
    simp only [PoolInstr.run]
    split
    · rfl
    · exact congrFun₂ (mutexAt_count _) s k
  | condAllot s' name =>
    left
    simp only [PoolInstr.run]
    split
    · rfl
    · exact congrFun₂ (mutexAt_setCondSlots _) s k
  | condFree s' k' => exact Or.inl (congrFun₂ (mutexAt_setCondSlots _) s k)
  | _ =>
    left
    simp only [PoolInstr.run]
    repeat' split
    all_goals rfl

/-- A slot is given a new condition or given back, or stays as it is. -/
theorem PoolInstr.condAt_run (i : PoolInstr) (s : ServiceId) (k : Nat) :
    (i.run t w).1.condAt s k = w.condAt s k ∨
    (∃ name p, i = .condAllot s name ∧
      (w.condSlots s).allocate name w.conds.length = .ok (k, p) ∧ w.condAt s k = none ∧
      (i.run t w).1.condAt s k = some w.conds.length) ∨
    i = .condFree s k ∧ (i.run t w).1.condAt s k = none := by
  cases i with
  | condAllot s' name =>
    simp only [PoolInstr.run]
    split
    · exact Or.inl rfl
    next k' p hp =>
      have hat (p' : Slots CondRef) (cs : List PoolCondition) :
          ((({ w with conds := cs }).setCondSlots s' p').answer t (.number k')).condAt s k =
            (w.setCondSlots s' p').condAt s k := rfl
      rw [hat, condAt_setCondSlots]
      by_cases hs : s = s' ∧ s' < w.services.length
      · rw [if_pos hs]
        obtain ⟨rfl, _⟩ := hs
        refine (value_allocate hp k).imp_right ?_
        rintro ⟨rfl, hn, hv⟩
        exact Or.inl ⟨name, p, rfl, hp, hn, hv⟩
      · rw [if_neg hs]
        exact Or.inl rfl
  -- the slot is emptied only if the instruction names this table and this place
  | condFree s' k' =>
    simp only [PoolInstr.run, condAt_setCondSlots]
    by_cases hs : s = s' ∧ s' < w.services.length
    · rw [if_pos hs]
      obtain ⟨rfl, _⟩ := hs
      refine (value_free (w.condSlots s) k' k).imp_right ?_
      rintro ⟨rfl, hn⟩
      exact Or.inr ⟨rfl, hn⟩
    · rw [if_neg hs]
      exact Or.inl rfl
  | retake s' m since =>
    left
    simp only [PoolInstr.run]
    split
    · rfl
    · exact congrFun₂ (condAt_count _) s k
  | mutexAllot s' name =>
    left
    simp only [PoolInstr.run]
    split
    · rfl
    · exact congrFun₂ (condAt_setMutexSlots _) s k
  | mutexFree s' k' => exact Or.inl (congrFun₂ (condAt_setMutexSlots _) s k)
  | _ =>
    left
    simp only [PoolInstr.run]
    repeat' split
    all_goals rfl

end Slots

/-- No object is ever taken away. -/
theorem PoolInstr.lengths_run (i : PoolInstr) :
    w.mutexes.length ≤ (i.run t w).1.mutexes.length ∧
      w.conds.length ≤ (i.run t w).1.conds.length := by
  cases i <;> simp only [PoolInstr.run] <;> repeat' split
  all_goals simp [fail, say, answer, setMutexSlots, setCondSlots, modMutex, modCond, modThread,
    modService, World.count]

/-- Every reference leads to an object, and no two slots have the same one. -/
structure Referring (w : World) : Prop where
  mutexCode : ∀ {t j m}, j ∈ w.poolCode t → j.mutex? = some m → m < w.mutexes.length
  condCode : ∀ {t j c}, j ∈ w.poolCode t → j.cond? = some c → c < w.conds.length
  mutexSlot : ∀ {s k m}, w.mutexAt s k = some m → m < w.mutexes.length
  condSlot : ∀ {s k c}, w.condAt s k = some c → c < w.conds.length
  unique : ∀ {s s' k k' m}, w.mutexAt s k = some m → w.mutexAt s' k' = some m → s = s' ∧ k = k'

theorem referring_initial (n : Nat) : Referring (World.initial n) := by
  constructor
  case mutexCode | condCode =>
    intro t j m hj
    rw [poolCode_initial] at hj
    cases hj
  all_goals
    intros
    rename_i h
    cases h

/-- New code that refers to nothing new changes nothing, as long as the pools stay as they are. -/
theorem Referring.same (r : Referring w) (hp : w'.pools = w.pools)
    (code : ∀ t j, j ∈ w'.poolCode t → j ∈ w.poolCode t ∨ j.mutex? = none ∧ j.cond? = none) :
    Referring w' := by
  have hm : w'.mutexes = w.mutexes := congrArg Prod.fst hp
  have hc : w'.conds = w.conds := congrArg (·.2.1) hp
  have hma := mutexAt_congr hp
  have hca := condAt_congr hp
  constructor
  case mutexCode =>
    intro t j m hj hr
    rcases code t j hj with hj | ⟨hn, _⟩
    · exact hm ▸ r.mutexCode hj hr
    · rw [hn] at hr
      cases hr
  case condCode =>
    intro t j c hj hr
    rcases code t j hj with hj | ⟨_, hn⟩
    · exact hc ▸ r.condCode hj hr
    · rw [hn] at hr
      cases hr
  case mutexSlot => exact fun hs => hm ▸ r.mutexSlot (hma ▸ hs)
  case condSlot => exact fun hs => hc ▸ r.condSlot (hca ▸ hs)
  case unique => exact fun hs hs' => r.unique (hma ▸ hs) (hma ▸ hs')

theorem Referring.idle (r : Referring w) (h : PoolIdle w e w') : Referring w' := by
  refine r.same h.pools fun t j hj => ?_
  rcases h.code t with he | ⟨c, _, _, _, he⟩ <;> rw [he] at hj
  · exact Or.inl hj
  · exact Or.inr (c.code_refs j (List.mem_filter.mp hj).1)

/-! What is in the slots after one instruction. -/

section Slots

variable (r : Referring w) (i : PoolInstr)
include r

theorem Referring.mutexSlot_run (hs : (i.run t w).1.mutexAt s k = some m) :
    m < (i.run t w).1.mutexes.length := by
  rcases i.mutexAt_run (w := w) (t := t) s k with he | ⟨name, p, rfl, hp, _, he⟩ | ⟨_, he⟩ <;> rw [he] at hs
  · exact Nat.lt_of_lt_of_le (r.mutexSlot hs) i.lengths_run.1
  · obtain rfl := Option.some.inj hs
    simp [PoolInstr.run, hp, answer, say, modThread, setMutexSlots, modService]
  · cases hs

theorem Referring.condSlot_run (hs : (i.run t w).1.condAt s k = some c) :
    c < (i.run t w).1.conds.length := by
  rcases i.condAt_run (w := w) (t := t) s k with he | ⟨name, p, rfl, hp, _, he⟩ | ⟨_, he⟩ <;> rw [he] at hs
  · exact Nat.lt_of_lt_of_le (r.condSlot hs) i.lengths_run.2
  · obtain rfl := Option.some.inj hs
    simp [PoolInstr.run, hp, answer, say, modThread, setCondSlots, modService]
  · cases hs

/-- A new mutex is in no slot yet, so that it comes to be in one slot only. -/
theorem Referring.unique_run (hs : (i.run t w).1.mutexAt s k = some m)
    (hs' : (i.run t w).1.mutexAt s' k' = some m) : s = s' ∧ k = k' := by
  rcases i.mutexAt_run (w := w) (t := t) s k with he | ⟨name, p, rfl, hp, _, he⟩ | ⟨_, he⟩ <;> rw [he] at hs
  · rcases i.mutexAt_run (w := w) (t := t) s' k' with he' | ⟨_, _, _, _, _, he'⟩ | ⟨_, he'⟩ <;> rw [he'] at hs'
    · exact r.unique hs hs'
    · have hlt := r.mutexSlot hs
      obtain rfl := Option.some.inj hs'
      exact absurd hlt (Nat.lt_irrefl _)
    · cases hs'
  · obtain rfl := Option.some.inj hs
    -- the other slot has got the new mutex by the same call, so that it is the same slot
    rcases PoolInstr.mutexAt_run (w := w) (t := t) (.mutexAllot s name) s' k' with
      he' | ⟨_, _, hi, hp', _, _⟩ | ⟨hi, _⟩
    · rw [he'] at hs'
      exact absurd (r.mutexSlot hs') (Nat.lt_irrefl _)
    · obtain ⟨rfl, rfl⟩ := PoolInstr.mutexAllot.inj hi
      rw [hp] at hp'
      exact ⟨rfl, (Prod.mk.inj (Except.ok.inj hp')).1⟩
    · cases hi
  · cases hs

end Slots

theorem Referring.run (r : Referring w) (h : PoolRun w t i rest w') : Referring w' := by
  rcases h.cases with ⟨j₀, rfl, hs⟩ | ⟨j₀, rfl, _⟩
  · refine r.same hs fun t' j hj => ?_
    exact (h.mem_poolCode hj).imp_right fun hj => j₀.run_refs j hj.2
  have hm : w'.mutexes = (j₀.run t w).1.mutexes := congrArg Prod.fst h.pools
  have hc : w'.conds = (j₀.run t w).1.conds := congrArg (·.2.1) h.pools
  have hma : w'.mutexAt = (j₀.run t w).1.mutexAt := mutexAt_congr h.pools
  have hca : w'.condAt = (j₀.run t w).1.condAt := condAt_congr h.pools
  obtain ⟨hml, hcl⟩ := j₀.lengths_run (w := w) (t := t)
  have hhead : Instr.pool j₀ ∈ w.poolCode t := h.before ▸ List.mem_cons_self
  constructor
  case mutexCode =>
    intro t' j m hj hr
    rw [hm]
    apply Nat.lt_of_lt_of_le _ hml
    rcases h.mem_poolCode hj with hj | ⟨rfl, hj⟩
    · exact r.mutexCode hj hr
    · rcases j₀.run_mutex j hj m hr with he | ⟨s, k, he⟩
      · exact r.mutexCode hhead he
      · exact r.mutexSlot he
  case condCode =>
    intro t' j c hj hr
    rw [hc]
    apply Nat.lt_of_lt_of_le _ hcl
    rcases h.mem_poolCode hj with hj | ⟨rfl, hj⟩
    · exact r.condCode hj hr
    · rcases j₀.run_cond j hj c hr with he | ⟨s, k, he⟩
      · exact r.condCode hhead he
      · exact r.condSlot he
  case mutexSlot => exact fun hs => hm ▸ r.mutexSlot_run j₀ (hma ▸ hs)
  case condSlot => exact fun hs => hc ▸ r.condSlot_run j₀ (hca ▸ hs)
  case unique => exact fun hs hs' => r.unique_run j₀ (hma ▸ hs) (hma ▸ hs')

theorem Reachable.referring (h : Reachable n w) : Referring w := by
  refine h.induct (referring_initial n) fun w e hr r => ?_
  rcases hr.pacing.step_pools e with ⟨t, i, rest, _, hs⟩ | hs
  · exact r.run hs
  · exact r.idle hs

end Standstill
