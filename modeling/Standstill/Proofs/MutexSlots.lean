import Standstill.Proofs.CallAnswer

/-!
A mutex in its slot. Whoever gives a slot back looks at its mutex and frees the slot under one hold
of the table, so nobody looks the mutex up in between, and a mutex that is owned stays where it is.
-/
namespace Standstill

open World

variable {n : Nat} {w w' : World} {t t' : ThreadId} {s : ServiceId} {i : Nat} {j : PoolInstr}
  {ins : Instr} {rest : List Instr} {e : Event} {m : MutexRef}

namespace PoolInstr

/-- The instruction belongs to a call that is giving slot `i` back. -/
def disposes (s : ServiceId) (i : Nat) : PoolInstr → Bool
  | .mutexIdle s' i' _ | .mutexFree s' i' => s' == s && i' == i
  | _ => false

theorem disposes_idle (s : ServiceId) (i : Nat) (m : MutexRef) :
    (PoolInstr.mutexIdle s i m).disposes s i = true := by
  simp [disposes]

theorem disposes_free (s : ServiceId) (i : Nat) :
    (PoolInstr.mutexFree s i).disposes s i = true := by
  simp [disposes]

/-- The instruction looks at the slots of the mutexes or changes them. -/
def isTabled (s : ServiceId) : PoolInstr → Bool
  | .mutexAllot s' _ | .mutexFind s' _ _ | .mutexDispose s' _ | .mutexFree s' _ => s' == s
  | _ => false

theorem closes_of_isTabled (h : j.isTabled s = true) :
    .lock (.mutexTable s) ∈ (Instr.pool j).closes := by
  cases j <;> simp_all [isTabled, Instr.closes, PoolInstr.closes]

theorem idle_next (h : firstPool (j.run t w).2 = some (.mutexIdle s i m)) :
    j = .mutexDispose s i ∧ w.mutexAt s i = some m ∧
      (j.run t w).2.filter Instr.isPooled =
        [.sync (.acquire (.mutexState m)), .pool (.mutexIdle s i m)] := by
  cases leads_of_next h with
  | mutexIdle s i m hm =>
    refine ⟨rfl, Slots.get_eq_ok.mp hm, ?_⟩
    simp only [PoolInstr.run, hm]
    rfl

theorem free_next (h : firstPool (j.run t w).2 = some (.mutexFree s i)) :
    ∃ m, j = .mutexIdle s i m ∧ (w.mutex m).owner = none ∧
      (j.run t w).2.filter Instr.isPooled =
        [.sync (.release (.mutexState m)), .pool (.mutexFree s i)] := by
  cases leads_of_next h with
  | mutexFree s i m hm =>
    refine ⟨m, rfl, PoolLock.isTaken_eq_false.mp hm, ?_⟩
    simp only [PoolInstr.run, hm]
    rfl

end PoolInstr

/-- What a thread that is giving a slot back has still to do. -/
structure Disposing (w : World) : Prop where
  idle : ∀ {t s i m}, w.doing t = some (.mutexIdle s i m) → w.mutexAt s i = some m ∧
    (w.poolCode t = [.sync (.acquire (.mutexState m)), .pool (.mutexIdle s i m),
        .sync (.release (.mutexTable s))] ∨
      w.poolCode t = [.pool (.mutexIdle s i m), .sync (.release (.mutexTable s))])
  free : ∀ {t s i}, w.doing t = some (.mutexFree s i) →
    (∃ m, w.poolCode t = [.sync (.release (.mutexState m)), .pool (.mutexFree s i),
        .sync (.release (.mutexTable s))]) ∨
      w.poolCode t = [.pool (.mutexFree s i), .sync (.release (.mutexTable s))]

theorem Disposing.held (d : Disposing w) (k : Keeping w) (h : w.doing t = some j)
    (hj : j.disposes s i = true) : (.mutexTable s, t) ∈ w.held := by
  cases j with
  | mutexIdle s' i' m =>
    obtain ⟨rfl, rfl⟩ : s' = s ∧ i' = i := by simpa [PoolInstr.disposes] using hj
    rcases (d.idle h).2 with hc | hc
    · have hc : w.poolCode t = [.sync (.acquire (.mutexState m))] ++ .pool (.mutexIdle s' i' m) ::
          [.sync (.release (.mutexTable s'))] := hc
      exact k.held_of_needs hc rfl (by simp [Instr.opens, SyncInstr.opens])
        (by simp [Instr.closes, PoolInstr.closes])
    · exact k.held_of_closes hc rfl (by simp [Instr.closes, PoolInstr.closes])
  | mutexFree s' i' =>
    obtain ⟨rfl, rfl⟩ : s' = s ∧ i' = i := by simpa [PoolInstr.disposes] using hj
    rcases d.free h with ⟨m, hc⟩ | hc
    · have hc : w.poolCode t = [.sync (.release (.mutexState m))] ++ .pool (.mutexFree s' i') ::
          [.sync (.release (.mutexTable s'))] := hc
      exact k.held_of_needs hc rfl (by simp [Instr.opens, SyncInstr.opens])
        (by simp [Instr.closes, PoolInstr.closes])
    · exact k.held_of_closes hc rfl (by simp [Instr.closes, PoolInstr.closes])
  | _ => cases hj

/-- While a thread is giving a slot back, no other works on the table. -/
theorem Disposing.eq_of_isTabled (d : Disposing w) (k : Keeping w) (h : w.doing t = some j)
    (hj : j.disposes s i = true) {j' : PoolInstr} (h' : w.poolCode t' = .pool j' :: rest)
    (hj' : j'.isTabled s = true) : t = t' :=
  k.holder_unique (d.held k h hj) (k.held_of_closes h' rfl (PoolInstr.closes_of_isTabled hj'))

/-- A slot is given out if it is free, and it is given back by one instruction. -/
theorem PoolRun.mutexAt (h : PoolRun w t (.pool j) rest w') (s : ServiceId) (i : Nat) :
    w'.mutexAt s i = w.mutexAt s i ∨ (j.isTabled s = true ∧ w.mutexAt s i = none) ∨
      j = .mutexFree s i := by
  have hm : w'.mutexAt = (j.run t w).1.mutexAt := mutexAt_congr h.pools
  rw [hm]
  rcases j.mutexAt_run (t := t) (w := w) s i with he | ⟨name, _, rfl, _, hn, _⟩ | ⟨rfl, _⟩
  · exact Or.inl he
  · exact Or.inr (Or.inl ⟨by simp [PoolInstr.isTabled], hn⟩)
  · exact Or.inr (Or.inr rfl)

theorem disposing_initial (n : Nat) : Disposing (World.initial n) := by
  constructor
  all_goals
    intros
    rename_i h
    rw [doing_initial] at h
    cases h

theorem Disposing.step_idle (d : Disposing w) (h : PoolIdle w e w') : Disposing w' where
  idle {t s i m} hj := by
    have hd := h.doing_eq hj rfl
    rw [mutexAt_congr h.pools, h.poolCode_eq (List.ne_nil_of_mem (mem_poolCode_of_doing hd))]
    exact d.idle hd
  free {t s i} hj := by
    have hd := h.doing_eq hj rfl
    rw [h.poolCode_eq (List.ne_nil_of_mem (mem_poolCode_of_doing hd))]
    exact d.free hd

theorem Disposing.step_sync {i : SyncInstr} (d : Disposing w) (h : PoolRun w t (.sync i) rest w') :
    Disposing w' := by
  have hp : w'.pools = w.pools := h.pools.trans i.pools_run
  constructor
  case idle =>
    intro t' s k m hj
    rw [h.doing_sync] at hj
    obtain ⟨hm, hc⟩ := d.idle hj
    refine ⟨by rw [mutexAt_congr hp, hm], ?_⟩
    -- what is left between the look and the end of the section is its one release
    by_cases ht : t' = t
    · subst ht
      right
      rw [h.before] at hc
      rcases hc with hc | hc <;> obtain ⟨hi, rfl⟩ := List.cons.inj hc
      · obtain rfl := Instr.sync.inj hi
        exact h.after
      · cases hi
    · rw [h.others t' ht]
      exact hc
  case free =>
    intro t' s k hj
    rw [h.doing_sync] at hj
    have hc := d.free hj
    by_cases ht : t' = t
    · subst ht
      right
      rw [h.before] at hc
      rcases hc with ⟨m, hc⟩ | hc <;> obtain ⟨hi, rfl⟩ := List.cons.inj hc
      · obtain rfl := Instr.sync.inj hi
        exact h.after
      · cases hi
    · rw [h.others t' ht]
      exact hc

theorem Disposing.step_pool (d : Disposing w) (h : PoolRun w t (.pool j) rest w') (p : Pacing w)
    (k : Keeping w) : Disposing w' := by
  obtain ⟨hd, hd'⟩ := h.doing_pool p
  have hb := p.paced t
  rw [h.before] at hb
  constructor
  -- who finds the mutex idle holds the lock of its table, so nobody else empties the slot meanwhile
  case idle =>
    intro t' s i m hj
    by_cases ht : t' = t
    · subst ht
      rw [hd'] at hj
      obtain ⟨rfl, hm, hf⟩ := PoolInstr.idle_next hj
      obtain rfl : rest = [.sync (.release (.mutexTable s))] := hb.1
      refine ⟨?_, Or.inl ?_⟩
      · rcases h.mutexAt s i with he | ⟨_, hn⟩ | hn
        · rw [he, hm]
        · rw [hm] at hn
          cases hn
        · cases hn
      · rw [h.after, Instr.run, hf]
        rfl
    · rw [h.doing_of_ne ht] at hj
      obtain ⟨hm, hc⟩ := d.idle hj
      refine ⟨?_, by rw [h.others t' ht]; exact hc⟩
      rcases h.mutexAt s i with he | ⟨_, hn⟩ | rfl
      · rw [he, hm]
      · rw [hm] at hn
        cases hn
      · exact absurd (d.eq_of_isTabled k hj (PoolInstr.disposes_idle _ _ _) h.before
          (by simp [PoolInstr.isTabled])) ht
  -- the slot is given back only by the thread that has found the mutex idle
  case free =>
    intro t' s i hj
    by_cases ht : t' = t
    · subst ht
      rw [hd'] at hj
      obtain ⟨m, rfl, _, hf⟩ := PoolInstr.free_next hj
      obtain rfl : rest = [.sync (.release (.mutexTable s))] := hb.1
      refine Or.inl ⟨m, ?_⟩
      rw [h.after, Instr.run, hf]
      rfl
    · rw [h.doing_of_ne ht] at hj
      rw [h.others t' ht]
      exact d.free hj

theorem Reachable.disposing (h : Reachable n w) : Disposing w := by
  refine h.induct (disposing_initial n) fun w e hr d => ?_
  rcases hr.pacing.step_pools e with ⟨t, i, rest, _, hs⟩ | hs
  · rcases hs.cases with ⟨i, rfl, _⟩ | ⟨j, rfl, _⟩
    · exact d.step_sync hs
    · exact d.step_pool hs hr.pacing hr.keeping
  · exact d.step_idle hs

/-- Mutex `m` is in slot `i`, and nobody is about to free the slot. -/
structure World.Bound (w : World) (s : ServiceId) (i : Nat) (m : MutexRef) : Prop where
  slot : w.mutexAt s i = some m
  kept : ∀ t, w.doing t ≠ some (.mutexFree s i)

/-- The event finds the mutex in slot `i` unowned, and the slot is to be freed. -/
def World.condemns (w : World) (s : ServiceId) (i : Nat) (e : Event) : Bool :=
  match w.ran e with
  | some (.mutexIdle s' i' m) => s' == s && i' == i && (w.mutex m).owner.isNone
  | _ => false

theorem condemns_iff : w.condemns s i e = true ↔
    ∃ m, w.ran e = some (.mutexIdle s i m) ∧ (w.mutex m).owner = none := by
  rw [condemns]
  constructor
  · intro h
    split at h
    next s' i' m hr =>
      obtain ⟨⟨rfl, rfl⟩, ho⟩ : (s' = s ∧ i' = i) ∧ (w.mutex m).owner = none := by simpa using h
      exact ⟨m, hr, ho⟩
    · cases h
  · rintro ⟨m, hr, ho⟩
    simp [hr, ho]

theorem not_condemns_of_ran (hr : w.ran e = some j) (hj : ∀ m, j ≠ .mutexIdle s i m) :
    w.condemns s i e = false := by
  refine Bool.eq_false_iff.mpr fun hc => ?_
  obtain ⟨m, hm, _⟩ := condemns_iff.mp hc
  exact hj m (Option.some.inj (hr.symm.trans hm))

/-- A mutex that is in its slot stays there until somebody finds it unowned. -/
theorem bound_step (h : Reachable n w) (b : w.Bound s i m) (hc : w.condemns s i e = false) :
    (w.step e).Bound s i m := by
  rcases h.pacing.step_pools e with ⟨t, ins, rest, rfl, hs⟩ | hs
  · rcases hs.cases with ⟨j, rfl, hp⟩ | ⟨j, rfl, _⟩
    · refine ⟨by rw [mutexAt_congr hp, b.slot], fun t' => ?_⟩
      rw [hs.doing_sync]
      exact b.kept t'
    obtain ⟨hd, hd'⟩ := hs.doing_pool h.pacing
    constructor
    · rcases hs.mutexAt s i with he | ⟨_, hn⟩ | rfl
      · rw [he, b.slot]
      · rw [b.slot] at hn
        cases hn
      · exact absurd hd (b.kept t)
    · intro t' hf
      by_cases ht : t' = t
      · subst ht
        rw [hd'] at hf
        -- a mutex is freed only once it is found unowned, which this event has not done
        obtain ⟨m', rfl, ho, _⟩ := PoolInstr.free_next hf
        rw [condemns_iff.mpr ⟨m', hs.ran_eq, ho⟩] at hc
        cases hc
      · rw [hs.doing_of_ne ht] at hf
        exact b.kept t' hf
  · refine ⟨by rw [mutexAt_congr hs.pools, b.slot], fun t' hf => ?_⟩
    exact b.kept t' (hs.doing_eq hf rfl)

/-- Nobody finds a mutex unowned that is owned. -/
theorem World.Bound.not_condemns (h : Reachable n w) (b : w.Bound s i m)
    (ho : (w.mutex m).owner = some t) : w.condemns s i e = false := by
  refine Bool.eq_false_iff.mpr fun hc => ?_
  obtain ⟨m', hr, hf⟩ := condemns_iff.mp hc
  obtain ⟨t', rest, _, hs⟩ := poolRun_of_ran hr
  have hm := (h.disposing.idle (hs.doing_pool h.pacing).1).1
  rw [b.slot] at hm
  obtain rfl := Option.some.inj hm
  rw [ho] at hf
  cases hf

/-- Whoever finds a mutex in its slot finds that nobody is about to free the slot. -/
theorem bound_of_find {use : MutexUse} (h : Reachable n w)
    (hs : PoolRun w t (.pool (.mutexFind s i use)) rest w') (hm : w.mutexAt s i = some m) :
    w'.Bound s i m := by
  have hj : (PoolInstr.mutexFind s i use).isTabled s = true := by simp [PoolInstr.isTabled]
  constructor
  · rcases hs.mutexAt s i with he | ⟨_, he⟩ | he
    · rw [he, hm]
    · rw [hm] at he
      cases he
    · cases he
  · intro t' he
    by_cases ht : t' = t
    · subst ht
      rw [(hs.doing_pool h.pacing).2] at he
      obtain ⟨_, he, _⟩ := PoolInstr.free_next he
      cases he
    · rw [hs.doing_of_ne ht] at he
      exact ht (h.disposing.eq_of_isTabled h.keeping he (PoolInstr.disposes_free _ _) hs.before hj)

end Standstill
