import Standstill.Proofs.PoolRefs
import Standstill.Schedule

/-!
The owner of a mutex of the pool. Only a thread that finds the mutex free takes it, only its owner
gives it up, and nobody is left asleep at a free mutex without somebody about to wake the queue or
to look at the mutex again.
-/
namespace Standstill

open World

namespace PoolInstr

/-- The instruction takes mutex `m` if it finds it free. -/
def takes (m : MutexRef) : PoolInstr → Bool
  | .tryTake k | .take _ k | .retake _ k _ => k == m
  | _ => false

/-- The instruction gives mutex `m` up if its thread owns it. -/
def givesUp (m : MutexRef) : PoolInstr → Bool
  | .giveUp k => k == m
  | .waitGiveUp x _ => x.mutex == m
  | _ => false

end PoolInstr

variable {n : Nat} {w w' : World} {t t' : ThreadId} {i : Instr} {code rest : List Instr}
  {e : Event} {q : WaitList} {m k : MutexRef} {es : List Event}

theorem mutex_modMutex (f : PoolLock → PoolLock) (h : k < w.mutexes.length) :
    (w.modMutex k f).mutex m = if m = k then f (w.mutex m) else w.mutex m := by
  simp only [mutex, modMutex, List.getElem?_modify]
  by_cases hm : k = m
  · subst hm
    simp [List.getElem?_eq_getElem h]
  · simp [hm, Ne.symm hm]

/-- A mutex that is new is like one that is not there. -/
theorem mutex_append :
    ({ w with mutexes := w.mutexes ++ [({} : PoolLock)] }).mutex m = w.mutex m := by
  simp only [mutex]
  rcases Nat.lt_trichotomy m w.mutexes.length with h | rfl | h
  · rw [List.getElem?_append_left h]
  · simp
  · have hn : w.mutexes.length + 1 ≤ m := h
    rw [List.getElem?_eq_none (by simpa using hn), List.getElem?_eq_none (Nat.le_of_lt h)]

namespace PoolLock

variable {x y : PoolLock}

theorem isTaken_eq_false : x.isTaken = false ↔ x.owner = none := by
  simp [isTaken]

theorem tryTake_ok (h : x.tryTake t = .ok y) : x.owner = none ∧ y.owner = some t := by
  simp only [tryTake] at h
  split at h
  · cases h
  next hf =>
    obtain rfl := Except.ok.inj h
    exact ⟨isTaken_eq_false.mp (by simpa using hf), rfl⟩

theorem tryTake_error {f : Fault} (h : x.tryTake t = .error f) : f = .busy := by
  simp only [tryTake] at h
  split at h
  · exact (Except.error.inj h).symm
  · cases h

theorem giveUp_ok (h : x.giveUp t = .ok y) : x.owner = some t ∧ y.owner = none := by
  simp only [giveUp] at h
  split at h
  next ho =>
    obtain rfl := Except.ok.inj h
    exact ⟨by simpa [isOwnedBy] using ho, rfl⟩
  · cases h

theorem giveUp_error {f : Fault} (h : x.giveUp t = .error f) : f = .notOwner := by
  simp only [giveUp] at h
  split at h
  · cases h
  · exact (Except.error.inj h).symm

end PoolLock

/-- Writing mutex `k` writes no other. -/
theorem mutex_modMutex_cases {f : PoolLock → PoolLock}
    (hw : w'.mutexes = w.mutexes) (hk : k < w.mutexes.length) (m : MutexRef) :
    (w'.modMutex k f).mutex m = w.mutex m ∨ m = k ∧ (w'.modMutex k f).mutex m = f (w.mutex m) := by
  have he : w'.mutex m = w.mutex m := by rw [mutex, hw, mutex]
  rw [mutex_modMutex f (hw ▸ hk), he]
  by_cases hm : m = k
  · exact Or.inr ⟨hm, if_pos hm⟩
  · exact Or.inl (if_neg hm)

namespace PoolInstr

/-- What an instruction does to a mutex: nothing, or it takes it free, or its thread gives it up. -/
theorem mutex_run (i : PoolInstr) (hi : ∀ k, i.mutex? = some k → k < w.mutexes.length)
    (m : MutexRef) :
    (i.run t w).1.mutex m = w.mutex m ∨
    (i.takes m = true ∧ (w.mutex m).owner = none ∧ ((i.run t w).1.mutex m).owner = some t) ∨
    (i.givesUp m = true ∧ (w.mutex m).owner = some t ∧ ((i.run t w).1.mutex m).owner = none ∧
      .sync (.notifyOne (.mutex m)) ∈ (i.run t w).2) := by
  cases i with
  | mutexAllot s name =>
    left
    simp only [PoolInstr.run]
    split
    · rfl
    · exact mutex_append
  | tryTake k =>
    simp only [PoolInstr.run]
    split
    · exact Or.inl rfl
    next x hx =>
      obtain ⟨hf, ho⟩ := PoolLock.tryTake_ok hx
      rcases mutex_modMutex_cases (w := w) rfl (hi k rfl) m with he | ⟨rfl, he⟩
      · exact Or.inl he
      · exact Or.inr (Or.inl ⟨by simp [takes], hf, by simpa [he] using ho⟩)
  | take s k =>
    simp only [PoolInstr.run]
    split
    · exact Or.inl rfl
    split
    · exact Or.inl rfl
    next hf =>
      rcases mutex_modMutex_cases (w := w) rfl (hi k rfl) m with he | ⟨rfl, he⟩
      · exact Or.inl he
      · have hf := PoolLock.isTaken_eq_false.mp (by simpa using hf)
        exact Or.inr (Or.inl ⟨by simp [takes], hf, by rw [he]; rfl⟩)
  -- the time of the contention is counted, which touches no mutex
  | retake s k since =>
    simp only [PoolInstr.run]
    split
    · exact Or.inl rfl
    next hf =>
      have hc : (w.count s (.contention (.ofMicroseconds (w.clock - since)))).mutexes =
          w.mutexes := rfl
      rcases mutex_modMutex_cases hc (hi k rfl) m with he | ⟨rfl, he⟩
      · exact Or.inl he
      · have hf := PoolLock.isTaken_eq_false.mp (by simpa using hf)
        exact Or.inr (Or.inl ⟨by simp [takes], hf, by rw [he]; rfl⟩)
  | giveUp k =>
    simp only [PoolInstr.run]
    split
    · exact Or.inl rfl
    next x hx =>
      obtain ⟨ho, hf⟩ := PoolLock.giveUp_ok hx
      rcases mutex_modMutex_cases (w := w) rfl (hi k rfl) m with he | ⟨rfl, he⟩
      · exact Or.inl he
      · exact Or.inr (Or.inr ⟨by simp [givesUp], ho, by simpa [he] using hf, by simp⟩)
  -- a wait gives its mutex up as an unlock does
  | waitGiveUp x ticket =>
    simp only [PoolInstr.run]
    split
    · exact Or.inl rfl
    next y hy =>
      obtain ⟨ho, hf⟩ := PoolLock.giveUp_ok hy
      rcases mutex_modMutex_cases (w := w) rfl (hi x.mutex rfl) m with he | ⟨rfl, he⟩
      · exact Or.inl he
      · exact Or.inr (Or.inr ⟨by simp [givesUp], ho, by simpa [he] using hf, by simp⟩)
  | _ =>
    left
    simp only [PoolInstr.run]
    repeat' split
    all_goals rfl

/-- An attempt on a free mutex succeeds. -/
theorem owner_run_of_takes (i : PoolInstr) (hi : i.takes m = true) (hm : m < w.mutexes.length)
    (hf : (w.mutex m).owner = none) : ((i.run t w).1.mutex m).owner = some t := by
  have hk : (w.mutex m).isTaken = false := PoolLock.isTaken_eq_false.mpr hf
  have ho : (w.mutex m).isOwnedBy t = false := by simp [PoolLock.isOwnedBy, hf]
  cases i with
  | tryTake k =>
    obtain rfl : k = m := by simpa [takes] using hi
    simp [PoolInstr.run, PoolLock.tryTake, hk, mutex_modMutex _ hm]
  | take s k =>
    obtain rfl : k = m := by simpa [takes] using hi
    simp [PoolInstr.run, hk, ho, mutex_modMutex _ hm, PoolLock.take]
  | retake s k since =>
    obtain rfl : k = m := by simpa [takes] using hi
    have hc : k < (w.count s (.contention (.ofMicroseconds (w.clock - since)))).mutexes.length := hm
    simp [PoolInstr.run, hk, mutex_modMutex _ hc, PoolLock.take]
  | _ => cases hi

/-- Whoever is sent to sleep at a mutex has found it taken. -/
theorem run_wait (i : PoolInstr) {l : Lock} {d : Option Nat}
    (h : .sync (.wait (.mutex m) l d) ∈ (i.run t w).2) :
    (w.mutex m).owner ≠ none ∧ (i.run t w).1 = w := by
  have taken (hk : (w.mutex m).isTaken = true) : (w.mutex m).owner ≠ none := by
    intro hn
    rw [PoolLock.isTaken_eq_false.mpr hn] at hk
    cases hk
  cases i with
  | mutexFind s k use =>
    simp only [PoolInstr.run] at h
    split at h <;> cases use <;>
      simp [MutexUse.missing, MutexUse.found, takeCode, locked, sleeping, guarded] at h
  | condFind s k use =>
    simp only [PoolInstr.run] at h
    split at h <;> cases use <;> simp [CondUse.missing, CondUse.found, locked] at h
  -- the two attempts to take a mutex sleep only where they find it taken
  | take s k =>
    simp only [PoolInstr.run] at h ⊢
    split at h
    · cases h
    next ho =>
      split at h
      next hk =>
        simp at h
        obtain ⟨rfl, _⟩ := h
        rw [if_neg ho, if_pos hk]
        exact ⟨taken hk, rfl⟩
      · cases h
  | retake s k since =>
    simp only [PoolInstr.run] at h ⊢
    split at h
    next hk =>
      simp at h
      obtain ⟨rfl, _⟩ := h
      rw [if_pos hk]
      exact ⟨taken hk, rfl⟩
    · cases h
  | _ =>
    simp only [PoolInstr.run] at h
    repeat' split at h
    all_goals simp [takeCode, locked] at h

end PoolInstr

/-- The mutex after a thread has run something on the pools. -/
theorem PoolRun.mutex (h : PoolRun w t i rest w') (r : Referring w) (m : MutexRef) :
    w'.mutex m = w.mutex m ∨ ∃ j, i = .pool j ∧
      ((j.takes m = true ∧ (w.mutex m).owner = none ∧ (w'.mutex m).owner = some t) ∨
       (j.givesUp m = true ∧ (w.mutex m).owner = some t ∧ (w'.mutex m).owner = none ∧
        .sync (.notifyOne (.mutex m)) ∈ w'.poolCode t)) := by
  rcases h.cases with ⟨j, rfl, hp⟩ | ⟨j, rfl, _⟩
  · exact Or.inl (mutex_congr hp)
  have hh : Instr.pool j ∈ w.poolCode t := h.before ▸ List.mem_cons_self
  have hw : w'.mutex m = (j.run t w).1.mutex m := by
    have hm : w'.mutexes = (j.run t w).1.mutexes := congrArg Prod.fst h.pools
    rw [World.mutex, hm, World.mutex]
  rw [hw]
  rcases j.mutex_run (t := t) (fun k hk => r.mutexCode hh hk) m with he | he | ⟨hg, ho, hf, hn⟩
  · exact Or.inl he
  · exact Or.inr ⟨j, rfl, Or.inl he⟩
  · refine Or.inr ⟨j, rfl, Or.inr ⟨hg, ho, hf, ?_⟩⟩
    rw [h.after]
    exact List.mem_append_left _ (List.mem_filter.mpr ⟨hn, rfl⟩)

theorem PoolRun.owner_of_takes {j : PoolInstr} (h : PoolRun w t (.pool j) rest w')
    (r : Referring w) (hj : j.takes m = true) (hf : (w.mutex m).owner = none) :
    (w'.mutex m).owner = some t := by
  have hm : j.mutex? = some m := by
    cases j <;> simp_all [PoolInstr.takes, PoolInstr.mutex?]
  have hh : Instr.pool j ∈ w.poolCode t := h.before ▸ List.mem_cons_self
  have hl : m < w.mutexes.length := r.mutexCode hh hm
  have he : w'.mutexes = (j.run t w).1.mutexes := congrArg Prod.fst h.pools
  have ho := j.owner_run_of_takes (t := t) hj hl hf
  rwa [World.mutex, he, ← World.mutex]

theorem closes_of_givesUp {j : PoolInstr} (h : j.givesUp m = true) :
    .lock (.mutexState m) ∈ (Instr.pool j).closes := by
  cases j <;> simp_all [PoolInstr.givesUp, Instr.closes, PoolInstr.closes]

/-- A thread that is about to fall asleep at a mutex has found it taken. -/
def WaitsOnTaken (w : World) : Prop := ∀ t m l d rest,
  w.poolCode t = .sync (.wait (.mutex m) l d) :: rest → (w.mutex m).owner ≠ none

theorem waitsOnTaken_initial (n : Nat) : WaitsOnTaken (World.initial n) := by
  intro t m l d rest h
  rw [poolCode_initial] at h
  cases h

theorem WaitsOnTaken.idle (o : WaitsOnTaken w) (h : PoolIdle w e w') : WaitsOnTaken w' := by
  intro t m l d rest hc
  rw [mutex_congr h.pools]
  rcases h.code t with he | ⟨c, _, _, _, he⟩ <;> rw [he] at hc
  · exact o t m l d rest hc
  · have hm : Instr.sync (.wait (.mutex m) l d) ∈ (c.code w t).filter Instr.isPooled :=
      hc ▸ List.mem_cons_self
    cases c.code_later _ (List.mem_filter.mp hm).1

/-- The lock of the mutex keeps its owner from giving it up meanwhile. -/
theorem WaitsOnTaken.run (o : WaitsOnTaken w) (h : PoolRun w t i rest w') (p : Pacing w)
    (k : Keeping w) (f : Foremost w) (r : Referring w) : WaitsOnTaken w' := by
  intro t' m l d post hc
  by_cases ht : t' = t
  · subst ht
    rw [h.after] at hc
    have hrest : ∀ j ∈ rest, j.isForemost = false := by
      intro j hj
      apply f t' j
      rw [h.before]
      exact hj
    have hm : Instr.sync (.wait (.mutex m) l d) ∈ (i.run t' w).2 := by
      rcases List.mem_append.mp (hc ▸ List.mem_cons_self) with hm | hm
      · exact (List.mem_filter.mp hm).1
      · cases hrest _ hm
    rcases h.cases with ⟨j, rfl, _⟩ | ⟨j, rfl, _⟩
    · cases j.run_later _ hm
    · obtain ⟨ho, hw⟩ := j.run_wait hm
      have hp : w'.pools = w.pools := h.pools.trans (congrArg World.pools hw)
      rw [mutex_congr hp]
      exact ho
  · rw [h.others t' ht] at hc
    have ho := o t' m l d post hc
    rcases h.mutex r m with he | ⟨j, rfl, ⟨_, hn, _⟩ | ⟨hg, _⟩⟩
    · rw [he]
      exact ho
    · exact absurd hn ho
    -- who gives the mutex up closes its lock, and the waiter has that one
    · have hp := p.paced t'
      rw [hc] at hp
      obtain ⟨rfl, _⟩ := hp.1
      exact absurd (k.eq_of_closes hc h.before rfl List.mem_cons_self (closes_of_givesUp hg)) ht

theorem Reachable.waitsOnTaken (h : Reachable n w) : WaitsOnTaken w := by
  refine h.induct (waitsOnTaken_initial n) fun w e hr o => ?_
  rcases hr.pacing.step_pools e with ⟨t, i, rest, _, hs⟩ | hs
  · exact o.run hs hr.pacing hr.keeping hr.foremost hr.referring
  · exact o.idle hs

/-! Only its owner gives a mutex up. -/

/-- Thread `t` is about to give mutex `m` up, should it own it. -/
def World.Releases (w : World) (t : ThreadId) (m : MutexRef) (e : Event) : Prop :=
  e = .advance t ∧ ∃ i rest, w.codeOf t = .pool i :: rest ∧ i.givesUp m = true

theorem owner_step (h : Reachable n w) (ho : (w.mutex m).owner = some t)
    (hn : ¬w.Releases t m e) : ((w.step e).mutex m).owner = some t := by
  rcases h.pacing.step_pools e with ⟨t', i, rest, rfl, hs⟩ | hs
  · rcases hs.mutex h.referring m with he | ⟨j, rfl, ⟨_, hf, _⟩ | ⟨hg, ho', _⟩⟩
    · rw [he]
      exact ho
    · rw [ho] at hf
      cases hf
    · rw [ho] at ho'
      obtain rfl := Option.some.inj ho'
      obtain ⟨below, hc⟩ := hs.head
      exact absurd ⟨rfl, j, below, hc, hg⟩ hn
  · rw [mutex_congr hs.pools]
    exact ho

/-- Thread `t` does not give mutex `m` up on the run `es`. -/
def World.Clings (w : World) (t : ThreadId) (m : MutexRef) (es : List Event) : Prop :=
  w.Along (fun w e => ¬w.Releases t m e) es

theorem owner_run (h : Reachable n w) (ho : (w.mutex m).owner = some t)
    (hc : w.Clings t m es) : ((w.run es).mutex m).owner = some t := by
  induction es generalizing w with
  | nil => exact ho
  | cons e es ih =>
    rw [run_cons]
    exact ih (h.step e) (owner_step h ho hc.1) hc.2

/-! Whoever tries to take or to give up a mutex that another thread owns fails, or falls asleep. -/

/-- The step that thread `t` is about to make is refused, or it sends the thread to sleep at `m`. -/
def World.Balks (w : World) (t : ThreadId) (m : MutexRef) : Prop :=
  (∃ f, (f = .busy ∨ f = .notOwner) ∧ (w.step (.advance t)).outcomeOf t = .fault f) ∨
    ∃ post, (w.step (.advance t)).codeOf t =
      .sync (.wait (.mutex m) (.mutexState m) none) :: post

theorem outcomeOf_fail {f : Fault} (h : t < w.threads.length) :
    (w.fail t f).outcomeOf t = .fault f := by
  have he : (w.fail t f).outcomeOf t = (w.fail t f).ofThread t .panicked (·.outcome) := rfl
  rw [he, fail, say, ofThread_modThread, if_pos rfl, ofThread_const, if_pos h]

theorem outcomeOf_proceed {below : List Instr} :
    (w.proceed t i below).outcomeOf t' = (i.run t (w.setCode t below)).1.outcomeOf t' :=
  ofThread_push (fun _ _ => rfl) _

theorem balks_of_owned {j : PoolInstr} {below : List Instr} (ho : (w.mutex m).owner = some t)
    (ht : t' ≠ t) (hc : w.codeOf t' = .pool j :: below)
    (hj : j.takes m = true ∨ j.givesUp m = true) : w.Balks t' m := by
  have hs : w.step (.advance t') = w.proceed t' (.pool j) below := advance_of_code hc rfl
  have hl : t' < (w.setCode t' below).threads.length := by
    rw [threads_length_setCode]
    exact lt_of_head hc
  have hm : (w.setCode t' below).mutex m = w.mutex m := rfl
  have hk : (w.mutex m).isTaken = true := by simp [PoolLock.isTaken, ho]
  have hn : (w.mutex m).isOwnedBy t' = false := by simp [PoolLock.isOwnedBy, ho, Ne.symm ht]
  -- whoever does not wait for the mutex fails, and the others go to sleep
  have fails (f : Fault) (hf : f = .busy ∨ f = .notOwner)
      (h : (j.run t' (w.setCode t' below)).1 = (w.setCode t' below).fail t' f) :
      w.Balks t' m := by
    left
    refine ⟨f, hf, ?_⟩
    rw [hs, outcomeOf_proceed, Instr.run, h, outcomeOf_fail hl]
  have sleeps (post : List Instr) (h : (j.run t' (w.setCode t' below)).2 =
      .sync (.wait (.mutex m) (.mutexState m) none) :: post) : w.Balks t' m := by
    right
    refine ⟨post ++ below, ?_⟩
    rw [hs, codeOf_proceed hc, remainder, Instr.run, h]
    rfl
  cases j with
  | tryTake k =>
    obtain rfl : k = m := by simpa [PoolInstr.takes, PoolInstr.givesUp] using hj
    exact fails .busy (Or.inl rfl) (by simp [PoolInstr.run, hm, PoolLock.tryTake, hk])
  | take s k =>
    obtain rfl : k = m := by simpa [PoolInstr.takes, PoolInstr.givesUp] using hj
    exact sleeps [.pool (.retake s k w.clock)] (by simp [PoolInstr.run, hm, hk, hn]; rfl)
  | retake s k since =>
    obtain rfl : k = m := by simpa [PoolInstr.takes, PoolInstr.givesUp] using hj
    exact sleeps [.pool (.retake s k since)] (by simp [PoolInstr.run, hm, hk])
  | giveUp k =>
    obtain rfl : k = m := by simpa [PoolInstr.takes, PoolInstr.givesUp] using hj
    exact fails .notOwner (Or.inr rfl) (by simp [PoolInstr.run, hm, PoolLock.giveUp, hn])
  | waitGiveUp x ticket =>
    obtain rfl : x.mutex = m := by simpa [PoolInstr.takes, PoolInstr.givesUp] using hj
    exact fails .notOwner (Or.inr rfl) (by simp [PoolInstr.run, hm, PoolLock.giveUp, hn])
  | _ => simp [PoolInstr.takes, PoolInstr.givesUp] at hj

/-! Nobody is left asleep at a free mutex. -/

/-- Thread `t` is awake in the loop of a lock call, and looks at `m` again before it may sleep. -/
def World.Rechecks (w : World) (t : ThreadId) (m : MutexRef) : Prop :=
  (.mutex m, t) ∉ w.asleep ∧ (∃ s since, .pool (.retake s m since) ∈ w.poolCode t) ∧
    ∀ l d, .sync (.wait (.mutex m) l d) ∉ w.poolCode t

/-- Somebody is about to wake the queue of `m`, or to look at `m` again. -/
def World.Attended (w : World) (m : MutexRef) : Prop :=
  (∃ t, .sync (.notifyOne (.mutex m)) ∈ w.poolCode t) ∨ ∃ t, w.Rechecks t m

/-- No mutex is free with somebody asleep at it and nobody to attend to it. -/
def Unstranded (w : World) : Prop :=
  ∀ m t, (w.mutex m).owner = none → (.mutex m, t) ∈ w.asleep → w.Attended m

theorem World.Attended.idle (h : PoolIdle w e w') (a : w.Attended m) : w'.Attended m := by
  rcases a with ⟨t, hn⟩ | ⟨t, ha, ⟨s, since, hr⟩, hw⟩
  · left
    refine ⟨t, ?_⟩
    rw [h.poolCode_eq (List.ne_nil_of_mem hn)]
    exact hn
  · right
    refine ⟨t, fun hm => ha (h.mem_asleep rfl hm), ⟨s, since, ?_⟩, ?_⟩
    all_goals rw [h.poolCode_eq (List.ne_nil_of_mem hr)]
    · exact hr
    · exact hw

theorem PoolInstr.isBefore_sync {j : PoolInstr} (h : (Instr.pool j).IsBefore rest) :
    ∀ k, .pool k ∉ rest := by
  cases j <;> obtain rfl := h <;> simp

/-- The sleeper that is woken looks at the mutex again. -/
theorem rechecks_of_woken (b : Bedded w) (p : Pacing w) (hm : (.mutex m, t) ∈ w.asleep)
    (hc : w'.poolCode t = w.poolCode t) (ha : w'.asleep = w.asleep.erase (.mutex m, t)) :
    w'.Rechecks t m := by
  obtain ⟨d, post, hp⟩ := b.rests rfl hm
  have hb := p.paced t
  rw [hp] at hb
  obtain ⟨_, s, since, rfl⟩ := hb.1
  refine ⟨fun hm' => ?_, ⟨s, since, ?_⟩, fun l d => ?_⟩
  · rw [ha] at hm'
    have hpos : 0 < (w.asleep.erase (.mutex m, t)).count (.mutex m, t) := List.count_pos_iff.mpr hm'
    rw [List.count_erase_self] at hpos
    have h1 := b.once (.mutex m) t rfl
    omega
  · rw [hc, hp]
    simp
  · rw [hc, hp]
    simp

/-- A thread that was about to look at the mutex still is, unless it has just taken it. -/
theorem World.Rechecks.run (h : PoolRun w t i rest w') (p : Pacing w) (r : Referring w)
    (hf : (w'.mutex m).owner = none) (a : w.Rechecks t' m) : w'.Rechecks t' m := by
  obtain ⟨ha, ⟨s, since, hr⟩, hw⟩ := a
  have hi : ∀ l d, t' = t → i ≠ .sync (.wait (.mutex m) l d) := by
    rintro l d rfl rfl
    apply hw l d
    rw [h.before]
    exact List.mem_cons_self
  have ha' : (.mutex m, t') ∉ w'.asleep := by
    intro hm
    rcases h.mem_asleep hm with hm | ⟨ht, l, d, he⟩
    · exact ha hm
    · exact hi l d ht he
  by_cases ht : t' = t
  · subst ht
    have hp := p.paced t'
    rw [h.before] at hp hr hw
    rcases List.mem_cons.mp hr with rfl | hr'
    · -- the look itself: had the mutex been free, it would be taken now
      rcases h.mutex r m with he | ⟨j, hj, ⟨_, _, ho⟩ | ⟨hg, _⟩⟩
      · have hk : (w.mutex m).owner = none := he ▸ hf
        have ho := h.owner_of_takes r (by simp [PoolInstr.takes]) hk
        rw [hf] at ho
        cases ho
      · rw [hf] at ho
        cases ho
      · obtain rfl := Instr.pool.inj hj
        cases hg
    · rcases h.cases with ⟨j, rfl, _⟩ | ⟨j, rfl, _⟩
      · refine ⟨ha', ⟨s, since, ?_⟩, fun l d hm => ?_⟩
        · rw [h.after]
          exact List.mem_append_right _ hr'
        · rw [h.after] at hm
          rcases List.mem_append.mp hm with hm | hm
          · cases j.run_later _ (List.mem_filter.mp hm).1
          · exact hw l d (List.mem_cons_of_mem _ hm)
      · exact absurd hr' (PoolInstr.isBefore_sync hp.1 _)
  · refine ⟨ha', ⟨s, since, ?_⟩, ?_⟩ <;> rw [h.others t' ht]
    · exact hr
    · exact hw

theorem Unstranded.idle (u : Unstranded w) (h : PoolIdle w e w') : Unstranded w' := by
  intro m t hf hm
  rw [mutex_congr h.pools] at hf
  exact (u m t hf (h.mem_asleep rfl hm)).idle h

theorem Unstranded.run (u : Unstranded w) (h : PoolRun w t i rest w') (p : Pacing w)
    (b : Bedded w) (r : Referring w) (o : WaitsOnTaken w) : Unstranded w' := by
  intro m t' hf hm
  rcases h.mutex r m with he | ⟨j, rfl, ⟨_, _, ho⟩ | ⟨_, _, _, hn⟩⟩
  · rw [he] at hf
    have hm₀ : (.mutex m, t') ∈ w.asleep := by
      rcases h.mem_asleep hm with hm | ⟨_, l, d, rfl⟩
      · exact hm
      · exact absurd hf (o t m l d rest h.before)
    rcases u m t' hf hm₀ with ⟨t₁, hn⟩ | ⟨t₁, ha⟩
    · by_cases ht : t₁ = t
      · subst ht
        rw [h.before] at hn
        rcases List.mem_cons.mp hn with rfl | hn
        · -- it is this step that wakes the first in the queue
          rcases hq : w.asleep.find? (·.1 == .mutex m) with _ | x
          · have hne := List.find?_eq_none.mp hq _ hm₀
            simp at hne
          · obtain ⟨q, t₂⟩ := x
            obtain rfl : q = .mutex m := by simpa using List.find?_some hq
            have hx := List.mem_of_find?_eq_some hq
            have ht : t₂ ≠ t₁ := by
              rintro rfl
              exact b.awake h.before rfl (fun d he => by cases he) hx
            have ha : w'.asleep = w.asleep.erase (.mutex m, t₂) := by
              rw [h.asleep, Instr.run, SyncInstr.run, wakeFirst, hq]
            exact Or.inr ⟨t₂, rechecks_of_woken b p hx (h.others t₂ ht) ha⟩
        · left
          refine ⟨t₁, ?_⟩
          rw [h.after]
          exact List.mem_append_right _ hn
      · left
        refine ⟨t₁, ?_⟩
        rw [h.others t₁ ht]
        exact hn
    · exact Or.inr ⟨t₁, ha.run h p r (by rw [he]; exact hf)⟩
  · rw [hf] at ho
    cases ho
  · exact Or.inl ⟨t, hn⟩

theorem Reachable.unstranded (h : Reachable n w) : Unstranded w := by
  refine h.induct (fun m t _ hm => absurd hm List.not_mem_nil) fun w e hr u => ?_
  rcases hr.pacing.step_pools e with ⟨t, i, rest, _, hs⟩ | hs
  · exact u.run hs hr.pacing hr.bedded hr.referring hr.waitsOnTaken
  · exact u.idle hs

/-- An attempt on a free mutex succeeds, and its thread owns the mutex for as long as it does not
give it up; until then all others who try to take or to give up the mutex fail or fall asleep. And a
free mutex with a thread asleep at it is attended to. -/
theorem pool_mutex_is_exclusive_and_attended (h : Reachable n w) (m : MutexRef) :
    (∀ t j below, w.codeOf t = .pool j :: below → j.takes m = true → (w.mutex m).owner = none →
      ((w.step (.advance t)).mutex m).owner = some t) ∧
    (∀ t es, (w.mutex m).owner = some t → w.Clings t m es →
      ((w.run es).mutex m).owner = some t ∧
      ∀ t' j below, t' ≠ t → (w.run es).codeOf t' = .pool j :: below →
        j.takes m = true ∨ j.givesUp m = true → (w.run es).Balks t' m) ∧
    (∀ t, (w.mutex m).owner = none → (.mutex m, t) ∈ w.asleep → w.Attended m) := by
  refine ⟨fun t j below hc hj hf => ?_, fun t es ho hcl => ?_, fun t => h.unstranded m t⟩
  · have hs : w.step (.advance t) = w.proceed t (.pool j) below := advance_of_code hc rfl
    rw [hs]
    exact (poolRun_proceed hc rfl rfl).owner_of_takes h.referring hj hf
  · have ho' := owner_run h ho hcl
    exact ⟨ho', fun t' j below ht hc hj => balks_of_owned ho' ht hc hj⟩

/-- The first thread has locked a mutex, and the second has fallen asleep at it. -/
def contended : List Event :=
  .invoke 0 (.establish {}) :: turns 0 5 ++
    .invoke 0 (.mutex 0 .guarded (.create "m")) :: turns 0 12 ++
    .invoke 0 (.mutex 0 .guarded (.lock 0)) :: turns 0 20 ++
    .invoke 1 (.mutex 0 .guarded (.lock 0)) :: turns 1 20

/-- Woken for no reason, the second thread is about to look at the mutex again. -/
def stirred : List Event := [.stir (.mutex 0) 1, .advance 1, .advance 1]

/-- The first thread has given the mutex up and not yet woken anybody. -/
def freed : List Event :=
  contended ++ .invoke 0 (.mutex 0 .guarded (.unlock 0)) :: turns 0 6

theorem stirred_thread_balks :
    (((World.initial 2).run contended).run stirred).Balks 1 0 ∧
      ((World.initial 2).run freed).Attended 0 := by
  have hw : Reachable 2 ((World.initial 2).run contended) := ⟨contended, rfl⟩
  have hf : Reachable 2 ((World.initial 2).run freed) := ⟨freed, rfl⟩
  have hc : ((World.initial 2).run contended).Clings 0 0 stirred := by
    refine ⟨?_, ?_, ?_, trivial⟩
    all_goals
      intro h
      cases h.1
  constructor
  · have h := (pool_mutex_is_exclusive_and_attended hw 0).2.1 0 stirred (by decide +kernel) hc
    exact h.2 1 (.retake 0 0 0) [.sync (.release (.mutexState 0)), .guard (.lower 0), .guard .leave,
      .user] (by decide) (by decide +kernel) (Or.inl rfl)
  · exact (pool_mutex_is_exclusive_and_attended hf 0).2.2 1 (by decide +kernel) (by decide +kernel)

end Standstill
