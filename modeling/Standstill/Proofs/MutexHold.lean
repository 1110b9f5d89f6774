import Standstill.Proofs.MutexSlots

/-!
What a thread has that locked a mutex of the pool, or came back from a wait with it: its slot, and
the mutex in it, until the thread itself lets go. A mutex that nobody owns may be destroyed while a
thread that has found it waits, or is about to take it; what such a thread takes is in no slot.
-/
namespace Standstill

open World

variable {n : Nat} {w w' : World} {t t' : ThreadId} {s s' : ServiceId} {i : Nat}
  {j k : PoolInstr} {base rest : List Instr} {e : Event} {es : List Event} {m : MutexRef} {c : Call}

namespace PoolInstr

/-- The instruction looks for the mutex in slot `i`, in a call that is to end with its taking it. -/
def looksFor (s : ServiceId) (i : Nat) : PoolInstr → Bool
  | .mutexFind s' i' use => use != .unlock && s' == s && i' == i
  | .condFind s' _ (.wait i' _) => s' == s && i' == i
  | _ => false

/-- The instruction belongs to a call that has found mutex `m` and is to end with its taking it. -/
def obtains (m : MutexRef) : PoolInstr → Bool
  | .tryTake k | .take _ k | .retake _ k _ | .waitOwner _ _ k _ | .waitClock _ _ k _ => k == m
  | .waitRegister x | .waitGiveUp x _ | .waitCheck x _ | .waitRetire x => x.mutex == m
  | _ => false

/-- A call that looks for a mutex goes on looking, finds it, or fails. -/
theorem looksFor_next (h : j.looksFor s i = true) :
    (∃ k, firstPool (j.run t w).2 = some k ∧ k.looksFor s i = true) ∨
    (∃ m k use, j = .mutexFind s i use ∧ w.mutexAt s i = some m ∧
      firstPool (j.run t w).2 = some k ∧ k.obtains m = true) ∨
    firstPool (j.run t w).2 = none ∧ ∃ f, f ≠ .timeout ∧ (j.run t w).1 = w.fail t f := by
  cases j with
  | mutexFind s' i' use =>
    obtain ⟨⟨hu, rfl⟩, rfl⟩ : (use ≠ .unlock ∧ s' = s) ∧ i' = i := by
      simpa [looksFor] using h
    -- an index that names no slot is refused, and nothing is taken
    cases hg : (w.mutexSlots s').get i' with
    | error f =>
      obtain rfl := Slots.get_error hg
      refine Or.inr (Or.inr ⟨?_, .badArgument .slotIndex, by simp, ?_⟩)
      all_goals simp only [PoolInstr.run, hg]
      cases use <;> rfl
    | ok m =>
      right
      left
      have hm : w.mutexAt s' i' = some m := Slots.get_eq_ok.mp hg
      cases use with
      | unlock => exact absurd rfl hu
      | _ =>
        simp only [PoolInstr.run, hg]
        exact ⟨m, _, _, rfl, hm, rfl, by simp [obtains]⟩
  | condFind s' c use =>
    cases use with
    | wait i' micros =>
      obtain ⟨rfl, rfl⟩ : s' = s ∧ i' = i := by simpa [looksFor] using h
      cases hg : (w.condSlots s').get c with
      | error f =>
        obtain rfl := Slots.get_error hg
        refine Or.inr (Or.inr ⟨?_, .badArgument .slotIndex, by simp, ?_⟩)
        all_goals simp only [PoolInstr.run, hg]
        rfl
      | ok x =>
        left
        simp only [PoolInstr.run, hg]
        exact ⟨_, rfl, by simp [looksFor]⟩
    | _ => cases h
  | _ => cases h

/-- A call that has found a mutex goes on with it, takes it, or fails. -/
theorem obtains_next (h : j.obtains m = true) :
    (∃ k, firstPool (j.run t w).2 = some k ∧ k.obtains m = true) ∨
    firstPool (j.run t w).2 = none ∧ (j.takes m = true ∧ (w.mutex m).owner = none ∨
      ∃ f, f ≠ .timeout ∧ (j.run t w).1 = w.fail t f) := by
  cases j with
  | tryTake k =>
    obtain rfl : k = m := by simpa [obtains] using h
    right
    simp only [PoolInstr.run]
    split
    next f hf =>
      obtain rfl := PoolLock.tryTake_error hf
      exact ⟨rfl, Or.inr ⟨_, by simp, rfl⟩⟩
    next x hx => exact ⟨rfl, Or.inl ⟨by simp [takes], (PoolLock.tryTake_ok hx).1⟩⟩
  -- a taken mutex is asked for again, a free one is taken at once
  | take s k =>
    obtain rfl : k = m := by simpa [obtains] using h
    simp only [PoolInstr.run]
    split
    · exact Or.inr ⟨rfl, Or.inr ⟨_, by simp, rfl⟩⟩
    split
    · exact Or.inl ⟨_, rfl, by simp [obtains]⟩
    next hf =>
      have ho := PoolLock.isTaken_eq_false.mp (by simpa using hf)
      exact Or.inr ⟨rfl, Or.inl ⟨by simp [takes], ho⟩⟩
  | retake s k since =>
    obtain rfl : k = m := by simpa [obtains] using h
    simp only [PoolInstr.run]
    split
    · exact Or.inl ⟨_, rfl, by simp [obtains]⟩
    next hf =>
      have ho := PoolLock.isTaken_eq_false.mp (by simpa using hf)
      exact Or.inr ⟨rfl, Or.inl ⟨by simp [takes], ho⟩⟩
  | waitOwner s c k micros =>
    obtain rfl : k = m := by simpa [obtains] using h
    simp only [PoolInstr.run]
    split
    · exact Or.inl ⟨_, rfl, by simp [obtains]⟩
    · exact Or.inr ⟨rfl, Or.inr ⟨_, by simp, rfl⟩⟩
  | waitClock s c k micros => exact Or.inl ⟨_, rfl, h⟩
  | waitRegister x => exact Or.inl ⟨_, rfl, h⟩
  | waitGiveUp x ticket =>
    simp only [PoolInstr.run]
    split
    next f hf =>
      obtain rfl := PoolLock.giveUp_error hf
      exact Or.inr ⟨rfl, Or.inr ⟨_, by simp, rfl⟩⟩
    · exact Or.inl ⟨_, rfl, h⟩
  -- whether it is woken, out of time or neither, a wait goes on to take its mutex back
  | waitCheck x ticket =>
    left
    simp only [PoolInstr.run]
    split
    · exact ⟨_, rfl, h⟩
    split
    · exact ⟨_, rfl, h⟩
    · exact ⟨_, rfl, h⟩
  | waitRetire x => exact Or.inl ⟨_, rfl, h⟩
  | _ => cases h

end PoolInstr

/-! Getting hold of a mutex. -/

/-- Thread `t` has still to look for the mutex in slot `i`. -/
def World.looks (w : World) (t : ThreadId) (s : ServiceId) (i : Nat) : Bool :=
  (w.doing t).any (·.looksFor s i)

/-- Nobody finds the mutex in slot `i` unowned, to free the slot, after thread `t` has looked. -/
def World.Spares (w : World) (t : ThreadId) (s : ServiceId) (i : Nat) (e : Event) : Prop :=
  w.condemns s i e = true → w.looks t s i = true

instance : Decidable (w.Spares t s i e) :=
  inferInstanceAs (Decidable (w.condemns s i e = true → w.looks t s i = true))

/-- Mutex `m` is in slot `i` to stay, and thread `t` owns it. -/
structure World.Secure (w : World) (s : ServiceId) (i : Nat) (m : MutexRef) (t : ThreadId) : Prop
    extends w.Bound s i m where
  owned : (w.mutex m).owner = some t

theorem secure_step (h : Reachable n w) (b : w.Secure s i m t) (hn : ¬w.Releases t m e) :
    (w.step e).Secure s i m t :=
  ⟨bound_step h b.toBound (b.not_condemns h b.owned), owner_step h b.owned hn⟩

/-- Thread `t` releases nothing but what it runs an instruction to give up. -/
theorem ran_of_releases (h : w.Releases t m e) :
    ∃ j, e = .advance t ∧ w.ran e = some j ∧ w.doing t = some j ∧ j.givesUp m = true := by
  obtain ⟨rfl, j, below, hc, hg⟩ := h
  refine ⟨j, rfl, ?_, ?_, hg⟩
  · rw [ran, head_eq, hc]
    rfl
  · rw [doing, poolCode_eq hc rfl]
    rfl

theorem not_releases (hd : ∀ j, w.doing t = some j → j.givesUp m = false) :
    ¬w.Releases t m e := by
  intro h
  obtain ⟨j, _, _, hj, hg⟩ := ran_of_releases h
  rw [hd j hj] at hg
  cases hg

theorem not_releases_of_not_ran (hr : e = .advance t → w.ran e = none) : ¬w.Releases t m e := by
  intro h
  obtain ⟨j, he, hj, _⟩ := ran_of_releases h
  rw [hr he] at hj
  cases hj

/-- How far thread `t` has come in a call that is to end with its owning the mutex in slot `i`. -/
inductive World.Seeks (w : World) (t : ThreadId) (s : ServiceId) (i : Nat) : Prop
  | looks {j : PoolInstr} (doing : w.doing t = some j) (use : j.looksFor s i = true)
  | found {j : PoolInstr} {m : MutexRef} (doing : w.doing t = some j) (use : j.obtains m = true)
      (bound : w.Bound s i m)
  | got {m : MutexRef} (doing : w.doing t = none) (secure : w.Secure s i m t)
  | failed {f : Fault} (doing : w.doing t = none) (fault : f ≠ .timeout)
      (outcome : w.outcomeOf t = .fault f)

theorem World.Seeks.run (h : Reachable n w) (hl : t < w.threads.length)
    (hs : PoolRun w t (.pool j) rest w') (hd' : w'.doing t = firstPool (j.run t w).2)
    (ho : w'.outcomeOf t = (j.run t w).1.outcomeOf t) (hb : ∀ m, w.Bound s i m → w'.Bound s i m)
    (hj : j.looksFor s i = true ∨ ∃ m, j.obtains m = true ∧ w.Bound s i m) :
    w'.Seeks t s i := by
  have fails {f : Fault} (hn : firstPool (j.run t w).2 = none) (hf : f ≠ .timeout)
      (hr : (j.run t w).1 = w.fail t f) : w'.Seeks t s i :=
    .failed (hd'.trans hn) hf (by rw [ho, hr, outcomeOf_fail hl])
  rcases hj with hj | ⟨m, hj, hm⟩
  · rcases PoolInstr.looksFor_next (t := t) (w := w) hj with ⟨k, hk, hu⟩ |
      ⟨m, k, use, rfl, hm, hk, hu⟩ | ⟨hn, f, hf, hr⟩
    · exact .looks (hd'.trans hk) hu
    · exact .found (hd'.trans hk) hu (bound_of_find h hs hm)
    · exact fails hn hf hr
  · rcases PoolInstr.obtains_next (t := t) (w := w) hj with ⟨k, hk, hu⟩ |
      ⟨hn, ⟨ht, hfree⟩ | ⟨f, hf, hr⟩⟩
    · exact .found (hd'.trans hk) hu (hb m hm)
    · exact .got (hd'.trans hn) ⟨hb m hm, hs.owner_of_takes h.referring ht hfree⟩
    · exact fails hn hf hr

theorem World.Seeks.step (h : Reachable n w) (hc : w.Calling t (.user :: base))
    (he : e.isBy t = false) (hs : w.Spares t s i e) (a : w.Seeks t s i) :
    (w.step e).Seeks t s i := by
  have hb (m : MutexRef) (hn : w.looks t s i = false) (b : w.Bound s i m) :
      (w.step e).Bound s i m := by
    refine bound_step h b (Bool.eq_false_iff.mpr fun hcon => ?_)
    rw [hs hcon] at hn
    cases hn
  rcases hc.step_doing h.pacing he with ⟨j, rest, rfl, hr, hd, hd', ho⟩ | ⟨hn, hd, ho⟩
  -- a step of the thread itself brings it to the mutex, to the next look, or to a refusal
  · have go (hj : j.looksFor s i = true ∨ ∃ m, j.obtains m = true ∧ w.Bound s i m) :
        (w.step (.advance t)).Seeks t s i := by
      refine World.Seeks.run h hc.lt hr hd' ho (fun m b => bound_step h b ?_) hj
      refine not_condemns_of_ran hr.ran_eq ?_
      rintro m' rfl
      rcases hj with hj | ⟨_, hj, _⟩ <;> cases hj
    cases a with
    | looks hdoing use =>
      obtain rfl := Option.some.inj (hd.symm.trans hdoing)
      exact go (Or.inl use)
    | found hdoing use bound =>
      obtain rfl := Option.some.inj (hd.symm.trans hdoing)
      exact go (Or.inr ⟨_, use, bound⟩)
    | got hdoing _ | failed hdoing _ _ =>
      rw [hd] at hdoing
      cases hdoing
  · cases a with
    | looks hdoing use => exact .looks (hd.trans hdoing) use
    | @found j m hdoing use bound =>
      refine .found (hd.trans hdoing) use (hb m ?_ bound)
      have hu : j.looksFor s i = false := by cases j <;> first | rfl | cases use
      simp [World.looks, hdoing, hu]
    | got hdoing secure =>
      exact .got (hd.trans hdoing) (secure_step h secure (not_releases_of_not_ran hn))
    | failed hdoing fault outcome => exact .failed (hd.trans hdoing) fault (ho.trans outcome)

/-! Holding it. -/

/-- The call is one that, if it succeeds, leaves its thread with the mutex in slot `i`. -/
def Call.obtains (s : ServiceId) (i : Nat) : Call → Bool
  | .mutex s' _ (.lock i') | .mutex s' _ (.tryLock i') | .condWait s' _ i' _ =>
    s' == s && i' == i
  | _ => false

/-- The call gives the mutex in slot `i` up. -/
def Call.letsGo (s : ServiceId) (i : Nat) : Call → Bool
  | .mutex s' _ (.unlock i') | .condWait s' _ i' _ => s' == s && i' == i
  | _ => false

/-- Thread `t` makes a call that gives the mutex in slot `i` up. -/
def Event.letsGo (t : ThreadId) (s : ServiceId) (i : Nat) : Event → Bool
  | .invoke t' c => t' == t && c.letsGo s i
  | _ => false

/-- The instruction leads to mutex `m`, in slot `i`, being given up. -/
def PoolInstr.letsGo (s : ServiceId) (i : Nat) (m : MutexRef) : PoolInstr → Bool
  | .mutexFind s' i' .unlock | .mutexFind s' i' (.wait ..) | .condFind s' _ (.wait i' _) =>
    s' == s && i' == i
  | .giveUp k | .waitOwner _ _ k _ | .waitClock _ _ k _ => k == m
  | .waitRegister x | .waitGiveUp x _ => x.mutex == m
  | _ => false

theorem PoolInstr.letsGo_of_givesUp (h : j.givesUp m = true) : j.letsGo s i m = true := by
  cases j <;> first | exact h | cases h

/-- What leads to the mutex's being given up comes from what does, since it is in no other slot. -/
theorem PoolInstr.letsGo_of_next (r : Referring w) (hm : w.mutexAt s i = some m)
    (hk : firstPool (j.run t w).2 = some k) (h : k.letsGo s i m = true) :
    j.letsGo s i m = true := by
  cases leads_of_next hk with
  | giveUp s' i' v hv | waitOwner s' i' v c micros hv =>
    obtain rfl : v = m := by simpa [PoolInstr.letsGo] using h
    obtain ⟨rfl, rfl⟩ := r.unique (Slots.get_eq_ok.mp hv) hm
    simp [PoolInstr.letsGo]
  | _ => first | exact h | cases h

theorem Call.letsGo_of_code (h : firstPool (c.code w t) = some j) (hj : j.letsGo s i m = true) :
    c.letsGo s i = true := by
  cases c with
  | safePoint s' =>
    simp only [Call.code] at h
    split at h <;> cases h
  | mutex s' a c => cases a <;> cases c <;> cases h <;> exact hj
  | cond s' a c => cases a <;> cases c <;> cases h <;> cases hj
  | condWait s' c m' micros =>
    cases h
    exact hj
  | _ => cases h

/-- Thread `t` owns the mutex in slot `i`, and is not about to give it up. -/
structure World.Keeps (w : World) (t : ThreadId) (s : ServiceId) (i : Nat) (m : MutexRef) : Prop
    extends w.Secure s i m t where
  firm : ∀ j, w.doing t = some j → j.letsGo s i m = false

theorem keeps_step (h : Reachable n w) (a : w.Keeps t s i m) (he : e.letsGo t s i = false) :
    (w.step e).Keeps t s i m where
  toSecure := secure_step h a.toSecure (not_releases fun j hj => by
    refine Bool.eq_false_iff.mpr fun hg => ?_
    have hf := a.firm j hj
    rw [PoolInstr.letsGo_of_givesUp hg] at hf
    cases hf)
  firm k hk := by
    refine Bool.eq_false_iff.mpr fun hl => ?_
    -- what it is doing then, it is doing already, or it comes of what it is doing
    have before (j : PoolInstr) (hj : w.doing t = some j) (hl : j.letsGo s i m = true) : False := by
      have hf := a.firm j hj
      rw [hl] at hf
      cases hf
    cases hr : w.ran e with
    | some j =>
      obtain ⟨t', rest, rfl, hs⟩ := poolRun_of_ran hr
      by_cases ht : t = t'
      · subst ht
        obtain ⟨hd, hd'⟩ := hs.doing_pool h.pacing
        rw [hd'] at hk
        exact before j hd (PoolInstr.letsGo_of_next h.referring a.slot hk hl)
      · rw [hs.doing_of_ne ht] at hk
        exact before k hk hl
    | none =>
      rcases h.pacing.doing_of_not_ran hr t with hd | ⟨_, c, rfl, _, hd⟩
      · exact before k (hd.symm.trans hk) hl
      · have hc := Call.letsGo_of_code (hd.symm.trans hk) hl
        simp [Event.letsGo, hc] at he

/-- Thread `t` has made a call that obtains the mutex in slot `i`, has come back from it with success
or, after a wait, with its time run out, and has not made a call since that gives the mutex up.
Nobody found the mutex unowned, to free its slot, after the call had looked for it. -/
inductive Holds (n : Nat) (t : ThreadId) (s : ServiceId) (i : Nat) : World → Prop
  | got {w : World} {c : Call} {es : List Event} (reachable : Reachable n w)
      (call : c.obtains s i = true) (returns : w.Returns t c es)
      (outcome : ((w.step (.invoke t c)).run es).outcomeOf t = .value .unit ∨
        ((w.step (.invoke t c)).run es).outcomeOf t = .fault .timeout)
      (spares : (w.step (.invoke t c)).Along (fun w e => w.Spares t s i e) es) :
      Holds n t s i ((w.step (.invoke t c)).run es)
  | keep {w : World} {e : Event} (holds : Holds n t s i w) (firm : e.letsGo t s i = false) :
      Holds n t s i (w.step e)

theorem Call.isPooled_of_obtains (h : c.obtains s i = true) : c.isPooled = true := by
  cases c <;> first | rfl | cases h

theorem Call.looksFor_of_obtains (h : c.obtains s i = true) :
    ∃ j, firstPool (c.code w t) = some j ∧ j.looksFor s i = true := by
  cases c with
  | mutex s' a c =>
    cases c with
    | lock i' =>
      obtain ⟨rfl, rfl⟩ : s' = s ∧ i' = i := by simpa [obtains] using h
      cases a <;> exact ⟨_, rfl, by simp [PoolInstr.looksFor]⟩
    | tryLock i' =>
      obtain ⟨rfl, rfl⟩ : s' = s ∧ i' = i := by simpa [obtains] using h
      cases a <;> exact ⟨_, rfl, by simp [PoolInstr.looksFor]⟩
    | _ => cases h
  | condWait s' c i' micros => exact ⟨_, rfl, h⟩
  | _ => cases h

theorem Holds.reachable (h : Holds n t s i w) : Reachable n w := by
  induction h with
  | got hr => exact (hr.step _).run _
  | keep _ _ ih => exact ih.step _

theorem Holds.keeps (h : Holds n t s i w) : ∃ m, w.Keeps t s i m := by
  induction h with
  | @got w c es hr hc hret ho hs =>
    have hd := hret.doing_eq_none hr
    -- from the call to its return the thread seeks the mutex, and at its return it has done with it
    have hseeks := hret.induct hr (Call.isPooled_of_obtains hc) hs
      (fun w' hd _ _ => by
        obtain ⟨j, hj, hu⟩ := Call.looksFor_of_obtains (w := w) (t := t) hc
        exact World.Seeks.looks (hd.trans hj) hu)
      fun w e base hw hcall he hsp a => World.Seeks.step hw hcall he hsp a
    cases hseeks with
    | looks hdoing _ | found hdoing _ _ =>
      rw [hd] at hdoing
      cases hdoing
    | @got m _ secure =>
      refine ⟨m, secure, fun j hj => ?_⟩
      rw [hd] at hj
      cases hj
    | @failed f _ hf hfault =>
      rw [hfault] at ho
      rcases ho with ho | ho
      · cases ho
      -- the one fault after which the mutex is held is the timeout, and this was another
      · exact absurd (Outcome.fault.inj ho) hf
  | keep h he ih =>
    obtain ⟨m, a⟩ := ih
    exact ⟨m, keeps_step h.reachable a he⟩

/-! What the owner's own release and another's destruction come to. -/

/-- How far thread `t` has come in giving up the mutex in slot `i`, with no fault so far. -/
structure World.Unlocks (w : World) (t : ThreadId) (s : ServiceId) (i : Nat) (m : MutexRef) :
    Prop where
  outcome : w.outcomeOf t = .value .unit
  pending : ∀ j, w.doing t = some j →
    (j = .mutexFind s i .unlock ∨ j = .giveUp m) ∧ w.Secure s i m t

theorem World.Unlocks.step (h : Reachable n w) (hc : w.Calling t (.user :: base))
    (he : e.isBy t = false) (a : w.Unlocks t s i m) : (w.step e).Unlocks t s i m := by
  rcases hc.step_doing h.pacing he with ⟨j, rest, rfl, hr, hd, hd', ho⟩ | ⟨hn, hd, ho⟩
  · obtain ⟨rfl | rfl, b⟩ := a.pending j hd
    · have hg : (w.mutexSlots s).get i = .ok m := Slots.get_eq_ok.mpr b.slot
      constructor
      · rw [ho, PoolInstr.run, hg]
        exact a.outcome
      · intro k hk
        rw [hd', PoolInstr.run, hg] at hk
        obtain rfl := Option.some.inj hk
        refine ⟨Or.inr rfl, secure_step h b (not_releases fun j hj => ?_)⟩
        obtain rfl := Option.some.inj (hd.symm.trans hj)
        rfl
    -- the mutex is still the one found, and the thread owns it
    · have hg : (w.mutex m).giveUp t = .ok { owner := none } := by
        simp [PoolLock.giveUp, PoolLock.isOwnedBy, b.owned]
      constructor
      · rw [ho, PoolInstr.run, hg]
        exact a.outcome
      · intro k hk
        rw [hd', PoolInstr.run, hg] at hk
        cases hk
  · refine ⟨ho.trans a.outcome, fun j hj => ?_⟩
    rw [hd] at hj
    obtain ⟨hp, b⟩ := a.pending j hj
    exact ⟨hp, secure_step h b (not_releases_of_not_ran hn)⟩

theorem unlock_succeeds {a : Access} (h : Reachable n w) (b : w.Keeps t s i m)
    (hr : w.Returns t (.mutex s a (.unlock i)) es) :
    ((w.step (.invoke t (.mutex s a (.unlock i)))).run es).outcomeOf t = .value .unit := by
  have hb : (w.step (.invoke t (.mutex s a (.unlock i)))).Secure s i m t :=
    secure_step h b.toSecure fun hl => by cases hl.1
  have hq : (w.step (.invoke t (.mutex s a (.unlock i)))).Along (fun _ _ => True) es :=
    along_of_forall fun _ _ _ => trivial
  refine (hr.induct (P := fun w => w.Unlocks t s i m) h rfl hq (fun w' hd ho hw => ?_)
    fun w e base hw hc he _ a => a.step hw hc he).outcome
  refine ⟨ho, fun j hj => ?_⟩
  rw [hd] at hj
  refine ⟨Or.inl ?_, hw ▸ hb⟩
  cases a <;> exact (Option.some.inj hj).symm

/-- How far thread `t'` has come in vain in destroying the mutex in slot `i`, which `t` keeps. -/
inductive World.Balked (w : World) (t' : ThreadId) (s : ServiceId) (i : Nat) : Prop
  | looks (doing : w.doing t' = some (.mutexDispose s i))
  | found {m : MutexRef} (doing : w.doing t' = some (.mutexIdle s i m))
  | busy (doing : w.doing t' = none) (outcome : w.outcomeOf t' = .fault .busy)

theorem World.Balked.step (h : Reachable n w) (hc : w.Calling t' (.user :: base))
    (he : e.isBy t' = false) (b : w.Keeps t s i m) (a : w.Balked t' s i) :
    (w.step e).Balked t' s i := by
  rcases hc.step_doing h.pacing he with ⟨j, rest, rfl, hr, hd, hd', ho⟩ | ⟨_, hd, ho⟩
  · cases a with
    | looks hdoing =>
      obtain rfl := Option.some.inj (hd.symm.trans hdoing)
      have hg : (w.mutexSlots s).get i = .ok m := Slots.get_eq_ok.mpr b.slot
      refine .found (m := m) ?_
      rw [hd', PoolInstr.run, hg]
      rfl
    | @found m' hdoing =>
      obtain rfl := Option.some.inj (hd.symm.trans hdoing)
      have hm := (h.disposing.idle hdoing).1
      rw [b.slot] at hm
      obtain rfl := Option.some.inj hm
      -- the slot holds the mutex its keeper owns, so the destroyer finds it taken
      have hk : (w.mutex m).isTaken = true := by simp [PoolLock.isTaken, b.owned]
      refine .busy ?_ ?_
      · rw [hd', PoolInstr.run, if_pos hk]
        rfl
      · rw [ho, PoolInstr.run, if_pos hk, outcomeOf_fail hc.lt]
    | busy hdoing _ =>
      rw [hd] at hdoing
      cases hdoing
  · cases a with
    | looks hdoing => exact .looks (hd.trans hdoing)
    | found hdoing => exact .found (hd.trans hdoing)
    | busy hdoing outcome => exact .busy (hd.trans hdoing) (ho.trans outcome)

theorem destroy_is_busy {a : Access} (h : Reachable n w) (b : w.Keeps t s i m)
    (hr : w.Returns t' (.mutex s a (.destroy i)) es) (hes : ∀ e ∈ es, e.letsGo t s i = false) :
    ((w.step (.invoke t' (.mutex s a (.destroy i)))).run es).outcomeOf t' = .fault .busy := by
  have hb : (w.step (.invoke t' (.mutex s a (.destroy i)))).Keeps t s i m :=
    keeps_step h b (by simp [Event.letsGo, Call.letsGo])
  have hd := hr.doing_eq_none h
  have hs := hr.induct (P := fun w => w.Keeps t s i m ∧ w.Balked t' s i) h rfl
    (along_of_forall fun _ e he => hes e he)
    (fun w' hd _ hw => ⟨hw ▸ hb, .looks (by rw [hd]; cases a <;> rfl)⟩)
    fun w e base hw hc he hl a => ⟨keeps_step hw a.1 hl, a.2.step hw hc he a.1⟩
  cases hs.2 with
  | looks hdoing | found hdoing =>
    rw [hd] at hdoing
    cases hdoing
  | busy _ outcome => exact outcome

/-- A mutex that a thread holds is in its slot and is the thread's own, no other thread holds the
slot, the thread can give the mutex up, and nobody can destroy it until it does. -/
theorem held_mutex_is_owned_in_its_slot (h : Holds n t s i w) :
    (∃ m, w.mutexAt s i = some m ∧ (w.mutex m).owner = some t) ∧
    (∀ t', Holds n t' s i w → t' = t) ∧
    (∀ a es, w.Returns t (.mutex s a (.unlock i)) es →
      ((w.step (.invoke t (.mutex s a (.unlock i)))).run es).outcomeOf t = .value .unit) ∧
    (∀ t' a es, w.Returns t' (.mutex s a (.destroy i)) es →
      (∀ e ∈ es, e.letsGo t s i = false) →
      ((w.step (.invoke t' (.mutex s a (.destroy i)))).run es).outcomeOf t' = .fault .busy) := by
  obtain ⟨m, b⟩ := h.keeps
  refine ⟨⟨m, b.slot, b.owned⟩, fun t' h' => ?_, fun a es hr => unlock_succeeds h.reachable b hr,
    fun t' a es hr hes => destroy_is_busy h.reachable b hr hes⟩
  -- a slot names one mutex, and a mutex has one owner
  obtain ⟨m', b'⟩ := h'.keeps
  obtain rfl := Option.some.inj (b.slot.symm.trans b'.slot)
  exact Option.some.inj (b'.owned.symm.trans b.owned)

/-- The service is there and has a mutex. -/
def furnished : List Event :=
  .invoke 0 (.establish {}) :: turns 0 5 ++
    .invoke 0 (.mutex 0 .guarded (.create "m")) :: turns 0 12

/-- The first thread has locked the mutex. -/
def seized : World :=
  (((World.initial 2).run furnished).step (.invoke 0 (.mutex 0 .guarded (.lock 0)))).run
    (turns 0 20)

theorem seized_mutex_is_busy :
    ((seized.step (.invoke 1 (.mutex 0 .guarded (.destroy 0)))).run (turns 1 20)).outcomeOf 1 =
      .fault .busy := by
  have hc : ((World.initial 2).run furnished).Returns 0 (.mutex 0 .guarded (.lock 0))
      (turns 0 20) :=
    ⟨by decide +kernel, by decide, by decide +kernel⟩
  have h : Holds 2 0 0 0 seized :=
    .got ⟨furnished, rfl⟩ rfl hc (Or.inl (by decide +kernel)) (by decide +kernel)
  have hd : seized.Returns 1 (.mutex 0 .guarded (.destroy 0)) (turns 1 20) :=
    ⟨by decide +kernel, by decide, by decide +kernel⟩
  exact (held_mutex_is_owned_in_its_slot h).2.2.2 1 .guarded (turns 1 20) hd (by decide)

/-- Thread 1 has locked a mutex, and is going to wait with it. -/
def settled : List Event :=
  .invoke 0 (.establish {}) :: turns 0 5 ++
    .invoke 0 (.mutex 0 .guarded (.create "m")) :: turns 0 12 ++
    .invoke 0 (.cond 0 .guarded (.create "c")) :: turns 0 12 ++
    .invoke 1 (.mutex 0 .guarded (.lock 0)) :: turns 1 20

/-- It waits; the first thread destroys the mutex, which nobody owns, and signals; it is woken. -/
def unseated : List Event :=
  turns 1 24 ++ .invoke 0 (.mutex 0 .guarded (.destroy 0)) :: turns 0 20 ++
    .invoke 0 (.cond 0 .guarded (.signal 0)) :: turns 0 20 ++ turns 1 16

/-- The wait ends well, yet its slot holds no mutex, and so there is none to give up. -/
theorem waiter_comes_back_to_an_empty_slot :
    ((World.initial 2).run settled).Returns 1 (.condWait 0 0 0 none) unseated ∧
      ((((World.initial 2).run settled).step (.invoke 1 (.condWait 0 0 0 none))).run
        unseated).outcomeOf 1 = .value .unit ∧
      ((((World.initial 2).run settled).step (.invoke 1 (.condWait 0 0 0 none))).run
        unseated).mutexAt 0 0 = none ∧
      ((((((World.initial 2).run settled).step (.invoke 1 (.condWait 0 0 0 none))).run
        unseated).step (.invoke 1 (.mutex 0 .guarded (.unlock 0)))).run (turns 1 12)).outcomeOf 1 =
        .fault (.badArgument .slotIndex) := by
  refine ⟨⟨?_, ?_, ?_⟩, ?_, ?_, ?_⟩ <;> decide +kernel

end Standstill
