import Standstill.Proofs.WaitAnswer

/-!
A wait on a condition from its beginning to its end. The thread counts itself among the waiters before
it gives the mutex up, so whoever gets the mutex after it finds it there; it takes itself off once, and
comes back as the owner of the mutex again. Main statement: this is so of every wait whose thread owns
the mutex to begin with, and a wait whose thread does not is refused and leaves the pools alone. The two
places inside at which a wait could fail are never reached in a state in which it would.
-/
namespace Standstill

open World

variable {n : Nat} {w w' : World} {t t' : ThreadId} {c : CondRef} {m : MutexRef} {j k : PoolInstr}
  {base rest : List Instr} {e : Event} {es fs : List Event} {own : Bool} {o : Outcome}

/-! How often a thread does something on the pools. -/

namespace World

/-- The event lets thread `t` run an instruction on a pool object of which `p` holds. -/
def letsRun (w : World) (p : World → PoolInstr → Bool) (t : ThreadId) (e : Event) : Bool :=
  e == .advance t && (w.ran e).any (p w)

/-- How often thread `t` runs such an instruction on a run. -/
def tally (w : World) (p : World → PoolInstr → Bool) (t : ThreadId) : List Event → Nat
  | [] => 0
  | e :: es => (w.letsRun p t e).toNat + (w.step e).tally p t es

end World

theorem tally_snoc (p : World → PoolInstr → Bool) :
    w.tally p t (es ++ [e]) = w.tally p t es + ((w.run es).letsRun p t e).toNat := by
  induction es generalizing w with
  | nil => simp [tally, run]
  | cons e' es ih => rw [List.cons_append, tally, ih, tally, run_cons, Nat.add_assoc]

theorem letsRun_of_run {p : World → PoolInstr → Bool} (h : PoolRun w t (.pool j) rest w') :
    w.letsRun p t (.advance t) = p w j := by
  simp [letsRun, h.ran_eq]

theorem letsRun_of_not_ran {p : World → PoolInstr → Bool} (hr : e = .advance t → w.ran e = none) :
    w.letsRun p t e = false := by
  by_cases he : e = .advance t
  · simp [letsRun, hr he]
  · simp [letsRun, he]

namespace PoolInstr

/-- The instruction takes its thread off the waiters of condition `c`. -/
def retires (c : CondRef) : PoolInstr → Bool
  | .waitRetire x => x.cond == c
  | _ => false

/-- The instruction is one of those inside a wait that can fail, and run by thread `t` it would. -/
def failsInside (t : ThreadId) (w : World) : PoolInstr → Bool
  | .waitGiveUp x _ => !(w.mutex x.mutex).isOwnedBy t
  | .take _ m => (w.mutex m).isOwnedBy t
  | _ => false

end PoolInstr

/-- What a thread has done in a wait. -/
structure WaitTally where
  /-- How often it has put itself among the waiters. -/
  registered : Nat := 0
  /-- How often it has given the mutex up. -/
  released : Nat := 0
  /-- How many wake-ups it has used. -/
  served : Nat := 0
  /-- How often it has taken itself off the waiters. -/
  retired : Nat := 0

/-- What thread `t` does on condition `c` and mutex `m` on a run. -/
def World.waitTally (w : World) (t : ThreadId) (c : CondRef) (m : MutexRef) (es : List Event) :
    WaitTally where
  registered := w.tally (fun _ => PoolInstr.registers c) t es
  released := w.tally (fun _ => PoolInstr.givesUp m) t es
  served := w.tally PoolInstr.isServed t es
  retired := w.tally (fun _ => PoolInstr.retires c) t es

/-- The tally `k` after the event `e`. -/
def World.tallied (w : World) (t : ThreadId) (c : CondRef) (m : MutexRef) (e : Event)
    (k : WaitTally) : WaitTally where
  registered := k.registered + (w.letsRun (fun _ => PoolInstr.registers c) t e).toNat
  released := k.released + (w.letsRun (fun _ => PoolInstr.givesUp m) t e).toNat
  served := k.served + (w.letsRun PoolInstr.isServed t e).toNat
  retired := k.retired + (w.letsRun (fun _ => PoolInstr.retires c) t e).toNat

theorem waitTally_snoc : w.waitTally t c m (es ++ [e]) =
    (w.run es).tallied t c m e (w.waitTally t c m es) := by
  simp only [waitTally, tallied, tally_snoc]

theorem tallied_of_not_ran {k : WaitTally} (hr : e = .advance t → w.ran e = none) :
    w.tallied t c m e k = k := by
  simp only [tallied, letsRun_of_not_ran hr, Bool.toNat_false, Nat.add_zero]

/-! The stages of a wait. -/

/-- A wait that has used `served` wake-ups is going to answer `o`. -/
def IsWaitAnswer (o : Outcome) (served : Nat) : Prop :=
  o = .value .unit ∧ served = 1 ∨ o = .fault .timeout ∧ served = 0

/-- How far a thread has come in a wait on condition `c` with mutex `m`, which it owned at the
beginning if `own` holds: what it is doing, what it is going to answer, whether it owns the mutex, and
what it has done. -/
inductive WaitStage (c : CondRef) (m : MutexRef) (own : Bool) :
    Option PoolInstr → Outcome → Bool → WaitTally → Prop
  | asking (s : ServiceId) (micros : Option Nat) :
      WaitStage c m own (some (.waitOwner s c m micros)) (.value .unit) own {}
  | refused (h : own = false) : WaitStage c m own none (.fault .notOwner) false {}
  | entering (s : ServiceId) (micros : Option Nat) (h : own = true) :
      WaitStage c m own (some (.waitClock s c m micros)) (.value .unit) true {}
  | joining (s : ServiceId) (d : Option Nat) (h : own = true) :
      WaitStage c m own (some (.waitRegister ⟨s, c, m, d⟩)) (.value .unit) true {}
  | leaving (s : ServiceId) (d : Option Nat) (ticket : Nat) (h : own = true) :
      WaitStage c m own (some (.waitGiveUp ⟨s, c, m, d⟩ ticket)) (.value .unit) true ⟨1, 0, 0, 0⟩
  | looking (s : ServiceId) (d : Option Nat) (ticket : Nat) (h : own = true) :
      WaitStage c m own (some (.waitCheck ⟨s, c, m, d⟩ ticket)) (.value .unit) false ⟨1, 1, 0, 0⟩
  | retiring (s : ServiceId) (d : Option Nat) (o : Outcome) (k : Nat) (h : own = true)
      (hk : IsWaitAnswer o k) :
      WaitStage c m own (some (.waitRetire ⟨s, c, m, d⟩)) o false ⟨1, 1, k, 0⟩
  | taking (s : ServiceId) (o : Outcome) (k : Nat) (h : own = true) (hk : IsWaitAnswer o k) :
      WaitStage c m own (some (.take s m)) o false ⟨1, 1, k, 1⟩
  | retaking (s : ServiceId) (since : Nat) (o : Outcome) (k : Nat) (h : own = true)
      (hk : IsWaitAnswer o k) :
      WaitStage c m own (some (.retake s m since)) o false ⟨1, 1, k, 1⟩
  | done (o : Outcome) (k : Nat) (h : own = true) (hk : IsWaitAnswer o k) :
      WaitStage c m own none o true ⟨1, 1, k, 1⟩

/-- Thread `t` has come so far in world `w`. -/
def World.InWait (w : World) (t : ThreadId) (c : CondRef) (m : MutexRef) (own : Bool)
    (k : WaitTally) : Prop :=
  WaitStage c m own (w.doing t) (w.outcomeOf t) ((w.mutex m).isOwnedBy t) k

/-- Only the thread itself makes itself the owner of a mutex, or gives the mutex up. -/
theorem isOwnedBy_step (h : Reachable n w) (hr : e = .advance t → w.ran e = none) :
    ((w.step e).mutex m).isOwnedBy t = (w.mutex m).isOwnedBy t := by
  by_cases ho : (w.mutex m).owner = some t
  · have hn : ¬w.Releases t m e := by
      rintro ⟨rfl, i, below, hc, -⟩
      have hr := hr rfl
      rw [ran, head_eq, hc] at hr
      cases hr
    simp [PoolLock.isOwnedBy, ho, owner_step h ho hn]
  · simp [PoolLock.isOwnedBy, ho, not_owner_step h ho hr]

/-- What a thread in a wait runs on a pool object brings it to the next stage. -/
theorem WaitStage.next {k : WaitTally} (hl : t < w.threads.length) (hm : m < w.mutexes.length)
    (a : WaitStage c m own (some j) (w.outcomeOf t) ((w.mutex m).isOwnedBy t) k) :
    WaitStage c m own (firstPool (j.run t w).2) ((j.run t w).1.outcomeOf t)
      (((j.run t w).1.mutex m).isOwnedBy t)
      ⟨k.registered + (j.registers c).toNat, k.released + (j.givesUp m).toNat,
        k.served + (j.isServed w).toNat, k.retired + (j.retires c).toNat⟩ := by
  have failed (f : Fault) : (w.fail t f).outcomeOf t = .fault f := outcomeOf_fail hl
  have answers (v : World) (hv : v.threads = w.threads) : v.outcomeOf t = w.outcomeOf t := by
    simp only [outcomeOf, hv]
  have owner (v : World) (hv : v.mutexes = w.mutexes) : v.mutex m = w.mutex m := by
    rw [World.mutex, hv, World.mutex]
  have changed (v : World) (hv : v.mutexes = w.mutexes) (f : PoolLock → PoolLock) :
      (v.modMutex m f).mutex m = f (w.mutex m) := by
    rw [mutex_modMutex f (by rw [hv]; exact hm), if_pos rfl, owner v hv]
  generalize hout : w.outcomeOf t = o at a answers
  generalize hb : (w.mutex m).isOwnedBy t = b at a
  cases a with
  | asking s micros =>
    simp only [PoolInstr.run]
    cases own with
    | true =>
      simp only [hb, if_true, hout]
      exact .entering s micros rfl
    | false =>
      simp only [hb, Bool.false_eq_true, if_false, failed]
      rw [owner (w.fail t _) rfl, hb]
      exact .refused rfl
  | entering s micros h =>
    simp only [PoolInstr.run, hb, hout]
    exact .joining s _ h
  | joining s d h =>
    simp only [PoolInstr.run]
    rw [answers (w.modCond _ _) rfl, owner (w.modCond _ _) rfl, hb]
    simpa [PoolInstr.registers, PoolInstr.givesUp, PoolInstr.isServed, PoolInstr.cond?,
      PoolInstr.serves, PoolInstr.retires] using WaitStage.leaving s d _ h
  | leaving s d ticket h =>
    have hg : (w.mutex m).giveUp t = .ok { owner := none } := by simp [PoolLock.giveUp, hb]
    simp only [PoolInstr.run, hg]
    rw [answers (w.modMutex _ _) rfl, changed w rfl]
    simpa [PoolInstr.registers, PoolInstr.givesUp, PoolInstr.isServed, PoolInstr.cond?,
      PoolInstr.serves, PoolInstr.retires, PoolLock.isOwnedBy] using WaitStage.looking s d ticket h
  | looking s d ticket h =>
    have hserved := PoolInstr.isServed_waitCheck (w := w) ⟨s, c, m, d⟩ ticket
    simp only [PoolInstr.run]
    by_cases hw : (w.cond c).mayWake ticket = true
    · simp only [hw, if_true]
      rw [answers (w.modCond _ _) rfl, owner (w.modCond _ _) rfl, hb, hserved, hw]
      exact .retiring s d _ 1 h (Or.inl ⟨rfl, rfl⟩)
    · simp only [hw, Bool.false_eq_true, if_false]
      rw [Bool.not_eq_true] at hw
      by_cases hd : w.isDue d = true
      · simp only [hd, if_true]
        rw [failed, owner (w.fail t _) rfl, hb, hserved, hw]
        exact .retiring s d _ 0 h (Or.inr ⟨rfl, rfl⟩)
      · simp only [hd, Bool.false_eq_true, if_false]
        rw [answers w rfl, hb, hserved, hw]
        exact .looking s d ticket h
  | retiring s d o k h hk =>
    simp only [PoolInstr.run]
    rw [answers (w.modCond _ _) rfl, owner (w.modCond _ _) rfl, hb]
    simpa [PoolInstr.registers, PoolInstr.givesUp, PoolInstr.isServed, PoolInstr.cond?,
      PoolInstr.serves, PoolInstr.retires, takeCode, locked] using WaitStage.taking s o k h hk
  | taking s o k h hk =>
    -- the thread does not own the mutex, so it takes it or sleeps
    simp only [PoolInstr.run, hb, Bool.false_eq_true, if_false]
    by_cases ht : (w.mutex m).isTaken = true
    · simp only [ht, if_true]
      rw [answers w rfl, hb]
      exact .retaking s _ o k h hk
    · simp only [ht, Bool.false_eq_true, if_false]
      rw [answers (w.modMutex _ _) rfl, changed w rfl]
      simpa [PoolLock.take, PoolLock.isOwnedBy, PoolInstr.registers, PoolInstr.givesUp,
        PoolInstr.isServed, PoolInstr.cond?, PoolInstr.serves, PoolInstr.retires] using
        WaitStage.done o k h hk
  | retaking s since o k h hk =>
    simp only [PoolInstr.run]
    by_cases ht : (w.mutex m).isTaken = true
    · simp only [ht, if_true]
      rw [answers w rfl, hb]
      exact .retaking s _ o k h hk
    · simp only [ht, Bool.false_eq_true, if_false]
      rw [answers ((w.count _ _).modMutex _ _) rfl, changed (w.count _ _) rfl]
      simpa [PoolLock.take, PoolLock.isOwnedBy, PoolInstr.registers, PoolInstr.givesUp,
        PoolInstr.isServed, PoolInstr.cond?, PoolInstr.serves, PoolInstr.retires] using
        WaitStage.done o k h hk

theorem WaitStage.mutex_eq {b : Bool} {k : WaitTally} (a : WaitStage c m own (some j) o b k) :
    j.mutex? = some m := by
  cases a <;> rfl

theorem World.InWait.step {k : WaitTally} (h : Reachable n w) (hc : w.Calling t (.user :: base))
    (he : e.isBy t = false) (a : w.InWait t c m own k) :
    (w.step e).InWait t c m own (w.tallied t c m e k) := by
  rcases hc.step_doing h.pacing he with ⟨j, rest, rfl, hr, hd, hd', ho⟩ | ⟨hn, hd, ho⟩
  · have hx : (w.step (.advance t)).mutex m = (j.run t w).1.mutex m := by
      have hp : (w.step (.advance t)).mutexes = (j.run t w).1.mutexes := congrArg Prod.fst hr.pools
      rw [World.mutex, hp, World.mutex]
    unfold World.InWait at a ⊢
    simp only [tallied, letsRun_of_run hr]
    rw [hd', ho, hx]
    rw [hd] at a
    exact a.next hc.lt (h.referring.mutexCode (mem_poolCode_of_doing hd) a.mutex_eq)
  · unfold World.InWait
    rw [hd, ho, isOwnedBy_step h hn, tallied_of_not_ran hn]
    exact a

/-! What the stages say. -/

namespace WaitStage

variable {d : Option PoolInstr} {b : Bool} {k : WaitTally}

/-- A thread counts among the waiters from its registration until it takes itself off. -/
theorem isRegistered_iff (a : WaitStage c m own d o b k) :
    (∃ j, d = some j ∧ j.isRegistered c = true) ↔ k.registered = 1 ∧ k.retired = 0 := by
  cases a <;> simp [PoolInstr.isRegistered]

/-- It does not give the mutex up before it is registered. -/
theorem registered_of_released (a : WaitStage c m own d o b k) (h : 0 < k.released) :
    k.registered = 1 := by
  cases a <;> first | rfl | exact absurd h (Nat.lt_irrefl 0)

/-- It takes itself off only with a wake-up used or when its time is up. -/
theorem answer_of_retired (a : WaitStage c m own d o b k) (h : 0 < k.retired) :
    k.retired = 1 ∧ IsWaitAnswer o k.served := by
  cases a with
  | taking s o k _ hk | retaking s since o k _ hk | done o k _ hk => exact ⟨rfl, hk⟩
  | _ => exact absurd h (Nat.lt_irrefl 0)

theorem answer_of_refused (a : WaitStage c m false d o b k) (hd : d = none) :
    o = .fault .notOwner := by
  cases a with
  | refused => rfl
  | done _ _ h => exact absurd h Bool.false_ne_true
  | _ => cases hd

theorem done_of_none (a : WaitStage c m true d o b k) (hd : d = none) :
    (o = .value .unit ∨ o = .fault .timeout) ∧ b = true ∧
      k.registered = 1 ∧ k.released = 1 ∧ k.retired = 1 := by
  cases a with
  | refused h => exact absurd h.symm Bool.false_ne_true
  | done o k _ hk => exact ⟨hk.imp And.left And.left, rfl, rfl, rfl, rfl⟩
  | _ => cases hd

theorem failsInside_eq (a : WaitStage c m own (some j) o ((w.mutex m).isOwnedBy t) k) :
    j.failsInside t w = false := by
  generalize hb : (w.mutex m).isOwnedBy t = b at a
  cases a with
  | leaving | taking => simp [PoolInstr.failsInside, hb]
  | _ => rfl

theorem pools_of_refused (a : WaitStage c m false (some j) o ((w.mutex m).isOwnedBy t) k) :
    (j.run t w).1.pools = w.pools := by
  generalize hb : (w.mutex m).isOwnedBy t = b at a
  cases a with
  | asking s micros =>
    simp only [PoolInstr.run, hb, Bool.false_eq_true, if_false]
    rfl
  | entering _ _ h | joining _ _ h | leaving _ _ _ h | looking _ _ _ h | retiring _ _ _ _ h
  | taking _ _ _ h | retaking _ _ _ _ h => cases h

end WaitStage

/-! The thread that comes to a wait. -/

theorem PoolInstr.unsettled_of_next (h : firstPool (j.run t w).2 = some k)
    (hk : k.isUnsettled = true) :
    j.isUnsettled = true ∧ (j.run t w).1.outcomeOf t = w.outcomeOf t := by
  have hj : j.isUnsettled = true := by
    cases PoolInstr.leads_of_next h <;> first | rfl | cases hk
  refine ⟨hj, ?_⟩
  rcases PoolInstr.unsettled_next (t := t) (w := w) hj with
    ⟨_, _, _, _, ho, _⟩ | ⟨x, _, _, hx, _⟩ | ⟨hn, _⟩
  · exact ho
  · obtain rfl := Option.some.inj (hx.symm.trans h)
    cases hk
  · cases hn.symm.trans h

theorem Call.isPooled_of_code {c : Call} (h : firstPool (c.code w t) = some j) :
    c.isPooled = true := by
  cases c with
  | safePoint s =>
    simp only [Call.code] at h
    split at h <;> cases h
  | mutex | cond | condWait => rfl
  | _ => cases h

/-- A thread that is not in code of its own can neither make a call nor end. -/
theorem step_of_isBy (hu : w.inUser t = false) (he : e.isBy t = true) : w.step e = w := by
  cases e with
  | invoke q c | finish q p =>
    obtain rfl : q = t := by simpa [Event.isBy] using he
    simp [World.step, World.invoke, World.finish, hu]
  | _ => cases he

/-- A thread in a wait that is not settled has made a call, and has answered nothing yet. -/
theorem Reachable.calling_of_unsettled (h : Reachable n w) (hd : w.doing t = some j)
    (hj : j.isUnsettled = true) :
    w.outcomeOf t = .value .unit ∧ ∃ base, w.Calling t (.user :: base) := by
  revert t j
  refine h.induct (P := fun w => ∀ {t j}, w.doing t = some j → j.isUnsettled = true →
    w.outcomeOf t = .value .unit ∧ ∃ base, w.Calling t (.user :: base)) ?_ ?_
  · intro t j hd
    rw [doing_initial] at hd
    cases hd
  intro w e h ih t k hd hk
  -- the thread has run something that leads to this, or was at it before, or has made the call
  have before : (∃ j, w.doing t = some j ∧ j.isUnsettled = true) ∨
      ∃ c, e = .invoke t c ∧ w.inUser t = true ∧ firstPool (c.code w t) = some k := by
    cases hr : w.ran e with
    | some j =>
      obtain ⟨q, rest, rfl, hs⟩ := poolRun_of_ran hr
      by_cases hq : t = q
      · subst hq
        obtain ⟨hd', hnext⟩ := hs.doing_pool h.pacing
        exact Or.inl ⟨j, hd', (PoolInstr.unsettled_of_next (hnext.symm.trans hd) hk).1⟩
      · rw [hs.doing_of_ne hq] at hd
        exact Or.inl ⟨k, hd, hk⟩
    | none =>
      rcases h.pacing.doing_of_not_ran hr t with hd' | ⟨-, c, rfl, hu, hd'⟩
      · exact Or.inl ⟨k, hd' ▸ hd, hk⟩
      · exact Or.inr ⟨c, rfl, hu, hd' ▸ hd⟩
  rcases before with ⟨j, hj, hu⟩ | ⟨c, rfl, hu, hcode⟩
  · obtain ⟨ho, base, hc⟩ := ih hj hu
    cases he : e.isBy t with
    | true =>
      have hn : w.inUser t = false := by
        by_contra hn
        obtain ⟨below, hcode⟩ := head_user (Bool.not_eq_false _ ▸ hn)
        cases (h.pacing.doing_of_user hcode).symm.trans hj
      rw [step_of_isBy hn he]
      exact ⟨ho, base, hc⟩
    | false =>
      refine ⟨?_, base, hc.step he⟩
      rcases hc.step_doing h.pacing he with ⟨i, rest, rfl, hr, hi, hnext, hout⟩ | ⟨-, -, hout⟩
      · rw [hout, (PoolInstr.unsettled_of_next (hnext.symm.trans hd) hk).2, ho]
      · rw [hout, ho]
  · obtain ⟨base, hbase⟩ := head_user hu
    obtain ⟨hc, ho, -⟩ := invoke_pooled hu (Call.isPooled_of_code hcode)
    exact ⟨ho, base, hbase ▸ hc⟩

/-! The theorem. -/

/-- What thread `t`, the owner of mutex `m` at the beginning, does in a wait on condition `c` that it
has come through on the run `es`. -/
structure World.WaitsThrough (w : World) (t : ThreadId) (c : CondRef) (m : MutexRef)
    (es : List Event) : Prop where
  answers : (w.run es).outcomeOf t = .value .unit ∨ (w.run es).outcomeOf t = .fault .timeout
  owns : ((w.run es).mutex m).owner = some t
  /-- It registers once, gives the mutex up once and takes itself off once. -/
  once : (w.waitTally t c m es).registered = 1 ∧ (w.waitTally t c m es).released = 1 ∧
    (w.waitTally t c m es).retired = 1
  /-- Neither giving the mutex up nor taking it again ever fails. -/
  smooth : w.Along (fun v e => v.letsRun (PoolInstr.failsInside t) t e = false) es
  /-- It counts among the waiters from its registration until it takes itself off. -/
  counts : ∀ fs, fs <+: es → (t ∈ (w.run fs).waitersOf c ↔
    (w.waitTally t c m fs).registered = 1 ∧ (w.waitTally t c m fs).retired = 0)
  /-- There are as many waiters as threads that count among them, so this takes one off. -/
  exact : ∀ fs, fs <+: es → ((w.run fs).cond c).waiters = ((w.run fs).waitersOf c).card
  /-- Whoever signals after it has given the mutex up finds it among the waiters, unless it has used
  a wake-up from before, or run out of time, and has taken itself off. -/
  heard : ∀ fs q j gs, es = fs ++ .advance q :: gs → (w.run fs).ran (.advance q) = some j →
    j = .signal c ∨ j = .broadcast c → 0 < (w.waitTally t c m fs).released →
      t ∈ (w.run fs).waitersOf c ∧ 0 < ((w.run fs).cond c).waiters ∨
      (w.waitTally t c m fs).retired = 1 ∧
        ((w.waitTally t c m fs).served = 1 ∨ (w.run fs).outcomeOf t = .fault .timeout)

theorem inWait_run (h : Reachable n w) {s : ServiceId} {micros : Option Nat}
    (hd : w.doing t = some (.waitOwner s c m micros)) (hb : ∀ e ∈ es, e.isBy t = false) :
    (w.run es).InWait t c m ((w.mutex m).isOwnedBy t) (w.waitTally t c m es) := by
  obtain ⟨ho, base, hc⟩ := h.calling_of_unsettled hd rfl
  induction es using List.reverseRecOn with
  | nil =>
    unfold World.InWait
    rw [World.run, List.foldl_nil, hd, ho]
    exact .asking s micros
  | append_singleton es e ih =>
    have hb' : ∀ e ∈ es, e.isBy t = false := fun e he => hb e (List.mem_append_left _ he)
    have hcall : (w.run es).Calling t (.user :: base) :=
      hc.run (P := fun v => v.Calling t (.user :: base)) h hb' (along_of_forall fun _ _ _ => trivial)
        hc fun _ _ _ hc he _ _ => hc.step he
    rw [waitTally_snoc, run_snoc]
    exact (ih hb').step (h.run es) hcall (hb e (by simp))

/-- A wait on a condition is refused, and leaves the pools alone, exactly if its thread does not own
the mutex when it begins. Otherwise the thread registers once, gives the mutex up once, takes itself
off once, comes back with success or a time-out and owns the mutex again. -/
theorem wait_keeps_its_place_and_its_mutex (h : Reachable n w) {s : ServiceId} {micros : Option Nat}
    (hd : w.doing t = some (.waitOwner s c m micros)) (hb : ∀ e ∈ es, e.isBy t = false)
    (hend : (w.run es).doing t = none) :
    ((w.mutex m).owner ≠ some t → (w.run es).outcomeOf t = .fault .notOwner ∧
      w.Along (fun v e => e = .advance t → (v.step e).pools = v.pools) es) ∧
    ((w.mutex m).owner = some t → w.WaitsThrough t c m es) := by
  have stage (fs : List Event) (hfs : fs <+: es) :
      (w.run fs).InWait t c m ((w.mutex m).isOwnedBy t) (w.waitTally t c m fs) :=
    inWait_run h hd fun e he => hb e (hfs.subset he)
  have last := stage es List.prefix_rfl
  -- what the thread runs on a pool object is what it is doing
  have ran {fs gs : List Event} {e : Event} {j : PoolInstr} (hes : es = fs ++ e :: gs)
      (he : e = .advance t) (hj : (w.run fs).ran e = some j) :
      (w.run fs).doing t = some j ∧ ((w.run fs).step e).pools = (j.run t (w.run fs)).1.pools := by
    subst he
    obtain ⟨q, rest, hq, hs⟩ := poolRun_of_ran hj
    obtain rfl := Event.advance.inj hq
    exact ⟨(hs.doing_pool (h.run fs).pacing).1, hs.pools⟩
  constructor
  · intro hown
    have hfalse : (w.mutex m).isOwnedBy t = false := by simpa [PoolLock.isOwnedBy] using hown
    rw [hfalse] at stage last
    refine ⟨last.answer_of_refused hend, along_iff.mpr fun fs e gs hes he => ?_⟩
    cases hj : (w.run fs).ran e with
    | none => exact (h.run fs).pacing.pools_of_not_ran hj
    | some j =>
      obtain ⟨hd', hp⟩ := ran hes he hj
      have hst := stage fs ⟨e :: gs, hes.symm⟩
      rw [World.InWait, hd'] at hst
      rw [hp, hst.pools_of_refused]
  · intro hown
    have htrue : (w.mutex m).isOwnedBy t = true := by simp [PoolLock.isOwnedBy, hown]
    rw [htrue] at stage last
    have counts (fs : List Event) (hfs : fs <+: es) : t ∈ (w.run fs).waitersOf c ↔
        (w.waitTally t c m fs).registered = 1 ∧ (w.waitTally t c m fs).retired = 0 := by
      rw [mem_waitersOf]
      exact (stage fs hfs).isRegistered_iff
    have exact (fs : List Event) : ((w.run fs).cond c).waiters = ((w.run fs).waitersOf c).card :=
      (h.run fs).booked.counted c
    obtain ⟨hans, howns, honce⟩ := last.done_of_none hend
    refine ⟨hans, ?_, honce, along_iff.mpr fun fs e gs hes => ?_, counts, fun fs _ => exact fs, ?_⟩
    · simpa [PoolLock.isOwnedBy] using howns
    · cases hl : (w.run fs).letsRun (PoolInstr.failsInside t) t e with
      | false => rfl
      | true =>
        obtain ⟨he, hj⟩ : e = .advance t ∧ ((w.run fs).ran e).any (PoolInstr.failsInside t (w.run fs)) := by
          simpa [letsRun] using hl
        obtain ⟨j, hj, hf⟩ := (Option.any_eq_true _ _).mp hj
        obtain ⟨hd', -⟩ := ran hes he hj
        have hst := stage fs ⟨e :: gs, hes.symm⟩
        rw [World.InWait, hd'] at hst
        rw [hst.failsInside_eq] at hf
        cases hf
    · intro fs q j gs hes _ _ hrel
      have hfs : fs <+: es := ⟨_, hes.symm⟩
      have hst := stage fs hfs
      by_cases hret : 0 < (w.waitTally t c m fs).retired
      · right
        obtain ⟨h1, ⟨-, hk⟩ | ⟨ho, -⟩⟩ := hst.answer_of_retired hret
        · exact ⟨h1, Or.inl hk⟩
        · exact ⟨h1, Or.inr ho⟩
      · left
        have ht := (counts fs hfs).mpr ⟨hst.registered_of_released hrel, by omega⟩
        refine ⟨ht, ?_⟩
        rw [exact fs]
        exact Finset.card_pos.mpr ⟨t, ht⟩

/-- Thread 1 has looked up its condition and its mutex and comes to the wait itself. -/
def entering : List Event :=
  .invoke 0 (.establish {}) :: turns 0 5 ++
    .invoke 0 (.mutex 0 .raw (.create "m")) :: turns 0 4 ++
    .invoke 0 (.cond 0 .raw (.create "c")) :: turns 0 4 ++
    .invoke 1 (.mutex 0 .raw (.lock 0)) :: turns 1 6 ++
    .invoke 1 (.condWait 0 0 0 none) :: turns 1 8

/-- It falls asleep; thread 0 takes the mutex, signals and gives the mutex up; thread 1 comes back. -/
def signalledInTurn : List Event :=
  turns 1 14 ++ .invoke 0 (.mutex 0 .raw (.lock 0)) :: turns 0 8 ++
    .invoke 0 (.cond 0 .raw (.signal 0)) :: turns 0 8 ++
    .invoke 0 (.mutex 0 .raw (.unlock 0)) :: turns 0 8 ++ turns 1 20

theorem signalled_waiter_keeps_its_place :
    ((World.initial 2).run entering).WaitsThrough 1 0 0 signalledInTurn ∧
      (((World.initial 2).run entering).run signalledInTurn).outcomeOf 1 = .value .unit := by
  have h : Reachable 2 ((World.initial 2).run entering) := ⟨entering, rfl⟩
  have hd : ((World.initial 2).run entering).doing 1 = some (.waitOwner 0 0 0 none) := by
    decide +kernel
  have hend : (((World.initial 2).run entering).run signalledInTurn).doing 1 = none := by
    decide +kernel
  have hown : (((World.initial 2).run entering).mutex 0).owner = some 1 := by decide +kernel
  obtain ⟨-, hwait⟩ := wait_keeps_its_place_and_its_mutex h hd (by decide) hend
  exact ⟨hwait hown, by decide +kernel⟩

end Standstill
