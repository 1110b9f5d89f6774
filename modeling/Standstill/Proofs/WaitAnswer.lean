import Standstill.Proofs.CallAnswer
import Standstill.Proofs.CondLedger

/-!
How a wait on a condition ends. What the call answers is settled when its thread looks at the
condition: it comes back with success if it uses a wake-up there, and has used none otherwise. Main
statement: the waits that succeed and the wake-ups that stand make up all that were issued, and those
that stand are covered by waiters who may use them.
-/
namespace Standstill

open World

variable {n : Nat} {w w' : World} {t t' : ThreadId} {s : ServiceId} {i : Nat} {j k : PoolInstr}
  {base rest : List Instr} {e : Event} {es : List Event} {m : MutexRef} {x : CondWait} {o : Outcome}

namespace PoolInstr

/-- The instruction belongs to a wait of which nothing is settled yet. -/
def isUnsettled : PoolInstr → Bool
  | .condFind _ _ (.wait ..) | .mutexFind _ _ (.wait ..) | .waitOwner .. | .waitClock ..
  | .waitRegister _ | .waitGiveUp .. | .waitCheck .. => true
  | _ => false

/-- The mutex that is taken again at the end of a wait. -/
def retaken? : PoolInstr → Option MutexRef
  | .waitRetire x => some x.mutex
  | .take _ m | .retake _ m _ => some m
  | _ => none

/-- The instruction uses a wake-up. -/
def isServed (w : World) (j : PoolInstr) : Bool := j.cond?.any fun c => j.serves c (w.cond c)

theorem isServed_waitCheck (x : CondWait) (ticket : Nat) :
    isServed w (.waitCheck x ticket) = (w.cond x.cond).mayWake ticket := by
  simp [isServed, cond?, serves]

/-- A wait goes on as it is, or it is settled: with a wake-up used, or with a fault. -/
theorem unsettled_next (h : j.isUnsettled = true) :
    (∃ k, firstPool (j.run t w).2 = some k ∧ k.isUnsettled = true ∧ j.isServed w = false ∧
      (j.run t w).1.outcomeOf t = w.outcomeOf t ∧
      ∀ x ticket, k = .waitCheck x ticket → j = .waitGiveUp x ticket ∨ j = .waitCheck x ticket) ∨
    (∃ x ticket, j = .waitCheck x ticket ∧ firstPool (j.run t w).2 = some (.waitRetire x) ∧
      (j.isServed w = true ∧ (j.run t w).1.outcomeOf t = w.outcomeOf t ∨
        j.isServed w = false ∧ ∃ f, (j.run t w).1 = w.fail t f)) ∨
    firstPool (j.run t w).2 = none ∧ j.isServed w = false ∧ ∃ f, (j.run t w).1 = w.fail t f := by
  cases j with
  -- on the way into the wait a search can only fail or go on
  | condFind s c use =>
    cases use with
    | wait i micros =>
      simp only [PoolInstr.run]
      split
      · exact Or.inr (Or.inr ⟨rfl, rfl, _, rfl⟩)
      · exact Or.inl ⟨_, rfl, rfl, rfl, rfl, fun _ _ he => by cases he⟩
    | _ => cases h
  | mutexFind s i use =>
    cases use with
    | wait c micros =>
      simp only [PoolInstr.run]
      split
      · exact Or.inr (Or.inr ⟨rfl, rfl, _, rfl⟩)
      · exact Or.inl ⟨_, rfl, rfl, rfl, rfl, fun _ _ he => by cases he⟩
    | _ => cases h
  | waitOwner s c m micros =>
    simp only [PoolInstr.run]
    split
    · exact Or.inl ⟨_, rfl, rfl, rfl, rfl, fun _ _ he => by cases he⟩
    · exact Or.inr (Or.inr ⟨rfl, rfl, _, rfl⟩)
  | waitClock s c m micros => exact Or.inl ⟨_, rfl, rfl, rfl, rfl, fun _ _ he => by cases he⟩
  | waitRegister x => exact Or.inl ⟨_, rfl, rfl, rfl, rfl, fun _ _ he => by cases he⟩
  | waitGiveUp x ticket =>
    simp only [PoolInstr.run]
    split
    · exact Or.inr (Or.inr ⟨rfl, rfl, _, rfl⟩)
    · refine Or.inl ⟨_, rfl, rfl, rfl, rfl, fun y k he => Or.inl ?_⟩
      obtain ⟨rfl, rfl⟩ := PoolInstr.waitCheck.inj he
      rfl
  -- the look at the ticket is the one place where a wait is settled for good
  | waitCheck x ticket =>
    simp only [PoolInstr.run]
    split
    next hm =>
      rw [← isServed_waitCheck] at hm
      exact Or.inr (Or.inl ⟨x, ticket, rfl, rfl, Or.inl ⟨hm, rfl⟩⟩)
    next hm =>
      rw [← isServed_waitCheck, Bool.not_eq_true] at hm
      split
      · exact Or.inr (Or.inl ⟨x, ticket, rfl, rfl, Or.inr ⟨hm, _, rfl⟩⟩)
      · exact Or.inl ⟨_, rfl, rfl, hm, rfl, fun y k he => Or.inr he⟩
  | _ => cases h

/-- Whoever has nothing left but to take a mutex that is not its own comes to take it. -/
theorem retaken_next (h : j.retaken? = some m) (ho : (w.mutex m).owner ≠ some t) :
    (j.run t w).1.outcomeOf t = w.outcomeOf t ∧
      ∀ k, firstPool (j.run t w).2 = some k → k.retaken? = some m ∧
        ((j.run t w).1.mutex m).owner ≠ some t := by
  cases j with
  | waitRetire x =>
    obtain rfl := Option.some.inj h
    refine ⟨rfl, fun k hk => ?_⟩
    obtain rfl := Option.some.inj hk
    exact ⟨rfl, ho⟩
  | take s k =>
    obtain rfl := Option.some.inj h
    have hn : (w.mutex k).isOwnedBy t = false := by simpa [PoolLock.isOwnedBy] using ho
    simp only [PoolInstr.run, hn, Bool.false_eq_true, if_false]
    split
    · refine ⟨rfl, fun k' hk => ?_⟩
      obtain rfl := Option.some.inj hk
      exact ⟨rfl, ho⟩
    · exact ⟨rfl, fun k' hk => by cases hk⟩
  | retake s k since =>
    obtain rfl := Option.some.inj h
    simp only [PoolInstr.run]
    split
    · refine ⟨rfl, fun k' hk => ?_⟩
      obtain rfl := Option.some.inj hk
      exact ⟨rfl, ho⟩
    · exact ⟨rfl, fun k' hk => by cases hk⟩
  | _ => cases h

end PoolInstr

/-- Thread `t` is in a wait that is not settled. -/
structure World.Waits (w : World) (t : ThreadId) : Prop where
  pending : ∃ j, w.doing t = some j ∧ j.isUnsettled = true
  outcome : w.outcomeOf t = .value .unit
  unowned : ∀ x ticket, w.doing t = some (.waitCheck x ticket) → (w.mutex x.mutex).owner ≠ some t

/-- Thread `t` is going to answer `o`, and has nothing left but to take a mutex again. -/
structure World.Settled (w : World) (t : ThreadId) (o : Outcome) : Prop where
  pending : ∀ j, w.doing t = some j → ∃ m, j.retaken? = some m ∧ (w.mutex m).owner ≠ some t
  outcome : w.outcomeOf t = o

/-- Nobody but the thread itself makes it the owner of a mutex. -/
theorem not_owner_step (h : Reachable n w) (ho : (w.mutex m).owner ≠ some t)
    (hr : e = .advance t → w.ran e = none) : ((w.step e).mutex m).owner ≠ some t := by
  rcases h.pacing.step_pools e with ⟨t', ins, rest, rfl, hs⟩ | hs
  · rcases hs.mutex h.referring m with he | ⟨j, rfl, ⟨_, _, ho'⟩ | ⟨_, _, ho', _⟩⟩
    · rw [he]
      exact ho
    · rw [ho']
      rintro he
      obtain rfl := Option.some.inj he
      rw [hs.ran_eq] at hr
      cases hr rfl
    · rw [ho']
      simp
  · rw [mutex_congr hs.pools]
    exact ho

/-- Whether the event lets thread `t` use a wake-up. -/
def World.serves (w : World) (t : ThreadId) (e : Event) : Bool :=
  e == .advance t && (w.ran e).any (·.isServed w)

/-- How many wake-ups thread `t` uses on a run. -/
def World.servings (w : World) (t : ThreadId) : List Event → Nat
  | [] => 0
  | e :: es => (if w.serves t e then 1 else 0) + (w.step e).servings t es

theorem serves_of_run (h : PoolRun w t (.pool j) rest w') :
    w.serves t (.advance t) = j.isServed w := by
  simp [World.serves, h.ran_eq]

theorem serves_of_not_ran (hr : e = .advance t → w.ran e = none) : w.serves t e = false := by
  by_cases he : e = .advance t
  · simp [World.serves, hr he]
  · simp [World.serves, he]

theorem World.Settled.step (h : Reachable n w) (hc : w.Calling t (.user :: base))
    (he : e.isBy t = false) (a : w.Settled t o) :
    (w.step e).Settled t o ∧ w.serves t e = false := by
  rcases hc.step_doing h.pacing he with ⟨j, rest, rfl, hr, hd, hd', ho⟩ | ⟨hn, hd, ho⟩
  · obtain ⟨m, hj, hm⟩ := a.pending j hd
    obtain ⟨hout, hnext⟩ := PoolInstr.retaken_next hj hm
    refine ⟨⟨fun k hk => ?_, ho.trans (hout.trans a.outcome)⟩, ?_⟩
    · obtain ⟨hk, hown⟩ := hnext k (hd'.symm.trans hk)
      refine ⟨m, hk, ?_⟩
      rw [mutex_congr hr.pools]
      exact hown
    · rw [serves_of_run hr]
      cases j <;> first | rfl | cases hj
  · refine ⟨⟨fun j hj => ?_, ho.trans a.outcome⟩, serves_of_not_ran hn⟩
    rw [hd] at hj
    obtain ⟨m, hj, hm⟩ := a.pending j hj
    exact ⟨m, hj, not_owner_step h hm hn⟩

theorem World.Waits.step (h : Reachable n w) (hc : w.Calling t (.user :: base))
    (he : e.isBy t = false) (a : w.Waits t) :
    (w.step e).Waits t ∧ w.serves t e = false ∨
      ∃ o, (w.step e).Settled t o ∧ (w.serves t e = true ↔ o = .value .unit) := by
  rcases hc.step_doing h.pacing he with ⟨j, rest, rfl, hr, hd, hd', ho⟩ | ⟨hn, hd, ho⟩
  · obtain ⟨j', hj', hu⟩ := a.pending
    obtain rfl := Option.some.inj (hd.symm.trans hj')
    -- a look at the condition leaves the mutexes alone
    have looked {x : CondWait} {ticket : Nat} (hj : j = .waitCheck x ticket) :
        ((w.step (.advance t)).mutex x.mutex).owner ≠ some t := by
      subst hj
      rcases hr.mutex h.referring x.mutex with he | ⟨_, hj, ⟨ht, _⟩ | ⟨hg, _⟩⟩
      · rw [he]
        exact a.unowned x ticket hd
      · obtain rfl := Instr.pool.inj hj
        cases ht
      · obtain rfl := Instr.pool.inj hj
        cases hg
    rcases PoolInstr.unsettled_next (t := t) (w := w) hu with
      ⟨k, hk, huk, hns, hout, hlook⟩ | ⟨x, ticket, hj, hnext, hs⟩ | ⟨hnone, hns, f, hf⟩
    · left
      refine ⟨⟨⟨k, hd'.trans hk, huk⟩, ho.trans (hout.trans a.outcome), fun x ticket hx => ?_⟩, ?_⟩
      · have hkx := Option.some.inj ((hd'.trans hk).symm.trans hx)
        rcases hlook x ticket hkx with rfl | hj
        · have hown := h.waitsOnOwn t _ x.mutex hd rfl
          have hl : x.mutex < w.mutexes.length :=
            h.referring.mutexCode (mem_poolCode_of_doing hd) rfl
          have hg : (w.mutex x.mutex).giveUp t = .ok { owner := none } := by
            simp [PoolLock.giveUp, PoolLock.isOwnedBy, hown]
          rw [mutex_congr hr.pools, Instr.run, PoolInstr.run, hg]
          simp only [mutex_modMutex _ hl, if_true]
          simp
        · exact looked hj
      · rw [serves_of_run hr, hns]
    · right
      have pending : ∀ k, (w.step (.advance t)).doing t = some k → ∃ m, k.retaken? = some m ∧
          ((w.step (.advance t)).mutex m).owner ≠ some t := by
        intro k hk
        obtain rfl := Option.some.inj ((hd'.trans hnext).symm.trans hk)
        exact ⟨x.mutex, rfl, looked hj⟩
      rcases hs with ⟨hs, hout⟩ | ⟨hs, f, hf⟩
      · refine ⟨_, ⟨pending, ho.trans (hout.trans a.outcome)⟩, ?_⟩
        simp [serves_of_run hr, hs]
      · refine ⟨.fault f, ⟨pending, by rw [ho, hf, outcomeOf_fail hc.lt]⟩, ?_⟩
        simp [serves_of_run hr, hs]
    · right
      refine ⟨.fault f, ⟨fun k hk => ?_, by rw [ho, hf, outcomeOf_fail hc.lt]⟩, ?_⟩
      · rw [hd', hnone] at hk
        cases hk
      · simp [serves_of_run hr, hns]
  · left
    obtain ⟨j, hj, hu⟩ := a.pending
    refine ⟨⟨⟨j, hd.trans hj, hu⟩, ho.trans a.outcome, fun x ticket hx => ?_⟩,
      serves_of_not_ran hn⟩
    exact not_owner_step h (a.unowned x ticket (hd.symm.trans hx)) hn

theorem World.Settled.run (h : Reachable n w) (hc : w.Calling t (.user :: base))
    (hb : ∀ e ∈ es, e.isBy t = false) (a : w.Settled t o) :
    w.servings t es = 0 ∧ (w.run es).outcomeOf t = o := by
  induction es generalizing w with
  | nil => exact ⟨rfl, a.outcome⟩
  | cons e es ih =>
    have he := hb e List.mem_cons_self
    have hb' : ∀ e ∈ es, e.isBy t = false := fun e' he' => hb e' (List.mem_cons_of_mem _ he')
    obtain ⟨a', hs⟩ := a.step h hc he
    obtain ⟨h0, ho⟩ := ih (h.step e) (hc.step he) hb' a'
    exact ⟨by simp [servings, hs, h0], ho⟩

theorem World.Waits.run (h : Reachable n w) (hc : w.Calling t (.user :: base))
    (hb : ∀ e ∈ es, e.isBy t = false) (a : w.Waits t) (hd : (w.run es).doing t = none) :
    w.servings t es = if (w.run es).outcomeOf t = .value .unit then 1 else 0 := by
  induction es generalizing w with
  | nil =>
    obtain ⟨j, hj, _⟩ := a.pending
    cases hd.symm.trans hj
  | cons e es ih =>
    have he := hb e List.mem_cons_self
    have hb' : ∀ e ∈ es, e.isBy t = false := fun e' he' => hb e' (List.mem_cons_of_mem _ he')
    rw [run_cons] at hd ⊢
    rw [servings]
    rcases World.Waits.step h hc he a with ⟨a', hs⟩ | ⟨o, a', hs⟩
    · rw [hs, ih (h.step e) (hc.step he) hb' a' hd]
      simp
    · obtain ⟨h0, ho⟩ := World.Settled.run (h.step e) (hc.step he) hb' a'
      rw [h0, ho]
      simp [hs]

/-- A wait that comes back with success has used one wake-up, and one that comes back otherwise has
used none. -/
theorem wait_succeeds_iff_served {c : Nat} {micros : Option Nat} (h : Reachable n w)
    (hr : w.Returns t (.condWait s c i micros) es) :
    (w.step (.invoke t (.condWait s c i micros))).servings t es =
      if ((w.step (.invoke t (.condWait s c i micros))).run es).outcomeOf t = .value .unit
      then 1 else 0 := by
  obtain ⟨base, hbase⟩ := head_user hr.user
  have hp : (Call.condWait s c i micros).isPooled = true := rfl
  obtain ⟨hcall, hout, _⟩ := invoke_pooled hr.user hp
  have hd := doing_of_invoke h hr.user hp
  rw [hbase] at hcall
  refine World.Waits.run (h.step _) hcall hr.busy ⟨⟨_, hd, rfl⟩, hout, fun x ticket hx => ?_⟩
    (hr.doing_eq_none h)
  have he := hd.symm.trans hx
  cases he

/-- Whoever is served is a thread at the look at its ticket. -/
theorem serves_of_served {c : CondRef}
    (hc : w.served c (es ++ [e]) ≠ w.served c es) : ∃ t, (w.run es).serves t e = true := by
  rw [served_snoc] at hc
  cases hr : (w.run es).ran e with
  | none => simp [hr] at hc
  | some j =>
    obtain ⟨t, rest, rfl, -⟩ := poolRun_of_ran hr
    have hs : j.serves c ((w.run es).cond c) = true := by simpa [hr] using hc
    refine ⟨t, ?_⟩
    cases j with
    | waitCheck x ticket =>
      obtain rfl : x.cond = c := by
        simp only [PoolInstr.serves, Bool.and_eq_true, beq_iff_eq] at hs
        exact hs.1
      simp [World.serves, hr, PoolInstr.isServed, PoolInstr.cond?, hs]
    | _ => cases hs

/-- In every run, the waits on a condition that succeeded and the wake-ups that stand make up all
that were issued. Those that stand are covered by waiters that may use them and are awake or being
woken; so nothing is cut off when a waiter retires, and unless all are just being woken, one of those
who may use a wake-up is awake. A wait is served by a step of its own thread; it comes back with
success if it has been served once, and otherwise has not been. -/
theorem wake_ups_are_accounted_for (n : Nat) (es : List Event) (c : CondRef) :
    (World.initial n).served c es + (((World.initial n).run es).cond c).wakeups =
      (World.initial n).issued c es ∧
    (((World.initial n).run es).cond c).waiters =
      (((World.initial n).run es).waitersOf c).card ∧
    (((World.initial n).run es).cond c).wakeups ≤
      (((World.initial n).run es).candidates c).card ∧
    (∀ t x rest, ((World.initial n).run es).codeOf t = .pool (.waitRetire x) :: rest →
      (((World.initial n).run es).cond x.cond).retire.wakeups =
        (((World.initial n).run es).cond x.cond).wakeups) ∧
    (0 < (((World.initial n).run es).cond c).wakeups →
      ((World.initial n).run es).isCalled c = false →
      ∃ t j, ((World.initial n).run es).doing t = some j ∧
        j.mayUse c (((World.initial n).run es).cond c).generation = true ∧
        (.cond c, t) ∉ ((World.initial n).run es).asleep) ∧
    (∀ e es₁ es₂, es = es₁ ++ e :: es₂ →
      (World.initial n).served c (es₁ ++ [e]) ≠ (World.initial n).served c es₁ →
      ∃ t, ((World.initial n).run es₁).serves t e = true) ∧
    (∀ t s i k micros es₁ es₂ es₃, es = es₁ ++ .invoke t (.condWait s i k micros) :: es₂ ++ es₃ →
      ((World.initial n).run es₁).Returns t (.condWait s i k micros) es₂ →
      (((World.initial n).run es₁).step (.invoke t (.condWait s i k micros))).servings t es₂ =
        if ((World.initial n).run (es₁ ++ .invoke t (.condWait s i k micros) :: es₂)).outcomeOf t =
          .value .unit then 1 else 0) := by
  have h : Reachable n ((World.initial n).run es) := ⟨es, rfl⟩
  have served : ∀ e es₁ es₂, es = es₁ ++ e :: es₂ →
      (World.initial n).served c (es₁ ++ [e]) ≠ (World.initial n).served c es₁ →
      ∃ t, ((World.initial n).run es₁).serves t e = true :=
    fun _ _ _ _ hc => serves_of_served hc
  generalize hw : (World.initial n).run es = w at h
  have b := h.booked
  refine ⟨?_, b.counted c, b.covered c, ?_, ?_, served, ?_⟩
  · have hs := served_add_wakeups (c := c) (reachable_initial n) es
    rw [hw] at hs
    have h0 : ((World.initial n).cond c).wakeups = 0 := rfl
    omega
  · intro t x rest hc
    have hd : w.doing t = some (.waitRetire x) := by
      rw [doing, poolCode_eq hc rfl]
      rfl
    simpa [PoolCondition.retire] using b.wakeups_le_of_retire hd
  · intro hpos hcalled
    -- there is somebody for each wake-up, and with no call under way nobody of them is asleep
    have hcard : 0 < (w.candidates c).card := Nat.lt_of_lt_of_le hpos (b.covered c)
    obtain ⟨t, ht⟩ := Finset.card_pos.mp hcard
    obtain ⟨⟨j, hj, hu⟩, ha⟩ := mem_candidates.mp ht
    refine ⟨t, j, hj, hu, ha.resolve_right ?_⟩
    rw [hcalled]
    exact Bool.false_ne_true
  · intro t s i k micros es₁ es₂ es₃ _ hr
    rw [run_append, run_cons]
    exact wait_succeeds_iff_served ⟨es₁, rfl⟩ hr

/-- Thread 1 has the mutex with which it is going to wait. -/
def holding : List Event :=
  .invoke 0 (.establish {}) :: turns 0 5 ++
    .invoke 0 (.mutex 0 .raw (.create "m")) :: turns 0 4 ++
    .invoke 0 (.cond 0 .raw (.create "c")) :: turns 0 4 ++
    .invoke 1 (.mutex 0 .raw (.lock 0)) :: turns 1 6

/-- Threads 1 and 2 wait and both are called; thread 1 has used its wake-up and is about to retire. -/
def bothCalled : List Event :=
  turns 1 22 ++ .invoke 2 (.mutex 0 .raw (.lock 0)) :: turns 2 6 ++
    .invoke 2 (.condWait 0 0 0 none) :: turns 2 22 ++
    .invoke 0 (.cond 0 .raw (.broadcast 0)) :: turns 0 7 ++ turns 1 3

/-- Where thread 1 is about to retire, and where it has come back. -/
def retiring : List Event := holding ++ .invoke 1 (.condWait 0 0 0 none) :: bothCalled

def cameBack : List Event :=
  holding ++ .invoke 1 (.condWait 0 0 0 none) :: (bothCalled ++ turns 1 7)

/-- A waiter retires while a wake-up stands, and leaves it to the other one, who is awake; and it has
been served once when it comes back. -/
theorem standing_wake_up_outlasts_a_retiring_waiter :
    (((World.initial 3).run retiring).cond 0).wakeups = 1 ∧
      (((World.initial 3).run retiring).cond 0).retire.wakeups = 1 ∧
      (((World.initial 3).run cameBack).cond 0).wakeups = 1 ∧
      (∃ t j, ((World.initial 3).run cameBack).doing t = some j ∧ j.mayUse 0 1 = true ∧
        (.cond 0, t) ∉ ((World.initial 3).run cameBack).asleep) ∧
      (((World.initial 3).run holding).step (.invoke 1 (.condWait 0 0 0 none))).servings 1
        (bothCalled ++ turns 1 7) = 1 := by
  have hstands : (((World.initial 3).run retiring).cond 0).wakeups = 1 := by decide +kernel
  have hstays : (((World.initial 3).run cameBack).cond 0).wakeups = 1 := by decide +kernel
  refine ⟨hstands, ?retires, hstays, ?awake, ?served⟩
  case retires =>
    obtain ⟨-, -, -, hretire, -⟩ := wake_ups_are_accounted_for 3 retiring 0
    have hcode : (((World.initial 3).run retiring).codeOf 1).head? =
        some (.pool (.waitRetire ⟨0, 0, 0, none⟩)) := by decide +kernel
    obtain ⟨rest, hcode⟩ := List.head?_eq_some_iff.mp hcode
    exact (hretire 1 _ rest hcode).trans hstands
  case awake =>
    -- nobody is being called any more, so who may use the wake-up is awake
    obtain ⟨-, -, -, -, hawake, -⟩ := wake_ups_are_accounted_for 3 cameBack 0
    have hgeneration : (((World.initial 3).run cameBack).cond 0).generation = 1 := by
      decide +kernel
    obtain ⟨t, j, hd, hu, ha⟩ := hawake (by rw [hstays]; exact Nat.zero_lt_one) (by decide +kernel)
    rw [hgeneration] at hu
    exact ⟨t, j, hd, hu, ha⟩
  case served =>
    obtain ⟨-, -, -, -, -, -, hanswer⟩ := wake_ups_are_accounted_for 3 cameBack 0
    have h := hanswer 1 0 0 0 none holding (bothCalled ++ turns 1 7) [] (List.append_nil _).symm
      ⟨by decide +kernel, by decide, by decide +kernel⟩
    rw [h]
    decide +kernel

end Standstill
