import Standstill.Proofs.CondLedger

/-!
Which wake-up a waiter uses. The generation tells a waiter that some wake-up was issued after it
began to wait, and nothing more: while an older wake-up still stands, one new wake-up lets any
number of newcomers through, and the waiter that the older one was meant for goes back to sleep.
-/
namespace Standstill

open World

namespace World

/-- How many signals and broadcasts of a run find somebody to wake at `c`. -/
def called (w : World) (c : CondRef) : List Event → Nat
  | [] => 0
  | e :: es => ((w.ran e).elim 0 fun j => if j.calls c (w.cond c) then 1 else 0) +
      (w.step e).called c es

/-- Thread `t` is a waiter of `c` in every world of the run. -/
def StaysWaiting (w : World) (t : ThreadId) (c : CondRef) : List Event → Prop
  | [] => t ∈ w.waitersOf c
  | e :: es => t ∈ w.waitersOf c ∧ (w.step e).StaysWaiting t c es

/-- Whether a thread stays a waiter can be found out by running. -/
instance decidableStaysWaiting (t : ThreadId) (c : CondRef) :
    ∀ (w : World) (es : List Event), Decidable (w.StaysWaiting t c es)
  | w, [] => inferInstanceAs (Decidable (t ∈ w.waitersOf c))
  | w, e :: es =>
    have := decidableStaysWaiting t c (w.step e) es
    inferInstanceAs (Decidable (t ∈ w.waitersOf c ∧ (w.step e).StaysWaiting t c es))

end World

variable {n : Nat} {w w' : World} {t t' : ThreadId} {i : Instr} {j k : PoolInstr}
  {rest : List Instr} {e : Event} {es : List Event} {c : CondRef} {x y : CondWait} {ticket : Nat}

/-- The generation counts the calls. -/
theorem generation_step (h : Reachable n w) (c : CondRef) (e : Event) :
    ((w.step e).cond c).generation = (w.cond c).generation +
      (w.ran e).elim 0 fun j => if j.calls c (w.cond c) then 1 else 0 := by
  cases hr : w.ran e with
  | none =>
    have hc : (w.step e).cond c = w.cond c := cond_congr (h.pacing.pools_of_not_ran hr)
    rw [hc]
    rfl
  | some j =>
    obtain ⟨t, rest, _, hs⟩ := poolRun_of_ran hr
    rw [hs.cond h.referring, Option.elim_some]
    cases hj : j.calls c (w.cond c) with
    | true => exact (PoolInstr.onCond_of_calls hj).1
    | false => exact (PoolInstr.onCond_of_not_calls hj).1

theorem generation_run (h : Reachable n w) (c : CondRef) (es : List Event) :
    ((w.run es).cond c).generation = (w.cond c).generation + w.called c es := by
  induction es generalizing w with
  | nil => rfl
  | cons e es ih => rw [run_cons, ih (h.step e), generation_step h, called, Nat.add_assoc]

/-- Thread `t` waits with the ticket `ticket`, or is done with it. -/
def World.Bears (w : World) (t : ThreadId) (x : CondWait) (ticket : Nat) : Prop :=
  w.doing t = some (.waitGiveUp x ticket) ∨ w.doing t = some (.waitCheck x ticket) ∨
    w.doing t = some (.waitRetire x)

theorem bears_step (h : Reachable n w) (hb : w.Bears t x ticket)
    (hw : t ∈ (w.step e).waitersOf x.cond) : (w.step e).Bears t x ticket := by
  obtain ⟨k, hk, hreg⟩ := mem_waitersOf.mp hw
  have same (hd : (w.step e).doing t = w.doing t) : (w.step e).Bears t x ticket := by
    simpa only [Bears, hd] using hb
  rcases h.pacing.step_pools e with ⟨t', i, rest, rfl, hs⟩ | hs
  · by_cases ht : t = t'
    · subst ht
      rcases hs.cases with ⟨i, rfl, _⟩ | ⟨j, rfl, _⟩
      · exact same (hs.doing_sync t)
      · obtain ⟨hd, hd'⟩ := hs.doing_pool h.pacing
        rw [hd'] at hk
        rcases hb with hb | hb | hb <;> rw [hd] at hb <;> obtain rfl := Option.some.inj hb
        · have ho := h.waitsOnOwn t _ x.mutex hd rfl
          have hg : (w.mutex x.mutex).giveUp t = .ok { owner := none } := by
            simp [PoolLock.giveUp, PoolLock.isOwnedBy, ho]
          exact Or.inr (Or.inl (by rw [hd']; simp [PoolInstr.run, hg]))
        · simp only [Bears, hd', PoolInstr.run]
          repeat' split
          all_goals simp
        · -- whoever has retired is a waiter no more
          have hk' : k = .take x.service x.mutex := by
            simpa [PoolInstr.run, takeCode, locked, eq_comm] using hk
          rw [hk'] at hreg
          cases hreg
    · exact same (hs.doing_of_ne ht)
  · exact hb.imp hs.doing_of_some (Or.imp hs.doing_of_some hs.doing_of_some)

theorem bears_run (h : Reachable n w) (hb : w.Bears t x ticket) (hw : w.StaysWaiting t x.cond es) :
    (w.run es).Bears t x ticket := by
  induction es generalizing w with
  | nil => exact hb
  | cons e es ih =>
    have hmem : t ∈ (w.step e).waitersOf x.cond := by
      cases es with
      | nil => exact hw.2
      | cons e' es => exact hw.2.1
    exact ih (h.step e) (bears_step h hb hmem) hw.2

/-- A wait that succeeds has seen a signal or a broadcast that found somebody to wake. -/
theorem served_wait_was_called (h : Reachable n w)
    (hr : w.ran (.advance t) = some (.waitRegister x))
    (hw : (w.step (.advance t)).StaysWaiting t x.cond es)
    (hd : ((w.step (.advance t)).run es).ran (.advance t) = some (.waitCheck y ticket))
    (hm : (((w.step (.advance t)).run es).cond y.cond).mayWake ticket = true) :
    y = x ∧ 0 < (w.step (.advance t)).called x.cond es := by
  have h1 := h.step (.advance t)
  obtain ⟨t₁, rest, ht, hs⟩ := poolRun_of_ran hr
  obtain rfl := Event.advance.inj ht
  have hg : ((w.step (.advance t)).cond x.cond).generation = (w.cond x.cond).generation := by
    rw [generation_step h, hr]
    rfl
  -- from its registration on the thread bears the generation that it has found
  have hb : (w.step (.advance t)).Bears t x (w.cond x.cond).generation :=
    Or.inl (hs.doing_pool h.pacing).2
  obtain ⟨t₂, rest₂, ht₂, hs₂⟩ := poolRun_of_ran hd
  obtain rfl := Event.advance.inj ht₂
  have hd₂ := (hs₂.doing_pool (h1.run es).pacing).1
  rcases bears_run h1 hb hw with hb | hb | hb <;> rw [hd₂] at hb <;> cases hb
  refine ⟨rfl, ?_⟩
  -- the ticket may wake only in a later generation, and nothing but a call that finds somebody
  -- begins one
  have hne : (((w.step (.advance t)).run es).cond x.cond).generation ≠
      (w.cond x.cond).generation := by
    simp only [PoolCondition.mayWake, Bool.and_eq_true, bne_iff_ne] at hm
    exact hm.2
  have hrun := generation_run h1 x.cond es
  omega

/-- Thread 1 is about to register as a waiter. -/
def joining : List Event :=
  .invoke 0 (.establish {}) :: turns 0 5 ++
    .invoke 0 (.mutex 0 .raw (.create "m")) :: turns 0 4 ++
    .invoke 0 (.cond 0 .raw (.create "c")) :: turns 0 4 ++
    .invoke 1 (.mutex 0 .raw (.lock 0)) :: turns 1 6 ++
    .invoke 1 (.condWait 0 0 0 none) :: turns 1 15

/-- It falls asleep, is signalled, and is about to look. -/
def signalled : List Event :=
  turns 1 6 ++ .invoke 0 (.cond 0 .raw (.signal 0)) :: turns 0 8 ++ turns 1 2

theorem signalled_wait_was_called :
    0 < (((World.initial 2).run joining).step (.advance 1)).called 0 signalled := by
  have h : Reachable 2 ((World.initial 2).run joining) := ⟨joining, rfl⟩
  have hr : ((World.initial 2).run joining).ran (.advance 1) =
      some (.waitRegister ⟨0, 0, 0, none⟩) := by decide +kernel
  have hw : (((World.initial 2).run joining).step (.advance 1)).StaysWaiting 1 0 signalled := by
    decide +kernel
  have hd : ((((World.initial 2).run joining).step (.advance 1)).run signalled).ran (.advance 1) =
      some (.waitCheck ⟨0, 0, 0, none⟩ 0) := by decide +kernel
  exact (served_wait_was_called h hr hw hd (by decide +kernel)).2

/-- What happens at a condition: who begins and ends to wait, and which wake-ups are issued and
used. -/
inductive CondEntry
  | joins (t : ThreadId)
  | issues (count : Nat)
  | served (t : ThreadId)
  | leaves (t : ThreadId)
  deriving DecidableEq, Repr

/-- What the instruction, run by thread `t`, adds to the log of condition `c`. -/
def PoolInstr.logged? (c : CondRef) (x : PoolCondition) (t : ThreadId) (i : PoolInstr) :
    Option CondEntry :=
  if i.registers c then some (.joins t)
  else if i.serves c x then some (.served t)
  else if i.isRegistered c && i.isRetire then some (.leaves t)
  else if 0 < i.issues c x then some (.issues (i.issues c x))
  else none

/-- The log of condition `c` on a run. -/
def World.log (w : World) (c : CondRef) : List Event → List CondEntry
  | [] => []
  | .advance t :: es =>
    ((w.ran (.advance t)).bind (·.logged? c (w.cond c) t)).toList ++
      (w.step (.advance t)).log c es
  | e :: es => (w.step e).log c es

/-- The waits that succeed can be matched one to one with wake-ups that were issued while they
waited, given who is `waiting` and, for each wake-up that is left, who of them waited when it was
issued. -/
def isMatchable (waiting : List ThreadId) (left : List (List ThreadId)) : List CondEntry → Bool
  | [] => true
  | .joins t :: l => isMatchable (t :: waiting) left l
  | .issues k :: l => isMatchable waiting (List.replicate k waiting ++ left) l
  | .served t :: l =>
    (List.range left.length).any fun i =>
      (left.getD i []).contains t && isMatchable waiting (left.eraseIdx i) l
  | .leaves t :: l => isMatchable (waiting.erase t) (left.map (·.erase t)) l

/-- Thread 1 waits and is signalled, but does not come to look; threads 2 and 3 begin to wait, one
more signal is given, and both of them are let through. -/
def newcomers : List Event :=
  .invoke 0 (.establish {}) :: turns 0 5 ++
    .invoke 0 (.mutex 0 .raw (.create "m")) :: turns 0 4 ++
    .invoke 0 (.cond 0 .raw (.create "c")) :: turns 0 4 ++
    .invoke 1 (.mutex 0 .raw (.lock 0)) :: turns 1 6 ++
    .invoke 1 (.condWait 0 0 0 none) :: turns 1 24 ++
    .invoke 0 (.cond 0 .raw (.signal 0)) :: turns 0 8 ++
    .invoke 2 (.mutex 0 .raw (.lock 0)) :: turns 2 6 ++
    .invoke 2 (.condWait 0 0 0 none) :: turns 2 24 ++
    .invoke 3 (.mutex 0 .raw (.lock 0)) :: turns 3 6 ++
    .invoke 3 (.condWait 0 0 0 none) :: turns 3 24 ++
    .invoke 0 (.cond 0 .raw (.signal 0)) :: turns 0 8 ++
    turns 2 12 ++ .invoke 2 (.mutex 0 .raw (.unlock 0)) :: turns 2 8 ++ turns 3 12

example : (World.initial 4).log 0 newcomers = [.joins 1, .issues 1, .joins 2, .joins 3, .issues 1,
    .served 2, .leaves 2, .served 3, .leaves 3] := by
  decide +kernel

/-- One of the two newcomers has used a wake-up from before it began to wait. -/
theorem newcomers_use_an_old_wake_up :
    isMatchable [] [] ((World.initial 4).log 0 newcomers) = false := by
  decide +kernel

end Standstill
