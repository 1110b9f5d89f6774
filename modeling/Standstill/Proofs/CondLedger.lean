import Standstill.Proofs.CondBook

/-!
What a run does to the wake-ups of a condition: those that are used and those that still stand make
up all that were issued.
-/
namespace Standstill

open World

namespace PoolInstr

/-- How many wake-ups the instruction issues on `c`. -/
def issues (c : CondRef) (x : PoolCondition) : PoolInstr → Nat
  | .signal b => if b = c ∧ x.wakeups < x.waiters then 1 else 0
  | .broadcast b => if b = c then x.waiters - x.wakeups else 0
  | _ => 0

end PoolInstr

namespace World

/-- How many wake-ups a run issues on `c`: one for each signal that finds a waiter without one, and
one for each waiter without one at a broadcast. -/
def issued (w : World) (c : CondRef) : List Event → Nat
  | [] => 0
  | e :: es => ((w.ran e).elim 0 (·.issues c (w.cond c))) + (w.step e).issued c es

/-- How many waits on `c` succeed in a run: each uses a wake-up and answers `ok` in the end. -/
def served (w : World) (c : CondRef) : List Event → Nat
  | [] => 0
  | e :: es => ((w.ran e).elim 0 fun j => if j.serves c (w.cond c) then 1 else 0) +
      (w.step e).served c es

end World

variable {n : Nat} {w w' : World} {t t' : ThreadId} {i : Instr} {j k : PoolInstr}
  {rest : List Instr} {e : Event} {c : CondRef} {x : PoolCondition}

theorem Booked.wakeups_le (b : Booked w) (c : CondRef) :
    (w.cond c).wakeups ≤ (w.cond c).waiters := by
  rw [b.counted c]
  exact (b.covered c).trans (Finset.card_le_card candidates_subset_waitersOf)

/-- There is no wake-up to be cut off when a waiter retires. -/
theorem Booked.wakeups_le_of_retire (b : Booked w) {x : CondWait}
    (h : w.doing t = some (.waitRetire x)) :
    (w.cond x.cond).wakeups ≤ (w.cond x.cond).waiters - 1 := by
  have ht : t ∈ w.waitersOf x.cond :=
    mem_waitersOf.mpr ⟨_, h, by simp [PoolInstr.isRegistered]⟩
  have hn : t ∉ w.candidates x.cond := by
    intro hc
    obtain ⟨⟨j, hj, hu⟩, _⟩ := mem_candidates.mp hc
    rw [h] at hj
    obtain rfl := Option.some.inj hj
    cases hu
  have hsub : w.candidates x.cond ⊆ (w.waitersOf x.cond).erase t :=
    Finset.subset_erase.mpr ⟨candidates_subset_waitersOf, hn⟩
  have hcard := Finset.card_le_card hsub
  rw [Finset.card_erase_of_mem ht, ← b.counted] at hcard
  exact (b.covered _).trans hcard

theorem PoolInstr.wakeups_onCond (i : PoolInstr) (hl : x.wakeups ≤ x.waiters)
    (hr : ∀ y, i = .waitRetire y → y.cond = c → x.wakeups ≤ x.waiters - 1) :
    (if i.serves c x then 1 else 0) + (i.onCond c x).wakeups = x.wakeups + i.issues c x := by
  cases i with
  | signal b =>
    simp only [serves, onCond, issues, PoolCondition.signal, PoolCondition.canSignal]
    by_cases hb : b = c <;> by_cases hs : x.wakeups < x.waiters <;> simp [hb, hs]
  | broadcast b =>
    simp only [serves, onCond, issues, PoolCondition.broadcast, PoolCondition.canBroadcast]
    by_cases hb : b = c <;> by_cases hs : 0 < x.waiters <;> simp [hb, hs] <;> omega
  | waitRegister y =>
    by_cases hy : y.cond = c <;> simp [serves, onCond, issues, PoolCondition.register, hy]
  -- retiring cuts the wake-ups down to the waiters that are left, and there were no more
  | waitRetire y =>
    by_cases hy : y.cond = c
    · simpa [serves, onCond, issues, PoolCondition.retire, hy] using hr y rfl hy
    · simp [serves, onCond, issues, hy]
  | waitCheck y k =>
    simp only [serves, onCond, issues, Bool.and_eq_true, beq_iff_eq]
    split
    next hm =>
      have hpos : 0 < x.wakeups := by
        have hm := hm.2
        simp [PoolCondition.mayWake] at hm
        exact hm.1
      simp only [PoolCondition.consume]
      omega
    next => simp
  | _ => simp [serves, onCond, issues]

theorem served_add_wakeups (h : Reachable n w) (es : List Event) :
    w.served c es + ((w.run es).cond c).wakeups = (w.cond c).wakeups + w.issued c es := by
  induction es generalizing w with
  | nil => simp [served, issued, World.run]
  | cons e es ih =>
    have hi := ih (h.step e)
    rw [run_cons, served, issued]
    cases hr : w.ran e with
    | none =>
      have hc : (w.step e).cond c = w.cond c := cond_congr (h.pacing.pools_of_not_ran hr)
      rw [hc] at hi
      simp only [Option.elim_none]
      omega
    | some j =>
      obtain ⟨t, rest, _, hs⟩ := poolRun_of_ran hr
      obtain ⟨hd, _⟩ := hs.doing_pool h.pacing
      have hw : (if j.serves c (w.cond c) then 1 else 0) + ((w.step e).cond c).wakeups =
          (w.cond c).wakeups + j.issues c (w.cond c) := by
        rw [hs.cond h.referring]
        refine j.wakeups_onCond (h.booked.wakeups_le c) ?_
        rintro y rfl rfl
        exact h.booked.wakeups_le_of_retire hd
      simp only [Option.elim_some]
      omega

theorem served_snoc (w : World) (c : CondRef) (es : List Event) (e : Event) :
    w.served c (es ++ [e]) = w.served c es +
      ((w.run es).ran e).elim 0 fun j => if j.serves c ((w.run es).cond c) then 1 else 0 := by
  induction es generalizing w with
  | nil => exact Nat.add_comm _ 0
  | cons d es ih => rw [List.cons_append, served, served, ih, run_cons, Nat.add_assoc]

end Standstill
