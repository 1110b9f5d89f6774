import Mathlib.Tactic
import Standstill.CommandLine.Arguments
import Standstill.Scenario.Stress

/-!
The figures that the command line lets through are words of their size; the time that the workers
are given at the end is reckoned from two of them, and does not always come out.
-/
namespace Standstill

namespace CommandLine

variable {place : Place} {args : List String} {c c' : Choices} {p p' : Progress}

theorem natural?_lt {b n : Nat} {v : String} (h : natural? b v = some n) : n < b := by
  simp only [natural?, Option.bind_eq_bind, Option.bind_eq_some_iff] at h
  obtain ⟨k, -, h⟩ := h
  split at h
  · next hk => cases h; exact hk
  · cases h

theorem signed?_lt {b n : Nat} {v : String} (hb : 0 < b) (h : signed? b v = some n) : n < b := by
  unfold signed? at h
  split at h
  · simp only [Option.bind_eq_bind, Option.bind_eq_some_iff] at h
    obtain ⟨k, -, h⟩ := h
    split at h
    · cases h; exact hb
    · cases h
  · exact natural?_lt h

theorem orElse_eq_ok {α : Type} {x : Option α} {f : UsageFault} {a : α}
    (h : Choices.orElse x f = .ok a) : x = some a := by
  cases x with
  | none => cases h
  | some b => cases h; rfl

/-- A step of a reading that may fail has not failed if the rest has not. -/
theorem bind_eq_ok {α β : Type} {x : Except UsageFault α} {f : α → Except UsageFault β} {b : β}
    (h : x >>= f = .ok b) : ∃ a, x = .ok a ∧ f a = .ok b := by
  cases x with
  | error e => cases h
  | ok a => exact ⟨a, rfl, h⟩

/-- All the figures chosen so far are below the bounds of their words. -/
structure Choices.InRange (c : Choices) : Prop where
  threads : ∀ n, c.threads = some n → n < 2 ^ 64
  steps : ∀ n, c.steps = some n → n < 2 ^ 32
  stepMs : ∀ n, c.stepMs = some n → n < 2 ^ 64
  workers : ∀ n, c.workers = some n → n < 2 ^ 64
  pauseMs : ∀ n, c.pauseMs = some n → n < 2 ^ 64

theorem Choices.inRange_empty : ({} : Choices).InRange := by
  constructor <;> simp

theorem Choices.InRange.set (hc : c.InRange) {s : Setting} {v : String} (h : c.set s v = .ok c') :
    c'.InRange := by
  -- a number is read under a bound, and that is the one it is kept in
  have size {n : Nat} (hn : orElse (natural? 0x10000000000000000 v) .badNumber = .ok n) :
      n < 2 ^ 64 := natural?_lt (orElse_eq_ok hn)
  unfold Choices.set at h
  split at h
  · cases h
  · cases s with
    | config => cases h; exact { hc with }
    | mechanism =>
      obtain ⟨m, -, h⟩ := bind_eq_ok h
      cases h
      exact { hc with }
    | threads =>
      obtain ⟨n, hn, h⟩ := bind_eq_ok h
      cases h
      exact { hc with threads := fun _ e => by cases e; exact size hn }
    | steps =>
      obtain ⟨n, hn, h⟩ := bind_eq_ok h
      cases h
      exact { hc with
        steps := fun _ e => by cases e; exact signed?_lt (by decide) (orElse_eq_ok hn) }
    | stepMs =>
      obtain ⟨n, hn, h⟩ := bind_eq_ok h
      cases h
      exact { hc with stepMs := fun _ e => by cases e; exact size hn }
    | workers =>
      obtain ⟨n, hn, h⟩ := bind_eq_ok h
      cases h
      exact { hc with workers := fun _ e => by cases e; exact size hn }
    | pauseMs =>
      obtain ⟨n, hn, h⟩ := bind_eq_ok h
      cases h
      exact { hc with pauseMs := fun _ e => by cases e; exact size hn }

theorem Choices.InRange.raise (hc : c.InRange) {f : Flag} (h : c.raise f = .ok c') :
    c'.InRange := by
  cases f with
  | json =>
    simp only [Choices.raise] at h
    split at h
    · cases h
    · cases h; exact { hc with }
  | verbose => cases h; exact { hc with }
  | help => cases h
  | version => cases h

namespace Progress

theorem inRange_resolve (hp : p.choices.InRange) (h : p.resolve = .ok c) : c.InRange := by
  unfold resolve at h
  split at h
  · cases h; exact hp
  · cases h
  · exact hp.set h

theorem inRange_raise (hp : p.choices.InRange) {f : Flag} (h : p.raise f = .ok p') :
    p'.choices.InRange := by
  obtain ⟨c, hc, h⟩ := bind_eq_ok h
  obtain ⟨c', hc', h⟩ := bind_eq_ok h
  cases h
  exact (inRange_resolve hp hc).raise hc'

theorem inRange_set (hp : p.choices.InRange) {s : Setting} {v : String} (h : p.set s v = .ok p') :
    p'.choices.InRange := by
  obtain ⟨c, hc, h⟩ := bind_eq_ok h
  obtain ⟨c', hc', h⟩ := bind_eq_ok h
  cases h
  exact (inRange_resolve hp hc).set hc'

theorem inRange_await (hp : p.choices.InRange) {s : Setting} (h : p.await s = .ok p') :
    p'.choices.InRange := by
  obtain ⟨c, hc, h⟩ := bind_eq_ok h
  cases h
  exact inRange_resolve hp hc

theorem inRange_short {cs : List Char} (hp : p.choices.InRange)
    (h : p.short place cs = .ok p') : p'.choices.InRange := by
  induction cs generalizing p with
  | nil => cases h; exact hp
  | cons a rest ih =>
    simp only [short] at h
    split at h
    · cases h
    · obtain ⟨q, hq, h⟩ := bind_eq_ok h
      exact ih (inRange_raise hp hq) h
    · split at h
      · exact inRange_await hp h
      · exact inRange_set hp h
      · exact inRange_set hp h

theorem inRange_long {name : String} {v : Option String} (hp : p.choices.InRange)
    (h : p.long place name v = .ok p') : p'.choices.InRange := by
  unfold long at h
  split at h
  · cases h
  · cases h
  · exact inRange_raise hp h
  · exact inRange_set hp h
  · exact inRange_await hp h

end Progress

theorem inRange_side {next : Option (ScenarioKind × List String)} (hp : p.choices.InRange)
    (h : side place p args = .ok (p', next)) : p'.choices.InRange := by
  induction args generalizing p with
  | nil => cases h; exact hp
  | cons arg rest ih =>
    simp only [side] at h
    split at h
    · cases h
    · cases h; exact hp
    · split at h
      · split at h
        · cases h; exact hp
        · cases h
      · obtain ⟨q, hq, h⟩ := bind_eq_ok h
        exact ih (Progress.inRange_long hp hq) h
      · obtain ⟨q, hq, h⟩ := bind_eq_ok h
        exact ih (Progress.inRange_short hp hq) h
      · split at h
        · -- The value is put off, and nothing new is chosen.
          refine ih ?_ h
          exact hp
        · cases h

/-- The figures of a scenario are those that were chosen for it, or its own. -/
theorem figures_in_range {k : ScenarioKind} {n steps ms : Nat} (hc : c.InRange)
    (h : scenarioOf k c = .stress n steps ms) : n < 2 ^ 64 ∧ steps < 2 ^ 32 ∧ ms < 2 ^ 64 := by
  cases k with
  | stopTheWorld => cases h
  | stress =>
    cases h
    refine ⟨?_, ?_, ?_⟩
    · cases hn : c.threads with
      | none => decide
      | some n => exact hc.threads n hn
    · cases hn : c.steps with
      | none => decide
      | some n => exact hc.steps n hn
    · cases hn : c.stepMs with
      | none => decide
      | some n => exact hc.stepMs n hn

theorem parse_in_range {a : Arguments} {n steps ms : Nat} (h : parse args = .ok a)
    (ha : a.scenario = .stress n steps ms) : n < 2 ^ 64 ∧ steps < 2 ^ 32 ∧ ms < 2 ^ 64 := by
  obtain ⟨⟨front, next⟩, -, h⟩ := bind_eq_ok h
  cases next with
  | none =>
    obtain ⟨c, -, h⟩ := bind_eq_ok h
    cases h
  | some k =>
    obtain ⟨⟨after, rest⟩, hafter, h⟩ := bind_eq_ok h
    obtain ⟨c, hc, h⟩ := bind_eq_ok h
    obtain ⟨c', -, h⟩ := bind_eq_ok h
    cases h
    have hr := inRange_side (p := {}) Choices.inRange_empty hafter
    exact figures_in_range (Progress.inRange_resolve hr hc) ha

end CommandLine

namespace Stress.Plan

/-- The seconds of so many microseconds fit into their word. -/
def Fits (micros : Nat) : Prop := micros / 1000000 < 2 ^ 64

instance (micros : Nat) : Decidable (Fits micros) := inferInstanceAs (Decidable (_ < _))

/-- What the workers are to be given: their steps, twenty more, and half a minute. -/
def due (p : Plan) : Nat := p.step * (p.steps + 20) + 30 * 1000000

variable {p : Plan}

/-- As long as the number of steps can be raised by twenty, the budget is what it should be. -/
theorem budget?_of_lt (h : p.steps + 20 < 2 ^ 32) :
    p.budget? = if Fits p.due then some p.due else none := by
  have hdue : (p.steps + 20) % 0x100000000 * p.step + 30 * 1000000 = p.due := by
    have hmod : (p.steps + 20) % 0x100000000 = p.steps + 20 := Nat.mod_eq_of_lt h
    rw [hmod, Nat.mul_comm, due]
  simp only [budget?, hdue, Fits]
  rfl

/-- Otherwise it begins at nothing again, and so it fits in any case. -/
theorem budget?_of_le (hs : p.steps < 2 ^ 32) (hms : p.stepMs < 2 ^ 64)
    (h : 2 ^ 32 ≤ p.steps + 20) :
    p.budget? = some ((p.steps + 20 - 2 ^ 32) * p.step + 30 * 1000000) := by
  have hwrap : (p.steps + 20) % 0x100000000 = p.steps + 20 - 2 ^ 32 := by omega
  have hstep : p.step = p.stepMs * 1000 := rfl
  have hle : (p.steps + 20 - 2 ^ 32) * p.step ≤ 20 * p.step :=
    Nat.mul_le_mul_right _ (by omega)
  have hfits : ((p.steps + 20 - 2 ^ 32) * p.step + 30 * 1000000) / 1000000
      < 0x10000000000000000 := by omega
  simp only [budget?, hwrap, if_pos hfits]

/-- A budget that has begun at nothing again is short by all the steps there can be. -/
theorem wrapped_add (h : 2 ^ 32 ≤ p.steps + 20) :
    (p.steps + 20 - 2 ^ 32) * p.step + 30 * 1000000 + 2 ^ 32 * p.step = p.due := by
  have hsum : p.steps + 20 - 2 ^ 32 + 2 ^ 32 = p.steps + 20 := by omega
  calc (p.steps + 20 - 2 ^ 32) * p.step + 30 * 1000000 + 2 ^ 32 * p.step
      = (p.steps + 20 - 2 ^ 32 + 2 ^ 32) * p.step + 30 * 1000000 := by ring
    _ = p.due := by rw [hsum, due, Nat.mul_comm]

/-- Whenever the conductor sleeps, it sleeps for a time that fits. -/
theorem sleeps_fit (hms : p.stepMs < 2 ^ 64) {settings : Settings} {s : ServiceId} {k : Control}
    {micros : Nat} (h : k.call? settings p s = some (.sleep s micros)) : Fits micros := by
  have hstep : p.step = p.stepMs * 1000 := rfl
  unfold Control.call? at h
  split at h <;> cases h <;> (unfold Fits; omega)

/-- What the workers need at least is within a budget that has wrapped only if it is nothing. -/
theorem needed_le_wrapped_iff (h : 2 ^ 32 ≤ p.steps + 20) :
    p.steps * p.step ≤ (p.steps + 20 - 2 ^ 32) * p.step + 30 * 1000000 ↔ p.stepMs = 0 := by
  have hsum := wrapped_add h
  have hdue : p.due = p.steps * p.step + 20 * p.step + 30 * 1000000 := by
    rw [due, Nat.mul_comm, Nat.add_mul]
  have hstep : p.step = p.stepMs * 1000 := rfl
  omega

/-- For all figures that the command line lets through, the conductor's sleeps are what they should
be. The budget is, and is enough, if twenty can be added to the steps within 32 bits; the only thing
that can go wrong then is that it is too long to be told. If twenty cannot be added, there is always
a budget, and it is neither right nor enough, unless a step takes no time. -/
theorem budget_is_right_until_the_steps_wrap {args : List String} {a : CommandLine.Arguments}
    {n steps ms : Nat} (h : CommandLine.parse args = .ok a)
    (ha : a.scenario = .stress n steps ms) :
    let p : Plan := ⟨n, steps, ms⟩
    (∀ settings s k micros, Control.call? settings p s k = some (.sleep s micros) → Fits micros) ∧
      (p.budget? = none ↔ steps + 20 < 2 ^ 32 ∧ ¬Fits p.due) ∧
      ∀ b, p.budget? = some b →
        (b = p.due ↔ steps + 20 < 2 ^ 32 ∨ ms = 0) ∧
          (steps * p.step ≤ b ↔ steps + 20 < 2 ^ 32 ∨ ms = 0) := by
  intro p
  obtain ⟨-, hs, hms⟩ := CommandLine.parse_in_range h ha
  refine ⟨fun _ _ _ _ hk => sleeps_fit (p := p) hms hk, ?_⟩
  -- either nothing wraps and the budget is what is due, or the steps wrap to less than twenty
  by_cases hwrap : steps + 20 < 2 ^ 32
  · have hb : p.budget? = if Fits p.due then some p.due else none := budget?_of_lt hwrap
    constructor
    · rw [hb, and_iff_right hwrap]
      by_cases hf : Fits p.due
      · simp [hf]
      · simp [hf]
    · intro b e
      have hdue : b = p.due := by
        rw [hb] at e
        split at e
        · cases e; rfl
        · cases e
      have henough : steps * p.step ≤ b := by
        have hmul : p.step * (steps + 20) = steps * p.step + 20 * p.step := by
          rw [Nat.mul_comm, Nat.add_mul]
        have hdef : p.due = p.step * (steps + 20) + 30 * 1000000 := rfl
        omega
      exact ⟨iff_of_true hdue (.inl hwrap), iff_of_true henough (.inl hwrap)⟩
  · have hle : 2 ^ 32 ≤ p.steps + 20 := Nat.le_of_not_lt hwrap
    have hb := budget?_of_le (p := p) hs hms hle
    constructor
    · simp only [hb, hwrap, reduceCtorEq, false_and]
    · intro b e
      rw [hb] at e
      cases e
      refine ⟨?_, ?_⟩
      · have hsum := wrapped_add hle
        have hstep : p.step = ms * 1000 := rfl
        have hp : p.steps = steps := rfl
        rw [or_iff_right hwrap]
        omega
      · rw [or_iff_right hwrap]
        exact needed_le_wrapped_iff (p := p) hle

/-- The figures that the scenario has of its own. -/
theorem own_figures_are_right :
    CommandLine.parse ["stress"] = .ok { scenario := .stress 64 15 100 } ∧
      (⟨64, 15, 100⟩ : Plan).budget? = some (⟨64, 15, 100⟩ : Plan).due := by
  have h : CommandLine.parse ["stress"] = .ok { scenario := .stress 64 15 100 } := by
    decide +kernel
  have hb : (⟨64, 15, 100⟩ : Plan).budget? = some 33500000 := by decide
  obtain ⟨-, -, hright⟩ := budget_is_right_until_the_steps_wrap h rfl
  have hdue := (hright _ hb).1.mpr (.inl (by decide))
  exact ⟨h, hb.trans (congrArg some hdue)⟩

/-- A worker that is to take more than thirteen years is given half a minute. -/
theorem wrapped_budget_is_half_a_minute :
    CommandLine.parse ["stress", "--threads", "1", "--steps", "4294967276", "--step-ms", "100"] =
        .ok { scenario := .stress 1 4294967276 100 } ∧
      (⟨1, 4294967276, 100⟩ : Plan).budget? = some 30000000 ∧
      ¬4294967276 * (⟨1, 4294967276, 100⟩ : Plan).step ≤ 30000000 := by
  refine ⟨by decide +kernel, by decide, by decide⟩

end Stress.Plan

end Standstill
