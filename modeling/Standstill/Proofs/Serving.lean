import Standstill.Proofs.Departures
import Standstill.Proofs.Headcount

/-!
The threads that a service has started, from the moment at which they go through its start gate to that
at which they run their last section. Each does either only once, and in this order. Main lemma: the
number of them that are no daemons is the count that the service keeps by hand, and that count is
never taken below zero.
-/
namespace Standstill

open World

/-- The record is a daemon's. -/
def World.daemonOf (w : World) (r : RecordId) : Bool := w.ofRecord r true (·.daemon)

/-- In the run `es` the thread of record `r` has gone through the start gate of service `s`. -/
def World.hasPassed (w : World) (s : ServiceId) (r : RecordId) (es : List Event) : Bool :=
  w.runs (.member (.gatePass s r)) es

/-- In the run `es` the thread of record `r` has run its last section, that of service `s`. -/
def World.hasEnded (w : World) (s : ServiceId) (r : RecordId) (es : List Event) : Bool :=
  w.runs (.member (.exitRemove s r)) es

namespace World

/-- After the run `es` record `r` is that of a thread of service `s` which is no daemon, has gone
through the start gate and has not run its last section. -/
def isServing (w : World) (s : ServiceId) (es : List Event) (r : RecordId) : Bool :=
  !(w.run es).daemonOf r && w.hasPassed s r es && !w.hasEnded s r es

/-- How many such threads there are. -/
def serving (w : World) (s : ServiceId) (es : List Event) : Nat :=
  (List.range (w.run es).records.length).countP (w.isServing s es)

end World

namespace Instr

/-- A thread is going to be led to the start gate with record `r`, or is at it. -/
def toGate? : Instr → Option RecordId
  | .member (.spawnNative _ r) | .member (.gateWait _ r) | .member (.gatePass _ r) => some r
  | _ => none

/-- A thread is going to run its last section with record `r`. -/
def toEnd? : Instr → Option RecordId
  | .member (.spawnNative _ r) | .member (.exitRaise _ r) | .member (.exitRemove _ r) => some r
  | _ => none

end Instr

variable {n : Nat} {w w' : World} {t t' : ThreadId} {s b : ServiceId} {r : RecordId} {i j : Instr}
  {rest : List Instr} {e : Event} {es fs : List Event}

/-! Histories. -/

theorem runs_append : w.runs i (es ++ fs) = (w.runs i es || (w.run es).runs i fs) := by
  induction es generalizing w with
  | nil => rfl
  | cons e es ih => rw [List.cons_append, runs, runs, ih, run_cons, Bool.or_assoc]

theorem runs_snoc : w.runs i (es ++ [e]) = (w.runs i es || (w.run es).upNext e == some i) := by
  rw [runs_append, runs, runs, Bool.or_false]

theorem runs_snoc_of_ne (h : (w.run es).upNext e ≠ some i) :
    w.runs i (es ++ [e]) = w.runs i es := by
  rw [runs_snoc, beq_eq_false_iff_ne.mpr h, Bool.or_false]

theorem runs_snoc_self (h : (w.run es).upNext e = some i) : w.runs i (es ++ [e]) = true := by
  rw [runs_snoc, h, beq_self_eq_true, Bool.or_true]

/-- The instruction is run, now or before. -/
theorem runs_snoc_cases (h : w.runs i (es ++ [e]) = true) :
    w.runs i es = true ∨ (w.run es).upNext e = some i := by
  rw [runs_snoc, Bool.or_eq_true, beq_iff_eq] at h
  exact h

/-! How a thread comes to the gate, and to its end. -/

theorem marked_of_toGate (h : j.toGate? = some r) : j.isMarked = true := by
  cases j with
  | member k => cases k <;> first | rfl | cases h
  | _ => cases h

theorem lasting_of_toEnd (h : j.toEnd? = some r) : j.isLasting = true := by
  cases j with
  | member k => cases k <;> first | rfl | cases h
  | _ => cases h

section Proceed

variable (hw : Lawful n w) (h : w.codeOf t = i :: rest) (hu : i.isReady w t = true)
include hw h hu

theorem toGate_of_proceed (hj : j ∈ (w.proceed t i rest).codeOf t') (hr : j.toGate? = some r) :
    r = w.records.length ∨ ∃ q k, k ∈ w.codeOf q ∧ k.toGate? = some r := by
  have hi : i ∈ w.codeOf t := h ▸ List.mem_cons_self
  rcases marked_cases (hw.reachable.sealed t) h hu hj (marked_of_toGate hr) with
    ⟨-, hb⟩ | ⟨hj, -⟩ | ⟨b, x, rfl, -, hj, -⟩
  · cases hb with
    | spawnNative s o k =>
      cases hr
      exact Or.inl rfl
    | gateWait s x | gatePass s x =>
      cases hr
      exact Or.inr ⟨t, _, hi, rfl⟩
    | _ => cases hr
  · exact Or.inr ⟨t', j, hj, hr⟩
  · refine Or.inr ⟨t, _, hi, ?_⟩
    simp only [threadCode, List.mem_cons, List.not_mem_nil, or_false] at hj
    rcases hj with rfl | rfl | rfl | rfl | rfl | rfl | rfl | rfl | rfl | rfl <;> cases hr
    rfl

omit hw in
/-- A last section is one that has been there, or comes with the code of a new thread. -/
theorem exitRaise_of_proceed (hj : .member (.exitRaise s r) ∈ (w.proceed t i rest).codeOf t') :
    .member (.exitRaise s r) ∈ w.codeOf t' ∨
      i = .member (.spawnNative s r) ∧ .member (.gateWait s r) ∈ (w.proceed t i rest).codeOf t' := by
  rcases mem_codeOf_proceed h hj with ⟨-, hm⟩ | ⟨ht, hm⟩ | ⟨-, hm⟩ | ⟨b, x, hi, -, hm, hc⟩
  · have hs := List.all_eq_true.mp (run_sequel (t := t) (w := w.setCode t rest) i (ne_user_of_ready hu)) _ hm
    cases hs
  · rw [ht, h]
    exact Or.inl (List.mem_cons_of_mem _ hm)
  · exact Or.inl hm
  · right
    rw [hc]
    simp only [threadCode, List.mem_cons, List.not_mem_nil, or_false] at hm ⊢
    rcases hm with hm | hm | hm | hm | hm | hm | hm | hm | hm | hm <;> cases hm
    exact ⟨hi, by simp⟩

theorem toEnd_of_proceed (hj : j ∈ (w.proceed t i rest).codeOf t') (hr : j.toEnd? = some r) :
    r = w.records.length ∨ ∃ q k, k ∈ w.codeOf q ∧ k.toEnd? = some r := by
  have hi : i ∈ w.codeOf t := h ▸ List.mem_cons_self
  have marked (hm : j.isMarked = true) : r = w.records.length ∨
      ∃ q k, k ∈ w.codeOf q ∧ k.toEnd? = some r := by
    rcases marked_cases (hw.reachable.sealed t) h hu hj hm with
      ⟨-, hb⟩ | ⟨hj, -⟩ | ⟨b, x, rfl, -, hj, -⟩
    · cases hb with
      | spawnNative s o k =>
        cases hr
        exact Or.inl rfl
      | exitRemove s x =>
        cases hr
        exact Or.inr ⟨t, _, hi, rfl⟩
      | _ => cases hr
    · exact Or.inr ⟨t', j, hj, hr⟩
    · refine Or.inr ⟨t, _, hi, ?_⟩
      simp only [threadCode, List.mem_cons, List.not_mem_nil, or_false] at hj
      rcases hj with rfl | rfl | rfl | rfl | rfl | rfl | rfl | rfl | rfl | rfl <;> cases hr
      rfl
  cases j with
  | member k =>
    cases k with
    | spawnNative | exitRemove => exact marked rfl
    | exitRaise s x =>
      cases hr
      rcases exitRaise_of_proceed h hu hj with hj | ⟨rfl, -⟩
      · exact Or.inr ⟨t', _, hj, rfl⟩
      · exact Or.inr ⟨t, _, hi, rfl⟩
    | _ => cases hr
  | _ => cases hr

/-- Who goes through the gate does not come to it again. -/
theorem not_toGate_gatePass (hi : i = .member (.gatePass s r))
    (hj : j ∈ (w.proceed t i rest).codeOf t') : j.toGate? ≠ some r := by
  intro hr
  have c := hw.reachable.custody
  have ho : w.ownerOf r = some t :=
    c.ownerOf_of_head (hw.reachable.orderly t) h (by rw [hi]; rfl) (by rw [hi]; exact fun h => by cases h)
  rcases marked_cases (hw.reachable.sealed t) h hu hj (marked_of_toGate hr) with
    ⟨-, hb⟩ | ⟨hj, hl⟩ | ⟨b, x, hx, -⟩
  · rw [hi] at hb
    cases hb
  · cases j with
    | member k =>
      cases k with
      | spawnNative b x =>
        cases hr
        exact absurd (ho.symm.trans (c.borne hj).2.1) (fun h => by cases h)
      | gateWait b x | gatePass b x =>
        cases hr
        have hl := (hl (c.eq_of_record hj rfl ho)).2
        rw [hi] at hl
        cases hl
      | _ => cases hr
    | _ => cases hr
  · rw [hi] at hx
    cases hx

/-- Who runs its last section does not come to run it again. -/
theorem not_toEnd_exitRemove (hi : i = .member (.exitRemove s r))
    (hj : j ∈ (w.proceed t i rest).codeOf t') : j.toEnd? ≠ some r := by
  intro hr
  have c := hw.reachable.custody
  have hm : .member (.exitRemove s r) ∈ w.codeOf t := h ▸ hi ▸ List.mem_cons_self
  have ho : w.ownerOf r = some t :=
    c.ownerOf_of_head (hw.reachable.orderly t) h (by rw [hi]; rfl) (by rw [hi]; exact fun h => by cases h)
  -- all else that its thread has to do is to leave
  have own {k : Instr} (hk : k ∈ w.codeOf t') (hr : k.record? = some r) : k.isParting = true := by
    rw [c.eq_of_record hk hr ho] at hk
    exact List.all_eq_true.mp (hw.leaving.parting hm) k hk
  cases j with
  | member k =>
    cases k with
    | spawnNative b x =>
      cases hr
      rcases marked_cases (hw.reachable.sealed t) h hu hj rfl with ⟨-, hb⟩ | ⟨hj, -⟩ | ⟨b, x, hx, -⟩
      · rw [hi] at hb
        cases hb
      · exact absurd (ho.symm.trans (c.borne hj).2.1) (fun h => by cases h)
      · rw [hi] at hx
        cases hx
    | exitRaise b x =>
      cases hr
      rcases exitRaise_of_proceed h hu hj with hj | ⟨hx, -⟩
      · cases own hj rfl
      · rw [hi] at hx
        cases hx
    | exitRemove b x =>
      cases hr
      rcases marked_cases (hw.reachable.sealed t) h hu hj rfl with ⟨-, hb⟩ | ⟨hj, hl⟩ | ⟨b, x, hx, -⟩
      · rw [hi] at hb
        cases hb
      · have hl := (hl (c.eq_of_record hj rfl ho)).2
        rw [hi] at hl
        cases hl
      · rw [hi] at hx
        cases hx
    | _ => cases hr
  | _ => cases hr

end Proceed

/-! The order in which a started thread comes to its gate and to its end. -/

/-- Thread `t` has still to go through the gate of service `s` with record `r`, or has done so. -/
def GateDue (n : Nat) (es : List Event) (t : ThreadId) (s : ServiceId) (r : RecordId) : Prop :=
  .member (.gateWait s r) ∈ ((World.initial n).run es).codeOf t ∨
    .member (.gatePass s r) ∈ ((World.initial n).run es).codeOf t ∨
      (World.initial n).hasPassed s r es = true

structure Staged (n : Nat) (es : List Event) : Prop where
  passed : ∀ {s r}, (World.initial n).hasPassed s r es = true →
    r < ((World.initial n).run es).records.length ∧
      ∀ {t j}, j ∈ ((World.initial n).run es).codeOf t → j.toGate? ≠ some r
  ended : ∀ {s r}, (World.initial n).hasEnded s r es = true →
    r < ((World.initial n).run es).records.length ∧ (World.initial n).hasPassed s r es = true ∧
      ∀ {t j}, j ∈ ((World.initial n).run es).codeOf t → j.toEnd? ≠ some r
  leaves : ∀ {t s r}, .member (.exitRaise s r) ∈ ((World.initial n).run es).codeOf t →
    GateDue n es t s r
  removes : ∀ {t s r}, .member (.exitRemove s r) ∈ ((World.initial n).run es).codeOf t →
    GateDue n es t s r
  notes : ∀ {t s r}, .member (.noteStarted r) ∈ ((World.initial n).run es).codeOf t →
    ((World.initial n).run es).homeOf r = some s →
      .member (.gatePass s r) ∈ ((World.initial n).run es).codeOf t ∨
        (World.initial n).hasPassed s r es = true

theorem staged_nil (n : Nat) : Staged n [] := by
  constructor
  case passed | ended =>
    intro s r h
    cases h
  case leaves | removes =>
    intro t s r hj
    cases eq_user_of_initial hj
  case notes =>
    intro t s r hj
    cases eq_user_of_initial hj

theorem gatePass_append (hj : .member (.gatePass s r) ∈ ((World.initial n).run es).codeOf t) :
    .member (.gatePass s r) ∈ ((World.initial n).run (es ++ [e])).codeOf t ∨
      (World.initial n).hasPassed s r (es ++ [e]) = true := by
  rw [run_snoc]
  rcases ((World.initial n).run es).step_cases e with ⟨q, i, rest, rfl, h, -, hs⟩ | u
  · rw [hs]
    by_cases hi : i = .member (.gatePass s r)
    · exact Or.inr (runs_snoc_self (upNext_eq_some.mpr ⟨q, rest, rfl, hi ▸ h⟩))
    · exact Or.inl (mem_codeOf_proceed_of_mem h hj fun _ hx => hi hx.symm)
  · exact Or.inl ((u.mem_iff rfl).mpr hj)

theorem hasPassed_append (h : (World.initial n).hasPassed s r es = true) :
    (World.initial n).hasPassed s r (es ++ [e]) = true := by
  rw [hasPassed, runs_snoc, ← hasPassed, h, Bool.true_or]

theorem GateDue.append (g : GateDue n es t s r) (e : Event) : GateDue n (es ++ [e]) t s r := by
  rcases g with hj | hj | hp
  · rw [GateDue, run_snoc]
    rcases ((World.initial n).run es).step_cases e with ⟨q, i, rest, rfl, h, -, hs⟩ | u
    · rw [hs]
      by_cases hi : t = q ∧ i = .member (.gateWait s r)
      · obtain ⟨rfl, rfl⟩ := hi
        rw [codeOf_proceed h, remainder]
        simp only [Instr.run, MemberInstr.run]
        split <;> simp
      · exact Or.inl (mem_codeOf_proceed_of_mem h hj fun ht hx => hi ⟨ht, hx.symm⟩)
    · exact Or.inl ((u.mem_iff rfl).mpr hj)
  · exact Or.inr (gatePass_append hj)
  · exact Or.inr (Or.inr (hasPassed_append hp))

section Step

variable (o : Staged n es) (hw : Lawful n ((World.initial n).run es))
include o hw

/-- A thread that runs its last section has gone through the gate. -/
theorem Staged.hasPassed_of_exit
    (h : ((World.initial n).run es).codeOf t = .member (.exitRemove s r) :: rest) :
    (World.initial n).hasPassed s r es = true := by
  have hm : .member (.exitRemove s r) ∈ ((World.initial n).run es).codeOf t :=
    h ▸ List.mem_cons_self
  have hp := List.all_eq_true.mp (hw.leaving.parting hm)
  -- what is left to do at the end has nothing of the gate in it
  rcases o.removes hm with hj | hj | hp'
  · cases hp _ hj
  · cases hp _ hj
  · exact hp'

theorem Staged.passed_append (hx : (World.initial n).hasPassed s r (es ++ [e]) = true) :
    r < ((World.initial n).run (es ++ [e])).records.length ∧
      ∀ {t j}, j ∈ ((World.initial n).run (es ++ [e])).codeOf t → j.toGate? ≠ some r := by
  rw [run_snoc]
  rcases runs_snoc_cases hx with hp | hi
  · obtain ⟨hr, hg⟩ := o.passed hp
    rcases ((World.initial n).run es).step_cases e with ⟨q, i, rest, -, h, hu, hs⟩ | u
    · rw [hs]
      refine ⟨Nat.lt_of_lt_of_le hr World.records_length_proceed, fun hj hk => ?_⟩
      rcases toGate_of_proceed hw h hu hj hk with rfl | ⟨q, k, hk, hkr⟩
      · exact Nat.lt_irrefl _ hr
      · exact hg hk hkr
    · rw [u.records]
      exact ⟨hr, fun hj hk => hg ((u.mem_iff (lasting_of_marked (marked_of_toGate hk))).mp hj) hk⟩
  · obtain ⟨t, rest, rfl, h⟩ := upNext_eq_some.mp hi
    rw [step_of_code h rfl]
    have hr := lt_of_record hw.reachable.custody (h ▸ List.mem_cons_self) (r := r) rfl
    exact ⟨Nat.lt_of_lt_of_le hr World.records_length_proceed, not_toGate_gatePass hw h rfl rfl⟩

theorem Staged.ended_append (hx : (World.initial n).hasEnded s r (es ++ [e]) = true) :
    r < ((World.initial n).run (es ++ [e])).records.length ∧
      (World.initial n).hasPassed s r (es ++ [e]) = true ∧
      ∀ {t j}, j ∈ ((World.initial n).run (es ++ [e])).codeOf t → j.toEnd? ≠ some r := by
  rw [run_snoc]
  rcases runs_snoc_cases hx with hp | hi
  · obtain ⟨hr, hp, hg⟩ := o.ended hp
    rcases ((World.initial n).run es).step_cases e with ⟨q, i, rest, -, h, hu, hs⟩ | u
    · rw [hs]
      refine ⟨Nat.lt_of_lt_of_le hr World.records_length_proceed, hasPassed_append hp, fun hj hk => ?_⟩
      rcases toEnd_of_proceed hw h hu hj hk with rfl | ⟨q, k, hk, hkr⟩
      · exact Nat.lt_irrefl _ hr
      · exact hg hk hkr
    · rw [u.records]
      exact ⟨hr, hasPassed_append hp, fun hj hk => hg ((u.mem_iff (lasting_of_toEnd hk)).mp hj) hk⟩
  · obtain ⟨t, rest, rfl, h⟩ := upNext_eq_some.mp hi
    rw [step_of_code h rfl]
    have hr := lt_of_record hw.reachable.custody (h ▸ List.mem_cons_self) (r := r) rfl
    exact ⟨Nat.lt_of_lt_of_le hr World.records_length_proceed, hasPassed_append (o.hasPassed_of_exit hw h),
      not_toEnd_exitRemove hw h rfl rfl⟩

omit hw in
theorem Staged.leaves_append
    (hj : .member (.exitRaise s r) ∈ ((World.initial n).run (es ++ [e])).codeOf t) :
    GateDue n (es ++ [e]) t s r := by
  rw [run_snoc] at hj
  rcases ((World.initial n).run es).step_cases e with ⟨q, i, rest, -, h, hu, hs⟩ | u
  · rw [hs] at hj
    rcases exitRaise_of_proceed h hu hj with hj | ⟨-, hg⟩
    · exact (o.leaves hj).append e
    · rw [← hs, ← run_snoc] at hg
      exact Or.inl hg
  · exact (o.leaves ((u.mem_iff rfl).mp hj)).append e

theorem Staged.removes_append
    (hj : .member (.exitRemove s r) ∈ ((World.initial n).run (es ++ [e])).codeOf t) :
    GateDue n (es ++ [e]) t s r := by
  rw [run_snoc] at hj
  rcases ((World.initial n).run es).step_cases e with ⟨q, i, rest, -, h, hu, hs⟩ | u
  · rw [hs] at hj
    rcases marked_cases (hw.reachable.sealed q) h hu hj rfl with
      ⟨rfl, hb⟩ | ⟨hj, -⟩ | ⟨b, x, -, -, hj, -⟩
    · cases hb
      exact (o.leaves (h ▸ List.mem_cons_self)).append e
    · exact (o.removes hj).append e
    · simp [threadCode] at hj
  · exact (o.removes ((u.mem_iff rfl).mp hj)).append e

theorem Staged.notes_append
    (hj : .member (.noteStarted r) ∈ ((World.initial n).run (es ++ [e])).codeOf t)
    (hr : ((World.initial n).run (es ++ [e])).homeOf r = some s) :
    .member (.gatePass s r) ∈ ((World.initial n).run (es ++ [e])).codeOf t ∨
      (World.initial n).hasPassed s r (es ++ [e]) = true := by
  have keep (hj : .member (.noteStarted r) ∈ ((World.initial n).run es).codeOf t)
      (hr : ((World.initial n).run es).homeOf r = some s) :
      .member (.gatePass s r) ∈ ((World.initial n).run (es ++ [e])).codeOf t ∨
        (World.initial n).hasPassed s r (es ++ [e]) = true := by
    rcases o.notes hj hr with hg | hp
    · exact gatePass_append hg
    · exact Or.inr (hasPassed_append hp)
  rw [run_snoc] at hj hr
  rcases ((World.initial n).run es).step_cases e with ⟨q, i, rest, -, h, hu, hs⟩ | u
  · rw [hs] at hj hr
    rcases marked_cases (hw.reachable.sealed q) h hu hj rfl with
      ⟨rfl, hb⟩ | ⟨hj, -⟩ | ⟨b, x, -, -, hj, -⟩
    · cases hb with
      | noteStarted b _ ha =>
        have hi : .member (.gateWait b r) ∈ ((World.initial n).run es).codeOf t := h ▸ List.mem_cons_self
        have hb : ((World.initial n).run es).homeOf r = some b := hw.rostered.sited hi rfl
        rw [homeOf_proceed_of_some hb] at hr
        cases hr
        -- the gate is open: the thread is let through next
        left
        have ha' : ((((World.initial n).run es).setCode t rest).census s).allSuspended = false := ha
        rw [run_snoc, hs, codeOf_proceed h, remainder]
        simp [Instr.run, MemberInstr.run, ha']
    · rw [homeOf_proceed (lt_of_record hw.reachable.custody hj rfl)] at hr
      exact keep hj hr
    · simp [threadCode] at hj
  · have hh : (((World.initial n).run es).step e).homeOf r = ((World.initial n).run es).homeOf r :=
      u.ofRecord
    exact keep ((u.mem_iff rfl).mp hj) (hh.symm.trans hr)

theorem Staged.append (e : Event) : Staged n (es ++ [e]) where
  passed := o.passed_append hw
  ended := o.ended_append hw
  leaves := o.leaves_append
  removes := o.removes_append hw
  notes := o.notes_append hw

end Step

theorem staged (es : List Event) (ha : (World.initial n).admits es = true) : Staged n es := by
  induction es using List.reverseRecOn with
  | nil => exact staged_nil n
  | append_singleton es e ih =>
    rw [admits_append, Bool.and_eq_true] at ha
    exact (ih ha.1).append ⟨es, ha.1, rfl⟩ e

/-- A record that comes to be marked as started is that of a thread which has gone through the gate. -/
theorem Staged.hasPassed_of_started (o : Staged n es) (hw : Lawful n ((World.initial n).run es))
    (hs : ((World.initial n).run es).homeOf r = some s)
    (h0 : ((World.initial n).run es).startedOf r = false)
    (h1 : ((World.initial n).run (es ++ [e])).startedOf r = true) :
    (World.initial n).hasPassed s r (es ++ [e]) = true := by
  rw [run_snoc] at h1
  rcases ((World.initial n).run es).step_cases e with ⟨q, i, rest, -, h, -, he⟩ | u
  · rw [he] at h1
    obtain rfl : i = .member (.noteStarted r) := by
      by_contra hi
      rw [startedOf_proceed (lt_of_homeOf hs) hi, h0] at h1
      cases h1
    rcases o.notes (h ▸ List.mem_cons_self) hs with hg | hp
    · have so := hw.reachable.sealed q
      rw [h] at hg so
      cases so.lets ((List.mem_cons.mp hg).resolve_left fun hx => by cases hx)
    · exact hasPassed_append hp
  · have hst : (((World.initial n).run es).step e).startedOf r =
        ((World.initial n).run es).startedOf r := u.ofRecord
    rw [hst, h0] at h1
    cases h1

/-! The count that is kept by hand. -/

theorem daemonOf_proceed (hr : r < w.records.length) :
    (w.proceed t i rest).daemonOf r = w.daemonOf r :=
  ofRecord_run_of_lt (w := w.setCode t rest) i hr (fun _ => rfl) (fun _ _ => rfl) (fun _ _ => rfl)
    (fun _ _ => rfl) fun _ _ => rfl

theorem daemonOf_step (e : Event) (hr : r < w.records.length) :
    (w.step e).daemonOf r = w.daemonOf r := by
  rcases w.step_cases e with ⟨t, i, rest, -, -, -, hs⟩ | u
  · rw [hs]
    exact daemonOf_proceed hr
  · exact u.ofRecord

theorem records_length_step (w : World) (e : Event) : w.records.length ≤ (w.step e).records.length := by
  rcases w.step_cases e with ⟨t, i, rest, -, -, -, hs⟩ | u
  · rw [hs]
    exact World.records_length_proceed
  · exact Nat.le_of_eq (congrArg List.length u.records).symm

section Count

variable (hw : Lawful n w)
include hw

theorem nonDaemon_proceed_gatePass (h : w.codeOf t = .member (.gatePass s r) :: rest) :
    ((w.proceed t (.member (.gatePass s r)) rest).census s).nonDaemon =
      (w.census s).nonDaemon + if w.daemonOf r then 0 else 1 := by
  have hm : .member (.gatePass s r) ∈ w.codeOf t := h ▸ List.mem_cons_self
  have hr := lt_of_record hw.reachable.custody hm (r := r) rfl
  have hc := List.getElem?_eq_getElem hr
  have hd : w.daemonOf r = w.records[r].daemon := by
    rw [daemonOf, ofRecord, hc]
  rw [census, roster_gatePass (hw.founded.placed hm rfl) hc, hd]
  cases w.records[r].daemon <;> rfl

theorem nonDaemon_proceed_exitRemove (h : w.codeOf t = .member (.exitRemove s r) :: rest) :
    ((w.proceed t (.member (.exitRemove s r)) rest).census s).nonDaemon =
      (w.census s).nonDaemon - if w.daemonOf r then 0 else 1 := by
  have hm : .member (.exitRemove s r) ∈ w.codeOf t := h ▸ List.mem_cons_self
  have hr := lt_of_record hw.reachable.custody hm (r := r) rfl
  have hc := List.getElem?_eq_getElem hr
  have hd : w.daemonOf r = w.records[r].daemon := by
    rw [daemonOf, ofRecord, hc]
  rw [census, roster_exitRemove (hw.founded.placed hm rfl) (hw.rostered.tagged s)
    (ownerOf_of_removes hw h rfl) hc (hw.reachable.handle_eq hc), hd]
  cases w.records[r].daemon <;> rfl

theorem nonDaemon_proceed (h : w.codeOf t = i :: rest)
    (hi : ∀ r, i ≠ .member (.gatePass s r) ∧ i ≠ .member (.exitRemove s r)) :
    ((w.proceed t i rest).census s).nonDaemon = (w.census s).nonDaemon := by
  have hr := hw.rostered.step hw h s
  rw [census]
  generalize (w.proceed t i rest).roster s = g at hr
  cases hr with
  | gatePass r => exact absurd rfl (hi r).1
  | exitRemove r => exact absurd rfl (hi r).2
  | detachRemove r l => split <;> rfl
  | _ => rfl

theorem nonDaemon_step (e : Event) (hi : ∀ r, w.upNext e ≠ some (.member (.gatePass s r)) ∧
      w.upNext e ≠ some (.member (.exitRemove s r))) :
    ((w.step e).census s).nonDaemon = (w.census s).nonDaemon := by
  rcases w.step_cases e with ⟨t, i, rest, rfl, h, -, hs⟩ | u
  · have hx := upNext_eq_some.mpr ⟨t, rest, rfl, h⟩
    rw [hs]
    refine nonDaemon_proceed hw h fun r => ⟨?_, ?_⟩ <;> rintro rfl
    · exact (hi r).1 hx
    · exact (hi r).2 hx
  · rw [census, roster_of_services_eq u.services, census]

end Count

theorem countP_range_of_lt {p : Nat → Bool} {k l : Nat} (hp : ∀ x, p x = true → x < k)
    (hkl : k ≤ l) : (List.range l).countP p = (List.range k).countP p := by
  obtain ⟨d, rfl⟩ := Nat.exists_eq_add_of_le hkl
  have hz : ((List.range d).map (k + ·)).countP p = 0 := by
    refine List.countP_eq_zero.mpr fun x hx hpx => ?_
    obtain ⟨y, -, rfl⟩ := List.mem_map.mp hx
    exact absurd (hp _ hpx) (by omega)
  rw [List.range_add, List.countP_append, hz, Nat.add_zero]

/-- The count goes down by one, or stays if the record is one that does not count. -/
theorem countP_of_lost_unless {ms : List RecordId} {p q : RecordId → Bool} {d : Bool}
    (hn : ms.Nodup) (hr : r ∈ ms) (hp : p r = !d) (hq : q r = false)
    (hpq : ∀ x ∈ ms, x ≠ r → p x = q x) : ms.countP p = ms.countP q + if d then 0 else 1 := by
  cases d with
  | false => exact countP_of_lost hn hr hp hq hpq
  | true =>
    refine List.countP_congr fun x hx => ?_
    by_cases hne : x = r
    · rw [hne, hp, hq, Bool.not_true]
    · rw [hpq x hx hne]

section Step

variable (o : Staged n es) (hw : Lawful n ((World.initial n).run es))
include o hw

theorem Staged.lt_of_isServing (h : (World.initial n).isServing s (es ++ [e]) r = true) :
    r < ((World.initial n).run es).records.length := by
  simp only [isServing, Bool.and_eq_true] at h
  rcases runs_snoc_cases h.1.2 with hp | hx
  · exact (o.passed hp).1
  · obtain ⟨t, rest, -, hc⟩ := upNext_eq_some.mp hx
    exact lt_of_record hw.reachable.custody (hc ▸ List.mem_cons_self) (r := r) rfl

/-- Only records that there have been before this event can be among those counted after it. -/
theorem Staged.serving_append (e : Event) : (World.initial n).serving s (es ++ [e]) =
    (List.range ((World.initial n).run es).records.length).countP
      ((World.initial n).isServing s (es ++ [e])) := by
  rw [serving, run_snoc]
  exact countP_range_of_lt (fun r hr => o.lt_of_isServing hw hr) (records_length_step _ e)

omit o hw in
theorem isServing_append (hr : r < ((World.initial n).run es).records.length)
    (hp : ((World.initial n).run es).upNext e ≠ some (.member (.gatePass s r)))
    (hx : ((World.initial n).run es).upNext e ≠ some (.member (.exitRemove s r))) :
    (World.initial n).isServing s (es ++ [e]) r = (World.initial n).isServing s es r := by
  rw [isServing, isServing, hasPassed, hasEnded, runs_snoc_of_ne hp, runs_snoc_of_ne hx, run_snoc,
    daemonOf_step e hr, hasPassed, hasEnded]

theorem Staged.serving_gatePass
    (hx : ((World.initial n).run es).upNext e = some (.member (.gatePass s r))) :
    (World.initial n).serving s (es ++ [e]) = (World.initial n).serving s es +
      if ((World.initial n).run es).daemonOf r then 0 else 1 := by
  obtain ⟨t, rest, -, hc⟩ := upNext_eq_some.mp hx
  have hm : .member (.gatePass s r) ∈ ((World.initial n).run es).codeOf t := hc ▸ List.mem_cons_self
  have hr := lt_of_record hw.reachable.custody hm (r := r) rfl
  -- the thread has not been counted before, so from now on it serves unless it is a daemon
  have hp : (World.initial n).hasPassed s r es = false := by
    rw [Bool.eq_false_iff]
    intro hp
    exact (o.passed hp).2 hm rfl
  have hn : (World.initial n).hasEnded s r es = false := by
    rw [Bool.eq_false_iff]
    intro hn
    exact Bool.false_ne_true (hp.symm.trans (o.ended hn).2.1)
  have old : (World.initial n).isServing s es r = false := by
    rw [isServing, hp, Bool.and_false, Bool.false_and]
  have new : (World.initial n).isServing s (es ++ [e]) r =
      !((World.initial n).run es).daemonOf r := by
    have hp' : (World.initial n).hasPassed s r (es ++ [e]) = true := runs_snoc_self hx
    have hn' : (World.initial n).hasEnded s r (es ++ [e]) = false := by
      rw [hasEnded, runs_snoc_of_ne (by rw [hx]; exact fun h => by cases h)]
      exact hn
    rw [isServing, hp', hn', run_snoc, daemonOf_step e hr, Bool.and_true, Bool.not_false,
      Bool.and_true]
  have others (c : RecordId) (hc : c ∈ List.range ((World.initial n).run es).records.length)
      (hne : c ≠ r) : (World.initial n).isServing s (es ++ [e]) c =
        (World.initial n).isServing s es c := by
    refine isServing_append (List.mem_range.mp hc) ?_ ?_ <;> rw [hx]
    · exact fun h => hne (by cases h; rfl)
    · exact fun h => by cases h
  rw [o.serving_append hw, serving]
  exact countP_of_lost_unless List.nodup_range (List.mem_range.mpr hr) new old others

theorem Staged.serving_exitRemove
    (hx : ((World.initial n).run es).upNext e = some (.member (.exitRemove s r))) :
    (World.initial n).serving s es = (World.initial n).serving s (es ++ [e]) +
      if ((World.initial n).run es).daemonOf r then 0 else 1 := by
  obtain ⟨t, rest, -, hc⟩ := upNext_eq_some.mp hx
  have hm : .member (.exitRemove s r) ∈ ((World.initial n).run es).codeOf t :=
    hc ▸ List.mem_cons_self
  have hr := lt_of_record hw.reachable.custody hm (r := r) rfl
  have hn : (World.initial n).hasEnded s r es = false := by
    rw [Bool.eq_false_iff]
    intro hn
    exact (o.ended hn).2.2 hm rfl
  have old : (World.initial n).isServing s es r = !((World.initial n).run es).daemonOf r := by
    rw [isServing, o.hasPassed_of_exit hw hc, hn, Bool.and_true, Bool.not_false, Bool.and_true]
  have new : (World.initial n).isServing s (es ++ [e]) r = false := by
    have hn' : (World.initial n).hasEnded s r (es ++ [e]) = true := runs_snoc_self hx
    rw [isServing, hn', Bool.not_true, Bool.and_false]
  have others (c : RecordId) (hc : c ∈ List.range ((World.initial n).run es).records.length)
      (hne : c ≠ r) : (World.initial n).isServing s es c =
        (World.initial n).isServing s (es ++ [e]) c := by
    refine (isServing_append (List.mem_range.mp hc) ?_ ?_).symm <;> rw [hx]
    · exact fun h => by cases h
    · exact fun h => hne (by cases h; rfl)
  rw [o.serving_append hw, serving]
  exact countP_of_lost_unless List.nodup_range (List.mem_range.mpr hr) old new others

theorem Staged.serving_append_of_ne
    (hx : ∀ r, ((World.initial n).run es).upNext e ≠ some (.member (.gatePass s r)) ∧
      ((World.initial n).run es).upNext e ≠ some (.member (.exitRemove s r))) :
    (World.initial n).serving s (es ++ [e]) = (World.initial n).serving s es := by
  rw [o.serving_append hw, serving]
  refine List.countP_congr fun r hr => ?_
  rw [isServing_append (List.mem_range.mp hr) (hx r).1 (hx r).2]

end Step

/-- What a service counts by hand are its threads that have gone through the gate, have not run their
last section and are no daemons. -/
theorem nonDaemon_eq_serving (es : List Event) (ha : (World.initial n).admits es = true)
    (s : ServiceId) :
    (((World.initial n).run es).census s).nonDaemon = (World.initial n).serving s es := by
  induction es using List.reverseRecOn with
  | nil => rfl
  | append_singleton es e ih =>
    rw [admits_append, Bool.and_eq_true] at ha
    have hw : Lawful n ((World.initial n).run es) := ⟨es, ha.1, rfl⟩
    have o := staged es ha.1
    have ih := ih ha.1
    rw [run_snoc]
    by_cases hp : ∃ r, ((World.initial n).run es).upNext e = some (.member (.gatePass s r))
    · obtain ⟨r, hx⟩ := hp
      rw [o.serving_gatePass hw hx, ← ih]
      obtain ⟨t, rest, rfl, h⟩ := upNext_eq_some.mp hx
      rw [step_of_code h rfl, nonDaemon_proceed_gatePass hw h]
    by_cases hr : ∃ r, ((World.initial n).run es).upNext e = some (.member (.exitRemove s r))
    · obtain ⟨r, hx⟩ := hr
      have hc := o.serving_exitRemove hw hx
      obtain ⟨t, rest, rfl, h⟩ := upNext_eq_some.mp hx
      rw [step_of_code h rfl, nonDaemon_proceed_exitRemove hw h, ih, hc, Nat.add_sub_cancel]
    · have hx (r : RecordId) := And.intro (fun h => hp ⟨r, h⟩) fun h => hr ⟨r, h⟩
      rw [nonDaemon_step hw e hx, o.serving_append_of_ne hw hx, ih]

end Standstill
