import Standstill.Proofs.CallAnswer
import Standstill.Proofs.Layers

/-!
A call, stage by stage. What is left of a call lies below instructions that say nothing about it, those
of guards, locks and the park loop; the thread runs these until it gets to the next stage of the call.
-/
namespace Standstill

open World

variable {w : World} {t t' : ThreadId} {i j : Instr} {top base rest : List Instr} {e : Event}

/-- What stands on top of the code is of kind `c`, or the first below code of this kind. -/
theorem head_cases {c : Instr → Bool} (hc : w.codeOf t = top ++ i :: rest) (ht : top.all c = true)
    {below : List Instr} (h : w.codeOf t = j :: below) : c j = true ∨ j = i ∧ below = rest := by
  rw [h] at hc
  cases top with
  | nil => exact .inr (List.cons.inj hc)
  | cons k top =>
    obtain ⟨rfl, -⟩ := List.cons.inj hc
    rw [List.all_cons, Bool.and_eq_true] at ht
    exact .inl ht.1

/-- The instruction does not set what its thread answers, and leads to no other that does. -/
def Instr.isSilent : Instr → Bool
  | .pool _ => false
  | i => i.isMute

theorem silent_of_nested (h : i.isNested = true) : i.isSilent = true := by
  cases i with
  | guard g => cases g <;> first | rfl | cases h
  | sync | park => rfl
  | _ => cases h

theorem run_silent (h : i.isSilent = true) : (i.run t w).2.all Instr.isSilent = true := by
  cases i with
  | sync k => cases k <;> simp [Instr.run, SyncInstr.run, Instr.isSilent, Instr.isMute]
  | guard g =>
    cases g <;> simp only [Instr.isSilent, Instr.isMute] at h <;>
      simp only [Instr.run, GuardInstr.run] <;> repeat' split
    all_goals simp [Instr.isSilent, Instr.isMute, stopIfDue] at h ⊢
  | park k => exact all_imp silent_of_nested (run_nested rfl)
  | _ => cases h

theorem outcomeOf_proceed_of_silent (h : i.isSilent = true) :
    (w.proceed t i rest).outcomeOf t' = w.outcomeOf t' := by
  have hm : i.isMute = true ∧ ∀ j, i ≠ .pool j := by
    cases i <;> first | (cases h; done) | exact ⟨h, fun _ hx => by cases hx⟩
  rw [outcomeOf_proceed, outcomeOf_run_of_mute hm.1 hm.2, outcomeOf_setCode]

theorem silent_leaveRoster (s : ServiceId) : (leaveRoster s).all Instr.isSilent = true := rfl

theorem stretch_silent : Stretch Instr.isSilent where
  run := run_silent
  nested := silent_of_nested

theorem silent_step (hc : w.codeOf t = top ++ i :: rest) (ht : top.all Instr.isSilent = true)
    (he : e.isBy t = false) :
    (∃ top', top'.all Instr.isSilent = true ∧ (w.step e).codeOf t = top' ++ i :: rest ∧
      (w.step e).outcomeOf t = w.outcomeOf t) ∨
    e = .advance t ∧ w.codeOf t = i :: rest ∧ i ≠ .user ∧ i.isReady w t = true ∧
      w.step e = w.proceed t i rest := by
  refine (stretch_silent.step hc ht he).imp_left ?_
  rintro ⟨top', ht', hc', ho | ⟨k, below, hk, -, -, hs⟩⟩
  · exact ⟨top', ht', hc', ho⟩
  · exact ⟨top', ht', hc', by rw [hs, outcomeOf_proceed_of_silent hk]⟩

/-- A thread that is on its way out of a call answers what it has come to answer. -/
theorem silent_step_out (hc : w.codeOf t = top ++ .user :: base)
    (ht : top.all Instr.isSilent = true) (he : e.isBy t = false) :
    ∃ top', top'.all Instr.isSilent = true ∧ (w.step e).codeOf t = top' ++ .user :: base ∧
      (w.step e).outcomeOf t = w.outcomeOf t :=
  (silent_step hc ht he).resolve_right fun h => h.2.2.1 rfl

end Standstill
