import Standstill.Proofs.SpawnAnswer

/-!
Calls that are not refused, whatever happens meanwhile. To stop a thread, or to let it go, is refused
if it is not there any more; to stop all the others, to let them go and to read the figures of the
service is not.
-/
namespace Standstill

open World

variable {w : World} {t : ThreadId} {i : Instr} {top rest : List Instr} {e : Event} {lenient : Bool}
  {o : Outcome}

/-- The instruction belongs to a wait for threads to stop, which can come to nothing. -/
def StopInstr.mayRunOut : StopInstr → Bool
  | .settleStart .. | .settle .. | .scan .. | .scanRequest .. | .scanLevel .. | .scanPhase ..
  | .verdict .. | .undoStop _ => true
  | _ => false

/-- The instruction is about one thread, which may not be there any more. -/
def StopInstr.isChase : StopInstr → Bool
  | .suspendFind .. | .readEpoch .. | .request .. | .readLevel .. | .deliver ..
  | .resumeFind .. | .resumeClear .. | .resumeLevel .. | .resumeWake .. => true
  | _ => false

/-- The instruction is one of a call that is not refused; if `lenient`, but for a thread that is not
there any more. -/
def Instr.isSmooth (lenient : Bool) : Instr → Bool
  | .stop i => !i.mayRunOut && (lenient || !i.isChase)
  | .member (.publish ..) | .member (.bind _) | .member (.spawnWait ..) => true
  | .read (.statsCensus _) | .read (.statsMutexes _) | .read (.statsConds _)
  | .read (.statsCounters _) => true
  | i => i.isSilent

theorem smooth_of_silent (h : i.isSilent = true) : i.isSmooth lenient = true := by
  cases i with
  | stop | member | read => cases h
  | _ => exact h

theorem StopInstr.run_smooth (i : StopInstr) (h : (Instr.stop i).isSmooth lenient = true) :
    (i.run t w).2.all (Instr.isSmooth lenient) = true := by
  have head : lenient = true ∨ i.isChase = false := by
    simp only [Instr.isSmooth, Bool.and_eq_true, Bool.or_eq_true, Bool.not_eq_true'] at h
    exact h.2
  cases i with
  | settleStart | settle | scan | scanRequest | scanLevel | scanPhase | verdict | undoStop =>
    cases h
  | haltOthers s | freeOthers s =>
    simp only [StopInstr.run, leaveRoster, List.all_append, List.all_map, Bool.and_eq_true]
    cases lenient <;> exact ⟨List.all_eq_true.mpr fun r _ => rfl, rfl⟩
  | suspendFind | readEpoch | request | readLevel | deliver | resumeFind | resumeClear
  | resumeLevel | resumeWake =>
    obtain rfl := head.resolve_right (by simp [StopInstr.isChase])
    simp only [StopInstr.run]
    repeat' split
    all_goals rfl
  | _ =>
    simp only [StopInstr.run]
    repeat' split
    all_goals cases lenient <;> rfl

theorem stretch_smooth (lenient : Bool) : Stretch (Instr.isSmooth lenient) where
  nested h := smooth_of_silent (silent_of_nested h)
  run {w t i} h := by
    cases i with
    | user => cases h
    | sync | guard | park => exact all_imp smooth_of_silent (run_silent h)
    | pool => cases h
    | stop i => exact i.run_smooth h
    | member i =>
      cases i with
      | publish | bind | spawnWait =>
        simp only [Instr.run, MemberInstr.run]
        repeat' split
        all_goals rfl
      | _ => cases h
    | read i =>
      cases i with
      | statsCensus | statsMutexes | statsConds | statsCounters =>
        simp only [Instr.run, ReadInstr.run, ReadInstr.consult]
        repeat' split
        all_goals rfl
      | _ => cases h

/-- What a smooth instruction makes of the outcome `o`. -/
inductive Smoothly (lenient : Bool) (o : Outcome) : Outcome → Prop
  | same : Smoothly lenient o o
  | stats (x : Stats) : Smoothly lenient o (.value (.stats x))
  | missing (h : lenient = true) : Smoothly lenient o (.fault .unknownHandle)

theorem smoothly_of_eq {a : Outcome} (h : a = o) : Smoothly lenient o a := h ▸ .same

section Run

attribute [local simp] World.setLevel World.setPhase World.setRequest World.sendSignal
  World.modCensus World.modRoster World.count World.setBinding
  ofThread_modThread

theorem StopInstr.smoothly_run (i : StopInstr) (h : (Instr.stop i).isSmooth lenient = true)
    (hl : t < w.threads.length) :
    Smoothly lenient (w.outcomeOf t) ((i.run t w).1.outcomeOf t) := by
  have head : lenient = true ∨ i.isChase = false := by
    simp only [Instr.isSmooth, Bool.and_eq_true, Bool.or_eq_true, Bool.not_eq_true'] at h
    exact h.2
  have signal (r : RecordId) : (w.signalOwner r).outcomeOf t = w.outcomeOf t := by
    simp only [signalOwner]
    split
    · simp [outcomeOf_eq]
    · rfl
  cases i with
  | settleStart | settle | scan | scanRequest | scanLevel | scanPhase | verdict | undoStop =>
    cases h
  | suspendFind | deliver | resumeFind | resumeWake =>
    have hm := head.resolve_right (by simp [StopInstr.isChase])
    simp only [StopInstr.run]
    repeat' split
    all_goals first
      | exact .same
      | exact smoothly_of_eq (signal _)
      | exact (outcomeOf_fail hl).symm ▸ .missing hm
  | haltDeliver | freeWake =>
    simp only [StopInstr.run]
    split
    · exact smoothly_of_eq (signal _)
    · exact .same
  | _ =>
    refine smoothly_of_eq ?_
    simp only [StopInstr.run]
    repeat' split
    all_goals simp [outcomeOf_eq]

theorem smoothly_run (h : i.isSmooth lenient = true) (hl : t < w.threads.length) :
    Smoothly lenient (w.outcomeOf t) ((i.run t w).1.outcomeOf t) := by
  cases i with
  | user | pool => cases h
  | sync | guard | park =>
    refine smoothly_of_eq (outcomeOf_run_of_mute ?_ fun j hj => by cases hj)
    exact h
  | stop i => exact i.smoothly_run h hl
  | member i =>
    cases i with
    | publish | bind | spawnWait =>
      refine smoothly_of_eq ?_
      simp only [Instr.run, MemberInstr.run]
      repeat' split
      all_goals simp [outcomeOf_eq]
    | _ => cases h
  | read i =>
    have told (f : Stats → Stats) :
        Smoothly lenient (w.outcomeOf t) ((w.modStats t f).outcomeOf t) := by
      obtain ⟨x, hx⟩ := outcomeOf_modStats hl f
      rw [hx]
      exact .stats x
    cases i with
    | statsCensus | statsMutexes | statsConds | statsCounters =>
      simp only [Instr.run, ReadInstr.run, ReadInstr.consult]
      repeat' split
      all_goals first | exact told _ | exact .same
    | _ => cases h

end Run

/-- One event, as a thread sees it that has nothing but such instructions to do until its call comes
back. -/
theorem smooth_step (hc : w.codeOf t = top ++ i :: rest)
    (ht : top.all (Instr.isSmooth lenient) = true) (he : e.isBy t = false) :
    (∃ top', top'.all (Instr.isSmooth lenient) = true ∧ (w.step e).codeOf t = top' ++ i :: rest ∧
      Smoothly lenient (w.outcomeOf t) ((w.step e).outcomeOf t)) ∨
    e = .advance t ∧ w.codeOf t = i :: rest ∧ i ≠ .user ∧ w.step e = w.proceed t i rest := by
  rcases (stretch_smooth lenient).step hc ht he with
    ⟨top', ht', hc', ho | ⟨k, below, hk, -, h, hs⟩⟩ | ⟨he, h, hu, -, hs⟩
  · exact .inl ⟨top', ht', hc', smoothly_of_eq ho⟩
  · refine .inl ⟨top', ht', hc', ?_⟩
    have ho := smoothly_run (w := w.setCode t below) hk (lt_setCode_of_head h)
    rwa [outcomeOf_setCode, ← outcomeOf_proceed, ← hs] at ho
  · exact .inr ⟨he, h, hu, hs⟩

end Standstill
