import Standstill.Proofs.Pinned

/-!
Lowering a level. Whoever raises its level puts off being stopped, and nothing more: a request that
comes meanwhile is found when the level is lowered again, on each of the ways in which that is done.
-/
namespace Standstill

open World ParkInstr

variable {n : Nat} {w : World} {t : ThreadId} {r : RecordId} {i : Instr} {rest : List Instr}
  {es : List Event}

/-- Instruction `i`, run by `t` now, takes the level of `r` down to `noBlock`. -/
inductive Lowers (w : World) (t : ThreadId) (r : RecordId) : Instr → Prop
  /-- A guard that was opened at level `noBlock` is closed. -/
  | drop (s : ServiceId) (level : Level) (hl : w.levelOf r ≠ .noBlock)
    (h : w.innermost? t = some (.guard (some r) level .noBlock)) : Lowers w t r (.guard (.lower s))
  | enable (s : ServiceId) (hl : w.levelOf r ≠ .noBlock) (h : w.selfIn t s = some r) :
    Lowers w t r (.guard (.enable s))
  | enableFast (s : ServiceId) (hl : w.levelOf r ≠ .noBlock) (h : w.selfIn t s = some r) :
    Lowers w t r (.guard (.enableFast s))

/-- A suspending thread that reads the level of `r` after it has raised the request. -/
def Instr.readsLevelFor (r : RecordId) : Instr → Bool
  | .stop (.readLevel _ b _ _) | .stop (.haltLevel _ b) => b == r
  | _ => false

theorem phase_suspended_level (hw : Reachable n w) (h : w.phaseOf r = .suspended) :
    w.levelOf r = .noBlock := by
  obtain ⟨t, j, hj, hp⟩ := hw.parkLoop.loop h
  obtain ⟨k, rfl, hk, hr⟩ := parksOn_iff.mp hp
  exact hw.parkLoop.level hj (parksOn_iff.mpr ⟨k, rfl, isCommitted_of_isLoop hk, hr⟩)

theorem pinned_of_check {m : Mechanism} {tests : List Test} {mid : List Instr}
    (hl : w.levelOf r = .noBlock) (ht : tests.contains .phase = false) (hm : .user ∉ mid)
    (hc : w.codeOf t = .park (.check tests (.call m) r) :: mid ++ rest) :
    Pinned false w t r rest :=
  ⟨hl, [], .check tests (.call m) r, mid, hc, rfl,
    ⟨by simpa [isPinning] using ht, by simp⟩, rfl, hm⟩

/-- Each way of lowering a level begins with a look at the request. -/
theorem Lowers.pinned (h : w.codeOf t = i :: rest) (hl : Lowers w t r i) :
    Pinned false (w.proceed t i rest) t r rest := by
  have hs : (w.setCode t rest).scopesOf t = w.scopesOf t := ofThread_setCode fun _ _ => rfl
  -- the level is down by the time that the look is left to do
  have hzero : ((w.setCode t rest).setLevel r .noBlock).levelOf r = .noBlock := by
    rw [levelOf_setLevel, ite_self]
  have hcode := codeOf_proceed h
  have hlevel : (w.proceed t i rest).levelOf r = (i.run t (w.setCode t rest)).1.levelOf r := rfl
  cases hl with
  | drop s level _ hx =>
    have hx' : (w.setCode t rest).innermost? t = some (.guard (some r) level .noBlock) := by
      rw [innermost_eq, hs, ← innermost_eq, hx]
    simp only [remainder, Instr.run, GuardInstr.run, hx'] at hcode hlevel
    refine pinned_of_check (hlevel.trans hzero) rfl ?_ hcode
    split <;> simp
  | enable s _ hx =>
    simp only [remainder, Instr.run, GuardInstr.run, selfIn_setCode, hx] at hcode hlevel
    refine pinned_of_check (hlevel.trans hzero) rfl ?_ hcode
    split <;> simp
  | enableFast s _ hx =>
    simp only [remainder, Instr.run, GuardInstr.run, selfIn_setCode, hx] at hcode hlevel
    exact pinned_of_check (hlevel.trans hzero) rfl List.not_mem_nil hcode

theorem Lowers.isReady (hl : Lowers w t r i) : i.isReady w t = true := by
  cases hl <;> rfl

theorem Lowers.within (hw : Reachable n w) (h : w.codeOf t = i :: rest) (hl : Lowers w t r i)
    (hs : Standing w r (.advance t :: es)) :
    Within (w.run (.advance t :: es)) t rest := by
  have hstep : w.step (.advance t) = w.proceed t i rest := advance_of_code h hl.isReady
  have hw' : Reachable n (w.proceed t i rest) := hstep ▸ hw.step (.advance t)
  rw [run_cons, hstep]
  have hstand := (standing_cons.mp hs).2
  rw [hstep] at hstand
  exact ((hl.pinned h).run hw' hstand).within

/-! Nothing else takes a level down, but for a thread that has left its service. -/

theorem GuardInstr.lowers_of_run (i : GuardInstr) (hs : (Instr.guard i).isSober = true)
    (hl : w.levelOf r ≠ .noBlock) (h : (i.run t w).1.levelOf r = .noBlock) :
    Lowers w t r (.guard i) := by
  -- a level is written for one record only, and only with no block if it comes to that
  have raised {b : RecordId} {l : Level} (hr : (w.setLevel b l).levelOf r = .noBlock) :
      r = b ∧ l = .noBlock := by
    by_cases hb : r = b
    · subst hb
      refine ⟨rfl, ?_⟩
      rw [levelOf_setLevel] at hr
      split at hr
      · exact hr
      next hlt => exact absurd (ofRecord_of_le _ _ (Nat.le_of_not_lt hlt)) hl
    · rw [levelOf_setLevel_of_ne l hb] at hr
      exact absurd hr hl
  cases i with
  | raise s l =>
    simp only [GuardInstr.run] at h
    split at h
    · exact absurd h hl
    · obtain ⟨_, rfl⟩ := raised h
      -- a sober raise is not to no block
      cases hs
  | lower s =>
    simp only [GuardInstr.run] at h
    split at h
    next b l p hx =>
      obtain ⟨rfl, rfl⟩ := raised h
      exact .drop s l hl hx
    · exact absurd h hl
  | enable s =>
    simp only [GuardInstr.run] at h
    split at h
    · exact absurd h hl
    next b hx =>
      obtain ⟨rfl, _⟩ := raised h
      exact .enable s hl hx
  | enableFast s =>
    simp only [GuardInstr.run] at h
    split at h
    · exact absurd h hl
    next b hx =>
      obtain ⟨rfl, _⟩ := raised h
      exact .enableFast s hl hx
  | disable s | disableFast s =>
    simp only [GuardInstr.run] at h
    split at h
    · exact absurd h hl
    · cases (raised h).2
  | mask s | unmask s =>
    simp only [GuardInstr.run, setMaskFor] at h
    split at h <;> exact absurd h hl
  | setMask => exact absurd h hl
  | setPhase b p =>
    have hp : (w.setPhase b p).levelOf r = w.levelOf r := by
      simp [levelOf_eq, World.setPhase, ofRecord_modRecord]
    exact absurd (hp.symm.trans h) hl
  | enter s p =>
    simp only [GuardInstr.run] at h
    split at h <;> exact absurd h hl
  | leave =>
    simp only [GuardInstr.run] at h
    split at h
    next b p _ =>
      have hp : (w.setPhase b p).levelOf r = w.levelOf r := by
        simp [levelOf_eq, World.setPhase, ofRecord_modRecord]
      exact absurd (hp.symm.trans h) hl
    · exact absurd h hl

theorem MemberInstr.lowers_of_run (i : MemberInstr) (hl : w.levelOf r ≠ .noBlock)
    (h : (i.run t w).1.levelOf r = .noBlock) :
    ∃ l, i = .setLevel r l := by
  have hlt : r < w.records.length := by
    by_contra hn
    exact hl (ofRecord_of_le _ _ (Nat.le_of_not_lt hn))
  by_cases hr : i.levelRecord? = some r
  · cases i with
    | setLevel b l =>
      obtain rfl := Option.some.inj hr
      exact ⟨l, rfl⟩
    -- who leaves raises its level first
    | detachRaise s b | exitRaise s b =>
      obtain rfl := Option.some.inj hr
      simp only [MemberInstr.run, levelOf_setLevel, hlt, if_true] at h
      cases h
    | _ => cases hr
  · rw [i.levelOf_run hr] at h
    exact absurd h hl

/-- A level is taken down as `Lowers` says, or by a thread that leaves the service for good. -/
theorem lowers_of_proceed (hs : i.isSober = true) (hl : w.levelOf r ≠ .noBlock)
    (h : (w.proceed t i rest).levelOf r = .noBlock) :
    Lowers w t r i ∨ ∃ l, i = .member (.setLevel r l) := by
  have hr : (i.run t (w.setCode t rest)).1.levelOf r = .noBlock := h
  cases i with
  | guard i =>
    left
    cases i.lowers_of_run (w := w.setCode t rest) hs hl hr with
    | drop s level hl' hx =>
      have hsc : (w.setCode t rest).scopesOf t = w.scopesOf t := ofThread_setCode fun _ _ => rfl
      rw [innermost_eq, hsc, ← innermost_eq] at hx
      exact .drop s level hl hx
    | enable s _ hx => exact .enable s hl (selfIn_setCode ▸ hx)
    | enableFast s _ hx => exact .enableFast s hl (selfIn_setCode ▸ hx)
  | member i =>
    right
    obtain ⟨l, rfl⟩ := i.lowers_of_run (w := w.setCode t rest) hl hr
    exact ⟨l, rfl⟩
  | user => exact absurd hr hl
  | sync i =>
    obtain ⟨_, _, he⟩ := i.run_fst (w := w.setCode t rest) (t := t)
    rw [Instr.run, he] at hr
    exact absurd hr hl
  | park i => exact absurd ((levelOf_run_of_nested (.park i) rfl).symm.trans hr) hl
  | stop i =>
    exact absurd ((i.ofRecord_run fun _ _ => rfl).symm.trans hr) hl
  | pool i => exact absurd ((ofRecord_congr i.core_run fun _ => rfl).symm.trans hr) hl
  | read i => exact absurd ((ofRecord_congr i.core_run fun _ => rfl).symm.trans hr) hl

/-- At no moment does a thread that leaves its service give `r` back the level of before. -/
def Undetached (w : World) (r : RecordId) (es : List Event) : Prop :=
  ∀ fs, fs <+: es → ∀ t l rest, (w.run fs).codeOf t ≠ .member (.setLevel r l) :: rest

theorem raised_or_pinned (hw : Reachable n w) (hl : w.levelOf r ≠ .noBlock)
    (hs : Standing w r es) (hd : Undetached w r es) :
    (w.run es).levelOf r ≠ .noBlock ∨ ∃ t rest, Pinned false (w.run es) t r rest := by
  induction es using List.reverseRecOn with
  | nil => exact Or.inl hl
  | append_singleton es e ih =>
    have hpre {gs : List Event} (hg : gs <+: es) : gs <+: es ++ [e] :=
      hg.trans (List.prefix_append _ _)
    rw [run_append]
    have hq : (w.run es).isRequested r = true := hs es (List.prefix_append _ _)
    rcases ih (fun gs hg => hs gs (hpre hg)) (fun gs hg => hd gs (hpre hg)) with ih | ⟨t, rest, ih⟩
    -- as long as the level is up there is nothing to do; the step that lowers it pins the thread
    · by_cases hz : ((w.run es).run [e]).levelOf r = .noBlock
      · right
        rcases (w.run es).step_cases e with ⟨t, i, rest, _, hc, _, hstep⟩ | u
        · have hrun : (w.run es).run [e] = (w.run es).proceed t i rest := hstep
          rw [hrun] at hz ⊢
          have hsober := (hw.run es).parkLoop.sober (hc ▸ List.mem_cons_self)
          rcases lowers_of_proceed hsober ih hz with hlow | ⟨l, rfl⟩
          · exact ⟨t, rest, hlow.pinned hc⟩
          · exact absurd hc (hd es (List.prefix_append _ _) t l rest)
        · have he : ((w.run es).run [e]).levelOf r = (w.run es).levelOf r := u.ofRecord
          exact absurd (he.symm.trans hz) ih
      · exact Or.inl hz
    · exact Or.inr ⟨t, rest, ih.step (hw.run es) hq e⟩

/-- A thread is never stopped at a raised level; no way of lowering the level comes back while a
request stands that was there before; so a request that a suspending thread has left to its target,
because it read a raised level, is found as soon as the level is down. -/
theorem lowering_misses_no_request (hw : Reachable n w) :
    (∀ r, w.phaseOf r = .suspended → w.levelOf r = .noBlock) ∧
    (∀ t r i rest es, w.codeOf t = i :: rest → Lowers w t r i →
      Standing w r (.advance t :: es) → Within (w.run (.advance t :: es)) t rest) ∧
    ∀ q j below r es, w.codeOf q = j :: below → j.readsLevelFor r = true →
      w.levelOf r ≠ .noBlock → Standing w r es → Undetached w r es →
      (w.run es).levelOf r ≠ .noBlock ∨ ∃ t rest, Pinned false (w.run es) t r rest := by
  refine ⟨fun r => phase_suspended_level hw, fun t r i rest es => Lowers.within hw, ?_⟩
  intro q j below r es _ _ hl hs hd
  exact raised_or_pinned hw hl hs hd

/-- The second of two threads raises its level, the first stops all others, and the second lowers
its level again. -/
def haltedAtRaisedLevel : List Event :=
  .invoke 0 (.establish { mechanism := .safepoint }) :: turns 0 5 ++
    .invoke 1 (.attach 0 "late") :: turns 1 5 ++
    .invoke 1 (.disableSuspendFast 0) :: turns 1 1 ++
    .invoke 0 (.suspendAll 0) :: turns 0 9 ++
    [.invoke 1 (.enableSuspendFast 0)]

/-- The second thread has not come back to its own code however often it is given its turn. -/
theorem halted_at_raised_level_within :
    Standing ((World.initial 2).run haltedAtRaisedLevel) 1 (turns 1 12) ∧
      Within ((World.initial 2).run (haltedAtRaisedLevel ++ turns 1 12)) 1 [.user] := by
  have hs : Standing ((World.initial 2).run haltedAtRaisedLevel) 1 (turns 1 12) := by decide
  refine ⟨hs, ?_⟩
  rw [run_append]
  exact (lowering_misses_no_request ⟨haltedAtRaisedLevel, rfl⟩).2.1 1 1 (.guard (.enableFast 0))
    [.user] (turns 1 11) (by decide) (.enableFast 0 (by decide) (by decide)) hs

end Standstill
