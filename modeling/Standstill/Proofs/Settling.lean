import Standstill.Proofs.Pinned

/-!
What it is worth to have read that a thread is suspended. Whoever waits for the world to settle reads
the request, the level and the phase of a record one after the other, and the phase says where the
owner was at that moment: in its loop, or already past the test that made it leave.
-/
namespace Standstill

open World ParkInstr

variable {n : Nat} {w w' : World} {a t : ThreadId} {r : RecordId} {i : Instr}
  {below rest : List Instr} {e : Event} {es : List Event}

/-- A waiting thread that takes the phase of `r` for an answer. -/
def Instr.readsPhaseFor (r : RecordId) : Instr → Bool
  | .stop (.scanPhase _ _ b _ _) => b == r
  | .stop (.watchPhase x) => x.record == r
  | _ => false

/-- Thread `t` is in the loop of `r` and goes round it while the request stands. -/
def Parked (w : World) (t : ThreadId) (r : RecordId) : Prop := ∃ rest, Pinned true w t r rest

/-- Thread `t` has found the request for `r` clear and has still to take up its phase of before. -/
def Leaves (w : World) (t : ThreadId) (r : RecordId) : Prop :=
  ∃ p, p.record = r ∧ .park (.restore p) ∈ w.codeOf t

theorem isPinning_of_isLoop {k : ParkInstr} (h : k.isLoop = true) (hp : ∀ p, k ≠ .restore p) :
    k.isPinning = true := by
  cases k with
  | restore p => exact absurd rfl (hp p)
  | _ => first | rfl | cases h

/-- A loop instruction lies under nested ones only. -/
theorem Reachable.pinned_of_loop (hw : Reachable n w) {k : ParkInstr} (hj : .park k ∈ w.codeOf t)
    (hk : k.isLoop = true) (hr : k.record? = some r) (hp : ∀ p, k ≠ .restore p) :
    Parked w t r := by
  obtain ⟨top, rest, hc⟩ := List.append_of_mem hj
  have hl := hw.parkLoop.level hj (parksOn_iff.mpr ⟨k, rfl, isCommitted_of_isLoop hk, hr⟩)
  refine ⟨rest, hl, top, k, [], hc, ?_, ⟨isPinning_of_isLoop hk hp, fun _ => hk⟩, hr, by simp⟩
  have ho := hw.orderly t
  rw [hc] at ho
  apply List.all_eq_true.mpr
  intro i hi
  exact (List.pairwise_append.mp ho).2.2 i hi _ List.mem_cons_self rfl

theorem Parked.not_leaves (hw : Reachable n w) (h : Parked w t r) : ¬Leaves w t r := by
  obtain ⟨rest, _, top, k, mid, hc, _, ⟨hpin, hk⟩, hr, _⟩ := h
  rintro ⟨p, hp, hm⟩
  have hloop := hk rfl
  have ha := hw.parkLoop.apart t
  have hkf : (Instr.park k).parksOn isFirm r = true :=
    parksOn_iff.mpr ⟨k, rfl, isFirm_of_isLoop hloop, hr⟩
  have hkl : (Instr.park k).parksOn isLoop r = true := parksOn_iff.mpr ⟨k, rfl, hloop, hr⟩
  have hpf : (Instr.park (.restore p)).parksOn isFirm r = true :=
    parksOn_iff.mpr ⟨_, rfl, rfl, congrArg some hp⟩
  have hpl : (Instr.park (.restore p)).parksOn isLoop r = true :=
    parksOn_iff.mpr ⟨_, rfl, rfl, congrArg some hp⟩
  rw [hc] at ha hm
  obtain ⟨_, hrest, hcross⟩ := List.pairwise_append.mp ha
  -- the two would be in one loop twice, whichever comes first
  rcases List.mem_append.mp hm with hm | hm
  · have hf := hcross _ hm _ List.mem_cons_self r hpf
    rw [hkl] at hf
    cases hf
  · rcases List.mem_cons.mp hm with hm | hm
    · obtain rfl := Instr.park.inj hm
      cases hpin
    · have hf := (List.pairwise_cons.mp hrest).1 _ hm r hkf
      rw [hpl] at hf
      cases hf

/-- A record that reads `suspended` is in its owner's loop: the owner is parked, or it leaves. -/
theorem parked_or_leaves (hw : Reachable n w) (h : w.phaseOf r = .suspended) :
    ∃ t, w.ownerOf r = some t ∧ (Parked w t r ∨ Leaves w t r) := by
  obtain ⟨t, j, hj, hp⟩ := hw.parkLoop.loop h
  obtain ⟨k, rfl, hk, hr⟩ := parksOn_iff.mp hp
  refine ⟨t, hw.custody.parked hj hr, ?_⟩
  by_cases hrest : ∃ p, k = .restore p
  · obtain ⟨p, rfl⟩ := hrest
    exact Or.inr ⟨p, Option.some.inj hr, hj⟩
  · exact Or.inl (hw.pinned_of_loop hj hk hr fun p hk' => hrest ⟨p, hk'⟩)

theorem Parked.run (hw : Reachable n w) (h : Parked w t r) (hs : Standing w r es) :
    Parked (w.run es) t r := by
  obtain ⟨rest, h⟩ := h
  exact ⟨rest, h.run hw hs⟩

theorem Parked.phaseOf (hw : Reachable n w) (h : Parked w t r) : w.phaseOf r = .suspended := by
  obtain ⟨rest, _, top, k, mid, hc, _, ⟨_, hk⟩, hr, _⟩ := h
  refine hw.parkLoop.phase (t := t) (j := .park k) ?_ (parksOn_iff.mpr ⟨k, rfl, hk rfl, hr⟩)
  rw [hc]
  simp

theorem Parked.not_inUser (h : Parked w t r) : w.inUser t = false := by
  obtain ⟨rest, h⟩ := h
  exact h.head_ne_user

/-! A scan that has met with a thread which is not suspended. -/

/-- The scan has found something unsettled and will say so. -/
def StopInstr.isUnsettled : StopInstr → Bool
  | .scanRequest _ _ _ settled | .scanLevel _ _ _ _ settled | .scanPhase _ _ _ _ settled
  | .verdict _ _ settled => !settled
  | _ => false

/-- The instruction may come before the verdict of a scan that is over. -/
def Instr.isAside (i : Instr) : Bool :=
  match i with
  | .sync (.release _) => true
  | i => i.isNested

/-- Thread `a` is in a scan that will not find the world settled. -/
def Unsettled (w : World) (a : ThreadId) : Prop :=
  ∃ top k rest, w.codeOf a = top ++ .stop k :: rest ∧ top.all Instr.isAside = true ∧
    k.isUnsettled = true

theorem aside_of_nested (h : i.isNested = true) : i.isAside = true := by
  cases i with
  | sync i =>
    cases i with
    | release => rfl
    | _ => exact h
  | _ => exact h

theorem run_aside (h : i.isAside = true) : (i.run t w).2.all Instr.isAside = true := by
  cases i with
  | sync i =>
    cases i with
    | release => rfl
    | _ => exact all_imp aside_of_nested (run_nested h)
  | _ => exact all_imp aside_of_nested (run_nested h)

/-- An unsettled scan goes on unsettled until it gives its verdict. -/
theorem StopInstr.run_unsettled {k : StopInstr} (hk : k.isUnsettled = true)
    (hv : ∀ s d, k ≠ .verdict s d false) :
    ∃ top k', (k.run t w).2 = top ++ [.stop k'] ∧ top.all Instr.isAside = true ∧
      k'.isUnsettled = true := by
  cases k with
  | scanRequest s d rs settled =>
    obtain rfl : settled = false := by simpa [isUnsettled] using hk
    rcases rs with _ | ⟨r, rs⟩ <;> simp only [StopInstr.run]
    -- with all records looked at, the scan leaves the roster and gives its verdict
    · exact ⟨[.sync (.release (.roster s))], _, rfl, rfl, rfl⟩
    · split <;> exact ⟨[], _, rfl, rfl, rfl⟩
  | scanLevel s d r rs settled =>
    obtain rfl : settled = false := by simpa [isUnsettled] using hk
    simp only [StopInstr.run]
    split <;> exact ⟨[], _, rfl, rfl, rfl⟩
  | scanPhase s d r rs settled =>
    obtain rfl : settled = false := by simpa [isUnsettled] using hk
    exact ⟨[], _, rfl, rfl, rfl⟩
  | verdict s d settled =>
    obtain rfl : settled = false := by simpa [isUnsettled] using hk
    exact absurd rfl (hv s d)
  | _ => cases hk

theorem Unsettled.not_inUser (h : Unsettled w a) : w.inUser a = false := by
  obtain ⟨top, k, rest, hc, ht, _⟩ := h
  cases hu : w.inUser a
  · rfl
  · obtain ⟨below, h⟩ := head_user hu
    rw [hc] at h
    rcases top with _ | ⟨x, top⟩
    · cases (List.cons.inj h).1
    · obtain ⟨rfl, _⟩ := List.cons.inj h
      cases List.all_eq_true.mp ht .user List.mem_cons_self

theorem Unsettled.undisturbed (h : Unsettled w a) (u : Undisturbed w e w') : Unsettled w' a := by
  have hn := h.not_inUser
  obtain ⟨top, k, rest, hc, ht, hk⟩ := h
  rcases u.code_of_busy hn with he | ⟨-, he⟩
  · exact ⟨top, k, rest, he.trans hc, ht, hk⟩
  · refine ⟨w.handlerCode a ++ [.guard (.setMask false)] ++ top, k, rest, ?_, ?_, hk⟩
    · rw [he, hc]
      simp
    · rw [List.all_append, List.all_append, all_imp aside_of_nested handlerCode_nested, ht]
      rfl

theorem Unsettled.step (h : Unsettled w a) (e : Event) : Unsettled (w.step e) a ∨
    ∃ s d rest, w.codeOf a = .stop (.verdict s d false) :: rest := by
  rcases w.step_cases e with ⟨t, i, below, _, hi, _, hs⟩ | u
  · rw [hs]
    obtain ⟨top, k, rest, hc, ht, hk⟩ := h
    by_cases hta : t = a
    · subst hta
      rw [hc] at hi
      rcases top with _ | ⟨x, top⟩
      · obtain ⟨rfl, rfl⟩ := List.cons.inj hi
        -- the scan makes its next step, unless it is down to the verdict
        by_cases hv : ∃ s d, k = .verdict s d false
        · obtain ⟨s, d, rfl⟩ := hv
          exact Or.inr ⟨s, d, rest, hc⟩
        · left
          obtain ⟨top, k', hrun, htop, hk'⟩ := StopInstr.run_unsettled
            (w := w.setCode t rest) (t := t) hk fun s d he => hv ⟨s, d, he⟩
          refine ⟨top, k', rest, ?_, htop, hk'⟩
          rw [codeOf_proceed hc, remainder, Instr.run, hrun, List.append_assoc]
          rfl
      · obtain ⟨rfl, rfl⟩ := List.cons.inj hi
        left
        simp only [List.all_cons, Bool.and_eq_true] at ht
        refine ⟨w.remainder t x (top ++ .stop k :: rest) ++ top, k, rest, ?_, ?_, hk⟩
        · rw [codeOf_proceed hc, List.append_assoc]
          rfl
        · rw [List.all_append, remainder, run_aside ht.1, ht.2]
          rfl
    · left
      refine ⟨top, k, rest, ?_, ht, hk⟩
      rw [codeOf_proceed_of_ne hi (Ne.symm hta) (lt_of_codeOf (by rw [hc]; simp)), hc]
  · exact Or.inl (h.undisturbed u)

theorem Unsettled.run (h : Unsettled w a) (es : List Event) : Unsettled (w.run es) a ∨
    ∃ fs, fs <+: es ∧ ∃ s d rest, (w.run fs).codeOf a = .stop (.verdict s d false) :: rest := by
  induction es generalizing w with
  | nil => exact Or.inl h
  | cons e es ih =>
    rcases h.step e with h | h
    · rcases ih h with h | ⟨fs, hfs, h⟩
      · exact Or.inl h
      · exact Or.inr ⟨e :: fs, (List.prefix_cons_inj e).mpr hfs, h⟩
    · exact Or.inr ⟨[], List.nil_prefix, h⟩

theorem unsettled_of_scanPhase {s : ServiceId} {d : Nat} {rs : List RecordId} {settled : Bool}
    (h : w.codeOf a = .stop (.scanPhase s d r rs settled) :: below) (hp : w.phaseOf r ≠ .suspended) :
    Unsettled (w.step (.advance a)) a := by
  have hs : w.step (.advance a) = w.proceed a (.stop (.scanPhase s d r rs settled)) below :=
    advance_of_code h rfl
  have hp' : (w.setCode a below).phaseOf r ≠ .suspended := hp
  rw [hs]
  refine ⟨[], .scanRequest s d rs false, below, ?_, rfl, rfl⟩
  rw [codeOf_proceed h]
  simp [remainder, Instr.run, StopInstr.run, hp']

/-- What the answer `suspended` is worth to a thread that waits for the world, or for one thread, to
stop. If the request stands, the owner of the record is parked, and it stays parked and out of its
own code for as long as the request stands, exactly if it was not on its way out of the loop. With
any other answer the scan does not end well. -/
theorem suspended_answer_is_parked (hw : Reachable n w) (ha : w.codeOf a = i :: below)
    (hi : i.readsPhaseFor r = true) :
    (w.phaseOf r = .suspended → w.isRequested r = true →
      ∃ t, w.ownerOf r = some t ∧ w.levelOf r = .noBlock ∧
        ((∀ es, Standing w r es → Parked (w.run es) t r ∧ (w.run es).phaseOf r = .suspended ∧
          (w.run es).inUser t = false) ↔ ¬Leaves w t r)) ∧
    (w.phaseOf r ≠ .suspended → ∀ s d rs settled, i = .stop (.scanPhase s d r rs settled) →
      ∀ es s' d' rest, (w.run (.advance a :: es)).codeOf a = .stop (.verdict s' d' true) :: rest →
        ∃ fs, fs <+: es ∧ ∃ s₁ d₁ rest₁,
          (w.run (.advance a :: fs)).codeOf a = .stop (.verdict s₁ d₁ false) :: rest₁) := by
  refine ⟨?_, ?_⟩
  · intro hp hq
    obtain ⟨t, ho, hpl⟩ := parked_or_leaves hw hp
    -- a record reads as suspended only while its owner is in the park loop, at `noBlock`
    obtain ⟨t', j, hj, hjl⟩ := hw.parkLoop.loop hp
    obtain ⟨k, rfl, hk, hr⟩ := parksOn_iff.mp hjl
    have hl := hw.parkLoop.level hj (parksOn_iff.mpr ⟨k, rfl, isCommitted_of_isLoop hk, hr⟩)
    refine ⟨t, ho, hl, ?_, ?_⟩
    · intro h
      have hnil : Standing w r [] := by
        intro fs hfs
        rw [List.prefix_nil.mp hfs]
        exact hq
      exact Parked.not_leaves hw (h [] hnil).1
    · intro hn es hs
      have hpark := (hpl.resolve_right hn).run hw hs
      exact ⟨hpark, hpark.phaseOf (hw.run es), hpark.not_inUser⟩
  · rintro hp s d rs settled rfl es s' d' rest hv
    rcases (unsettled_of_scanPhase ha hp).run es with ⟨top, k, rest', hc, ht, hk⟩ | h
    · have hrun : (w.run (.advance a :: es)).codeOf a = top ++ .stop k :: rest' := hc
      rw [hrun] at hv
      rcases top with _ | ⟨x, top⟩
      · obtain ⟨hk', _⟩ := List.cons.inj hv
        obtain rfl := Instr.stop.inj hk'
        cases hk
      · obtain ⟨rfl, _⟩ := List.cons.inj hv
        cases List.all_eq_true.mp ht _ List.mem_cons_self
    · exact h

/-- The second of two threads has joined the service of the first. -/
def lateJoin : List Event :=
  .invoke 0 (.establish { mechanism := .safepoint }) :: turns 0 5 ++
    .invoke 1 (.attach 0 "late") :: turns 1 5

/-- The first thread stops all others, the second parks, and the first reads that it is suspended. -/
def freshAnswer : List Event :=
  lateJoin ++ .invoke 0 (.suspendAll 0) :: turns 0 11 ++ .invoke 1 (.safePoint 0) :: turns 1 14 ++
    .invoke 0 (.awaitSuspended 0 1000) :: turns 0 8

theorem fresh_answer_is_parked :
    Parked ((World.initial 2).run (freshAnswer ++ turns 1 20)) 1 1 := by
  have ha : ((World.initial 2).run freshAnswer).codeOf 0 =
      [.stop (.scanPhase 0 1000 1 [] true), .user] := by decide +kernel
  have hn : ¬Leaves ((World.initial 2).run freshAnswer) 1 1 := by
    have hc : ((World.initial 2).run freshAnswer).codeOf 1 =
        [.sync (.resting (.park 1) none), .sync (.acquire (.park 1)), .sync (.release (.park 1)),
          .park (.testRequest ⟨.safepoint, 1, .running⟩), .user] := by decide +kernel
    rintro ⟨p, _, hp⟩
    rw [hc] at hp
    simp at hp
  obtain ⟨t, ho, _, hi⟩ :=
    (suspended_answer_is_parked (r := 1) ⟨freshAnswer, rfl⟩ ha rfl).1 (by decide +kernel)
      (by decide +kernel)
  have ht : ((World.initial 2).run freshAnswer).ownerOf 1 = some 1 := by decide +kernel
  obtain rfl : 1 = t := Option.some.inj (ht.symm.trans ho)
  rw [run_append]
  exact (hi.mpr hn (turns 1 20) (by decide +kernel)).1

/-- The world is stopped, let go and stopped again before the second thread has left its loop, and
the first asks whether the world has settled. -/
def staleAnswer : List Event :=
  lateJoin ++ .invoke 0 (.suspendAll 0) :: turns 0 11 ++ .invoke 1 (.safePoint 0) :: turns 1 14 ++
    .invoke 0 (.resumeAll 0) :: turns 0 14 ++ turns 1 4 ++
    .invoke 0 (.suspendAll 0) :: turns 0 11 ++ .invoke 0 (.awaitSuspended 0 1000) :: turns 0 8

/-- The first thread is told that the world has settled, though the second has a request, no guard
and goes on in its own code. -/
theorem stale_answer_in_user :
    ((World.initial 2).run staleAnswer).codeOf 0 =
        [.stop (.scanPhase 0 1000 1 [] true), .user] ∧
      Standing ((World.initial 2).run staleAnswer) 1 (turns 0 7 ++ turns 1 1) ∧
      ((World.initial 2).run (staleAnswer ++ turns 0 7 ++ turns 1 1)).codeOf 0 = [.user] ∧
      ((World.initial 2).run (staleAnswer ++ turns 0 7 ++ turns 1 1)).threads.head?.map (·.outcome) =
        some (.value .unit) ∧
      ((World.initial 2).run (staleAnswer ++ turns 0 7 ++ turns 1 1)).levelOf 1 = .noBlock ∧
      ((World.initial 2).run (staleAnswer ++ turns 0 7 ++ turns 1 1)).inUser 1 = true := by
  decide +kernel

end Standstill
