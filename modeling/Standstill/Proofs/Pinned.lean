import Standstill.Proofs.ParkLoop

/-!
A thread that is bound for its park loop while its request stands. It gets into the loop and round it
for as long as the request stands without a break, whatever else happens, so nothing that lay below
in its code is reached.
-/
namespace Standstill

open World ParkInstr

variable {n : Nat} {w w' : World} {t t' : ThreadId} {r : RecordId} {i : Instr} {k k' : ParkInstr}
  {rest : List Instr} {e : Event} {es fs : List Event} {inside : Bool}

/-- The request for `r` stands at first and after each of the events. -/
def Standing (w : World) (r : RecordId) (es : List Event) : Prop :=
  ∀ fs, fs <+: es → (w.run fs).isRequested r = true

instance (w : World) (r : RecordId) (es : List Event) : Decidable (Standing w r es) :=
  decidable_of_iff (∀ fs ∈ es.inits, (w.run fs).isRequested r = true) <| by
    simp only [Standing, List.mem_inits]

/-- Thread `t` has still something to do that lies above `rest`, and none of it is code of its
own. -/
def Within (w : World) (t : ThreadId) (rest : List Instr) : Prop :=
  ∃ top, top ≠ [] ∧ .user ∉ top ∧ w.codeOf t = top ++ rest

/-- The thread parks unless the request is withdrawn or its level raised. -/
def ParkInstr.isPinning : ParkInstr → Bool
  | .check tests _ _ => !tests.contains .phase
  | .save .. | .spill _ | .mark _ | .count _ | .testRequest _ | .testLevel _ => true
  | _ => false

/-- Thread `t` is bound for the loop of `r` above `rest`, or in it; `inside` says that it is in. -/
def Pinned (inside : Bool) (w : World) (t : ThreadId) (r : RecordId) (rest : List Instr) : Prop :=
  w.levelOf r = .noBlock ∧ ∃ top k mid, w.codeOf t = top ++ .park k :: (mid ++ rest) ∧
    top.all Instr.isNested = true ∧ (k.isPinning = true ∧ (inside = true → k.isLoop = true)) ∧
    k.record? = some r ∧ .user ∉ mid

theorem standing_cons :
    Standing w r (e :: es) ↔ w.isRequested r = true ∧ Standing (w.step e) r es := by
  constructor
  · intro h
    refine ⟨h [] (List.nil_prefix), ?_⟩
    intro fs hfs
    exact h (e :: fs) (List.prefix_cons_inj e |>.mpr hfs)
  · rintro ⟨h, hs⟩ fs hfs
    cases fs with
    | nil => exact h
    | cons f fs =>
      obtain ⟨rfl, hpre⟩ := List.cons_prefix_cons.mp hfs
      exact hs fs hpre

theorem user_not_mem_of_nested {code : List Instr} (h : code.all Instr.isNested = true) :
    .user ∉ code := by
  intro hu
  cases List.all_eq_true.mp h _ hu

theorem Pinned.within (h : Pinned inside w t r rest) : Within w t rest := by
  obtain ⟨_, top, k, mid, hc, ht, _, _, hm⟩ := h
  refine ⟨top ++ .park k :: mid, by simp, ?_, by rw [hc]; simp⟩
  intro hu
  rcases List.mem_append.mp hu with hu | hu
  · exact user_not_mem_of_nested ht hu
  · rcases List.mem_cons.mp hu with hu | hu
    · cases hu
    · exact hm hu

/-- One step of a thread that stands at the instruction which holds it. -/
theorem run_pinning (hk : k.isPinning = true) (hr : k.record? = some r)
    (hq : w.isRequested r = true) (hl : w.levelOf r = .noBlock) (ht : t < w.threads.length) :
    ∃ top k' mid, (k.run t w).2 = top ++ .park k' :: mid ∧ top.all Instr.isNested = true ∧
      (k'.isPinning = true ∧ (k.isLoop = true → k'.isLoop = true)) ∧ k'.record? = some r ∧
      .user ∉ mid := by
  cases k with
  -- a check that holds the thread does not look at the phase, and the other tests pass
  | check tests entry b =>
    obtain rfl := Option.some.inj hr
    rcases tests with _ | ⟨x, tests⟩
    · rcases entry with _ | _ | _ <;> simp only [ParkInstr.run]
      · exact ⟨[], _, [], rfl, rfl, ⟨rfl, fun h => h⟩, rfl, by simp⟩
      · rw [List.getElem?_eq_getElem ht]
        exact ⟨[], _, [_], rfl, rfl, ⟨rfl, fun h => h⟩, rfl, by simp⟩
      · exact ⟨[], _, [], rfl, rfl, ⟨rfl, fun h => h⟩, rfl, by simp⟩
    · have hx : w.passes b x = true := by
        cases x with
        | request => exact hq
        | level => simpa [passes] using hl
        | phase => simp [isPinning] at hk
      refine ⟨[], .check tests entry b, [], ?_, rfl, ⟨?_, fun h => h⟩, rfl, by simp⟩
      · simp [ParkInstr.run, hx]
      · simp only [isPinning, Bool.not_eq_true', List.contains_cons, Bool.or_eq_false_iff] at hk ⊢
        exact hk.2
  | save sleep b => exact ⟨[], _, [], rfl, rfl, ⟨rfl, fun h => h⟩, hr, by simp⟩
  | spill p => exact ⟨[], _, [], rfl, rfl, ⟨rfl, fun h => h⟩, hr, by simp⟩
  | mark p => exact ⟨[], _, [], rfl, rfl, ⟨rfl, fun _ => rfl⟩, hr, by simp⟩
  | count p => exact ⟨[], _, [], rfl, rfl, ⟨rfl, fun _ => rfl⟩, hr, by simp⟩
  -- as long as it is asked to stop, the loop turns
  | testRequest p =>
    obtain rfl := Option.some.inj hr
    refine ⟨[], .testLevel p, [], ?_, rfl, ⟨rfl, fun _ => rfl⟩, rfl, by simp⟩
    simp [ParkInstr.run, hq]
  | testLevel p =>
    obtain rfl := Option.some.inj hr
    refine ⟨p.sleepCode, .testRequest p, [], ?_, ?_, ⟨rfl, fun _ => rfl⟩, rfl, by simp⟩
    · simp [ParkInstr.run, hl]
    · rcases p with ⟨sleep, b, q⟩
      cases sleep <;> rfl
  | _ => cases hk

/-- A step of the thread itself. -/
theorem Pinned.proceed_own (hp : Pinned inside w t r rest) (hq : w.isRequested r = true)
    {below : List Instr} (h : w.codeOf t = i :: below) :
    Pinned inside (w.proceed t i below) t r rest := by
  obtain ⟨hl, top, k, mid, hc, htop, hk, hr, hm⟩ := hp
  have hlt : t < w.threads.length := lt_of_codeOf (by rw [hc]; simp)
  rw [hc] at h
  rcases top with _ | ⟨x, top⟩
  · obtain ⟨rfl, rfl⟩ := List.cons.inj h
    have hlevel : (w.proceed t (.park k) (mid ++ rest)).levelOf r = .noBlock := by
      rw [levelOf_proceed_of_nested rfl, hl]
    -- the park loop goes on, because the request that it looks for is there
    obtain ⟨top, k', mid', hcode, htop', hk', hr', hm'⟩ :=
      run_pinning (w := w.setCode t (mid ++ rest)) hk.1 hr hq hl
        (by rw [threads_length_setCode]; exact hlt)
    refine ⟨hlevel, top, k', mid' ++ mid, ?_, htop', ⟨hk'.1, fun hi => hk'.2 (hk.2 hi)⟩, hr', ?_⟩
    · rw [codeOf_proceed hc]
      simp [remainder, Instr.run, hcode]
    · simp [hm', hm]
  · obtain ⟨rfl, rfl⟩ := List.cons.inj h
    have hx := List.all_eq_true.mp htop x List.mem_cons_self
    have hlevel : (w.proceed t x (top ++ .park k :: (mid ++ rest))).levelOf r = .noBlock := by
      rw [levelOf_proceed_of_nested hx, hl]
    refine ⟨hlevel, w.remainder t x (top ++ .park k :: (mid ++ rest)) ++ top, k, mid, ?_, ?_,
      hk, hr, hm⟩
    · rw [codeOf_proceed hc, List.append_assoc]
      rfl
    · rw [List.all_append, remainder, run_nested hx]
      simp only [List.all_cons, Bool.and_eq_true] at htop
      exact htop.2

theorem Pinned.proceed (hw : Reachable n w) (hp : Pinned inside w t r rest)
    (hq : w.isRequested r = true) {i : Instr} {below : List Instr} (h : w.codeOf t' = i :: below) :
    Pinned inside (w.proceed t' i below) t r rest := by
  by_cases ht : t' = t
  · subst ht
    exact hp.proceed_own hq h
  · obtain ⟨hl, top, k, mid, hc, htop, hk, hr, hm⟩ := hp
    have hlt : t < w.threads.length := lt_of_codeOf (by rw [hc]; simp)
    have hmem : .park k ∈ w.codeOf t := by
      rw [hc]
      simp
    refine ⟨?_, top, k, mid, ?_, htop, hk, hr, hm⟩
    · rw [hw.custody.levelOf_of_parked (hw.orderly t') h (Or.inr ⟨Ne.symm ht, hmem⟩) rfl hr, hl]
    · rw [codeOf_proceed_of_ne h (Ne.symm ht) hlt, hc]

theorem Pinned.head_ne_user (hp : Pinned inside w t r rest) : w.inUser t = false := by
  obtain ⟨_, top, k, mid, hc, htop, _⟩ := hp
  cases hu : w.inUser t
  · rfl
  · obtain ⟨below, h⟩ := head_user hu
    rw [hc] at h
    rcases top with _ | ⟨x, top⟩
    · cases (List.cons.inj h).1
    · obtain ⟨rfl, _⟩ := List.cons.inj h
      cases List.all_eq_true.mp htop .user List.mem_cons_self

theorem Pinned.undisturbed (hp : Pinned inside w t r rest) (u : Undisturbed w e w') :
    Pinned inside w' t r rest := by
  have hn := hp.head_ne_user
  obtain ⟨hl, top, k, mid, hc, htop, hk, hr, hm⟩ := hp
  have hlevel : w'.levelOf r = .noBlock := by
    rw [← hl]
    exact u.ofRecord
  rcases u.code_of_busy hn with he | ⟨-, he⟩
  · exact ⟨hlevel, top, k, mid, he.trans hc, htop, hk, hr, hm⟩
  · refine ⟨hlevel, w.handlerCode t ++ [.guard (.setMask false)] ++ top, k, mid, ?_, ?_, hk, hr, hm⟩
    · rw [he, hc]
      simp
    · rw [List.all_append, List.all_append, handlerCode_nested, htop]
      rfl

/-- A thread that is bound for its loop stays there as long as the request stands. -/
theorem Pinned.step (hw : Reachable n w) (hp : Pinned inside w t r rest) (hq : w.isRequested r = true)
    (e : Event) : Pinned inside (w.step e) t r rest := by
  rcases w.step_cases e with ⟨t', i, below, _, h, _, hs⟩ | u
  · rw [hs]
    exact hp.proceed hw hq h
  · exact hp.undisturbed u

theorem Pinned.run (hw : Reachable n w) (hp : Pinned inside w t r rest) (hs : Standing w r es) :
    Pinned inside (w.run es) t r rest := by
  induction es generalizing w with
  | nil => exact hp
  | cons e es ih =>
    obtain ⟨hq, hs⟩ := standing_cons.mp hs
    exact ih (hw.step e) (hp.step hw hq e) hs

end Standstill
