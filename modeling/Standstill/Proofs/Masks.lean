import Standstill.Proofs.Custody

/-!
The stop signal is blocked for as long as a thread runs its handler or sleeps until it comes, so
nothing is ever put on top of such code.
-/
namespace Standstill

open World

/-- The stop signal is blocked when the instruction is reached, and until it is over. -/
def Instr.isMuted : Instr → Bool
  | .park (.check _ .handler _) | .park (.save .signal _) | .park .awaitSignal => true
  | .park (.spill p) | .park (.mark p) | .park (.count p) | .park (.testRequest p)
  | .park (.testLevel p) | .park (.restore p) => p.sleep == .signal
  | _ => false

/-- The instruction sets the mask, or leads to one that does. -/
def Instr.setsMask : Instr → Bool
  | .guard (.setMask _) | .park (.check _ (.call _) _) => true
  | _ => false

variable {n : Nat} {w w' : World} {t t' : ThreadId} {r : RecordId} {i j : Instr}
  {code rest : List Instr} {e : Event}

theorem urgent_of_muted (h : i.isMuted = true) : i.isUrgent = true := by
  cases i with
  | park => rfl
  | _ => cases h

theorem not_muted_of_calm (h : ∀ i ∈ code, i.isUrgent = false) : ∀ i ∈ code, i.isMuted = false := by
  intro i hi
  cases hm : i.isMuted
  · rfl
  · have hu := urgent_of_muted hm
    rw [h i hi] at hu
    cases hu

/-! What an instruction does to the mask of its thread, and what it leaves to do. -/

theorem ParkInstr.isMasked_run (i : ParkInstr) (h : (Instr.park i).setsMask = false) :
    (i.run t w).1.isMasked t' = w.isMasked t' := by
  cases i with
  | check tests entry b =>
    rcases tests with _ | ⟨x, rest⟩
    · rcases entry with _ | _
      · rfl
      · cases h
    · rfl
  | awaitSignal => simp [ParkInstr.run, isMasked, ofThread_modThread]
  | _ => rfl

theorem isMasked_run_of_ne (i : Instr) (ht : t' ≠ t) (hl : t' < w.threads.length) :
    (i.run t w).1.isMasked t' = w.isMasked t' := by
  cases i with
  | user => rfl
  | sync i =>
    obtain ⟨_, _, he⟩ := i.run_fst (w := w) (t := t)
    rw [Instr.run, he]
    rfl
  | guard i =>
    have other (f : Thread → Thread) : (w.modThread t f).isMasked t' = w.isMasked t' := by
      simp [isMasked, ofThread_modThread, ht]
    cases i with
    | mask s | unmask s =>
      simp only [Instr.run, GuardInstr.run, setMaskFor]
      split
      · exact other _
      · rfl
    | setMask | setPhase => first | exact other _ | rfl
    | _ =>
      simp only [Instr.run, GuardInstr.run]
      split <;> first | exact other _ | rfl
  | park i =>
    -- the mask that is set is that of the thread that runs
    by_cases hs : (Instr.park i).setsMask = true
    · cases i with
      | check tests entry b =>
        rcases tests with _ | ⟨x, rest⟩
        · rcases entry with _ | _ | _ <;> simp only [Instr.run, ParkInstr.run]
          split <;> simp [isMasked, World.setMask, ofThread_modThread, ht]
        · rfl
      | _ => cases hs
    · exact i.isMasked_run (by simpa using hs)
  | stop i => exact i.ofThread_run (fun _ => rfl) fun _ _ => rfl
  | pool i => exact ofThread_congr i.core_run fun _ => rfl
  | member i => exact i.ofThread_run hl (fun _ => rfl) fun _ _ => rfl
  | read i => exact ofThread_congr i.core_run fun _ => rfl

/-- Nested code that does not set the mask leaves it alone. -/
theorem isMasked_run_of_nested (i : Instr) (hn : i.isNested = true) (hs : i.setsMask = false) :
    (i.run t w).1.isMasked t' = w.isMasked t' := by
  cases i with
  | sync i =>
    obtain ⟨_, _, he⟩ := i.run_fst (w := w) (t := t)
    rw [Instr.run, he]
    rfl
  | guard i =>
    cases i with
    | setMask => cases hs
    | _ => cases hn
  | park i => exact i.isMasked_run hs
  | _ => cases hn

theorem GuardInstr.run_unmuted (i : GuardInstr) : ∀ j ∈ (i.run t w).2, j.isMuted = false := by
  have hc : (i.run t w).2.all (!·.isMuted) = true := by
    cases i <;> simp only [GuardInstr.run] <;> repeat' split
    all_goals rfl
  simpa using hc

theorem ParkInstr.run_muted (i : ParkInstr) (hj : j ∈ (i.run t w).2) (hm : j.isMuted = true) :
    (Instr.park i).isMuted = true ∨
      (Instr.park i).setsMask = true ∧ (i.run t w).1.isMasked t = true := by
  cases i with
  | check tests entry b =>
    rcases tests with _ | ⟨x, rest⟩
    · rcases entry with _ | _ | _
      · exact Or.inl rfl
      -- the entry by a call blocks the signal before it parks
      · right
        simp only [ParkInstr.run] at hj ⊢
        split at hj
        · cases hj
        next x hx =>
          refine ⟨rfl, ?_⟩
          rw [isMasked, World.setMask, ofThread_modThread, if_pos rfl, ofThread, hx]
      · simp only [ParkInstr.run, List.mem_singleton] at hj
        subst hj
        cases hm
    · rcases entry with _ | _
      · exact Or.inl rfl
      · simp only [ParkInstr.run] at hj
        split at hj
        · rw [List.mem_singleton] at hj
          subst hj
          cases hm
        · cases hj
  -- only the sleep that waits for a signal needs the mask
  | save sleep b =>
    simp only [ParkInstr.run, List.mem_singleton] at hj
    subst hj
    cases sleep
    · exact Or.inl rfl
    · cases hm
  | awaitSignal => exact Or.inl rfl
  | testLevel p =>
    rcases p with ⟨sleep, b, q⟩
    cases sleep
    · exact Or.inl rfl
    · simp only [ParkInstr.run] at hj
      split at hj
      · simp [Parking.sleepCode, locked] at hj
        rcases hj with rfl | rfl | rfl | rfl <;> cases hm
      · rw [List.mem_singleton] at hj
        subst hj
        cases hm
  | testRequest p =>
    simp only [ParkInstr.run] at hj
    split at hj <;> rw [List.mem_singleton] at hj <;> subst hj <;> exact Or.inl hm
  | retestRequest b =>
    simp only [ParkInstr.run] at hj
    split at hj
    · rw [List.mem_singleton] at hj
      subst hj
      cases hm
    · cases hj
  | retestLevel b =>
    simp only [ParkInstr.run] at hj
    split at hj
    · rw [List.mem_singleton] at hj
      subst hj
      cases hm
    · cases hj
  | restore p => cases hj
  | _ =>
    simp only [ParkInstr.run, List.mem_singleton] at hj
    subst hj
    exact Or.inl hm

/-- A thread gets to muted code by code that is muted, or by a call for which it blocks the signal
first. -/
theorem run_muted (i : Instr) (hj : j ∈ (i.run t w).2) (hm : j.isMuted = true) :
    i.isMuted = true ∨ i.setsMask = true ∧ i.isNested = true ∧ (i.run t w).1.isMasked t = true := by
  have calm (h : ∀ j ∈ (i.run t w).2, j.isUrgent = false) : False := by
    rw [not_muted_of_calm h j hj] at hm
    cases hm
  cases i with
  | user =>
    rw [Instr.run, List.mem_singleton] at hj
    subst hj
    cases hm
  | sync i =>
    cases i <;> simp [Instr.run, SyncInstr.run] at hj
    · rcases hj with rfl | rfl <;> cases hm
    · subst hj
      cases hm
  | guard i =>
    rw [i.run_unmuted j hj] at hm
    cases hm
  | park i => exact (i.run_muted hj hm).imp_right fun h => ⟨h.1, rfl, h.2⟩
  | stop i => exact False.elim (calm (calm_of_plain i.run_plain))
  | pool i => exact False.elim (calm (calm_of_plain i.run_plain))
  -- no member instruction leads to a place where its thread parks
  | member i =>
    have hn := List.all_eq_true.mp (i.run_unparked (w := w) (t := t)) j hj
    cases j with
    | park => simp [Instr.isNested] at hn
    | _ => cases hm
  | read i => exact False.elim (calm (calm_of_plain i.run_plain))

theorem ParkInstr.run_shielded (i : ParkInstr) :
    (i.run t w).2.Pairwise fun i j => j.isMuted = true → i.setsMask = false := by
  cases i with
  | check tests entry b =>
    rcases tests with _ | ⟨x, rest⟩
    · rcases entry with _ | _ | _ <;> simp only [ParkInstr.run]
      · exact List.pairwise_singleton _ _
      · split <;> simp [Instr.setsMask]
      · exact List.pairwise_singleton _ _
    · simp only [ParkInstr.run]
      split <;> simp
  | awaitSignal =>
    simp only [ParkInstr.run, handlerCode_eq]
    split <;> simp
  | testLevel p =>
    rcases p with ⟨sleep, b, q⟩
    simp only [ParkInstr.run]
    split
    · cases sleep <;> simp [Parking.sleepCode, locked, Instr.setsMask]
    · simp
  | testRequest | retestRequest | retestLevel =>
    simp only [ParkInstr.run]
    split <;> simp
  | _ => simp [ParkInstr.run]

/-- What leads to a change of the mask lies under the muted code that it is for, never above. -/
theorem run_shielded (i : Instr) :
    (i.run t w).2.Pairwise fun i j => j.isMuted = true → i.setsMask = false := by
  cases i with
  | park i => exact i.run_shielded
  -- guards lead to no muted code at all
  | guard i =>
    apply List.pairwise_of_forall_mem_list
    intro a _ b hb hm
    rw [i.run_unmuted b hb] at hm
    cases hm
  | _ =>
    apply List.pairwise_of_forall_mem_list
    intro a _ b hb hm
    rcases run_muted _ hb hm with h | ⟨h, _⟩ <;> cases h

theorem ParkInstr.run_setsMask (i : ParkInstr) (hj : j ∈ (i.run t w).2)
    (hs : j.setsMask = true) : (Instr.park i).setsMask = true := by
  cases i with
  | check tests entry b =>
    rcases entry with _ | m
    · rcases tests with _ | ⟨x, rest⟩ <;> simp only [ParkInstr.run] at hj
      · rw [List.mem_singleton] at hj
        subst hj
        cases hs
      · split at hj
        · rw [List.mem_singleton] at hj
          subst hj
          cases hs
        · cases hj
    · rfl
  | awaitSignal =>
    simp only [ParkInstr.run, handlerCode_eq] at hj
    split at hj
    · cases hj
    · rw [List.mem_singleton] at hj
      subst hj
      cases hs
  | testLevel p =>
    rcases p with ⟨sleep, b, q⟩
    simp only [ParkInstr.run] at hj
    split at hj
    · cases sleep <;> simp [Parking.sleepCode, locked] at hj
      · rcases hj with rfl | rfl <;> cases hs
      · rcases hj with rfl | rfl | rfl | rfl <;> cases hs
    · rw [List.mem_singleton] at hj
      subst hj
      cases hs
  | testRequest | retestRequest | retestLevel =>
    simp only [ParkInstr.run] at hj
    split at hj
    all_goals simp at hj
    all_goals
      subst hj
      cases hs
  | restore p => cases hj
  | _ =>
    simp only [ParkInstr.run, List.mem_singleton] at hj
    subst hj
    cases hs

theorem run_setsMask_of_nested (hn : i.isNested = true) (hj : j ∈ (i.run t w).2)
    (hs : j.setsMask = true) : i.setsMask = true := by
  cases i with
  | park i => exact i.run_setsMask hj hs
  | guard i =>
    cases i with
    | setMask => rfl
    | _ => cases hn
  | sync i =>
    cases i <;> simp [Instr.run, SyncInstr.run] at hj
    · rcases hj with rfl | rfl <;> cases hs
    · subst hj
      cases hs
  | _ => cases hn

/-- Muted code is run with the signal blocked. -/
structure Muted (w : World) : Prop where
  masked : ∀ {t j}, j ∈ w.codeOf t → j.isMuted = true → w.isMasked t = true
  shielded : ∀ t, (w.codeOf t).Pairwise fun i j => j.isMuted = true → i.setsMask = false

section Proceed

variable (m : Muted w) (ho : Orderly (w.codeOf t)) (h : w.codeOf t = i :: rest)
include m ho h

/-- What stands above muted code is nested and leaves the mask alone. -/
theorem Muted.above (hj : j ∈ rest) (hm : j.isMuted = true) :
    i.isNested = true ∧ i.setsMask = false := by
  have hs := m.shielded t
  rw [h] at ho hs
  refine ⟨?_, (List.pairwise_cons.mp hs).1 j hj hm⟩
  exact (List.pairwise_cons.mp ho).1 j hj (urgent_of_muted hm)

omit m ho h in
theorem isMasked_proceed :
    (w.proceed t i rest).isMasked t' = (i.run t (w.setCode t rest)).1.isMasked t' :=
  ofThread_push (fun _ _ => rfl) _

omit m ho h in
theorem isMasked_setCode : (w.setCode t rest).isMasked t' = w.isMasked t' :=
  ofThread_setCode fun _ _ => rfl

theorem Muted.masked_proceed (hx : j ∈ (w.proceed t i rest).codeOf t') (hm : j.isMuted = true) :
    (w.proceed t i rest).isMasked t' = true := by
  rw [isMasked_proceed]
  rcases mem_codeOf_proceed h hx with ⟨rfl, hj⟩ | ⟨rfl, hj⟩ | ⟨ht, hj⟩ | ⟨s, b, _, _, hj, _⟩
  · rcases run_muted i hj hm with hi | ⟨_, _, hk⟩
    · have hn : i.isNested = true := by
        cases i with
        | park => rfl
        | _ => cases hi
      have hs : i.setsMask = false := by
        cases i with
        | park k =>
          cases k with
          | check tests entry b => cases entry <;> first | rfl | cases hi
          | _ => rfl
        | _ => cases hi
      rw [isMasked_run_of_nested i hn hs, isMasked_setCode]
      exact m.masked (h ▸ List.mem_cons_self) hi
    · exact hk
  · obtain ⟨hn, hs⟩ := m.above ho h hj hm
    rw [isMasked_run_of_nested i hn hs, isMasked_setCode]
    exact m.masked (h ▸ List.mem_cons_of_mem _ hj) hm
  · have hl : t' < w.threads.length := lt_of_codeOf (List.ne_nil_of_mem hj)
    rw [isMasked_run_of_ne i ht (by rwa [threads_length_setCode]), isMasked_setCode]
    exact m.masked hj hm
  · simp only [threadCode, List.mem_cons, List.not_mem_nil, or_false] at hj
    rcases hj with rfl | rfl | rfl | rfl | rfl | rfl | rfl | rfl | rfl | rfl <;> cases hm

theorem Muted.shielded_proceed (t' : ThreadId) : ((w.proceed t i rest).codeOf t').Pairwise
    fun i j => j.isMuted = true → i.setsMask = false := by
  refine codeOf_proceed_cases h ?_ (m.shielded t') List.Pairwise.nil fun s r => by
    simp [threadCode, Instr.isMuted]
  have hs := m.shielded t
  rw [h] at hs
  refine List.pairwise_append.mpr ⟨run_shielded i, (List.pairwise_cons.mp hs).2, ?_⟩
  intro a ha b hb hm
  obtain ⟨hn, hi⟩ := m.above ho h hb hm
  cases hsa : a.setsMask
  · rfl
  · rw [run_setsMask_of_nested hn ha hsa] at hi
    cases hi

end Proceed

theorem not_muted_of_user (ho : Orderly (.user :: rest)) : ∀ j ∈ .user :: rest, j.isMuted = false :=
  List.forall_mem_cons.mpr ⟨rfl, not_muted_of_calm (ho.calm rfl)⟩

theorem Call.code_unmuted (c : Call) : ∀ j ∈ c.code w t, j.isMuted = false := by
  rcases c.code_plain (w := w) (t := t) with hp | ⟨s, r, _, _, he⟩
  · exact not_muted_of_calm (calm_of_plain hp)
  · rw [he]
    simp [Instr.isMuted]

theorem Muted.undisturbed (m : Muted w) (ho : ∀ t, Orderly (w.codeOf t))
    (u : Undisturbed w e w') : Muted w' := by
  have user {t} (hu : w.inUser t = true) : ∀ j ∈ w.codeOf t, j.isMuted = false := by
    obtain ⟨rest, hc⟩ := head_user hu
    have hot := ho t
    rw [hc] at hot ⊢
    exact not_muted_of_user hot
  have unmasked {t} (hi : w.canInterrupt t = true) : ∀ j ∈ w.codeOf t, j.isMuted = false := by
    intro j hj
    cases hm : j.isMuted
    · rfl
    · have hk := m.masked hj hm
      rw [(canInterrupt_iff.mp hi).2.1] at hk
      cases hk
  constructor
  case masked =>
    intro t j hj hm
    rcases u.signals t with ⟨_, hk, hi⟩ | ⟨_, hk, _⟩
    · rw [hk]
      cases u.origin hj with
      | kept h => exact m.masked h hm
      | handler hi' he _ =>
        rw [hi he] at hi'
        cases hi'
      | call c _ _ h =>
        rw [c.code_unmuted j h] at hm
        cases hm
      | mourn s r h =>
        subst h
        cases hm
    · exact hk
  case shielded =>
    intro t
    have none {code : List Instr} (hn : ∀ j ∈ code, j.isMuted = false) :
        code.Pairwise fun i j => j.isMuted = true → i.setsMask = false := by
      apply List.pairwise_of_forall_mem_list
      intro a _ b hb hm
      rw [hn b hb] at hm
      cases hm
    rcases u.code t with hc | hc
    · rw [hc]
      exact m.shielded t
    · generalize w'.codeOf t = code at hc
      cases hc with
      | interrupt hi =>
        -- the mask was open, so nothing below the handler is muted
        refine List.pairwise_append.mpr ⟨?_, m.shielded t, ?_⟩
        · rw [handlerCode_eq]
          split <;> simp [Instr.isMuted]
        · intro a _ b hb hm
          rw [unmasked hi b hb] at hm
          cases hm
      | invoke c hu =>
        apply none
        intro j hj
        rcases List.mem_append.mp hj with hj | hj
        · exact c.code_unmuted j hj
        · exact user hu j hj
      | finish p hu =>
        apply none
        intro j hj
        rcases mem_epilogue hj with hj | ⟨s, r, rfl, _⟩
        · exact user hu j (List.mem_of_mem_tail hj)
        · rfl

theorem muted_initial (n : Nat) : Muted (World.initial n) := by
  constructor
  case masked =>
    intro t j hj hm
    rw [eq_user_of_initial hj] at hm
    cases hm
  case shielded =>
    intro t
    rcases codeOf_initial n t with hc | hc <;> rw [hc] <;> simp

theorem Reachable.muted (h : Reachable n w) : Muted w := by
  refine h.induct (muted_initial n) ?_
  intro w e hw m
  rcases w.step_cases e with ⟨t, i, rest, _, hc, _, hs⟩ | hu
  · rw [hs]
    exact ⟨m.masked_proceed (hw.orderly t) hc, m.shielded_proceed (hw.orderly t) hc⟩
  · exact m.undisturbed hw.orderly hu

end Standstill
