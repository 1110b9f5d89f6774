import Standstill.Proofs.Sections

/-!
What a thread has still to do on the pools. Taken alone, the instructions on pool objects, on their
locks and on their queues follow one another in few ways: a sleep on a mutex is followed by another
look at it, a sleep on a condition by another look at the condition, and of a wait there is never
more than one instruction left.
-/
namespace Standstill

open World

namespace Instr

/-- The instruction is about a pool object, the lock of one or a queue of one. -/
def isPooled : Instr → Bool
  | .pool _ => true
  | .sync (.acquire l) | .sync (.release l) => l.isPooled
  | .sync (.wait q l _) => q.isPooled || l.isPooled
  | .sync (.resting q _) | .sync (.notifyOne q) | .sync (.notifyAll q) => q.isPooled
  | _ => false

/-- The instruction belongs to a call and has nothing to do with the pools. -/
def isForeign : Instr → Bool
  | .user => false
  | i => !i.isPooled

/-- What comes on the pools after the instruction. -/
def IsBefore : Instr → List Instr → Prop
  | .sync (.wait (.mutex m) l d), rest =>
    l = .mutexState m ∧ d = none ∧ ∃ s since,
      rest = [.pool (.retake s m since), .sync (.release (.mutexState m))]
  | .sync (.resting (.mutex m) d), rest =>
    d = none ∧ ∃ s since, rest = [.sync (.acquire (.mutexState m)), .pool (.retake s m since),
      .sync (.release (.mutexState m))]
  | .sync (.wait (.cond c) l _), rest =>
    l = .condState c ∧ ∃ x k, x.cond = c ∧ rest = [.pool (.waitCheck x k)]
  | .sync (.resting (.cond c) _), rest =>
    ∃ x k, x.cond = c ∧ rest = [.sync (.acquire (.condState c)), .pool (.waitCheck x k)]
  | .sync (.notifyAll (.cond c)), rest => rest = [.sync (.release (.condState c))]
  | .sync (.notifyOne (.mutex m)), rest =>
    rest = [] ∨ ∃ x k, x.mutex = m ∧ rest = [.pool (.waitCheck x k)]
  | .pool (.mutexAllot s _), rest | .pool (.mutexDispose s _), rest
  | .pool (.mutexIdle s _ _), rest | .pool (.mutexFree s _), rest =>
    rest = [.sync (.release (.mutexTable s))]
  | .pool (.condAllot s _), rest | .pool (.condDispose s _), rest
  | .pool (.condIdle s _ _), rest | .pool (.condFree s _), rest =>
    rest = [.sync (.release (.condTable s))]
  | .pool (.tryTake m), rest | .pool (.take _ m), rest | .pool (.retake _ m _), rest =>
    rest = [.sync (.release (.mutexState m))]
  | .pool (.signal c), rest | .pool (.broadcast c), rest =>
    rest = [.sync (.release (.condState c))]
  | .pool _, rest => rest = []
  | .sync (.notifyAll (.mutex _)), _ | .sync (.notifyOne (.cond _)), _ => False
  | _, _ => True

end Instr

/-- The pool instructions of the code follow one another as `Instr.IsBefore` says. -/
def Paced : List Instr → Prop
  | [] => True
  | i :: rest => i.IsBefore rest ∧ Paced rest

/-- What thread `t` has still to do on the pools. -/
def World.poolCode (w : World) (t : ThreadId) : List Instr := (w.codeOf t).filter Instr.isPooled

variable {n : Nat} {w w' : World} {t t' : ThreadId} {s : ServiceId} {l : Lock} {i j : Instr}
  {code rest : List Instr} {e : Event} {q : WaitList} {fs gs hs : List Hold}

theorem Instr.isForeign_iff : i.isForeign = true ↔ i ≠ .user ∧ i.isPooled = false := by
  cases i <;> simp [isForeign, isPooled]

theorem filter_foreign (h : code.all Instr.isForeign = true) : code.filter Instr.isPooled = [] := by
  rw [List.filter_eq_nil_iff]
  intro j hj
  rw [(Instr.isForeign_iff.mp (List.all_eq_true.mp h j hj)).2]
  simp

/-! An instruction that has nothing to do with the pools leads to nothing on them. -/

section Foreign

attribute [local simp] Instr.isForeign Instr.isPooled Lock.isPooled WaitList.isPooled

theorem foreign_of_nested (h : i.isNested = true) : i.isForeign = true := by
  cases i with
  | sync i =>
    cases i with
    | acquire l | release l => cases l <;> first | rfl | cases h
    | wait q l d => cases q <;> cases l <;> first | rfl | cases h
    | resting q d => cases q <;> first | rfl | cases h
    | _ => cases h
  | guard | park => rfl
  | _ => cases h

theorem SyncInstr.run_foreign (i : SyncInstr) (h : (Instr.sync i).isForeign = true) :
    (i.run t w).2.all Instr.isForeign = true := by
  cases i with
  | wait q l d =>
    have hl : q.isPooled = false ∧ l.isPooled = false := by simpa using h
    simpa [SyncInstr.run] using hl
  | _ => simp [SyncInstr.run]

theorem GuardInstr.run_foreign (i : GuardInstr) : (i.run t w).2.all Instr.isForeign = true := by
  cases i <;> simp only [GuardInstr.run] <;> repeat' split
  all_goals simp [stopIfDue]

theorem StopInstr.run_foreign (i : StopInstr) : (i.run t w).2.all Instr.isForeign = true := by
  cases i with
  | scanRequest s d rs settled =>
    cases rs <;> simp only [StopInstr.run]
    · simp
    · split <;> simp
  | _ =>
    simp only [StopInstr.run, resumeAllCode]
    repeat' split
    all_goals simp

theorem MemberInstr.run_foreign (i : MemberInstr) : (i.run t w).2.all Instr.isForeign = true := by
  cases i <;> simp only [MemberInstr.run, publishCode, refuseCode] <;> repeat' split
  all_goals simp

theorem ReadInstr.run_foreign (i : ReadInstr) : (i.run t w).2.all Instr.isForeign = true := by
  cases i with
  | find s h q =>
    simp only [ReadInstr.run]
    split
    · simp
    · cases q <;> simp [Inquiry.code]
  | all s withNames =>
    cases withNames <;> simp [ReadInstr.run, List.all_flatMap]
  | _ =>
    simp only [ReadInstr.run, ReadInstr.tell, ReadInstr.consult]
    repeat' split
    all_goals simp

theorem run_foreign (h : i.isForeign = true) : (i.run t w).2.all Instr.isForeign = true := by
  cases i with
  | user => cases h
  | sync i => exact i.run_foreign h
  | guard i => exact i.run_foreign
  | park i => exact all_imp foreign_of_nested (run_nested rfl)
  | stop i => exact i.run_foreign
  | pool i => cases h
  | member i => exact i.run_foreign
  | read i => exact i.run_foreign

end Foreign

/-! What an instruction on the pools leads to there. -/

section Pooled

attribute [local simp] Instr.isPooled Lock.isPooled WaitList.isPooled Instr.IsBefore Paced
  List.filter_cons

theorem SyncInstr.run_paced (i : SyncInstr) (h : (Instr.sync i).IsBefore rest) (hp : Paced rest) :
    Paced ((i.run t w).2.filter Instr.isPooled ++ rest) := by
  cases i with
  | wait q l d =>
    cases q with
    | mutex m =>
      obtain ⟨rfl, rfl, s, since, rfl⟩ := h
      simp [SyncInstr.run]
    | cond c =>
      obtain ⟨rfl, x, k, rfl, rfl⟩ := h
      simp [SyncInstr.run]
    | _ => cases l <;> simpa [SyncInstr.run] using hp
  | _ => simpa [SyncInstr.run] using hp

theorem PoolInstr.run_paced (i : PoolInstr) (h : (Instr.pool i).IsBefore rest) (hp : Paced rest) :
    Paced ((i.run t w).2.filter Instr.isPooled ++ rest) := by
  cases i with
  | mutexFind s k use =>
    obtain rfl : rest = [] := h
    simp only [PoolInstr.run]
    split
    · cases use <;> simp [MutexUse.missing]
    · cases use <;> simp [MutexUse.found, takeCode, locked, sleeping, guarded]
  | condFind s k use =>
    obtain rfl : rest = [] := h
    simp only [PoolInstr.run]
    split
    · cases use <;> simp [CondUse.missing]
    · cases use <;> simp [CondUse.found, locked]
  | _ =>
    obtain rfl := h
    simp only [PoolInstr.run]
    repeat' split
    all_goals simp [takeCode, locked]

theorem MutexCall.code_paced (c : MutexCall) : Paced ((c.code s).filter Instr.isPooled) := by
  cases c <;> simp [MutexCall.code, locked]

theorem CondCall.code_paced (c : CondCall) : Paced ((c.code s).filter Instr.isPooled) := by
  cases c <;> simp [CondCall.code, locked]

theorem Call.code_paced (c : Call) : Paced ((c.code w t).filter Instr.isPooled) := by
  cases c with
  | mutex s a c =>
    have hc := c.code_paced (s := s)
    cases a
    · cases c with
      | lock k => simp [Call.code]
      | _ => simpa [Call.code, guarded] using hc
    · exact hc
  | cond s a c =>
    have hc := c.code_paced (s := s)
    cases a
    · simpa [Call.code, guarded] using hc
    · exact hc
  | safePoint s =>
    simp only [Call.code]
    split <;> simp
  | _ =>
    simp [Call.code, guarded, locked, sleepCode, sleeping, suspendAllCode, resumeAllCode,
      inquireCode]

end Pooled

/-! No instruction leads back to code of the thread's own. -/

section Userless

theorem PoolInstr.run_userless (i : PoolInstr) : .user ∉ (i.run t w).2 := by
  cases i with
  | mutexFind s k use =>
    simp only [PoolInstr.run]
    split <;> cases use <;>
      simp [MutexUse.missing, MutexUse.found, takeCode, locked, sleeping, guarded]
  | condFind s k use =>
    simp only [PoolInstr.run]
    split <;> cases use <;> simp [CondUse.missing, CondUse.found, locked]
  | _ =>
    simp only [PoolInstr.run]
    repeat' split
    all_goals simp [takeCode, locked]

theorem not_user_of_foreign (h : code.all Instr.isForeign = true) : .user ∉ code := fun hu =>
  (Instr.isForeign_iff.mp (List.all_eq_true.mp h _ hu)).1 rfl

theorem run_userless (hi : i ≠ .user) : .user ∉ (i.run t w).2 := by
  cases i with
  | user => exact absurd rfl hi
  | sync i => cases i <;> simp [Instr.run, SyncInstr.run]
  | pool i => exact i.run_userless
  | _ => exact not_user_of_foreign (run_foreign rfl)

theorem Call.code_userless (c : Call) : .user ∉ c.code w t := by
  intro hj
  cases c.opening_of_code hj

end Userless

/-- Below code of the thread's own there is nothing on the pools. -/
def Grounded (code : List Instr) : Prop :=
  code.Pairwise fun i j => i = .user → j.isPooled = false

theorem Grounded.append (h : Grounded rest) (hc : .user ∉ code) : Grounded (code ++ rest) := by
  have hne : ∀ i ∈ code, i ≠ .user := fun i hi he => hc (he ▸ hi)
  refine List.pairwise_append.mpr ⟨?_, h, fun i hi j _ he => absurd he (hne i hi)⟩
  exact List.pairwise_iff_forall_sublist.mpr fun {i j} hs he =>
    absurd he (hne i (hs.subset List.mem_cons_self))

/-- The pool code of every thread is in order. -/
structure Pacing (w : World) : Prop where
  paced : ∀ t, Paced (w.poolCode t)
  grounded : ∀ t, Grounded (w.codeOf t)

theorem poolCode_initial (n : Nat) (t : ThreadId) : (World.initial n).poolCode t = [] := by
  rcases codeOf_initial n t with hc | hc <;> rw [poolCode, hc] <;> rfl

theorem pacing_initial (n : Nat) : Pacing (World.initial n) := by
  constructor <;> intro t
  · rw [poolCode_initial]
    trivial
  · rcases codeOf_initial n t with hc | hc <;> rw [hc]
    · exact List.pairwise_singleton _ _
    · exact List.Pairwise.nil

theorem poolCode_eq (h : w.codeOf t = i :: rest) (hi : i.isPooled = true) :
    w.poolCode t = i :: rest.filter Instr.isPooled := by
  rw [poolCode, h, List.filter_cons_of_pos hi]

/-- What thread `t` has to do on the pools after it has run the instruction at its head. -/
theorem poolCode_proceed (h : w.codeOf t = i :: rest) :
    (w.proceed t i rest).poolCode t =
      (w.remainder t i rest).filter Instr.isPooled ++ rest.filter Instr.isPooled := by
  rw [poolCode, codeOf_proceed h, List.filter_append]

theorem poolCode_proceed_of_foreign (h : w.codeOf t = i :: rest) (hi : i.isForeign = true) :
    (w.proceed t i rest).poolCode t = w.poolCode t := by
  have hp := (Instr.isForeign_iff.mp hi).2
  rw [poolCode_proceed h, remainder, filter_foreign (run_foreign hi), poolCode, h,
    List.filter_cons_of_neg (by simp [hp]), List.nil_append]

theorem poolCode_proceed_of_ne (h : w.codeOf t = i :: rest) (ht : t' ≠ t) :
    (w.proceed t i rest).poolCode t' = w.poolCode t' := by
  by_cases hlt : t' < w.threads.length
  · rw [poolCode, codeOf_proceed_of_ne h ht hlt, poolCode]
  · have hle := Nat.le_of_not_lt hlt
    have hold : w.poolCode t' = [] := by
      rw [poolCode, codeOf, ofThread_of_le _ _ hle, List.filter_nil]
    rw [hold]
    rcases thread_proceed_of_le h hle with hl | ⟨s, r, _, _, hx⟩
    · rw [poolCode, codeOf, ofThread_of_le _ _ hl, List.filter_nil]
    · rw [poolCode, codeOf, ofThread, hx]
      rfl

theorem Grounded.poolCode_of_user (h : Grounded (w.codeOf t)) (hu : w.inUser t = true) :
    w.poolCode t = [] := by
  obtain ⟨rest, hc⟩ := head_user hu
  rw [hc] at h
  rw [poolCode, hc, List.filter_cons_of_neg (by simp [Instr.isPooled]), List.filter_eq_nil_iff]
  intro j hj
  simp [(List.pairwise_cons.mp h).1 j hj rfl]

/-- What an event does to the pool code of thread `t`: nothing, or the thread runs the first of it,
or it makes a call. -/
theorem Pacing.poolCode_step (p : Pacing w) (e : Event) (t : ThreadId) :
    (w.step e).poolCode t = w.poolCode t ∨
    (∃ i rest, e = .advance t ∧ w.codeOf t = i :: rest ∧ i.isPooled = true ∧
      i.isReady w t = true ∧ w.step e = w.proceed t i rest) ∨
    ∃ c, e = .invoke t c ∧ w.inUser t = true ∧ w.poolCode t = [] ∧
      (w.step e).poolCode t = (c.code w t).filter Instr.isPooled := by
  rcases w.step_cases e with ⟨q, i, rest, he, hc, hr, hs⟩ | u
  · by_cases hq : t = q
    · subst hq
      have hu : i ≠ .user := by
        rintro rfl
        cases hr
      cases hi : i.isPooled
      · left
        rw [hs]
        exact poolCode_proceed_of_foreign hc (Instr.isForeign_iff.mpr ⟨hu, hi⟩)
      · exact Or.inr (Or.inl ⟨i, rest, he, hc, hi, hr, hs⟩)
    · left
      rw [hs]
      exact poolCode_proceed_of_ne hc hq
  · rcases u.code t with hc | hc
    · left
      rw [poolCode, hc, poolCode]
    · generalize hcode : (w.step e).codeOf t = code at hc
      -- neither the handler nor the way out has any code on the pools
      cases hc with
      | interrupt h =>
        left
        rw [poolCode, hcode, List.filter_append,
          filter_foreign (all_imp foreign_of_nested handler_nested)]
        rfl
      | invoke c h =>
        have hp := (p.grounded t).poolCode_of_user h
        refine Or.inr (Or.inr ⟨c, rfl, h, hp, ?_⟩)
        have hp' : (w.codeOf t).filter Instr.isPooled = [] := hp
        rw [poolCode, hcode, List.filter_append, hp', List.append_nil]
      | finish panicked h =>
        left
        have hp := (p.grounded t).poolCode_of_user h
        rw [hp, poolCode, hcode, List.filter_eq_nil_iff]
        intro j hj
        rcases mem_epilogue hj with hj | ⟨s, r, rfl, _⟩
        · have hp' : (w.codeOf t).filter Instr.isPooled = [] := hp
          exact List.filter_eq_nil_iff.mp hp' j (List.mem_of_mem_tail hj)
        · simp [Instr.isPooled]

theorem run_paced (hi : i.isPooled = true) (h : i.IsBefore rest) (hp : Paced rest) :
    Paced ((i.run t w).2.filter Instr.isPooled ++ rest) := by
  cases i with
  | sync i => exact i.run_paced h hp
  | pool i => exact i.run_paced h hp
  | _ => cases hi

theorem Pacing.step (p : Pacing w) (e : Event) : Pacing (w.step e) where
  paced t := by
    rcases p.poolCode_step e t with h | ⟨i, rest, _, hc, hi, _, hs⟩ | ⟨c, _, _, _, h⟩
    · rw [h]
      exact p.paced t
    · have hp := p.paced t
      rw [poolCode_eq hc hi] at hp
      rw [hs, poolCode_proceed hc]
      exact run_paced hi hp.1 hp.2
    · rw [h]
      exact c.code_paced
  -- what is put on top of a thread's own code may be on the pools, but nothing is ever put under it
  grounded t := by
    rcases w.step_cases e with ⟨q, i, rest, _, hc, hr, hs⟩ | u
    · rw [hs]
      have hu : i ≠ .user := by
        rintro rfl
        cases hr
      have hg := p.grounded q
      rw [hc] at hg
      have hrest : Grounded rest := hg.tail
      exact codeOf_proceed_cases hc (hrest.append (run_userless hu)) (p.grounded t)
        List.Pairwise.nil fun s r => by simp [Grounded, threadCode, Instr.isPooled]
    · rcases u.code t with hc | hc
      · rw [hc]
        exact p.grounded t
      · generalize (w.step e).codeOf t = code at hc
        cases hc with
        | interrupt h =>
          refine (p.grounded t).append fun hu => ?_
          cases List.all_eq_true.mp handler_nested _ hu
        | invoke c h => exact (p.grounded t).append c.code_userless
        | finish panicked h =>
          have hg := (p.grounded t).tail
          unfold epilogue
          split
          next s r rest hcode =>
            rw [hcode] at hg
            refine Grounded.append hg ?_
            split <;> simp
          next => exact hg

theorem Reachable.pacing (h : Reachable n w) : Pacing w :=
  h.induct (pacing_initial n) fun _ e _ p => p.step e

/-! Whoever is about to work on a pool object holds its lock. -/

/-- What has nothing to do with the pools takes none of their locks that it does not find taken. -/
theorem closes_of_opens (hi : i.isPooled = false) (hl : l.isPooled = true)
    (h : .lock l ∈ i.opens) : .lock l ∈ i.closes := by
  cases i with
  | user => cases h
  | sync i =>
    cases i with
    | notifyAll q => cases q <;> simp_all [Instr.opens, SyncInstr.opens, Lock.isPooled]
    | _ => simp_all [Instr.opens, SyncInstr.opens, Instr.isPooled]
  | guard i => cases i <;> simp [Instr.opens, GuardInstr.opens] at h
  | park i => exact h
  | stop i => cases i <;> simp_all [Instr.opens, StopInstr.opens, Lock.isPooled]
  | pool i => cases hi
  | member i => cases i <;> simp_all [Instr.opens, MemberInstr.opens, Lock.isPooled]
  | read i =>
    cases i with
    | find => cases h
    | _ => exact h

/-- A lock is held by the thread that needs it next, if the thread does not take it before. -/
theorem Keeping.held_of_needs (k : Keeping w) {code : List Instr}
    (h : w.poolCode t = code ++ i :: rest) (hl : l.isPooled = true)
    (hn : ∀ j ∈ code, .lock l ∉ j.opens) (hc : .lock l ∈ i.closes) : (l, t) ∈ w.held := by
  obtain ⟨top, below, he, htop, hbelow⟩ := List.filter_eq_append_iff.mp h
  obtain ⟨mid, below, rfl, hmid, _, _⟩ := List.filter_eq_cons_iff.mp hbelow
  obtain ⟨hs, hk⟩ := k.keeps t
  have hf := hk.code
  rw [he, ← List.append_assoc] at hf
  have hm : .lock l ∈ hs := by
    refine mem_of_fits hf (fun j hj ho => ?_) hc
    cases hp : j.isPooled with
    | false => exact closes_of_opens hp hl ho
    | true =>
      rcases List.mem_append.mp hj with hj | hj
      · exact absurd ho (hn j (htop ▸ List.mem_filter.mpr ⟨hj, hp⟩))
      · exact absurd hp (hmid j hj)
  rw [← mem_locksOf, hk.locks]
  exact List.mem_filterMap.mpr ⟨_, hm, rfl⟩

theorem Keeping.held_of_closes (k : Keeping w) (h : w.poolCode t = i :: rest)
    (hl : l.isPooled = true) (hc : .lock l ∈ i.closes) : (l, t) ∈ w.held := by
  have h' : w.poolCode t = [] ++ i :: rest := h
  exact k.held_of_needs h' hl (fun _ hj => absurd hj List.not_mem_nil) hc

/-- Two threads are never both about to work under one lock. -/
theorem Keeping.eq_of_closes {i' : Instr} {rest' : List Instr} (k : Keeping w)
    (h : w.poolCode t = i :: rest) (h' : w.poolCode t' = i' :: rest') (hl : l.isPooled = true)
    (hc : .lock l ∈ i.closes) (hc' : .lock l ∈ i'.closes) : t = t' :=
  k.holder_unique (k.held_of_closes h hl hc) (k.held_of_closes h' hl hc')

end Standstill
