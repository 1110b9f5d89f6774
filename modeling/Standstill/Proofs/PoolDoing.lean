import Standstill.Proofs.MutexOwner

/-!
What a thread is doing on the pools. Of all that it has still to do there, besides locks and queues,
at most one thing is known at a time.
-/
namespace Standstill

open World

def Instr.pool? : Instr → Option PoolInstr
  | .pool j => some j
  | _ => none

/-- The first instruction on a pool object in the code. -/
def firstPool (code : List Instr) : Option PoolInstr := code.findSome? Instr.pool?

/-- What thread `t` is doing on the pools. -/
def World.doing (w : World) (t : ThreadId) : Option PoolInstr := firstPool (w.poolCode t)

variable {n : Nat} {w w' : World} {t t' : ThreadId} {i : Instr} {j k : PoolInstr}
  {code rest : List Instr} {e : Event} {m : MutexRef} {c : CondRef}

@[simp] theorem firstPool_nil : firstPool [] = none := rfl

@[simp] theorem firstPool_pool : firstPool (.pool j :: code) = some j := rfl

@[simp] theorem firstPool_sync (i : SyncInstr) : firstPool (.sync i :: code) = firstPool code := rfl

@[simp] theorem firstPool_guard (i : GuardInstr) : firstPool (.guard i :: code) = firstPool code :=
  rfl

theorem firstPool_append (l l' : List Instr) :
    firstPool (l ++ l') = (firstPool l).or (firstPool l') := List.findSome?_append ..

theorem firstPool_eq_none (h : ∀ j, .pool j ∉ code) : firstPool code = none := by
  rw [firstPool, List.findSome?_eq_none_iff]
  intro i hi
  cases i with
  | pool j => exact absurd hi (h j)
  | _ => rfl

theorem mem_of_firstPool (h : firstPool code = some j) : .pool j ∈ code := by
  obtain ⟨i, hi, hj⟩ := List.exists_of_findSome?_eq_some h
  cases i with
  | pool k =>
    obtain rfl := Option.some.inj hj
    exact hi
  | _ => cases hj

/-- Locks and queues leave pool objects alone. -/
theorem firstPool_filter : firstPool (code.filter Instr.isPooled) = firstPool code := by
  induction code with
  | nil => rfl
  | cons i code ih =>
    cases hi : i.isPooled with
    | true =>
      rw [List.filter_cons_of_pos hi]
      simp only [firstPool, List.findSome?_cons] at ih ⊢
      rw [ih]
    | false =>
      have hp : i.pool? = none := by
        cases i with
        | pool j => cases hi
        | _ => rfl
      rw [List.filter_cons_of_neg (by simp [hi]), ih]
      simp only [firstPool, List.findSome?_cons, hp]

theorem mem_poolCode_of_doing (h : w.doing t = some j) : .pool j ∈ w.poolCode t :=
  mem_of_firstPool h

theorem SyncInstr.run_idle (i : SyncInstr) : firstPool (i.run t w).2 = none := by
  cases i <;> rfl

theorem PoolRun.doing_of_ne (h : PoolRun w t i rest w') (ht : t' ≠ t) :
    w'.doing t' = w.doing t' := by
  rw [doing, h.others t' ht, doing]

theorem PoolRun.doing_sync {i : SyncInstr} (h : PoolRun w t (.sync i) rest w') (t' : ThreadId) :
    w'.doing t' = w.doing t' := by
  by_cases ht : t' = t
  · subst ht
    rw [doing, h.after, firstPool_append, firstPool_filter, Instr.run, i.run_idle, doing, h.before]
    rfl
  · exact h.doing_of_ne ht

/-- A thread is doing what it is about to run on a pool object, and then what this leads to. -/
theorem PoolRun.doing_pool (h : PoolRun w t (.pool j) rest w') (p : Pacing w) :
    w.doing t = some j ∧ w'.doing t = firstPool (j.run t w).2 := by
  have hp := p.paced t
  rw [h.before] at hp
  have hr : firstPool rest = none := firstPool_eq_none (PoolInstr.isBefore_sync hp.1)
  constructor
  · rw [doing, h.before]
    rfl
  · rw [doing, h.after, firstPool_append, firstPool_filter, hr, Option.or_none, Instr.run]

theorem Call.code_opening (c : Call) (h : firstPool (c.code w t) = some j) :
    j.isOpening = true := c.opening_of_code (mem_of_firstPool h)

/-- A thread that does nothing new is doing what it did, or it has begun a call. -/
theorem PoolIdle.doing (h : PoolIdle w e w') (t : ThreadId) :
    w'.doing t = w.doing t ∨ w.doing t = none ∧ ∃ c, e = .invoke t c ∧ w.inUser t = true ∧
      w'.doing t = firstPool (c.code w t) := by
  rcases h.code t with hc | ⟨c, he, hu, hn, hc⟩
  · left
    rw [World.doing, hc, World.doing]
  · right
    refine ⟨by rw [World.doing, hn]; rfl, c, he, hu, ?_⟩
    rw [World.doing, hc, firstPool_filter]

theorem PoolIdle.doing_eq (h : PoolIdle w e w') (hj : w'.doing t = some j)
    (ho : j.isOpening = false) : w.doing t = some j := by
  rcases h.doing t with hd | ⟨_, c, _, _, hd⟩
  · rw [← hd, hj]
  · rw [hd] at hj
    rw [c.code_opening hj] at ho
    cases ho

/-- What a thread is doing it goes on with if nothing is run on the pools. -/
theorem PoolIdle.doing_of_some (h : PoolIdle w e w') (hj : w.doing t = some j) :
    w'.doing t = some j := by
  rcases h.doing t with hd | ⟨hn, _⟩
  · rw [hd, hj]
  · rw [hn] at hj
    cases hj

/-! The event that runs an instruction on a pool object. -/

/-- The instruction on a pool object that the event runs. -/
def World.ran (w : World) : Event → Option PoolInstr
  | .advance t => (w.head? t).bind Instr.pool?
  | _ => none

theorem head_eq : w.head? t = (w.codeOf t).head? := by
  simp only [head?, codeOf, ofThread]
  cases w.threads[t]? <;> rfl

theorem poolRun_of_ran (h : w.ran e = some j) :
    ∃ t rest, e = .advance t ∧ PoolRun w t (.pool j) rest (w.step e) := by
  cases e with
  | advance t =>
    obtain ⟨i, hi, hj⟩ := Option.bind_eq_some_iff.mp h
    rw [head_eq] at hi
    cases hc : w.codeOf t with
    | nil =>
      rw [hc] at hi
      cases hi
    | cons i' below =>
      rw [hc] at hi
      obtain rfl := Option.some.inj hi
      cases i' with
      | pool k =>
        obtain rfl := Option.some.inj hj
        have hs : w.step (.advance t) = w.proceed t (.pool k) below := advance_of_code hc rfl
        rw [hs]
        exact ⟨t, _, rfl, poolRun_proceed hc rfl rfl⟩
      | _ => cases hj
  | _ => cases h

theorem PoolRun.ran_eq (h : PoolRun w t (.pool j) rest w') : w.ran (.advance t) = some j := by
  obtain ⟨below, hc⟩ := h.head
  rw [ran, head_eq, hc]
  rfl

/-- Unless an instruction runs on a pool object, all of them stay as they are. -/
theorem Pacing.pools_of_not_ran (p : Pacing w) (h : w.ran e = none) :
    (w.step e).pools = w.pools := by
  rcases p.step_pools e with ⟨t, i, rest, rfl, hs⟩ | hs
  · rcases hs.cases with ⟨_, _, hp⟩ | ⟨j, rfl, _⟩
    · exact hp
    · rw [hs.ran_eq] at h
      cases h
  · exact hs.pools

/-- And every thread goes on with what it is doing, unless it makes a call. -/
theorem Pacing.doing_of_not_ran (p : Pacing w) (h : w.ran e = none) (t : ThreadId) :
    (w.step e).doing t = w.doing t ∨ w.doing t = none ∧ ∃ c, e = .invoke t c ∧
      w.inUser t = true ∧ (w.step e).doing t = firstPool (c.code w t) := by
  rcases p.step_pools e with ⟨t', i, rest, rfl, hs⟩ | hs
  · rcases hs.cases with ⟨i, rfl, _⟩ | ⟨j, rfl, _⟩
    · exact Or.inl (hs.doing_sync t)
    · rw [hs.ran_eq] at h
      cases h
  · exact hs.doing t

/-! Whoever is on the way into a wait owns the mutex, so giving it up succeeds. -/

/-- The mutex that the thread must own. -/
def PoolInstr.owned? : PoolInstr → Option MutexRef
  | .waitClock _ _ m _ => some m
  | .waitRegister x | .waitGiveUp x _ => some x.mutex
  | _ => none

theorem PoolInstr.leads_of_next (h : firstPool (j.run t w).2 = some k) : j.Leads w t k :=
  j.leads_of_run (mem_of_firstPool h)

theorem PoolInstr.owned_next (hk : firstPool (j.run t w).2 = some k) (ho : k.owned? = some m) :
    ((w.mutex m).owner = some t ∨ j.owned? = some m) ∧ j.givesUp m = false ∧ j.takes m = false := by
  cases leads_of_next hk with
  | waitClock s c m' micros h =>
    obtain rfl := Option.some.inj ho
    exact ⟨Or.inl (by simpa [PoolLock.isOwnedBy] using h), rfl, rfl⟩
  | waitRegister | waitGiveUp => exact ⟨Or.inr ho, rfl, rfl⟩
  | _ => cases ho

/-- A thread on the way into a wait owns the mutex. -/
def WaitsOnOwn (w : World) : Prop :=
  ∀ t j m, w.doing t = some j → j.owned? = some m → (w.mutex m).owner = some t

theorem doing_initial (n : Nat) (t : ThreadId) : (World.initial n).doing t = none := by
  rw [doing, poolCode_initial]
  rfl

theorem waitsOnOwn_initial (n : Nat) : WaitsOnOwn (World.initial n) := by
  intro t j m hj
  rw [doing_initial] at hj
  cases hj

theorem WaitsOnOwn.idle (o : WaitsOnOwn w) (h : PoolIdle w e w') : WaitsOnOwn w' := by
  intro t j m hj hm
  rw [mutex_congr h.pools]
  refine o t j m (h.doing_eq hj ?_) hm
  cases j <;> first | rfl | cases hm

theorem WaitsOnOwn.run (o : WaitsOnOwn w) (h : PoolRun w t i rest w') (p : Pacing w)
    (r : Referring w) : WaitsOnOwn w' := by
  intro t' k m hk hm
  rcases h.cases with ⟨j, rfl, hs⟩ | ⟨j, rfl, _⟩
  · rw [mutex_congr hs]
    rw [h.doing_sync] at hk
    exact o t' k m hk hm
  obtain ⟨hd, hd'⟩ := h.doing_pool p
  by_cases ht : t' = t
  · subst ht
    rw [hd'] at hk
    obtain ⟨ho, hg, htk⟩ := PoolInstr.owned_next hk hm
    -- the thread has owned the mutex before, or takes it by this step
    have ho : (w.mutex m).owner = some t' := ho.elim id (o t' j m hd)
    rcases h.mutex r m with he | ⟨j', hj', ⟨hx, _⟩ | ⟨hx, _⟩⟩
    · rw [he]
      exact ho
    · obtain rfl := Instr.pool.inj hj'
      rw [htk] at hx
      cases hx
    · obtain rfl := Instr.pool.inj hj'
      rw [hg] at hx
      cases hx
  · rw [h.doing_of_ne ht] at hk
    have ho := o t' k m hk hm
    rcases h.mutex r m with he | ⟨_, _, ⟨_, hf, _⟩ | ⟨_, ho', _⟩⟩
    · rw [he]
      exact ho
    · rw [ho] at hf
      cases hf
    · rw [ho] at ho'
      exact absurd (Option.some.inj ho') ht

theorem Reachable.waitsOnOwn (h : Reachable n w) : WaitsOnOwn w := by
  refine h.induct (waitsOnOwn_initial n) fun w e hr o => ?_
  rcases hr.pacing.step_pools e with ⟨t, i, rest, _, hs⟩ | hs
  · exact o.run hs hr.pacing hr.referring
  · exact o.idle hs

end Standstill
