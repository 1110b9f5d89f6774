import Standstill.Proofs.PoolDoing

/-!
The book that a condition keeps of its waiters. The wake-ups that are issued and not yet used never
outnumber the waiters that may use one and are awake, or are just being woken.
-/
namespace Standstill

open World

namespace PoolInstr

/-- The thread counts among the waiters of condition `c`. -/
def isRegistered (c : CondRef) : PoolInstr → Bool
  | .waitGiveUp x _ | .waitCheck x _ | .waitRetire x => x.cond == c
  | _ => false

/-- The thread waits on condition `c`, and its ticket is not the generation `g`. -/
def mayUse (c : CondRef) (g : Nat) : PoolInstr → Bool
  | .waitGiveUp x k | .waitCheck x k => x.cond == c && k != g
  | _ => false

/-- What the instruction makes of condition `c`. -/
def onCond (c : CondRef) (x : PoolCondition) : PoolInstr → PoolCondition
  | .signal b => if b = c then x.signal else x
  | .broadcast b => if b = c then x.broadcast else x
  | .waitRegister y => if y.cond = c then x.register else x
  | .waitCheck y k => if y.cond = c ∧ x.mayWake k then x.consume else x
  | .waitRetire y => if y.cond = c then x.retire else x
  | _ => x

end PoolInstr

namespace World

/-- The threads that count among the waiters of condition `c`. -/
def waitersOf (w : World) (c : CondRef) : Finset ThreadId :=
  (Finset.range w.threads.length).filter fun t => (w.doing t).any (·.isRegistered c)

/-- Somebody is about to wake all who sleep at condition `c`. -/
def isCalled (w : World) (c : CondRef) : Bool :=
  (List.range w.threads.length).any fun t =>
    (w.poolCode t).contains (.sync (.notifyAll (.cond c)))

/-- The waiters of condition `c` that may use a wake-up and are awake, or are about to be woken. -/
def candidates (w : World) (c : CondRef) : Finset ThreadId :=
  (Finset.range w.threads.length).filter fun t =>
    (w.doing t).any (·.mayUse c (w.cond c).generation) &&
      (!w.asleep.contains (.cond c, t) || w.isCalled c)

end World

variable {n : Nat} {w w' : World} {t t' : ThreadId} {i : Instr} {j k : PoolInstr}
  {rest : List Instr} {e : Event} {c : CondRef} {x : PoolCondition}

theorem lt_of_poolCode (h : i ∈ w.poolCode t) : t < w.threads.length :=
  lt_of_codeOf (List.ne_nil_of_mem (List.mem_filter.mp h).1)

theorem lt_of_doing (h : w.doing t = some j) : t < w.threads.length :=
  lt_of_poolCode (mem_poolCode_of_doing h)

theorem mem_waitersOf :
    t ∈ w.waitersOf c ↔ ∃ j, w.doing t = some j ∧ j.isRegistered c = true := by
  simp only [waitersOf, Finset.mem_filter, Finset.mem_range, Option.any_eq_true]
  refine ⟨fun h => h.2, ?_⟩
  rintro ⟨j, hj, hr⟩
  exact ⟨lt_of_doing hj, j, hj, hr⟩

theorem isCalled_iff :
    w.isCalled c = true ↔ ∃ t, .sync (.notifyAll (.cond c)) ∈ w.poolCode t := by
  simp only [isCalled, List.any_eq_true, List.mem_range, List.contains_iff_mem]
  constructor
  · rintro ⟨t, _, h⟩
    exact ⟨t, h⟩
  · rintro ⟨t, h⟩
    exact ⟨t, lt_of_poolCode h, h⟩

theorem mem_candidates :
    t ∈ w.candidates c ↔
      (∃ j, w.doing t = some j ∧ j.mayUse c (w.cond c).generation = true) ∧
        ((.cond c, t) ∉ w.asleep ∨ w.isCalled c = true) := by
  simp only [candidates, Finset.mem_filter, Finset.mem_range, Bool.and_eq_true, Bool.or_eq_true,
    Bool.not_eq_true', List.contains_eq_mem, decide_eq_false_iff_not, Option.any_eq_true]
  refine ⟨fun h => h.2, ?_⟩
  rintro ⟨⟨j, hj, hr⟩, ha⟩
  exact ⟨lt_of_doing hj, ⟨j, hj, hr⟩, ha⟩

theorem registered_of_mayUse {g : Nat} (h : j.mayUse c g = true) : j.isRegistered c = true := by
  cases j <;> simp_all [PoolInstr.mayUse, PoolInstr.isRegistered]

theorem candidates_subset_waitersOf : w.candidates c ⊆ w.waitersOf c := by
  intro t ht
  obtain ⟨⟨j, hj, hu⟩, _⟩ := mem_candidates.mp ht
  exact mem_waitersOf.mpr ⟨j, hj, registered_of_mayUse hu⟩

/-! What an instruction does to a condition, and what its thread does next. -/

theorem cond_modCond {b : CondRef} (f : PoolCondition → PoolCondition) (h : b < w.conds.length) :
    (w.modCond b f).cond c = if b = c then f (w.cond c) else w.cond c := by
  simp only [World.cond, modCond, List.getElem?_modify]
  by_cases hb : b = c
  · subst hb
    simp [List.getElem?_eq_getElem h]
  · simp [hb]

theorem cond_append :
    ({ w with conds := w.conds ++ [({} : PoolCondition)] }).cond c = w.cond c := by
  simp only [World.cond]
  rcases Nat.lt_trichotomy c w.conds.length with h | rfl | h
  · rw [List.getElem?_append_left h]
  · simp
  · have hn : w.conds.length + 1 ≤ c := h
    rw [List.getElem?_eq_none (by simpa using hn), List.getElem?_eq_none (Nat.le_of_lt h)]

namespace PoolInstr

theorem cond_run (i : PoolInstr) (hi : ∀ b, i.cond? = some b → b < w.conds.length) (c : CondRef) :
    (i.run t w).1.cond c = i.onCond c (w.cond c) := by
  cases i with
  | condAllot s name =>
    simp only [PoolInstr.run]
    split
    · rfl
    · exact cond_append
  | signal b =>
    have hb := hi b rfl
    simp only [PoolInstr.run, onCond]
    split
    next hs => exact cond_modCond _ hb
    next hs =>
      split
      next he =>
        subst he
        simp [PoolCondition.signal, hs]
      next => rfl
  | broadcast b =>
    have hb := hi b rfl
    simp only [PoolInstr.run, onCond]
    split
    next hs => exact cond_modCond _ hb
    next hs =>
      split
      next he =>
        subst he
        simp [PoolCondition.broadcast, hs]
      next => rfl
  | waitRegister y => exact cond_modCond _ (hi y.cond rfl)
  | waitRetire y => exact cond_modCond _ (hi y.cond rfl)
  -- a waiter uses a wake-up up only if it may wake
  | waitCheck y k =>
    have hb := hi y.cond rfl
    simp only [PoolInstr.run, onCond]
    split
    next hm =>
      rw [cond_modCond _ hb]
      by_cases he : y.cond = c
      · subst he
        simp [hm]
      · simp [he]
    next hm =>
      have hn : ¬(y.cond = c ∧ (w.cond c).mayWake k = true) := by
        rintro ⟨rfl, h⟩
        exact hm h
      rw [if_neg hn]
      split <;> rfl
  | _ =>
    simp only [PoolInstr.run, onCond]
    repeat' split
    all_goals rfl

/-- Only under its lock is a condition changed. -/
theorem onCond_eq_or (i : PoolInstr) (c : CondRef) (x : PoolCondition) :
    i.onCond c x = x ∨ .lock (.condState c) ∈ (Instr.pool i).closes := by
  cases i <;> simp only [onCond, Instr.closes, closes]
  case signal b | broadcast b =>
    by_cases hb : b = c <;> simp [hb]
  case waitRegister y | waitRetire y =>
    by_cases hb : y.cond = c <;> simp [hb]
  case waitCheck y k =>
    by_cases hb : y.cond = c <;> simp [hb]
  all_goals exact Or.inl trivial

end PoolInstr

/-! What the thread is doing next. -/

namespace PoolInstr

/-- The instruction puts its thread among the waiters of `c`. -/
def registers (c : CondRef) : PoolInstr → Bool
  | .waitRegister x => x.cond == c
  | _ => false

def isRetire : PoolInstr → Bool
  | .waitRetire _ => true
  | _ => false

/-- A thread counts among the waiters from when it registers until it retires. -/
theorem registered_next (i : PoolInstr) (ho : ∀ m, i.owned? = some m → (w.mutex m).owner = some t) :
    (firstPool (i.run t w).2).any (·.isRegistered c) =
      (i.registers c || i.isRegistered c && !i.isRetire) := by
  cases i with
  | mutexFind s k use =>
    simp only [PoolInstr.run]
    split <;> cases use <;> rfl
  | condFind s k use =>
    simp only [PoolInstr.run]
    split <;> cases use <;> rfl
  -- the waiter owns its mutex, so giving it up does not fail
  | waitGiveUp x ticket =>
    have hx : (w.mutex x.mutex).owner = some t := ho x.mutex rfl
    have hg : (w.mutex x.mutex).giveUp t = .ok { owner := none } := by
      simp [PoolLock.giveUp, PoolLock.isOwnedBy, hx]
    simp [PoolInstr.run, hg, isRegistered, registers, isRetire]
  | waitCheck x ticket =>
    simp only [PoolInstr.run]
    repeat' split
    all_goals simp [isRegistered, registers, isRetire]
  | waitRegister x => simp [PoolInstr.run, isRegistered, registers]
  | waitRetire x => simp [PoolInstr.run, isRegistered, registers, isRetire, takeCode, locked]
  | _ =>
    simp only [PoolInstr.run]
    repeat' split
    all_goals rfl

/-- A ticket is given at the registration and kept from then on. -/
theorem ticket_next (i : PoolInstr) {k : PoolInstr} (h : firstPool (i.run t w).2 = some k)
    {x : CondWait} {ticket : Nat} (hk : k = .waitGiveUp x ticket ∨ k = .waitCheck x ticket) :
    i = .waitRegister x ∧ ticket = (w.cond x.cond).generation ∨ i = .waitGiveUp x ticket ∨
      i = .waitCheck x ticket := by
  rcases hk with rfl | rfl
  · cases leads_of_next h
    exact Or.inl ⟨rfl, rfl⟩
  · cases leads_of_next h with
    | waitCheck => exact Or.inr (Or.inl rfl)
    | waitAgain => exact Or.inr (Or.inr rfl)

theorem generation_le (i : PoolInstr) (x : PoolCondition) :
    x.generation ≤ (i.onCond c x).generation := by
  cases i <;> simp only [onCond] <;> repeat' split
  all_goals simp only [PoolCondition.signal, PoolCondition.broadcast, PoolCondition.register,
    PoolCondition.consume, PoolCondition.retire, Nat.le_refl]
  all_goals split <;> simp

theorem onCond_waiters (i : PoolInstr) (x : PoolCondition) : (i.onCond c x).waiters =
    if i.registers c then x.waiters + 1
    else if i.isRegistered c && i.isRetire then x.waiters - 1 else x.waiters := by
  cases i with
  | signal b | broadcast b =>
    simp only [onCond, registers, isRegistered, isRetire, PoolCondition.signal,
      PoolCondition.broadcast]
    repeat' split
    all_goals rfl
  | waitRegister y =>
    by_cases hy : y.cond = c <;>
      simp [onCond, registers, isRegistered, PoolCondition.register, hy]
  | waitRetire y =>
    by_cases hy : y.cond = c <;>
      simp [onCond, registers, isRegistered, isRetire, PoolCondition.retire, hy]
  | waitCheck y k =>
    simp only [onCond, registers, isRegistered, isRetire, Bool.and_false]
    split <;> rfl
  | _ => simp [onCond, registers, isRegistered, isRetire]

end PoolInstr

/-! The book is kept by every step. -/

structure Booked (w : World) : Prop where
  counted : ∀ c, (w.cond c).waiters = (w.waitersOf c).card
  /-- No ticket is from the future. -/
  dated : ∀ {t j x k}, w.doing t = some j → j = .waitGiveUp x k ∨ j = .waitCheck x k →
    k ≤ (w.cond x.cond).generation
  /-- Who is about to fall asleep has found nothing to use. -/
  brink : ∀ {t c l d rest x k}, w.poolCode t = .sync (.wait (.cond c) l d) :: rest →
    w.doing t = some (.waitCheck x k) → (w.cond c).mayWake k = false
  covered : ∀ c, (w.cond c).wakeups ≤ (w.candidates c).card

theorem booked_initial (n : Nat) : Booked (World.initial n) := by
  have hw (c : CondRef) : (World.initial n).waitersOf c = ∅ := by
    apply Finset.eq_empty_of_forall_notMem
    intro t ht
    obtain ⟨j, hj, _⟩ := mem_waitersOf.mp ht
    rw [doing_initial] at hj
    cases hj
  constructor
  case counted =>
    intro c
    rw [hw]
    rfl
  case dated =>
    intro t j x k hj
    rw [doing_initial] at hj
    cases hj
  case brink =>
    intro t c l d rest x k h
    rw [poolCode_initial] at h
    cases h
  case covered => exact fun c => Nat.zero_le _

theorem isCalled_of_poolCode (h : ∀ t, .sync (.notifyAll (.cond c)) ∈ w.poolCode t →
    .sync (.notifyAll (.cond c)) ∈ w'.poolCode t) (hc : w.isCalled c = true) :
    w'.isCalled c = true := by
  obtain ⟨t, ht⟩ := isCalled_iff.mp hc
  exact isCalled_iff.mpr ⟨t, h t ht⟩

theorem Booked.idle (b : Booked w) (h : PoolIdle w e w') : Booked w' := by
  have hc (c : CondRef) : w'.cond c = w.cond c := cond_congr h.pools
  have reg {j : PoolInstr} {c : CondRef} (hr : j.isRegistered c = true) : j.isOpening = false := by
    cases j <;> first | rfl | cases hr
  constructor
  case counted =>
    intro c
    rw [hc, b.counted c]
    congr 1
    ext t
    rw [mem_waitersOf, mem_waitersOf]
    constructor
    · rintro ⟨j, hj, hr⟩
      exact ⟨j, h.doing_of_some hj, hr⟩
    · rintro ⟨j, hj, hr⟩
      exact ⟨j, h.doing_eq hj (reg hr), hr⟩
  case dated =>
    intro t j x k hj hk
    rw [hc]
    refine b.dated (h.doing_eq hj ?_) hk
    rcases hk with rfl | rfl <;> rfl
  case brink =>
    intro t c l d rest x k hp hj
    rw [hc]
    have hj' := h.doing_eq hj rfl
    have hne : w.poolCode t ≠ [] := List.ne_nil_of_mem (mem_poolCode_of_doing hj')
    rw [h.poolCode_eq hne] at hp
    exact b.brink hp hj'
  -- a thread that may be woken is awake still, or those who call on the condition are still about
  -- to
  case covered =>
    intro c
    rw [hc]
    refine Nat.le_trans (b.covered c) (Finset.card_le_card ?_)
    intro t ht
    obtain ⟨⟨j, hj, hu⟩, ha⟩ := mem_candidates.mp ht
    refine mem_candidates.mpr ⟨⟨j, h.doing_of_some hj, by rw [hc]; exact hu⟩, ha.imp ?_ ?_⟩
    · exact fun hn hm => hn (h.mem_asleep rfl hm)
    · refine isCalled_of_poolCode fun t ht => ?_
      rw [h.poolCode_eq (List.ne_nil_of_mem ht)]
      exact ht

theorem waitersOf_run (h : PoolRun w t (.pool j) rest w') (p : Pacing w) (o : WaitsOnOwn w)
    (c : CondRef) : w'.waitersOf c = if j.registers c || j.isRegistered c && !j.isRetire then
      insert t (w.waitersOf c) else (w.waitersOf c).erase t := by
  obtain ⟨hd, hd'⟩ := h.doing_pool p
  have hn := j.registered_next (w := w) (t := t) (c := c) fun m hm => o t j m hd hm
  ext t'
  by_cases ht : t' = t
  · subst ht
    rw [mem_waitersOf, hd', ← Option.any_eq_true, hn]
    split
    next hr => simp [hr]
    next hr => simp [hr]
  · have hm : t' ∈ w'.waitersOf c ↔ t' ∈ w.waitersOf c := by
      rw [mem_waitersOf, mem_waitersOf, h.doing_of_ne ht]
    rw [hm]
    split <;> simp [ht]

theorem PoolRun.cond (h : PoolRun w t (.pool j) rest w') (r : Referring w) (c : CondRef) :
    w'.cond c = j.onCond c (w.cond c) := by
  have hh : Instr.pool j ∈ w.poolCode t := h.before ▸ List.mem_cons_self
  have hc : w'.conds = (j.run t w).1.conds := congrArg (·.2.1) h.pools
  rw [World.cond, hc, ← World.cond]
  exact j.cond_run (fun b hb => r.condCode hh hb) c

/-- A step on the pools, with what is known about the world before it. -/
structure Paces (w : World) : Prop where
  pacing : Pacing w
  keeping : Keeping w
  bedded : Bedded w
  foremost : Foremost w
  referring : Referring w
  owning : WaitsOnOwn w

theorem Reachable.paces (h : Reachable n w) : Paces w :=
  ⟨h.pacing, h.keeping, h.bedded, h.foremost, h.referring, h.waitsOnOwn⟩

theorem Booked.counted_run (b : Booked w) (a : Paces w) (h : PoolRun w t (.pool j) rest w')
    (c : CondRef) : (w'.cond c).waiters = (w'.waitersOf c).card := by
  obtain ⟨hd, _⟩ := h.doing_pool a.pacing
  have hm : t ∈ w.waitersOf c ↔ j.isRegistered c = true := by
    rw [mem_waitersOf, hd]
    simp
  rw [h.cond a.referring, j.onCond_waiters, waitersOf_run h a.pacing a.owning, b.counted c]
  -- a waiter registers once, and retires only if it has registered
  by_cases hr : j.registers c = true
  · have hn : t ∉ w.waitersOf c := by
      rw [hm]
      cases j <;> simp_all [PoolInstr.registers, PoolInstr.isRegistered]
    rw [if_pos hr, if_pos (by simp [hr]), Finset.card_insert_of_notMem hn]
  · rw [if_neg hr]
    simp only [Bool.not_eq_true] at hr
    cases hg : j.isRegistered c with
    | true =>
      have ht : t ∈ w.waitersOf c := hm.mpr hg
      cases j.isRetire with
      | true => simp [hr, Finset.card_erase_of_mem ht]
      | false => simp [hr, Finset.insert_eq_of_mem ht]
    | false =>
      have ht : t ∉ w.waitersOf c := by
        rw [hm, hg]
        exact Bool.false_ne_true
      simp [hr, Finset.erase_eq_of_notMem ht]

theorem Booked.dated_run (b : Booked w) (a : Paces w) (h : PoolRun w t (.pool j) rest w')
    {x : CondWait} {ticket : Nat} (hk : w'.doing t' = some k)
    (hx : k = .waitGiveUp x ticket ∨ k = .waitCheck x ticket) :
    ticket ≤ (w'.cond x.cond).generation := by
  rw [h.cond a.referring]
  refine Nat.le_trans ?_ (j.generation_le _)
  obtain ⟨hd, hd'⟩ := h.doing_pool a.pacing
  by_cases ht : t' = t
  · subst ht
    rw [hd'] at hk
    -- a ticket carries the generation at which it was drawn, and generations only grow
    rcases j.ticket_next hk hx with ⟨_, he⟩ | he
    · exact Nat.le_of_eq he
    · exact b.dated hd he
  · rw [h.doing_of_ne ht] at hk
    exact b.dated hk hx

/-- Who is sent to sleep at a condition has looked in vain. -/
theorem PoolInstr.run_wait_cond (i : PoolInstr) {l : Lock} {d : Option Nat}
    (h : .sync (.wait (.cond c) l d) ∈ (i.run t w).2) :
    ∃ x k, i = .waitCheck x k ∧ x.cond = c ∧ (w.cond c).mayWake k = false ∧
      firstPool (i.run t w).2 = some (.waitCheck x k) := by
  cases i with
  | mutexFind s k use =>
    simp only [PoolInstr.run] at h
    split at h <;> cases use <;>
      simp [MutexUse.missing, MutexUse.found, takeCode, locked, sleeping, guarded] at h
  | condFind s k use =>
    simp only [PoolInstr.run] at h
    split at h <;> cases use <;> simp [CondUse.missing, CondUse.found, locked] at h
  | waitCheck x k =>
    simp only [PoolInstr.run] at h ⊢
    split at h
    · simp at h
    next hm =>
      split at h
      · simp at h
      next hd =>
        simp at h
        obtain ⟨rfl, _⟩ := h
        exact ⟨x, k, rfl, rfl, by simpa using hm, by simp [hm, hd]⟩
  | _ =>
    simp only [PoolInstr.run] at h
    repeat' split at h
    all_goals simp [takeCode, locked] at h

theorem Booked.brink_run (b : Booked w) (a : Paces w) (h : PoolRun w t (.pool j) rest w')
    {l : Lock} {d : Option Nat} {post : List Instr} {x : CondWait} {ticket : Nat}
    (hc : w'.poolCode t' = .sync (.wait (.cond c) l d) :: post)
    (hk : w'.doing t' = some (.waitCheck x ticket)) : (w'.cond c).mayWake ticket = false := by
  obtain ⟨hd, hd'⟩ := h.doing_pool a.pacing
  rw [h.cond a.referring]
  by_cases ht : t' = t
  · subst ht
    have hrest : ∀ i ∈ rest, i.isForemost = false := by
      intro i hi
      apply a.foremost t' i
      rw [h.before]
      exact hi
    rw [h.after] at hc
    have hm : Instr.sync (.wait (.cond c) l d) ∈ (j.run t' w).2 := by
      rcases List.mem_append.mp (hc ▸ List.mem_cons_self) with hm | hm
      · exact (List.mem_filter.mp hm).1
      · cases hrest _ hm
    obtain ⟨y, k, rfl, rfl, hw, hn⟩ := j.run_wait_cond hm
    rw [hd', hn] at hk
    obtain ⟨rfl, rfl⟩ := PoolInstr.waitCheck.inj (Option.some.inj hk)
    simp [PoolInstr.onCond, hw]
  -- another thread that changed the condition would need its lock, which this one has
  · rw [h.others t' ht] at hc
    rw [h.doing_of_ne ht] at hk
    have hw := b.brink hc hk
    rcases j.onCond_eq_or c (w.cond c) with he | hl
    · rw [he]
      exact hw
    · have hp := a.pacing.paced t'
      rw [hc] at hp
      obtain ⟨rfl, _⟩ := hp.1
      exact absurd (a.keeping.eq_of_closes hc h.before rfl List.mem_cons_self hl) ht

namespace PoolInstr

/-- The instruction is a signal or a broadcast on `c` that finds somebody to wake. -/
def calls (c : CondRef) (x : PoolCondition) : PoolInstr → Bool
  | .signal b => b == c && x.canSignal
  | .broadcast b => b == c && x.canBroadcast
  | _ => false

/-- The instruction lets a waiter of `c` use a wake-up. -/
def serves (c : CondRef) (x : PoolCondition) : PoolInstr → Bool
  | .waitCheck y k => y.cond == c && x.mayWake k
  | _ => false

/-- A call makes every ticket that is out a good one. -/
theorem onCond_of_calls {i : PoolInstr} (h : i.calls c x = true) :
    (i.onCond c x).generation = x.generation + 1 ∧ (i.onCond c x).wakeups ≤ x.waiters := by
  cases i with
  | signal b =>
    obtain ⟨hb, hs⟩ : b = c ∧ x.canSignal = true := by simpa [calls] using h
    have hl : x.wakeups < x.waiters := by simpa [PoolCondition.canSignal] using hs
    simp only [onCond, hb, if_true, PoolCondition.signal, hs]
    exact ⟨trivial, hl⟩
  | broadcast b =>
    obtain ⟨hb, hs⟩ : b = c ∧ x.canBroadcast = true := by simpa [calls] using h
    simp only [onCond, hb, if_true, PoolCondition.broadcast, hs]
    exact ⟨trivial, Nat.le_refl _⟩
  | _ => cases h

theorem notifyAll_of_calls {i : PoolInstr} (h : i.calls c (w.cond c) = true) :
    .sync (.notifyAll (.cond c)) ∈ (i.run t w).2 := by
  cases i with
  | signal b =>
    obtain ⟨rfl, hs⟩ : b = c ∧ (w.cond c).canSignal = true := by simpa [calls] using h
    simp [PoolInstr.run, hs]
  | broadcast b =>
    obtain ⟨rfl, hs⟩ : b = c ∧ (w.cond c).canBroadcast = true := by simpa [calls] using h
    simp [PoolInstr.run, hs]
  | _ => cases h

theorem onCond_of_not_calls {i : PoolInstr} (h : i.calls c x = false) :
    (i.onCond c x).generation = x.generation ∧
      (i.onCond c x).wakeups ≤ x.wakeups - if i.serves c x then 1 else 0 := by
  cases i with
  | signal b =>
    simp only [onCond, serves]
    split
    next hb =>
      have hs : x.canSignal = false := by simpa [calls, hb] using h
      simp [PoolCondition.signal, hs]
    · simp
  | broadcast b =>
    simp only [onCond, serves]
    split
    next hb =>
      have hs : x.canBroadcast = false := by simpa [calls, hb] using h
      simp [PoolCondition.broadcast, hs]
    · simp
  | waitRegister y =>
    simp only [onCond, serves]
    split <;> simp [PoolCondition.register]
  | waitRetire y =>
    simp only [onCond, serves]
    split <;> simp [PoolCondition.retire]
  | waitCheck y k =>
    simp only [onCond, serves, Bool.and_eq_true, beq_iff_eq]
    split <;> simp [PoolCondition.consume]
  | _ => simp [onCond, serves]

/-- A waiter that may use a wake-up stays one, unless it looks and does not go to sleep. -/
theorem mayUse_next {i : PoolInstr} {g : Nat} (hu : i.mayUse c g = true)
    (ho : ∀ m, i.owned? = some m → (w.mutex m).owner = some t) :
    (∃ k, firstPool (i.run t w).2 = some k ∧ k.mayUse c g = true) ∨
      ∃ x k, i = .waitCheck x k ∧ x.cond = c ∧ k ≠ g := by
  cases i with
  -- the waiter owns its mutex, so it comes to its first look
  | waitGiveUp x ticket =>
    have hx : (w.mutex x.mutex).owner = some t := ho x.mutex rfl
    have hg : (w.mutex x.mutex).giveUp t = .ok { owner := none } := by
      simp [PoolLock.giveUp, PoolLock.isOwnedBy, hx]
    left
    exact ⟨.waitCheck x ticket, by simp [PoolInstr.run, hg], hu⟩
  | waitCheck x ticket =>
    obtain ⟨hx, hk⟩ : x.cond = c ∧ ticket ≠ g := by simpa [mayUse] using hu
    exact Or.inr ⟨x, ticket, rfl, hx, hk⟩
  | _ => cases hu

end PoolInstr

/-- Right after a call, whoever waits may use a wake-up and is about to be woken. -/
theorem Booked.waitersOf_subset_of_calls (b : Booked w) (a : Paces w)
    (h : PoolRun w t (.pool j) rest w') (hj : j.calls c (w.cond c) = true) :
    w.waitersOf c ⊆ w'.candidates c := by
  obtain ⟨hd, _⟩ := h.doing_pool a.pacing
  obtain ⟨hg, _⟩ := PoolInstr.onCond_of_calls hj
  have hcalled : w'.isCalled c = true := by
    refine isCalled_iff.mpr ⟨t, ?_⟩
    rw [h.after]
    refine List.mem_append_left _ (List.mem_filter.mpr ⟨?_, rfl⟩)
    exact PoolInstr.notifyAll_of_calls hj
  intro t' ht'
  obtain ⟨k, hk, hr⟩ := mem_waitersOf.mp ht'
  have ht : t' ≠ t := by
    rintro rfl
    rw [hd] at hk
    obtain rfl := Option.some.inj hk
    cases j <;> simp_all [PoolInstr.calls, PoolInstr.isRegistered]
  refine mem_candidates.mpr ⟨⟨k, by rw [h.doing_of_ne ht, hk], ?_⟩, Or.inr hcalled⟩
  rw [h.cond a.referring, hg]
  have fresh {x : CondWait} {ticket : Nat} (hx : x.cond = c)
      (he : k = .waitGiveUp x ticket ∨ k = .waitCheck x ticket) :
      ticket ≠ (w.cond c).generation + 1 := by
    have hle := b.dated hk he
    rw [hx] at hle
    exact Nat.ne_of_lt (Nat.lt_succ_of_le hle)
  cases k with
  | waitGiveUp x ticket =>
    have hx : x.cond = c := by simpa [PoolInstr.isRegistered] using hr
    simpa [PoolInstr.mayUse, hx] using fresh hx (Or.inl rfl)
  | waitCheck x ticket =>
    have hx : x.cond = c := by simpa [PoolInstr.isRegistered] using hr
    simpa [PoolInstr.mayUse, hx] using fresh hx (Or.inr rfl)
  | waitRetire x =>
    -- a waiter that retires holds the lock of the condition, and so does the caller
    have hx : x.cond = c := by simpa [PoolInstr.isRegistered] using hr
    have hm := mem_poolCode_of_doing hk
    cases hp : w.poolCode t' with
    | nil =>
      rw [hp] at hm
      cases hm
    | cons i post =>
      have hf := a.foremost t'
      rw [hp] at hm hf
      rcases List.mem_cons.mp hm with rfl | hm
      · have hl : Hold.lock (.condState c) ∈ (Instr.pool (.waitRetire x)).closes := by
          simp [Instr.closes, PoolInstr.closes, hx]
        have hl' : Hold.lock (.condState c) ∈ (Instr.pool j).closes := by
          cases j <;> simp_all [PoolInstr.calls, Instr.closes, PoolInstr.closes]
        exact absurd (a.keeping.eq_of_closes hp h.before rfl hl hl') ht
      · cases hf _ hm
  | _ => cases hr

/-- Whoever calls on all who sleep at a condition does so until it has done it. -/
theorem isCalled_run (h : PoolRun w t i rest w') (hi : i ≠ .sync (.notifyAll (.cond c)))
    (hc : w.isCalled c = true) : w'.isCalled c = true := by
  refine isCalled_of_poolCode (fun t₁ h₁ => ?_) hc
  by_cases he : t₁ = t
  · subst he
    rw [h.before] at h₁
    rw [h.after]
    exact List.mem_append_right _ ((List.mem_cons.mp h₁).resolve_left hi.symm)
  · rw [h.others t₁ he]
    exact h₁

/-- A step on an object leaves the other threads among those that may use a wake-up. -/
theorem candidates_run (h : PoolRun w t (.pool j) rest w')
    (hg : (w'.cond c).generation = (w.cond c).generation) :
    (w.candidates c).erase t ⊆ w'.candidates c := by
  intro t' ht'
  obtain ⟨ht, hc⟩ := Finset.mem_erase.mp ht'
  obtain ⟨⟨k, hk, hu⟩, ha⟩ := mem_candidates.mp hc
  refine mem_candidates.mpr ⟨⟨k, by rw [h.doing_of_ne ht, hk], by rw [hg]; exact hu⟩,
    ha.imp (fun hn hm => ?_) (isCalled_run h fun he => by cases he)⟩
  rcases h.mem_asleep hm with hm | ⟨he, _⟩
  · exact hn hm
  · exact ht he

theorem Booked.covered_run (b : Booked w) (a : Paces w) (h : PoolRun w t (.pool j) rest w')
    (c : CondRef) : (w'.cond c).wakeups ≤ (w'.candidates c).card := by
  obtain ⟨hd, hd'⟩ := h.doing_pool a.pacing
  have hcond := h.cond a.referring c
  -- a call wakes no more than wait; any other instruction takes away at most its own thread
  cases hj : j.calls c (w.cond c) with
  | true =>
    obtain ⟨_, hle⟩ := PoolInstr.onCond_of_calls hj
    rw [hcond]
    rw [b.counted c] at hle
    exact hle.trans (Finset.card_le_card (b.waitersOf_subset_of_calls a h hj))
  | false =>
    obtain ⟨hg, hle⟩ := PoolInstr.onCond_of_not_calls hj
    rw [← hcond] at hg hle
    have hsub := candidates_run h hg
    have hcov := b.covered c
    by_cases ht : t ∈ w.candidates c
    · obtain ⟨⟨k, hk, hu⟩, _⟩ := mem_candidates.mp ht
      rw [hd] at hk
      obtain rfl := Option.some.inj hk
      rcases PoolInstr.mayUse_next (w := w) (t := t) hu fun m hm => a.owning t j m hd hm with
        ⟨k, hk, hu'⟩ | ⟨x, k, rfl, hx, hne⟩
      · -- the thread goes on waiting
        have ht' : t ∈ w'.candidates c := by
          refine mem_candidates.mpr ⟨⟨k, by rw [hd', hk], by rw [hg]; exact hu'⟩, Or.inl ?_⟩
          intro hm
          rcases h.mem_asleep hm with hm | ⟨_, _, _, he⟩
          · exact a.bedded.awake h.before rfl (fun d he => by cases he) hm
          · cases he
        have hsub' : w.candidates c ⊆ w'.candidates c := by
          rw [← Finset.insert_erase ht]
          exact Finset.insert_subset ht' hsub
        have hcard := Finset.card_le_card hsub'
        omega
      · -- it looks: it uses a wake-up, or there is none
        have hcard := Finset.card_le_card hsub
        rw [Finset.card_erase_of_mem ht] at hcard
        cases hs : (PoolInstr.waitCheck x k).serves c (w.cond c) with
        | true =>
          rw [hs, if_pos rfl] at hle
          omega
        | false =>
          have h0 : (w.cond c).wakeups = 0 := by
            have hs' : (w.cond c).mayWake k = false := by simpa [PoolInstr.serves, hx] using hs
            simpa [PoolCondition.mayWake, Ne.symm hne] using hs'
          omega
    · rw [Finset.erase_eq_of_notMem ht] at hsub
      have hcard := Finset.card_le_card hsub
      omega

theorem Booked.covered_sync {i : SyncInstr} (b : Booked w) (a : Paces w)
    (h : PoolRun w t (.sync i) rest w') (hp : w'.pools = w.pools) (c : CondRef) :
    (w'.cond c).wakeups ≤ (w'.candidates c).card := by
  have hcond : w'.cond c = w.cond c := cond_congr hp
  -- only a sleep at the condition itself takes anybody out of the candidates
  have keep {t' : ThreadId} (ht' : t' ∈ w.candidates c)
      (hn : t' = t → ∀ l d, i ≠ .wait (.cond c) l d) : t' ∈ w'.candidates c := by
    obtain ⟨⟨k, hk, hu⟩, ha⟩ := mem_candidates.mp ht'
    have hu' : k.mayUse c (w'.cond c).generation = true := by rw [hcond]; exact hu
    refine mem_candidates.mpr ⟨⟨k, (h.doing_sync t').trans hk, hu'⟩, ?_⟩
    by_cases hi : i = .notifyAll (.cond c)
    · left
      subst hi
      rw [h.asleep]
      simp [Instr.run, SyncInstr.run, wakeAll]
    · refine ha.imp (fun hna hm => ?_) (isCalled_run h fun he => hi (Instr.sync.inj he))
      rcases h.mem_asleep hm with hm | ⟨ht, l, d, he⟩
      · exact hna hm
      · exact hn ht l d (Instr.sync.inj he)
  rw [hcond]
  have hcov := b.covered c
  by_cases hw : ∃ l d, i = .wait (.cond c) l d
  · obtain ⟨l, d, rfl⟩ := hw
    have hpaced := a.pacing.paced t
    rw [h.before] at hpaced
    obtain ⟨_, x, k, hx, rfl⟩ := hpaced.1
    have hd : w.doing t = some (.waitCheck x k) := by
      rw [doing, h.before]
      rfl
    have hm := b.brink h.before hd
    by_cases h0 : (w.cond c).wakeups = 0
    · rw [h0]
      exact Nat.zero_le _
    · have hk : (w.cond c).generation = k := by
        simpa [PoolCondition.mayWake, Nat.pos_of_ne_zero h0] using hm
      have hsub : w.candidates c ⊆ w'.candidates c := by
        intro t' ht'
        refine keep ht' fun he => ?_
        subst he
        obtain ⟨⟨k', hk', hu⟩, _⟩ := mem_candidates.mp ht'
        rw [hd] at hk'
        obtain rfl := Option.some.inj hk'
        simp [PoolInstr.mayUse, hk] at hu
      exact hcov.trans (Finset.card_le_card hsub)
  · have hsub : w.candidates c ⊆ w'.candidates c := fun t' ht' =>
      keep ht' fun _ l d he => hw ⟨l, d, he⟩
    exact hcov.trans (Finset.card_le_card hsub)

theorem Booked.run (b : Booked w) (a : Paces w) (h : PoolRun w t i rest w') : Booked w' := by
  rcases h.cases with ⟨i, rfl, hp⟩ | ⟨j, rfl, _⟩
  · have hc (c : CondRef) : w'.cond c = w.cond c := cond_congr hp
    constructor
    case counted =>
      intro c
      rw [hc, b.counted c]
      congr 1
      ext t'
      rw [mem_waitersOf, mem_waitersOf, h.doing_sync]
    case dated =>
      intro t' j x k hj hk
      rw [hc]
      rw [h.doing_sync] at hj
      exact b.dated hj hk
    case brink =>
      intro t' c l d post x k hpc hj
      rw [hc]
      rw [h.doing_sync] at hj
      -- a synchronisation puts nothing to sleep at a condition that was not about to sleep there
      by_cases ht : t' = t
      · subst ht
        have hm : Instr.sync (.wait (.cond c) l d) ∈ w'.poolCode t' := hpc ▸ List.mem_cons_self
        rw [h.after] at hm
        rcases List.mem_append.mp hm with hm | hm
        · cases i.run_later _ (List.mem_filter.mp hm).1
        · have hf := a.foremost t'
          rw [h.before] at hf
          cases hf _ hm
      · rw [h.others t' ht] at hpc
        exact b.brink hpc hj
    case covered => exact b.covered_sync a h hp
  · exact ⟨b.counted_run a h, fun hj hk => b.dated_run a h hj hk,
      fun hp hj => b.brink_run a h hp hj, b.covered_run a h⟩

theorem Reachable.booked (h : Reachable n w) : Booked w := by
  refine h.induct (booked_initial n) fun w e hr b => ?_
  rcases hr.pacing.step_pools e with ⟨t, i, rest, _, hs⟩ | hs
  · exact b.run hr.paces hs
  · exact b.idle hs

end Standstill
