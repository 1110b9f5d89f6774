import Standstill.Proofs.PoolCode
import Standstill.Proofs.SlotTable

/-!
One event as the pools see it: a thread runs the first of what it has to do on them, or nothing
happens there but that a thread begins a call or a sleeper wakes.
-/
namespace Standstill

open World

namespace World

/-- The mutex in slot `i` of service `s`. -/
def mutexAt (w : World) (s : ServiceId) (i : Nat) : Option MutexRef :=
  ((w.mutexSlots s).cell? i).map (·.value)

/-- The condition in slot `i` of service `s`. -/
def condAt (w : World) (s : ServiceId) (i : Nat) : Option CondRef :=
  ((w.condSlots s).cell? i).map (·.value)

/-- The objects of the pools and the slots that they are in. -/
def pools (w : World) : List PoolLock × List PoolCondition ×
    (ServiceId → Nat → Option MutexRef) × (ServiceId → Nat → Option CondRef) :=
  (w.mutexes, w.conds, w.mutexAt, w.condAt)

variable {w w' : World} {t : ThreadId} {r : RecordId} {s : ServiceId} {m : MutexRef} {c : CondRef}

theorem mutex_congr (h : w'.pools = w.pools) : w'.mutex m = w.mutex m := by
  have hm : w'.mutexes = w.mutexes := congrArg Prod.fst h
  rw [mutex, hm, mutex]

theorem cond_congr (h : w'.pools = w.pools) : w'.cond c = w.cond c := by
  have hc : w'.conds = w.conds := congrArg (·.2.1) h
  rw [cond, hc, cond]

theorem mutexAt_congr (h : w'.pools = w.pools) : w'.mutexAt = w.mutexAt := congrArg (·.2.2.1) h

theorem condAt_congr (h : w'.pools = w.pools) : w'.condAt = w.condAt := congrArg (·.2.2.2) h

/-! Nothing but an instruction on the pools changes them. -/

@[simp] theorem pools_modThread (f : Thread → Thread) : (w.modThread t f).pools = w.pools := rfl

@[simp] theorem pools_modRecord (f : ThreadRecord → ThreadRecord) :
    (w.modRecord r f).pools = w.pools := rfl

@[simp] theorem pools_addRecord (c : ThreadRecord) : (w.addRecord c).pools = w.pools := rfl

@[simp] theorem pools_addThread (x : Thread) : (w.addThread x).pools = w.pools := rfl

@[simp] theorem pools_queues (h : List (Lock × ThreadId)) (a : List (WaitList × ThreadId)) :
    { w with held := h, asleep := a }.pools = w.pools := rfl

theorem pools_modService (f : Service → Service) (hm : ∀ v, (f v).mutexes = v.mutexes)
    (hc : ∀ v, (f v).conds = v.conds) : (w.modService s f).pools = w.pools := by
  have hms : (w.modService s f).mutexSlots = w.mutexSlots := by
    funext s'
    simp only [mutexSlots, modService, List.getElem?_modify]
    by_cases hs : s = s' <;> cases w.services[s']? <;> simp [hs, hm]
  have hcs : (w.modService s f).condSlots = w.condSlots := by
    funext s'
    simp only [condSlots, modService, List.getElem?_modify]
    by_cases hs : s = s' <;> cases w.services[s']? <;> simp [hs, hc]
  have hma : (w.modService s f).mutexAt = w.mutexAt := by
    funext s' i
    rw [mutexAt, hms, mutexAt]
  have hca : (w.modService s f).condAt = w.condAt := by
    funext s' i
    rw [condAt, hcs, condAt]
  rw [pools, hma, hca]
  rfl

@[simp] theorem pools_modRoster (f : Roster → Roster) : (w.modRoster s f).pools = w.pools :=
  pools_modService _ (fun _ => rfl) fun _ => rfl

@[simp] theorem pools_modCensus (f : Census → Census) : (w.modCensus s f).pools = w.pools :=
  pools_modRoster _

@[simp] theorem pools_count (x : Tally) : (w.count s x).pools = w.pools :=
  pools_modService _ (fun _ => rfl) fun _ => rfl

/-- A new service has no slot taken. -/
theorem pools_addService (v : Service) (hm : ∀ i, v.mutexes.cell? i = none)
    (hc : ∀ i, v.conds.cell? i = none) : (w.addService v).pools = w.pools := by
  have hma : (w.addService v).mutexAt = w.mutexAt := by
    funext s i
    simp only [mutexAt, mutexSlots, addService]
    rcases Nat.lt_trichotomy s w.services.length with h | rfl | h
    · rw [List.getElem?_append_left h]
    · simp [Slots.cell_empty, hm]
    · have hn : w.services.length + 1 ≤ s := h
      rw [List.getElem?_eq_none (by simpa using hn), List.getElem?_eq_none (Nat.le_of_lt h)]
  have hca : (w.addService v).condAt = w.condAt := by
    funext s i
    simp only [condAt, condSlots, addService]
    rcases Nat.lt_trichotomy s w.services.length with h | rfl | h
    · rw [List.getElem?_append_left h]
    · simp [Slots.cell_empty, hc]
    · have hn : w.services.length + 1 ≤ s := h
      rw [List.getElem?_eq_none (by simpa using hn), List.getElem?_eq_none (Nat.le_of_lt h)]
  rw [pools, hma, hca]
  rfl

end World

variable {n : Nat} {w w' : World} {t t' : ThreadId} {s : ServiceId} {i j : Instr}
  {code rest : List Instr} {e : Event} {q : WaitList} {m : MutexRef} {c : CondRef}

section Frame

attribute [local simp] World.setLevel World.setPhase World.setRequest World.openScope
  World.closeScope World.setMask World.setMaskFor World.fail World.answer World.say
  World.setBinding World.sendSignal World.signalOwner World.modStats World.addRow

theorem SyncInstr.pools_run (i : SyncInstr) : (i.run t w).1.pools = w.pools := by
  obtain ⟨_, _, he⟩ := i.run_fst (w := w) (t := t)
  rw [he]
  rfl

theorem GuardInstr.pools_run (i : GuardInstr) : (i.run t w).1.pools = w.pools := by
  cases i <;> simp only [GuardInstr.run] <;> repeat' split
  all_goals simp
  all_goals split <;> simp

theorem ParkInstr.pools_run (i : ParkInstr) : (i.run t w).1.pools = w.pools :=
  i.keeps pools (by simp) (by simp) (by simp) (by simp) (by simp)

theorem StopInstr.pools_run (i : StopInstr) : (i.run t w).1.pools = w.pools := by
  cases i with
  | scanRequest s d rs settled => cases rs <;> rfl
  | _ =>
    simp only [StopInstr.run] <;> repeat' split
    all_goals simp
    all_goals repeat' split
    all_goals simp

theorem MemberInstr.pools_run (i : MemberInstr) : (i.run t w).1.pools = w.pools := by
  cases i with
  | establish settings =>
    simp only [MemberInstr.run, World.answer, World.say, pools_modThread, pools_addRecord]
    exact pools_addService _ (fun _ => Slots.cell_empty) fun _ => Slots.cell_empty
  | _ =>
    simp only [MemberInstr.run] <;> repeat' split
    all_goals simp

theorem ReadInstr.pools_run (i : ReadInstr) : (i.run t w).1.pools = w.pools := by
  cases i <;> simp only [ReadInstr.run, ReadInstr.tell, ReadInstr.consult] <;> repeat' split
  all_goals simp

end Frame

theorem pools_run (i : Instr) (hi : ∀ j, i ≠ .pool j) : (i.run t w).1.pools = w.pools := by
  cases i with
  | user => rfl
  | sync i => exact i.pools_run
  | guard i => exact i.pools_run
  | park i => exact i.pools_run
  | stop i => exact i.pools_run
  | pool i => exact absurd rfl (hi i)
  | member i => exact i.pools_run
  | read i => exact i.pools_run

/-! An instruction on the pools does the same whatever the code is that lies below it. -/

theorem PoolInstr.run_setCode (i : PoolInstr) (code : List Instr) :
    (i.run t (w.setCode t code)).2 = (i.run t w).2 ∧
      (i.run t (w.setCode t code)).1.pools = (i.run t w).1.pools := by
  have hm : (w.setCode t code).mutex = w.mutex := rfl
  have hc : (w.setCode t code).cond = w.cond := rfl
  have hms : (w.setCode t code).mutexSlots = w.mutexSlots := rfl
  have hcs : (w.setCode t code).condSlots = w.condSlots := rfl
  have ht : (w.setCode t code).clock = w.clock := rfl
  have hd : (w.setCode t code).isDue = w.isDue := rfl
  have hml : (w.setCode t code).mutexes = w.mutexes := rfl
  have hcl : (w.setCode t code).conds = w.conds := rfl
  cases i <;> simp only [PoolInstr.run, hm, hc, hms, hcs, ht, hd, hml, hcl] <;> repeat' split
  all_goals constructor <;> trivial

/-- Thread `t` runs `i`, the first that it has to do on the pools, before `rest`. -/
structure PoolRun (w : World) (t : ThreadId) (i : Instr) (rest : List Instr) (w' : World) :
    Prop where
  head : ∃ below, w.codeOf t = i :: below
  before : w.poolCode t = i :: rest
  ready : i.isReady w t = true
  after : w'.poolCode t = (i.run t w).2.filter Instr.isPooled ++ rest
  others : ∀ t', t' ≠ t → w'.poolCode t' = w.poolCode t'
  pools : w'.pools = (i.run t w).1.pools
  asleep : w'.asleep = (i.run t w).1.asleep

/-- Nothing is run on the pools. -/
structure PoolIdle (w : World) (e : Event) (w' : World) : Prop where
  code : ∀ t, w'.poolCode t = w.poolCode t ∨ ∃ c, e = .invoke t c ∧ w.inUser t = true ∧
    w.poolCode t = [] ∧ w'.poolCode t = (c.code w t).filter Instr.isPooled
  pools : w'.pools = w.pools
  asleep : ∀ q t, q.isPooled = true → w'.asleep.count (q, t) ≤ w.asleep.count (q, t)

theorem SyncInstr.run_setCode (i : SyncInstr) (code : List Instr) :
    (i.run t (w.setCode t code)).2 = (i.run t w).2 ∧
      (i.run t (w.setCode t code)).1.asleep = (i.run t w).1.asleep := by
  cases i with
  | notifyOne q =>
    refine ⟨rfl, ?_⟩
    have ha : (w.setCode t code).asleep = w.asleep := rfl
    simp only [SyncInstr.run, wakeFirst, ha]
    split <;> rfl
  | _ => exact ⟨rfl, rfl⟩

theorem poolRun_proceed {below : List Instr} (hc : w.codeOf t = i :: below)
    (hi : i.isPooled = true) (hr : i.isReady w t = true) :
    PoolRun w t i (below.filter Instr.isPooled) (w.proceed t i below) where
  head := ⟨below, hc⟩
  before := poolCode_eq hc hi
  ready := hr
  after := by
    rw [poolCode_proceed hc, remainder]
    cases i with
    | sync i => rw [Instr.run, (i.run_setCode below).1, Instr.run]
    | pool i => rw [Instr.run, (i.run_setCode below).1, Instr.run]
    | _ => cases hi
  others t' ht := poolCode_proceed_of_ne hc ht
  pools := by
    cases i with
    | sync i =>
      have h₁ : (w.setCode t below).pools = w.pools := rfl
      exact (i.pools_run.trans h₁).trans (SyncInstr.pools_run i).symm
    | pool i => exact (i.run_setCode below).2
    | _ => cases hi
  asleep := by
    cases i with
    | sync i => exact (i.run_setCode below).2
    | pool i =>
      have h₁ : (w.setCode t below).asleep = w.asleep := rfl
      exact ((asleep_congr i.core_run).trans h₁).trans (asleep_congr (PoolInstr.core_run i)).symm
    | _ => cases hi

theorem pools_step_of_ne_advance (h : ∀ t, e ≠ .advance t) : (w.step e).pools = w.pools := by
  cases e with
  | advance t => exact absurd rfl (h t)
  | interrupt t =>
    simp only [World.step, World.interrupt]
    split <;> rfl
  | invoke t c =>
    simp only [World.step, World.invoke]
    split
    · split <;> rfl
    · rfl
  | finish t panicked =>
    simp only [World.step, World.finish]
    split <;> rfl
  | stir q t => rfl
  | tick | system => rfl

theorem Pacing.step_pools (p : Pacing w) (e : Event) :
    (∃ t i rest, e = .advance t ∧ PoolRun w t i rest (w.step e)) ∨
      PoolIdle w e (w.step e) := by
  -- only a step of a thread runs anything on the pools
  by_cases ha : ∃ t, e = .advance t
  · obtain ⟨t, rfl⟩ := ha
    rcases w.advance_cases t with h | ⟨i, below, hc, hr, h⟩
    · right
      have hs : w.step (.advance t) = w := h
      rw [hs]
      exact ⟨fun _ => Or.inl rfl, rfl, fun _ _ _ => Nat.le_refl _⟩
    have hs : w.step (.advance t) = w.proceed t i below := h
    rw [hs]
    cases hi : i.isPooled with
    | true => exact Or.inl ⟨t, i, _, rfl, poolRun_proceed hc hi hr⟩
    | false =>
      right
      have hu : i ≠ .user := by
        rintro rfl
        cases hr
      refine ⟨fun t' => Or.inl ?_, ?_, fun q t' hq => ?_⟩
      · by_cases ht : t' = t
        · subst ht
          exact poolCode_proceed_of_foreign hc (Instr.isForeign_iff.mpr ⟨hu, hi⟩)
        · exact poolCode_proceed_of_ne hc ht
      · refine pools_run (w := w.setCode t below) i ?_
        rintro j rfl
        cases hi
      · refine count_asleep_run (w := w.setCode t below) i fun l d he => ?_
        rw [he, Instr.isPooled, hq] at hi
        cases hi
  · have hne : ∀ t, e ≠ .advance t := fun t h => ha ⟨t, h⟩
    rcases w.step_cases e with ⟨t, _, _, he, _⟩ | u
    · exact absurd he (hne t)
    refine Or.inr ⟨fun t => ?_, pools_step_of_ne_advance hne, fun q t _ => u.asleep.count_le _⟩
    rcases p.poolCode_step e t with h | ⟨_, _, he, _⟩ | ⟨c, he, hu, hp, h⟩
    · exact Or.inl h
    · exact absurd he (hne t)
    · exact Or.inr ⟨c, he, hu, hp, h⟩

/-! Who sleeps in a queue of the pools does nothing else on them, and sleeps there once. -/

structure Bedded (w : World) : Prop where
  rests : ∀ {q t}, q.isPooled = true → (q, t) ∈ w.asleep →
    ∃ d post, w.poolCode t = .sync (.resting q d) :: post
  once : ∀ q t, q.isPooled = true → w.asleep.count (q, t) ≤ 1

theorem PoolIdle.mem_asleep {q : WaitList} (h : PoolIdle w e w') (hq : q.isPooled = true)
    (hm : (q, t) ∈ w'.asleep) : (q, t) ∈ w.asleep :=
  List.count_pos_iff.mp (Nat.lt_of_lt_of_le (List.count_pos_iff.mpr hm) (h.asleep q t hq))

/-- Code that a thread has on the pools stays if nothing is run there. -/
theorem PoolIdle.poolCode_eq (h : PoolIdle w e w') (ht : w.poolCode t ≠ []) :
    w'.poolCode t = w.poolCode t := by
  rcases h.code t with hc | ⟨_, _, _, hn, _⟩
  · exact hc
  · exact absurd hn ht

theorem PoolRun.mem_asleep (h : PoolRun w t i rest w') (hm : (q, t') ∈ w'.asleep) :
    (q, t') ∈ w.asleep ∨ t' = t ∧ ∃ l d, i = .sync (.wait q l d) :=
  mem_asleep_run i (h.asleep ▸ hm)

theorem PoolRun.count_asleep (h : PoolRun w t i rest w')
    (hi : ∀ l d, i ≠ .sync (.wait q l d)) : w'.asleep.count (q, t') ≤ w.asleep.count (q, t') :=
  h.asleep ▸ count_asleep_run i hi

theorem bedded_initial (n : Nat) : Bedded (World.initial n) :=
  ⟨fun _ hm => absurd hm List.not_mem_nil, fun _ _ _ => Nat.zero_le _⟩

theorem Bedded.idle (b : Bedded w) (h : PoolIdle w e w') : Bedded w' where
  rests {q t} hq hm := by
    obtain ⟨d, post, hp⟩ := b.rests hq (h.mem_asleep hq hm)
    exact ⟨d, post, (h.poolCode_eq (by simp [hp])).trans hp⟩
  once q t hq := Nat.le_trans (h.asleep q t hq) (b.once q t hq)

/-- A thread that runs anything but the end of its sleep on the pools is not asleep there. -/
theorem Bedded.awake (b : Bedded w) (h : w.poolCode t = i :: rest) (hq : q.isPooled = true)
    (hi : ∀ d, i ≠ .sync (.resting q d)) : (q, t) ∉ w.asleep := by
  intro hm
  obtain ⟨d, post, hp⟩ := b.rests hq hm
  rw [h] at hp
  exact hi d (List.cons.inj hp).1

theorem Bedded.run (b : Bedded w) (h : PoolRun w t i rest w') : Bedded w' where
  rests {q t'} hq hm := by
    by_cases ht : t' = t
    · subst ht
      rcases h.mem_asleep hm with hm₀ | ⟨_, l, d, rfl⟩
      · -- it was asleep before, so what it has run is the end of that sleep
        obtain ⟨d, post, hp⟩ := b.rests hq hm₀
        rw [h.before] at hp
        obtain ⟨rfl, rfl⟩ := List.cons.inj hp
        rw [h.asleep] at hm
        have hc : 0 < (w.asleep.erase (q, t')).count (q, t') := List.count_pos_iff.mpr hm
        rw [List.count_erase_self] at hc
        have h1 := b.once q t' hq
        omega
      · have hr : (Instr.sync (.resting q d)).isPooled = true := hq
        refine ⟨d, [Instr.sync (.acquire l)].filter Instr.isPooled ++ rest, ?_⟩
        rw [h.after, Instr.run, SyncInstr.run, List.filter_cons_of_pos hr]
        rfl
    · rcases h.mem_asleep hm with hm | ⟨he, _⟩
      · obtain ⟨d, post, hp⟩ := b.rests hq hm
        exact ⟨d, post, (h.others t' ht).trans hp⟩
      · exact absurd he ht
  once q t' hq := by
    by_cases hi : ∃ l d, i = .sync (.wait q l d)
    · obtain ⟨l, d, rfl⟩ := hi
      rw [h.asleep]
      simp only [Instr.run, SyncInstr.run, List.count_append]
      by_cases ht : t' = t
      · subst ht
        have hn := b.awake h.before hq fun d he => by cases he
        rw [List.count_eq_zero.mpr hn]
        simp
      · have hne : (q, t) ≠ (q, t') := fun he => ht (congrArg Prod.snd he).symm
        have h0 : [(q, t)].count (q, t') = 0 := List.count_eq_zero.mpr (by simpa using Ne.symm hne)
        rw [h0]
        exact b.once q t' hq
    · exact Nat.le_trans (h.count_asleep fun l d he => hi ⟨l, d, he⟩) (b.once q t' hq)

theorem Reachable.bedded (h : Reachable n w) : Bedded w := by
  refine h.induct (bedded_initial n) fun w e hr b => ?_
  rcases hr.pacing.step_pools e with ⟨t, i, rest, _, hs⟩ | hs
  · exact b.run hs
  · exact b.idle hs

/-- Pool code after a step: the thread's that runs, as it was or new, or another's. -/
theorem PoolRun.mem_poolCode (h : PoolRun w t i rest w') (hj : j ∈ w'.poolCode t') :
    j ∈ w.poolCode t' ∨ t' = t ∧ j ∈ (i.run t w).2 := by
  by_cases ht : t' = t
  · subst ht
    rw [h.after] at hj
    rcases List.mem_append.mp hj with hj | hj
    · exact Or.inr ⟨rfl, (List.mem_filter.mp hj).1⟩
    · left
      rw [h.before]
      exact List.mem_cons_of_mem _ hj
  · rw [h.others t' ht] at hj
    exact Or.inl hj

theorem PoolRun.isPooled (h : PoolRun w t i rest w') : i.isPooled = true := by
  have hm : i ∈ w.poolCode t := h.before ▸ List.mem_cons_self
  exact (List.mem_filter.mp hm).2

/-- What runs on the pools is about locks and queues, or it is one of the pools' own. -/
theorem PoolRun.cases (h : PoolRun w t i rest w') :
    (∃ j, i = .sync j ∧ w'.pools = w.pools) ∨ ∃ j, i = .pool j ∧ w'.asleep = w.asleep := by
  have hi := h.isPooled
  cases i with
  | sync j => exact Or.inl ⟨j, rfl, h.pools.trans j.pools_run⟩
  | pool j => exact Or.inr ⟨j, rfl, h.asleep.trans (asleep_congr j.core_run)⟩
  | _ => cases hi

/-! A thread goes to sleep, or stops waiting, right after it has found that it has to. -/

def Instr.isForemost : Instr → Bool
  | .sync (.wait ..) | .pool (.waitRetire _) => true
  | _ => false

section Waits

attribute [local simp] Instr.isForemost takeCode locked guarded sleeping

theorem SyncInstr.run_later (i : SyncInstr) : ∀ j ∈ (i.run t w).2, j.isForemost = false := by
  cases i <;> simp [SyncInstr.run]

theorem PoolInstr.run_foremost (i : PoolInstr) :
    ∀ j ∈ (i.run t w).2.tail, j.isForemost = false := by
  have h : (i.run t w).2.tail.all (!·.isForemost) = true := by
    cases i with
    | mutexFind s k use | condFind s k use =>
      simp only [PoolInstr.run]
      split <;> cases use <;> rfl
    | _ =>
      simp only [PoolInstr.run]
      repeat' split
      all_goals rfl
  simpa using h

theorem Call.code_later (c : Call) : ∀ j ∈ c.code w t, j.isForemost = false := by
  intro j hj
  have ho := c.opening_of_code hj
  cases j with
  | sync k | pool k => cases k <;> first | rfl | cases ho
  | _ => rfl

end Waits

theorem mem_tail_filter {α : Type} {p : α → Bool} {l : List α} {x : α}
    (h : x ∈ (l.filter p).tail) : x ∈ l.tail := by
  cases l with
  | nil => cases h
  | cons y l =>
    rw [List.filter_cons] at h
    split at h
    · exact (List.mem_filter.mp h).1
    · exact (List.mem_filter.mp (List.mem_of_mem_tail h)).1

theorem mem_tail_append {α : Type} {l l' : List α} {x : α} (h : x ∈ (l ++ l').tail) :
    x ∈ l.tail ∨ x ∈ l' := by
  cases l with
  | nil => exact Or.inr (List.mem_of_mem_tail h)
  | cons y l => exact List.mem_append.mp h

/-- A sleep, and the end of a wait, come first in the pool code of their thread. -/
def Foremost (w : World) : Prop := ∀ t, ∀ j ∈ (w.poolCode t).tail, j.isForemost = false

theorem foremost_initial (n : Nat) : Foremost (World.initial n) := by
  intro t j hj
  rw [poolCode_initial] at hj
  cases hj

theorem Foremost.run (f : Foremost w) (h : PoolRun w t i rest w') : Foremost w' := by
  intro t' j hj
  by_cases ht : t' = t
  · subst ht
    rw [h.after] at hj
    rcases mem_tail_append hj with hj | hj
    · have hj := mem_tail_filter hj
      have hi := h.isPooled
      cases i with
      | sync i => exact i.run_later j (List.mem_of_mem_tail hj)
      | pool i => exact i.run_foremost j hj
      | _ => cases hi
    · apply f t' j
      rw [h.before]
      exact hj
  · rw [h.others t' ht] at hj
    exact f t' j hj

theorem Foremost.idle (f : Foremost w) (h : PoolIdle w e w') : Foremost w' := by
  intro t j hj
  rcases h.code t with he | ⟨c, _, _, _, he⟩ <;> rw [he] at hj
  · exact f t j hj
  · exact c.code_later j (List.mem_filter.mp (List.mem_of_mem_tail hj)).1

theorem Reachable.foremost (h : Reachable n w) : Foremost w := by
  refine h.induct (foremost_initial n) fun w e hr f => ?_
  rcases hr.pacing.step_pools e with ⟨t, i, rest, _, hs⟩ | hs
  · exact f.run hs
  · exact f.idle hs

end Standstill
