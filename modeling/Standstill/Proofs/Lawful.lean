import Standstill.Proofs.OneService

/-!
Worlds with any number of services, in which calls are made only on services that there are. What a
thread does is then always for a service that there is, and records are numbered in the order in
which their handles were taken.
-/
namespace Standstill

open World

/-- The worlds that `n` threads can bring about without a call on a service that there is not. -/
def Lawful (n : Nat) (w : World) : Prop :=
  ∃ es, (World.initial n).admits es = true ∧ (World.initial n).run es = w

variable {n : Nat} {w w' : World} {t t' : ThreadId} {s : ServiceId} {r : RecordId} {i j : Instr}
  {rest : List Instr} {e : Event} {es : List Event}

theorem Lawful.reachable (h : Lawful n w) : Reachable n w := by
  obtain ⟨es, _, hr⟩ := h
  exact ⟨es, hr⟩

theorem Alone.lawful (h : Alone n w) : Lawful n w :=
  let ⟨es, ha, hr, _⟩ := h
  ⟨es, ha, hr⟩

theorem lawful_initial (n : Nat) : Lawful n (World.initial n) := ⟨[], rfl, rfl⟩

theorem Lawful.run (h : Lawful n w) (ha : w.admits es = true) : Lawful n (w.run es) := by
  obtain ⟨fs, hf, rfl⟩ := h
  refine ⟨fs ++ es, ?_, run_append _ _ _⟩
  rw [admits_append, hf, ha]
  rfl

theorem Lawful.step (h : Lawful n w) (he : e.isPlaced w = true) : Lawful n (w.step e) :=
  h.run (show w.admits [e] = true by simp only [admits, he, Bool.and_self])

/-- What holds at first and is kept by every event that calls no service that there is not, holds of
all lawful worlds. -/
theorem Lawful.induct {P : World → Prop} (h : Lawful n w) (h0 : P (World.initial n))
    (hs : ∀ w e, Lawful n w → e.isPlaced w = true → P w → P (w.step e)) : P w := by
  obtain ⟨es, ha, rfl⟩ := h
  induction es using List.reverseRecOn with
  | nil => exact h0
  | append_singleton es e ih =>
    rw [admits_append, Bool.and_eq_true] at ha
    have hp : e.isPlaced ((World.initial n).run es) = true := by
      have hc := ha.2
      simp only [admits, Bool.and_true] at hc
      exact hc
    rw [run_append]
    exact hs _ e ⟨es, ha.1, rfl⟩ hp (ih ha.1)

/-! Services are named only once they are there. -/

structure Founded (w : World) : Prop where
  placed : ∀ {t j s}, j ∈ w.codeOf t → j.service? = some s → s < w.services.length
  homes : ∀ {r s}, w.homeOf r = some s → s < w.services.length

theorem founded_initial (n : Nat) : Founded (World.initial n) where
  placed {t j s} hj hs := by
    rw [eq_user_of_initial hj] at hs
    cases hs
  homes {r s} hr := by
    rw [homeOf, ofRecord_of_le none _ (Nat.zero_le _)] at hr
    cases hr

theorem Founded.undisturbed (f : Founded w) (u : Undisturbed w e w')
    (he : e.isPlaced w = true) : Founded w' where
  placed := placed_undisturbed f.placed u he
  homes {r s} hr := by
    rw [u.services]
    have hh : w'.homeOf r = w.homeOf r := u.ofRecord
    exact f.homes (hh.symm.trans hr)

theorem Lawful.founded (h : Lawful n w) : Founded w := by
  refine h.induct (founded_initial n) ?_
  intro w e _ he f
  rcases w.step_cases e with ⟨t, i, rest, _, hc, _, hs⟩ | hu
  · rw [hs]
    exact ⟨placed_proceed f.placed hc, homes_proceed f.placed f.homes hc⟩
  · exact f.undisturbed hu he

/-- What the thread that event `e` gives its turn has at the head of its code. -/
def World.upNext (w : World) : Event → Option Instr
  | .advance t => (w.codeOf t).head?
  | _ => none

theorem upNext_eq_some {e : Event} {i : Instr} :
    w.upNext e = some i ↔ ∃ t rest, e = .advance t ∧ w.codeOf t = i :: rest := by
  cases e with
  | advance t =>
    simp only [upNext, Event.advance.injEq]
    constructor
    · intro hi
      obtain ⟨rest, hr⟩ := List.head?_eq_some_iff.mp hi
      exact ⟨t, rest, rfl, hr⟩
    · rintro ⟨t, rest, rfl, hr⟩
      rw [hr]
      rfl
  | _ => simp [upNext]

/-! Handles are taken in order: the record made first has handle one. -/

/-- The handle that is taken next and those that records have. -/
def World.numbering (w : World) : Handle × List Handle := (w.nextHandle, w.records.map (·.handle))

section Numbering

attribute [local simp] World.numbering World.setLevel World.setPhase World.setRequest
  World.openScope World.closeScope World.setMask World.setMaskFor World.fail World.answer World.say
  World.setBinding World.modThread World.modService World.modCensus World.modRoster
  World.addThread World.addService

@[simp] theorem numbering_modRecord (f : ThreadRecord → ThreadRecord)
    (hf : ∀ c, (f c).handle = c.handle) : (w.modRecord r f).numbering = w.numbering := by
  simp only [numbering, modRecord, map_modify_of_comp _ _ _ _ hf]

theorem numbering_of_core (h : w'.core = w.core) : w'.numbering = w.numbering := by
  have hc (w : World) : w.core.numbering = w.numbering := by
    simp only [numbering, core, List.map_map]
    rfl
  rw [← hc, h, hc]

theorem StopInstr.numbering_run (i : StopInstr) : (i.run t w).1.numbering = w.numbering := by
  by_cases hq : (Instr.stop i).isQuiet = true
  · exact numbering_of_core (i.core_run hq)
  have signal (r : RecordId) : (w.signalOwner r).numbering = w.numbering := by
    simp only [signalOwner]
    split <;> rfl
  cases i with
  | deliver s r | resumeWake s r =>
    simp only [StopInstr.run]
    repeat' split
    all_goals first | rfl | exact signal r
  | haltDeliver s r | freeWake s r =>
    simp only [StopInstr.run]
    split
    · exact signal r
    · rfl
  | request | withdraw | resumeClear | haltRequest | freeClear =>
    exact numbering_modRecord _ fun _ => rfl
  | _ => exact absurd rfl hq

theorem GuardInstr.numbering_run (i : GuardInstr) : (i.run t w).1.numbering = w.numbering := by
  have level (r : RecordId) (l : Level) : (w.setLevel r l).numbering = w.numbering :=
    numbering_modRecord _ fun _ => rfl
  have phase (r : RecordId) (p : Phase) : (w.setPhase r p).numbering = w.numbering :=
    numbering_modRecord _ fun _ => rfl
  cases i with
  | mask s | unmask s =>
    simp only [GuardInstr.run, setMaskFor]
    split <;> rfl
  | setMask => rfl
  | setPhase r p => exact phase r p
  | _ =>
    simp only [GuardInstr.run]
    split <;> first | rfl | exact level _ _ | exact phase _ _

theorem ParkInstr.numbering_run (i : ParkInstr) : (i.run t w).1.numbering = w.numbering :=
  i.keeps World.numbering rfl rfl (fun _ => numbering_modRecord _ fun _ => rfl)
    (fun _ _ => numbering_modRecord _ fun _ => rfl) fun _ => numbering_modRecord _ fun _ => rfl

/-- A new record takes the next handle. -/
theorem MemberInstr.numbering_run (i : MemberInstr) :
    (i.run t w).1.numbering = w.numbering ∨
      (i.run t w).1.numbering = (w.nextHandle + 1, w.records.map (·.handle) ++ [w.nextHandle]) := by
  by_cases hq : (Instr.member i).isQuiet = true
  · exact Or.inl (numbering_of_core (i.core_run hq))
  have plain {r : RecordId} {f : ThreadRecord → ThreadRecord}
      (hf : ∀ c, (f c).handle = c.handle) : (w.modRecord r f).numbering = w.numbering :=
    numbering_modRecord f hf
  cases i with
  | establish | spawnRecord =>
    right
    simp [MemberInstr.run, addRecord, ThreadRecord.create, ThreadRecord.bindTo]
  | attach s name =>
    simp only [MemberInstr.run]
    split
    -- a thread that is in the service already gets no new record
    · left
      split <;> rfl
    · right
      simp [addRecord, ThreadRecord.create, ThreadRecord.bindTo]
  | own | detachRaise | clearRequest | setLevel | exitRaise => exact Or.inl (plain fun _ => rfl)
  | _ =>
    left
    simp only [MemberInstr.run]
    repeat' split
    all_goals first | rfl | exact absurd rfl hq

theorem numbering_run (i : Instr) :
    (i.run t w).1.numbering = w.numbering ∨
      (i.run t w).1.numbering = (w.nextHandle + 1, w.records.map (·.handle) ++ [w.nextHandle]) := by
  cases i with
  | user => exact Or.inl rfl
  | sync i =>
    obtain ⟨_, _, he⟩ := i.run_fst (w := w) (t := t)
    left
    rw [Instr.run, he]
    rfl
  | guard i => exact Or.inl i.numbering_run
  | park i => exact Or.inl i.numbering_run
  | stop i => exact Or.inl i.numbering_run
  | pool i => exact Or.inl (numbering_of_core i.core_run)
  | member i => exact i.numbering_run
  | read i => exact Or.inl (numbering_of_core i.core_run)

end Numbering

theorem nextHandle_step (he : ∀ t, e ≠ .advance t) : (w.step e).nextHandle = w.nextHandle := by
  cases e with
  | advance t => exact absurd rfl (he t)
  | interrupt t =>
    simp only [World.step, interrupt]
    split <;> rfl
  | invoke t c =>
    simp only [World.step, invoke]
    repeat' split
    all_goals rfl
  | finish t p =>
    simp only [World.step, finish]
    split <;> rfl
  | stir q t => rfl
  | tick | system => rfl

theorem numbering_step (w : World) (e : Event) :
    (w.step e).numbering = w.numbering ∨ (w.step e).numbering =
      (w.nextHandle + 1, w.records.map (·.handle) ++ [w.nextHandle]) := by
  by_cases he : ∃ t, e = .advance t
  · obtain ⟨t, rfl⟩ := he
    rcases w.advance_cases t with h | ⟨i, rest, _, _, h⟩
    · left
      rw [World.step, h]
    · rw [World.step, h]
      exact numbering_run (w := w.setCode t rest) i
  · left
    have he' : ∀ t, e ≠ .advance t := fun t h => he ⟨t, h⟩
    have hr : (w.step e).records = w.records := by
      rcases w.step_cases e with ⟨t, _, _, h, _⟩ | u
      · exact absurd h (he' t)
      · exact u.records
    rw [World.numbering, nextHandle_step he', hr, World.numbering]

theorem Reachable.numbering (h : Reachable n w) :
    w.numbering = (w.records.length + 1, List.range' 1 w.records.length) := by
  refine h.induct (P := fun w => w.numbering = (w.records.length + 1,
    List.range' 1 w.records.length)) rfl ?_
  intro w e _ hn
  have hl : (w.step e).records.length = ((w.step e).numbering).2.length := by
    simp only [World.numbering, List.length_map]
  rcases numbering_step w e with hs | hs
  · rw [hl, hs, hn]
    simp only [List.length_range']
  · simp only [World.numbering, Prod.mk.injEq] at hn
    rw [hl, hs, hn.1, hn.2]
    simp [List.range'_concat, Nat.add_comm 1]

/-- Records are numbered from zero, handles from one. -/
theorem Reachable.handleOf (h : Reachable n w) (hr : r < w.records.length) :
    w.handleOf r = some (r + 1) := by
  have hn := congrArg Prod.snd h.numbering
  have hg : (w.records.map (·.handle))[r]? = some (r + 1) := by
    rw [show w.records.map (·.handle) = List.range' 1 w.records.length from hn,
      List.getElem?_range' hr]
    simp [Nat.add_comm]
  rwa [List.getElem?_map] at hg

theorem Reachable.handle_eq (h : Reachable n w) {c : ThreadRecord} (hc : w.records[r]? = some c) :
    c.handle = r + 1 := by
  have hr : r < w.records.length := by
    by_contra hn
    rw [List.getElem?_eq_none (Nat.le_of_not_lt hn)] at hc
    cases hc
  have hh := h.handleOf hr
  rw [World.handleOf, hc] at hh
  exact Option.some.inj hh

theorem Reachable.handleOf_inj (h : Reachable n w) {b : RecordId} (hr : r < w.records.length)
    (hb : w.handleOf b = w.handleOf r) : b = r := by
  rw [h.handleOf hr, World.handleOf] at hb
  obtain ⟨c, hc, hh⟩ := Option.map_eq_some_iff.mp hb
  rw [h.handle_eq hc] at hh
  exact Nat.succ.inj hh

end Standstill
