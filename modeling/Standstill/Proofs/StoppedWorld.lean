import Standstill.Proofs.Binding
import Standstill.Proofs.Waking

/-!
While all threads of a service are stopped, nobody gets in or is let go before the world is resumed:
a thread that is started waits at the gate, and a request that stands stays. Only a thread that
attaches itself does not ask whether the gate is open.
-/
namespace Standstill

open World

namespace Instr

/-- The instruction lets a thread of service `s` go, or opens its start gate. -/
def isLetting (s : ServiceId) : Instr → Bool
  | .stop (.freeClear b _) | .stop (.openGate b) | .stop (.resumeClear b _) => b == s
  | _ => false

/-- The threads of service `s`, or one of them, are about to be let go. -/
def isResuming (s : ServiceId) : Instr → Bool
  | .stop (.freeOthers b) | .stop (.resumeFind b _) => b == s
  | _ => false

end Instr

/-- Somewhere in the run `es` a thread comes to run instruction `i`. -/
def World.runs (w : World) (i : Instr) : List Event → Bool
  | [] => false
  | e :: es => w.upNext e == some i || (w.step e).runs i es

/-- No thread of service `s` is let go in the run `es`. -/
def World.StaysShut (w : World) (s : ServiceId) (es : List Event) : Prop :=
  w.Along (fun w e => (w.upNext e).any (·.isResuming s) = false) es

instance (w : World) (s : ServiceId) (es : List Event) : Decidable (w.StaysShut s es) :=
  inferInstanceAs (Decidable (w.Along _ es))

variable {n : Nat} {w w' : World} {t t' : ThreadId} {s b : ServiceId} {r : RecordId} {i j : Instr}
  {rest : List Instr} {e : Event} {es : List Event} {p : RecordId → Prop}

/-! The lock of the roster keeps those who stop threads and those who let them go apart. -/

/-- A thread holds the lock that a section of its code gives back, if nothing above takes it. -/
theorem Keeping.held_of_sealed {l : Lock} (k : Keeping w) (so : Sealed (w.codeOf t))
    (hj : j ∈ w.codeOf t) (hl : .lock l ∈ j.closes)
    (hi : ∀ i, j.lets i = true → .lock l ∈ i.opens → .lock l ∈ i.closes) : (l, t) ∈ w.held := by
  obtain ⟨top, below, hc⟩ := List.append_of_mem hj
  obtain ⟨hs, hk⟩ := k.keeps t
  have hf := hk.code
  rw [hc] at hf so
  have hm : .lock l ∈ hs := by
    refine mem_of_fits hf (fun x hx => hi x ?_) hl
    exact (List.pairwise_append.mp so).2.2 x hx j List.mem_cons_self
  rw [← mem_locksOf, hk.locks]
  exact List.mem_filterMap.mpr ⟨_, hm, rfl⟩

theorem closes_of_nested (hn : i.isNested = true) (ho : .lock (.roster s) ∈ i.opens) :
    .lock (.roster s) ∈ i.closes := by
  cases i with
  | sync i =>
    cases i with
    | wait q l d => exact ho
    | acquire l =>
      cases l with
      | park => cases List.mem_singleton.mp ho
      | _ => cases hn
    | notifyAll => cases hn
    | _ => cases ho
  | guard i =>
    cases i with
    | setMask => cases ho
    | _ => cases hn
  | park i => exact ho
  | _ => cases hn

/-- Whoever is about to stop threads or to let them go has the lock of the roster. -/
theorem held_of_stopping (hw : Reachable n w) (hj : j ∈ w.codeOf t)
    (hs : j.isLetting s = true ∨ j = .stop (.closeGate s)) : (.roster s, t) ∈ w.held := by
  -- what may stand above such an instruction takes the lock only to give it back
  have above {i : Instr} (hi : i.isNested = true ∨ i.isHalting s = true ∨ i.isFreeing s = true)
      (ho : .lock (.roster s) ∈ i.opens) : .lock (.roster s) ∈ i.closes := by
    rcases hi with hn | hi | hi
    · exact closes_of_nested hn ho
    · cases i with
      | stop k => cases k <;> first | exact ho | cases hi
      | _ => cases hi
    · cases i with
      | stop k => cases k <;> first | exact ho | cases hi
      | sync k =>
        cases k with
        | notifyAll q => cases q <;> exact ho
        | _ => cases hi
      | _ => cases hi
  have k := hw.keeping
  have so := hw.sealed t
  rcases hs with hs | rfl
  · cases j with
    | stop x =>
      cases x with
      | freeClear b x | openGate b =>
        obtain rfl : b = s := by simpa [Instr.isLetting] using hs
        refine k.held_of_sealed so hj List.mem_cons_self fun i hi => above ?_
        simp only [Instr.lets, StopInstr.lets, Bool.or_eq_true] at hi
        exact hi.imp_right Or.inr
      | resumeClear b x =>
        obtain rfl : b = s := by simpa [Instr.isLetting] using hs
        refine k.held_of_sealed so hj List.mem_cons_self fun i hi => above ?_
        simp only [Instr.lets, StopInstr.lets, Bool.or_false] at hi
        exact Or.inl hi
      | _ => cases hs
    | _ => cases hs
  · refine k.held_of_sealed so hj List.mem_cons_self fun i hi => above ?_
    simp only [Instr.lets, StopInstr.lets, Bool.or_eq_true] at hi
    exact hi.imp_right Or.inl

/-! What a step leaves of a request, and of a gate that is closed. -/

section Proceed

variable (hw : Lawful n w) (h : w.codeOf t = i :: rest)
include hw h

/-- The request of a record in the roster stands until the threads of its service are let go. -/
theorem isRequested_proceed (hr : r ∈ w.members s) (hq : w.isRequested r = true)
    (hi : i.isLetting s = false) : (w.proceed t i rest).isRequested r = true := by
  refine isRequested_run (w := w.setCode t rest) i ?_ hq
  rw [Bool.eq_false_iff]
  intro hc
  have hm : i ∈ w.codeOf t := h ▸ List.mem_cons_self
  have site {b : ServiceId} (hs : i.site? = some (b, r)) : b = s := by
    have hb := hw.rostered.sited hm hs
    rw [hw.rostered.homed hr] at hb
    exact (Option.some.inj hb).symm
  cases i with
  | stop k =>
    cases k with
    | withdraw b => exact hw.reachable.registered.kept t b hm
    | freeClear b x | resumeClear b x =>
      obtain rfl : x = r := by simpa [Instr.clears] using hc
      obtain rfl := site rfl
      simp [Instr.isLetting] at hi
    | _ => cases hc
  | member k =>
    cases k with
    | clearRequest b =>
      obtain rfl : b = r := by simpa [Instr.clears] using hc
      exact hw.enrolled.outside hm rfl hr
    | _ => cases hc
  | _ => cases hc

/-- Who enters a record has the lock of the roster. -/
theorem held_of_inserts (hi : i.inserts? = some (s, r)) : (.roster s, t) ∈ w.held := by
  refine hw.reachable.keeping.held_of_head h ?_
  rcases eq_of_inserts hi with rfl | rfl <;> exact List.mem_cons_self

theorem allSuspended_proceed (hi : i ≠ .stop (.openGate s))
    (ha : (w.census s).allSuspended = true) :
    ((w.proceed t i rest).census s).allSuspended = true := by
  have hr := hw.rostered.step hw h s
  rw [census]
  generalize (w.proceed t i rest).roster s = g at hr ⊢
  cases hr with
  | openGate => exact absurd rfl hi
  | closeGate => rfl
  | detachRemove r l =>
    split
    · exact ha
    · exact ha
  | gatePass r daemon | exitRemove r daemon => cases daemon <;> exact ha
  | _ => exact ha

omit hw h in
theorem isRequested_proceed_haltRequest (hr : r < w.records.length) :
    (w.proceed t (.stop (.haltRequest s r)) rest).isRequested r = true := by
  have hp : (w.proceed t (.stop (.haltRequest s r)) rest).isRequested r =
      (w.setRequest r true).isRequested r := rfl
  rw [hp, isRequested_setRequest, if_pos ⟨rfl, hr⟩]

end Proceed

/-- The records that the thread has still to be told of are all but its own. -/
theorem mem_others (hw : Lawful n w) (hr : r ∈ w.members s) :
    w.selfIn t s = some r ∨ r ∈ w.others t s := by
  by_cases hm : w.handleOf r = (w.selfIn t s).bind w.handleOf
  · left
    have hlt := lt_of_homeOf (hw.rostered.homed hr)
    cases hs : w.selfIn t s with
    | none =>
      rw [hs, hw.reachable.handleOf hlt] at hm
      cases hm
    | some b =>
      rw [hs] at hm
      rw [hw.reachable.handleOf_inj hlt hm.symm]
  · exact Or.inr (List.mem_filter.mpr ⟨hr, by simpa using hm⟩)

/-- Until the gate is closed, those who have not been told to stop are still to be told. -/
structure Halting (w : World) : Prop where
  told : ∀ {t s r}, .stop (.closeGate s) ∈ w.codeOf t → r ∈ w.members s →
    w.selfIn t s = some r ∨ w.isRequested r = true ∨ .stop (.haltRequest s r) ∈ w.codeOf t

theorem Halting.proceed (d : Halting w) (hw : Lawful n w) (h : w.codeOf t = i :: rest)
    (hu : i.isReady w t = true) : Halting (w.proceed t i rest) where
  told {t' s r} hj hr := by
    have k := hw.reachable.keeping
    -- the gate is about to be closed because of this step, was so before, or by a thread that
    -- starts here
    rcases marked_cases (hw.reachable.sealed t) h hu hj rfl with
      ⟨rfl, hb⟩ | ⟨hj, hl⟩ | ⟨b, x, rfl, _, hj, _⟩
    · cases hb
      have hm : r ∈ w.members s := (hw.rostered.mem_members_proceed hw h hr).resolve_right (fun h => by cases h)
      rcases mem_others (t := t') hw hm with hs | ho
      · exact Or.inl (selfIn_proceed hs fun _ _ => (fun h => by cases h))
      · right
        right
        rw [codeOf_proceed h]
        have he : (w.setCode t' rest).others t' s = w.others t' s := others_setCode
        rw [← he] at ho
        exact List.mem_append_left _ (List.mem_append_left _ (List.mem_map.mpr ⟨r, ho, rfl⟩))
    · have hk := held_of_stopping hw.reachable hj (Or.inr rfl)
      have ht (hx : (.roster s, t) ∈ w.held) : t' = t := k.holder_unique hk hx
      -- the roster stays as it is meanwhile, for the one that closes the gate has its lock
      have hm : r ∈ w.members s := by
        rcases hw.rostered.mem_members_proceed hw h hr with hm | hi
        · exact hm
        · have hl := (hl (ht (held_of_inserts hw h hi))).2
          rcases eq_of_inserts hi with rfl | rfl <;> cases hl
      -- and nobody lets go again whom it has stopped
      have hn : i.isLetting s = false := by
        rw [Bool.eq_false_iff]
        intro hn
        have hi : i ∈ w.codeOf t := h ▸ List.mem_cons_self
        have hl := (hl (ht (held_of_stopping hw.reachable hi (Or.inl hn)))).2
        cases i with
        | stop k => cases k <;> first | cases hn | cases hl
        | _ => cases hn
      rcases d.told hj hm with hs | hq | hj
      · refine Or.inl (selfIn_proceed hs fun ht k hi => ?_)
        subst hi
        have hl := (hl ht).2
        cases k <;> first | rfl | cases hl
      · exact Or.inr (Or.inl (isRequested_proceed hw h hm hq hn))
      · by_cases hi : i = .stop (.haltRequest s r)
        · right
          left
          rw [hi]
          exact isRequested_proceed_haltRequest (lt_of_homeOf (hw.rostered.homed hm))
        · exact Or.inr (Or.inr (mem_codeOf_proceed_of_mem h hj fun _ he => hi he.symm))
    · simp [threadCode] at hj

theorem Lawful.halting (hw : Lawful n w) : Halting w := by
  refine hw.induct ⟨fun _ hr => absurd hr List.not_mem_nil⟩ ?_
  intro w e hw _ d
  rcases w.step_cases e with ⟨t, i, rest, _, hc, hr, hs⟩ | u
  · rw [hs]
    exact d.proceed hw hc hr
  · refine ⟨fun {t s r} hj hr => ?_⟩
    rw [members_of_services_eq u.services] at hr
    rcases d.told ((u.mem_iff rfl).mp hj) hr with hs | hq | hj
    · exact Or.inl (u.selfIn.trans hs)
    · exact Or.inr (Or.inl ((isRequested_of_records_eq u.records).trans hq))
    · exact Or.inr (Or.inr ((u.mem_iff rfl).mpr hj))

theorem marked_of_letting (h : j.isLetting s = true) : j.isMarked = true := by
  cases j with
  | stop k => cases k <;> first | rfl | cases h
  | _ => cases h

/-- While nobody is resumed, all that lets a thread go was there before. -/
theorem letting_of_proceed (hw : Lawful n w) (h : w.codeOf t = i :: rest)
    (hu : i.isReady w t = true) (hi : i.isResuming s = false)
    (hj : j ∈ (w.proceed t i rest).codeOf t') (hx : j.isLetting s = true) : j ∈ w.codeOf t' := by
  rcases marked_cases (hw.reachable.sealed t) h hu hj (marked_of_letting hx) with
    ⟨_, hb⟩ | ⟨hj, _⟩ | ⟨b, c, rfl, _, hj, _⟩
  · cases hb <;> first
      | cases hx
      | exact absurd (hi.symm.trans hx) Bool.false_ne_true
  · exact hj
  · have hc : ∀ j ∈ threadCode b c, j.isLetting s = false := by simp [threadCode, Instr.isLetting]
    exact absurd ((hc j hj).symm.trans hx) Bool.false_ne_true

/-- The threads of service `s` are stopped, but for those of the records in `p`. -/
structure Shut (w : World) (s : ServiceId) (p : RecordId → Prop) : Prop where
  gate : (w.census s).allSuspended = true
  kept : ∀ {t j}, j ∈ w.codeOf t → j.isLetting s = false
  passed : ∀ {t r}, .member (.noteStarted r) ∈ w.codeOf t → w.homeOf r ≠ some s
  stopped : ∀ {r}, r ∈ w.members s → w.startedOf r = true → p r ∨ w.isRequested r = true

/-- When the gate has been closed everyone but the one who has closed it is stopped. -/
theorem shut_closeGate (hw : Lawful n w) (h : w.codeOf t = .stop (.closeGate s) :: rest) :
    Shut (w.proceed t (.stop (.closeGate s)) rest) s fun r => w.selfIn t s = some r := by
  have so := hw.reachable.sealed t
  have hk : (.roster s, t) ∈ w.held := hw.reachable.keeping.held_of_head h List.mem_cons_self
  -- there is one lock, so nobody else is between the closing of the gate and its opening
  have only {t' : ThreadId} (hx : (.roster s, t') ∈ w.held) : t' = t :=
    hw.reachable.keeping.holder_unique hx hk
  have hm : .stop (.closeGate s) ∈ w.codeOf t := h ▸ List.mem_cons_self
  constructor
  case gate =>
    rw [census, roster_closeGate (hw.founded.placed hm rfl)]
  case kept =>
    intro t' j hj
    rw [Bool.eq_false_iff]
    intro hx
    rcases marked_cases so h rfl hj (marked_of_letting hx) with ⟨_, hb⟩ | ⟨hj, hl⟩ | ⟨_, _, hi, _⟩
    · cases hb
    · have hl := (hl (only (held_of_stopping hw.reachable hj (Or.inl hx)))).2
      cases j with
      | stop k => cases k <;> first | cases hx | cases hl
      | _ => cases hx
    · cases hi
  case passed =>
    intro t' r hj hs
    rcases marked_cases so h rfl hj rfl with ⟨_, hb⟩ | ⟨hj, hl⟩ | ⟨_, _, hi, _⟩
    · cases hb
    · rw [homeOf_proceed (lt_of_record hw.reachable.custody hj rfl)] at hs
      cases (hl (only (hw.enrolled.noted hj hs).2)).2
    · cases hi
  -- no request is left to be made when the gate is closed: they all stand above it
  case stopped =>
    intro r hr _
    have hr : r ∈ w.members s := (hw.rostered.mem_members_proceed hw h hr).resolve_right (fun h => by cases h)
    rcases hw.halting.told hm hr with hs | hq | hj
    · exact Or.inl hs
    · exact Or.inr (isRequested_proceed hw h hr hq rfl)
    · rw [h] at hj so
      cases so.lets ((List.mem_cons.mp hj).resolve_left (fun h => by cases h))

section Shut

variable (hw : Lawful n w) (d : Shut w s p)
include hw d

theorem Shut.proceed (h : w.codeOf t = i :: rest) (hu : i.isReady w t = true)
    (hi : i.isResuming s = false) :
    Shut (w.proceed t i rest) s fun r => p r ∨ i = .member (.publish s r) := by
  have so := hw.reachable.sealed t
  have hm : i ∈ w.codeOf t := h ▸ List.mem_cons_self
  have hn : i.isLetting s = false := d.kept hm
  constructor
  case gate =>
    refine allSuspended_proceed hw h ?_ d.gate
    rintro rfl
    simp [Instr.isLetting] at hn
  case kept =>
    intro t' j hj
    rw [Bool.eq_false_iff]
    intro hx
    have hk := d.kept (letting_of_proceed hw h hu hi hj hx)
    exact absurd (hk.symm.trans hx) Bool.false_ne_true
  case passed =>
    intro t' r hj hs
    rcases marked_cases so h hu hj rfl with ⟨rfl, hb⟩ | ⟨hj, _⟩ | ⟨b, c, rfl, _, hj, _⟩
    · cases hb with
      | noteStarted b _ ha =>
        have hb : w.homeOf r = some b := hw.rostered.sited hm rfl
        rw [homeOf_proceed_of_some hb] at hs
        obtain rfl := Option.some.inj hs
        exact absurd (d.gate.symm.trans ha) (fun h => by cases h)
    · rw [homeOf_proceed (lt_of_record hw.reachable.custody hj rfl)] at hs
      exact d.passed hj hs
    · simp [threadCode] at hj
  case stopped =>
    intro r hr hs
    rcases hw.rostered.mem_members_proceed hw h hr with hr | hk
    · by_cases ho : w.startedOf r = true
      · rcases d.stopped hr ho with hp | hq
        · exact Or.inl (Or.inl hp)
        · exact Or.inr (isRequested_proceed hw h hr hq hn)
      · -- nobody is on the way through the gate
        by_cases hk : i = .member (.noteStarted r)
        · subst hk
          exact absurd (hw.rostered.homed hr) (d.passed hm)
        · rw [startedOf_proceed (lt_of_homeOf (hw.rostered.homed hr)) hk] at hs
          exact absurd hs ho
    · rcases eq_of_inserts hk with rfl | rfl
      · exact Or.inl (Or.inr rfl)
      · have hg := hw.enrolled.enters hm
        have hj := mem_codeOf_proceed_of_mem h hg fun _ => (fun h => by cases h)
        rw [(hw.enrolled.proceed hw h hu).unstarted hj rfl] at hs
        cases hs

theorem Shut.step (e : Event) (hi : (w.upNext e).any (·.isResuming s) = false) :
    Shut (w.step e) s fun r => p r ∨ w.upNext e = some (.member (.publish s r)) := by
  rcases w.step_cases e with ⟨t, i, rest, he, hc, hr, hs⟩ | u
  · have hx := upNext_eq_some.mpr ⟨t, rest, he, hc⟩
    rw [hs]
    rw [hx] at hi ⊢
    simpa only [Option.some.injEq] using d.proceed hw hc hr hi
  · have hrec : (w.step e).records = w.records := u.records
    constructor
    case gate =>
      rw [census, roster_of_services_eq u.services]
      exact d.gate
    case kept =>
      intro t j hj
      rw [Bool.eq_false_iff]
      intro hx
      have hk := d.kept ((u.mem_iff (lasting_of_marked (marked_of_letting hx))).mp hj)
      exact absurd (hk.symm.trans hx) Bool.false_ne_true
    case passed =>
      intro t r hj
      have hh : (w.step e).homeOf r = w.homeOf r := u.ofRecord
      rw [hh]
      exact d.passed ((u.mem_iff rfl).mp hj)
    case stopped =>
      intro r hr hs
      have hst : (w.step e).startedOf r = w.startedOf r := u.ofRecord
      rw [members_of_services_eq u.services] at hr
      rw [isRequested_of_records_eq hrec]
      exact (d.stopped hr (hst ▸ hs)).imp_left Or.inl

end Shut

theorem Shut.run (hw : Lawful n w) (d : Shut w s p) (ha : w.admits es = true)
    (hs : w.StaysShut s es) :
    Shut (w.run es) s fun r => p r ∨ w.runs (.member (.publish s r)) es = true := by
  induction es generalizing w p with
  | nil =>
    refine ⟨d.gate, d.kept, d.passed, fun hr ho => ?_⟩
    exact (d.stopped hr ho).imp_left Or.inl
  | cons e es ih =>
    rw [admits, Bool.and_eq_true] at ha
    have hi := ih (hw.step ha.1) (d.step hw e hs.1) ha.2 hs.2
    rw [run_cons]
    refine ⟨hi.gate, hi.kept, hi.passed, fun hr ho => ?_⟩
    refine (hi.stopped hr ho).imp_left ?_
    simp only [runs, Bool.or_eq_true, beq_iff_eq, or_assoc]
    exact id

/-- A thread in code of its own is registered with the service that it is attached to, and has
started there. -/
theorem mem_of_inUser (hw : Lawful n w) (hu : w.inUser t = true) (hr : w.selfIn t s = some r) :
    r ∈ w.members s ∧ w.startedOf r = true := by
  obtain ⟨hb, hh⟩ := selfIn_eq_some.mp hr
  obtain ⟨rest, hc⟩ := head_user hu
  have so := hw.reachable.sealed t
  rw [hc] at so
  -- below code of the thread's own there is at most its departure
  have none {k : MemberInstr} (hk : .member k ∈ w.codeOf t) : ∃ b c, k = .exitRaise b c := by
    rw [hc] at hk
    obtain ⟨b, c, he⟩ := so.of_user ((List.mem_cons.mp hk).resolve_left (fun h => by cases h))
    exact ⟨b, c, Instr.member.inj he⟩
  constructor
  · rcases hw.bound.bound hb hh with g | hj
    · rcases g.place with hm | hj | hj
      · exact hm
      · obtain ⟨_, _, he⟩ := none hj
        cases he
      · obtain ⟨_, _, he⟩ := none hj
        cases he
    · obtain ⟨_, _, he⟩ := none hj
      cases he
  · rcases hw.bound.vouched hb with hs | ⟨b, hj⟩ | hj
    · exact hs
    · obtain ⟨_, _, he⟩ := none hj
      cases he
    · obtain ⟨_, _, he⟩ := none hj
      cases he

/-- From the moment at which a thread that stops all others closes the gate until threads are let go,
every record that has started has its request standing, but the thread's own and those that threads
have published of themselves in the meantime by attaching. No other thread that is attached is in
code of its own without a request. -/
theorem stopped_world_stays_stopped (hw : Lawful n w)
    (h : w.codeOf t = .stop (.closeGate s) :: rest)
    (ha : (w.step (.advance t)).admits es = true) (hs : (w.step (.advance t)).StaysShut s es) :
    (((w.step (.advance t)).run es).census s).allSuspended = true ∧
    (∀ r, r ∈ ((w.step (.advance t)).run es).members s →
      ((w.step (.advance t)).run es).startedOf r = true →
      ((w.step (.advance t)).run es).isRequested r = true ∨ w.selfIn t s = some r ∨
        (w.step (.advance t)).runs (.member (.publish s r)) es = true) ∧
    ∀ t' r, ((w.step (.advance t)).run es).inUser t' = true →
      ((w.step (.advance t)).run es).selfIn t' s = some r →
      ((w.step (.advance t)).run es).isRequested r = true ∨ w.selfIn t s = some r ∨
        (w.step (.advance t)).runs (.member (.publish s r)) es = true := by
  have hw' : Lawful n (w.step (.advance t)) := hw.step rfl
  -- the world is shut as the gate closes, and every step that is allowed keeps it so
  have hd : Shut (w.step (.advance t)) s fun r => w.selfIn t s = some r := by
    have hp : w.step (.advance t) = w.proceed t (.stop (.closeGate s)) rest := advance_of_code h rfl
    rw [hp]
    exact shut_closeGate hw h
  have d := hd.run hw' ha hs
  refine ⟨d.gate, fun r hr ho => (d.stopped hr ho).symm, fun t' r hu hr => ?_⟩
  obtain ⟨hm, ho⟩ := mem_of_inUser (hw'.run ha) hu hr
  exact (d.stopped hm ho).symm

/-- A thread has attached itself to the service of another, which stops all others and is about to
close the gate. -/
def closingGate : List Event :=
  .invoke 0 (.establish { mechanism := .safepoint }) :: turns 0 5 ++
    .invoke 1 (.attach 0 "early") :: turns 1 5 ++ .invoke 0 (.suspendAll 0) :: turns 0 7

theorem early_thread_is_asked_to_stop :
    (((World.initial 2).run closingGate).run (turns 0 6)).isRequested 1 = true := by
  have hw : Lawful 2 ((World.initial 2).run closingGate) := ⟨closingGate, by decide, rfl⟩
  have h : ((World.initial 2).run closingGate).codeOf 0 = .stop (.closeGate 0) ::
      [.sync (.release (.roster 0)), .guard (.lower 0), .user] := by decide
  have ha : (((World.initial 2).run closingGate).step (.advance 0)).admits (turns 0 5) = true := by
    decide
  have hs := (stopped_world_stays_stopped hw h ha (by decide)).2.1 1 (by decide) (by decide)
  rcases hs with hq | hq | hq
  · exact hq
  · exact absurd hq (by decide)
  · exact absurd hq (by decide)

/-- A thread is about to close the gate of its service when nobody else is attached to it. -/
def closingAlone : List Event :=
  .invoke 0 (.establish { mechanism := .safepoint }) :: turns 0 5 ++
    .invoke 0 (.suspendAll 0) :: turns 0 4

/-- The gate is closed, and then another thread attaches itself. -/
def attachingLate : List Event := turns 0 4 ++ .invoke 1 (.attach 0 "late") :: turns 1 5

/-- The late thread is in code of its own without a request while the world is stopped. -/
theorem late_thread_is_not_asked_to_stop :
    (World.initial 2).admits (closingAlone ++ .advance 0 :: attachingLate) = true ∧
      ((World.initial 2).run closingAlone).codeOf 0 = .stop (.closeGate 0) ::
        [.sync (.release (.roster 0)), .guard (.lower 0), .user] ∧
      ((World.initial 2).run (closingAlone ++ [.advance 0])).StaysShut 0 attachingLate ∧
      ((World.initial 2).run closingAlone).selfIn 0 0 = some 0 ∧
      ((World.initial 2).run (closingAlone ++ .advance 0 :: attachingLate)).members 0 = [0, 1] ∧
      ((World.initial 2).run (closingAlone ++ .advance 0 :: attachingLate)).startedOf 1 = true ∧
      ((World.initial 2).run (closingAlone ++ .advance 0 :: attachingLate)).inUser 1 = true ∧
      ((World.initial 2).run (closingAlone ++ .advance 0 :: attachingLate)).isRequested 1 =
        false := by
  refine ⟨?_, ?_, ?_, ?_, ?_, ?_, ?_, ?_⟩ <;> decide

end Standstill
