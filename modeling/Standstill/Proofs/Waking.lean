import Standstill.Proofs.Masks
import Standstill.Proofs.OneService
import Standstill.Proofs.ParkLoop
import Standstill.Proofs.Registered
import Standstill.Proofs.Sections

/-!
Waking up. A thread that sleeps in its park loop has its request standing, or whoever has cleared the
request has still to wake it, or it has been woken already.
-/
namespace Standstill

open World ParkInstr

variable {n : Nat} {w w' : World} {t t' q : ThreadId} {s : ServiceId} {r : RecordId} {i j : Instr}
  {m : Mechanism} {code rest : List Instr} {e : Event}

/-! The place of the instructions around a sleep. -/

/-- The last instructions before a sleep, which a thread reaches only at the head of its code. -/
def Instr.isBrink : Instr → Bool
  | .park .awaitSignal | .park (.retestLevel _) | .sync (.wait (.park _) _ _) => true
  | .park (.testLevel p) => p.sleep == .signal
  | _ => false

/-- The record under whose park lock the instruction sleeps, or is about to. -/
def Instr.napRecord? : Instr → Option RecordId
  | .park (.retestRequest r) | .park (.retestLevel r) => some r
  | .sync (.wait (.park r) _ _) | .sync (.resting (.park r) _) => some r
  | _ => none

/-- The instruction stands neither on the brink of a sleep nor in one under a park lock. -/
def Instr.isAwake (i : Instr) : Bool := !i.isBrink && i.napRecord?.isNone

/-- After a sleep under a park lock the thread looks at the request again. -/
def Tucked : List Instr → Prop
  | [] => True
  | i :: rest => (∀ r, i.napRecord? = some r → ∃ p, p.record = r ∧ .park (.testRequest p) ∈ rest) ∧
    Tucked rest

theorem awake_of_plain (h : code.all Instr.isPlain = true) : code.all Instr.isAwake = true := by
  apply List.all_eq_true.mpr
  intro j hj
  have hr := record_of_plain h j hj
  have hu := calm_of_plain h j hj
  cases j with
  | park => cases hu
  | sync i =>
    cases i with
    | wait q => cases q <;> first | rfl | cases hr
    | resting q => cases q <;> first | rfl | cases hr
    | _ => rfl
  | _ => rfl

theorem handlerCode_awake : (w.handlerCode t).all Instr.isAwake = true := by
  rw [handlerCode_eq]
  split <;> rfl

/-- The instruction has a sleep come next, or one under a park lock. -/
def Instr.isDrowsy : Instr → Bool
  | .park (.testRequest _) | .park (.testLevel _) | .park (.retestRequest _)
  | .park (.retestLevel _) | .sync (.wait (.park _) _ _) => true
  | _ => false

theorem GuardInstr.run_awake (i : GuardInstr) : (i.run t w).2.all Instr.isAwake = true := by
  cases i <;> simp only [GuardInstr.run] <;> repeat' split
  all_goals simp [stopIfDue, Instr.isAwake, Instr.isBrink, Instr.napRecord?]

theorem MemberInstr.run_awake (i : MemberInstr) : (i.run t w).2.all Instr.isAwake = true := by
  cases i <;> simp only [MemberInstr.run] <;> repeat' split
  all_goals
    simp [publishCode, refuseCode, Instr.isAwake, Instr.isBrink, Instr.napRecord?]

theorem ParkInstr.run_awake (i : ParkInstr) (h : (Instr.park i).isDrowsy = false) :
    (i.run t w).2.all Instr.isAwake = true := by
  cases i with
  | check tests entry b =>
    rcases tests with _ | ⟨x, rest⟩
    · rcases entry with _ | _ | _ <;> simp only [ParkInstr.run]
      · rfl
      · split <;> rfl
      · rfl
    · simp only [ParkInstr.run]
      split <;> rfl
  | awaitSignal => exact handlerCode_awake
  | testRequest | testLevel | retestRequest | retestLevel => cases h
  | _ => rfl

theorem run_awake (i : Instr) (h : i.isDrowsy = false) :
    (i.run t w).2.all Instr.isAwake = true := by
  cases i with
  | user => rfl
  | sync i =>
    cases i with
    | wait q l d => cases q <;> first | rfl | cases h
    | _ => rfl
  | guard i => exact i.run_awake
  | park i => exact i.run_awake h
  | stop i => exact awake_of_plain i.run_plain
  | pool i => exact awake_of_plain i.run_plain
  | member i => exact i.run_awake
  | read i => exact awake_of_plain i.run_plain

theorem Tucked.append_of_awake (h : Tucked rest) (hc : code.all Instr.isAwake = true) :
    Tucked (code ++ rest) := by
  induction code with
  | nil => exact h
  | cons i code ih =>
    simp only [List.all_cons, Bool.and_eq_true] at hc
    refine ⟨fun r hr => ?_, ih hc.2⟩
    simp [Instr.isAwake, hr] at hc

/-- A sleep is put in front of a new look at the request. -/
theorem Tucked.run (h : Tucked (i :: rest)) : Tucked ((i.run t w).2 ++ rest) := by
  -- all other instructions leave code that is awake, which may stand anywhere
  by_cases hd : i.isDrowsy = true
  · obtain ⟨hi, hr⟩ := h
    cases i with
    | park k =>
      cases k with
      | testRequest p =>
        simp only [Instr.run, ParkInstr.run]
        split <;> exact ⟨(fun _ h => by cases h), hr⟩
      | testLevel p =>
        rcases p with ⟨sleep, b, x⟩
        simp only [Instr.run, ParkInstr.run]
        split
        · cases sleep
          · exact ⟨(fun _ h => by cases h), (fun _ h => by cases h), hr⟩
          · refine ⟨(fun _ h => by cases h), fun r hb => ?_, (fun _ h => by cases h), (fun _ h => by cases h), hr⟩
            exact ⟨⟨.safepoint, b, x⟩, Option.some.inj hb, by simp⟩
        · exact ⟨(fun _ h => by cases h), hr⟩
      | retestRequest b =>
        simp only [Instr.run, ParkInstr.run]
        split
        · exact ⟨hi, hr⟩
        · exact hr
      | retestLevel b =>
        simp only [Instr.run, ParkInstr.run]
        split
        · exact ⟨hi, hr⟩
        · exact hr
      | _ => cases hd
    | sync k =>
      cases k with
      | wait x l d =>
        cases x with
        | park b =>
          refine ⟨fun r hb => ?_, (fun _ h => by cases h), hr⟩
          obtain ⟨p, hp, hm⟩ := hi r hb
          exact ⟨p, hp, List.mem_cons_of_mem _ hm⟩
        | _ => cases hd
      | _ => cases hd
    | _ => cases hd
  · exact h.2.append_of_awake (run_awake i (by simpa using hd))

/-! How a thread comes to the brink of a sleep, and what it does there. -/

/-- The instructions that take a thread to the brink, each with all that it leaves to do. -/
inductive Nods (w : World) : Instr → List Instr → Prop
  | look (p : Parking) (hp : p.sleep = .signal) (hq : w.isRequested p.record = true) :
    Nods w (.park (.testRequest p)) [.park (.testLevel p)]
  | await (p : Parking) (hp : p.sleep = .signal) :
    Nods w (.park (.testLevel p)) [.park .awaitSignal, .park (.testRequest p)]
  | relook (r : RecordId) (hq : w.isRequested r = true) :
    Nods w (.park (.retestRequest r)) [.park (.retestLevel r)]
  | wait (r : RecordId) :
    Nods w (.park (.retestLevel r)) [.sync (.wait (.park r) (.park r) none)]

theorem not_brink_of_awake (h : i.isAwake = true) : i.isBrink = false := by
  simp only [Instr.isAwake, Bool.and_eq_true, Bool.not_eq_true'] at h
  exact h.1

theorem run_nods (i : Instr) :
    (∀ j ∈ (i.run t w).2, j.isBrink = false) ∨ Nods w i (i.run t w).2 := by
  -- only drowsy instructions lead to a brink
  by_cases hd : i.isDrowsy = true
  · cases i with
    | park k =>
      cases k with
      | testRequest p =>
        rcases p with ⟨sleep, b, x⟩
        simp only [Instr.run, ParkInstr.run]
        split
        next hq =>
          cases sleep
          · exact Or.inr (.look _ rfl hq)
          · left
            simp [Instr.isBrink]
        next =>
          left
          simp [Instr.isBrink]
      | testLevel p =>
        rcases p with ⟨sleep, b, x⟩
        simp only [Instr.run, ParkInstr.run]
        split
        · cases sleep
          · exact Or.inr (.await _ rfl)
          · left
            simp [Parking.sleepCode, locked, Instr.isBrink]
        · left
          simp [Instr.isBrink]
      | retestRequest b =>
        simp only [Instr.run, ParkInstr.run]
        split
        next hq => exact Or.inr (.relook b hq)
        next => exact Or.inl (fun _ h => by cases h)
      | retestLevel b =>
        simp only [Instr.run, ParkInstr.run]
        split
        · exact Or.inr (.wait b)
        · exact Or.inl (fun _ h => by cases h)
      | _ => cases hd
    | sync k =>
      cases k with
      | wait q l d =>
        left
        simp [Instr.run, SyncInstr.run, Instr.isBrink]
      | _ => cases hd
    | _ => cases hd
  · left
    intro j hj
    exact not_brink_of_awake (List.all_eq_true.mp (run_awake i (by simpa using hd)) j hj)

/-- Thread `t` sleeps until it is woken on account of record `r`, or will as soon as it has run the
instruction at the head of its code, or that and the next. -/
inductive OnBrink (w : World) (t : ThreadId) (r : RecordId) : Mechanism → Prop
  | test (p : Parking) (rest : List Instr) (h : w.codeOf t = .park (.testLevel p) :: rest)
    (hp : p.sleep = .signal) (hr : p.record = r) : OnBrink w t r .signal
  | await (p : Parking) (rest : List Instr)
    (h : w.codeOf t = .park .awaitSignal :: .park (.testRequest p) :: rest)
    (hr : p.record = r) : OnBrink w t r .signal
  | retest (rest : List Instr) (h : w.codeOf t = .park (.retestLevel r) :: rest) :
    OnBrink w t r .safepoint
  | wait (rest : List Instr)
    (h : w.codeOf t = .sync (.wait (.park r) (.park r) none) :: rest) :
    OnBrink w t r .safepoint
  | rest (h : (.park r, t) ∈ w.asleep) : OnBrink w t r .safepoint

/-! Who is going to wake a thread. -/

/-- The instruction clears the request of record `r`. -/
def Instr.clears (r : RecordId) : Instr → Bool
  | .stop (.withdraw b) | .stop (.resumeClear _ b) | .stop (.freeClear _ b)
  | .member (.clearRequest b) => b == r
  | _ => false

/-- The request of record `r` has been cleared, and its owner is still to be woken. -/
def Instr.wakes (r : RecordId) : Instr → Bool
  | .stop (.resumeLevel _ b) | .stop (.resumeWake _ b) | .stop (.freeLevel _ b)
  | .stop (.freeWake _ b) => b == r
  | _ => false

/-- Another thread has cleared the request of record `r`, and is to look whether to wake `t` for it. -/
def Waking (w : World) (t : ThreadId) (r : RecordId) : Prop :=
  ∃ q ≠ t, ∃ j ∈ w.codeOf q, j.wakes r = true

/-- Another thread is about to ring at the park lock of record `r`. -/
def Ringing (w : World) (t : ThreadId) (r : RecordId) : Prop :=
  ∃ q ≠ t, .sync (.notifyAll (.park r)) ∈ w.codeOf q

/-- What keeps thread `t` from sleeping for ever. -/
def Owed (w : World) (t : ThreadId) (r : RecordId) (m : Mechanism) : Prop :=
  w.isRequested r = true ∨ Waking w t r ∨ m = .signal ∧ w.isPending t = true ∨
    m = .safepoint ∧ Ringing w t r

/-! A request stands until somebody clears it. -/

theorem isRequested_setRequest (b : RecordId) (q : Bool) :
    (w.setRequest b q).isRequested r = if r = b ∧ r < w.records.length then q
      else w.isRequested r := by
  simp only [isRequested_eq, World.setRequest, ofRecord_modRecord, ofRecord_const]
  by_cases hb : r = b
  · by_cases hr : r < w.records.length
    · simp [hb, hb ▸ hr]
    · simp [hb, hb ▸ hr, ofRecord_of_le false _ (Nat.le_of_not_lt (hb ▸ hr))]
  · simp [hb]

theorem isRequested_setRequest_true (b : RecordId) (hq : w.isRequested r = true) :
    (w.setRequest b true).isRequested r = true := by
  rw [isRequested_setRequest]
  split
  · rfl
  · exact hq

theorem isRequested_setRequest_of_ne {b : RecordId} (hb : (b == r) = false) (q : Bool) :
    (w.setRequest b q).isRequested r = w.isRequested r := by
  rw [isRequested_setRequest, if_neg]
  rintro ⟨rfl, _⟩
  simp at hb

theorem isRequested_of_records_eq (h : w'.records = w.records) :
    w'.isRequested r = w.isRequested r := by
  simp only [isRequested, h]

theorem StopInstr.isRequested_run (i : StopInstr) (hc : (Instr.stop i).clears r = false)
    (hq : w.isRequested r = true) : (i.run t w).1.isRequested r = true := by
  by_cases hi : (Instr.stop i).isQuiet = true
  · rw [isRequested_eq, ofRecord_congr (i.core_run hi) fun _ => rfl]
    exact hq
  have signal (b : RecordId) : (w.signalOwner b).records = w.records := by
    simp only [signalOwner]
    split <;> rfl
  cases i with
  | request s b k => exact isRequested_setRequest_true b hq
  | haltRequest s b => exact isRequested_setRequest_true b hq
  | withdraw b | resumeClear s b | freeClear s b =>
    exact (isRequested_setRequest_of_ne hc false).trans hq
  | deliver s b | resumeWake s b =>
    refine Eq.trans (isRequested_of_records_eq ?_) hq
    simp only [StopInstr.run]
    repeat' split
    all_goals first | rfl | exact signal b
  | haltDeliver s b | freeWake s b =>
    refine Eq.trans (isRequested_of_records_eq ?_) hq
    simp only [StopInstr.run]
    split
    · exact signal b
    · rfl
  | _ => exact absurd rfl hi

theorem MemberInstr.isRequested_run (i : MemberInstr) (hc : (Instr.member i).clears r = false)
    (hq : w.isRequested r = true) : (i.run t w).1.isRequested r = true := by
  have hr : r < w.records.length := by
    by_contra hn
    rw [isRequested_eq, ofRecord_of_le false _ (Nat.le_of_not_lt hn)] at hq
    cases hq
  by_cases hi : (Instr.member i).isQuiet = true
  · rw [isRequested_eq, ofRecord_congr (i.core_run hi) fun _ => rfl]
    exact hq
  rw [isRequested_eq] at hq ⊢
  cases i with
  | clearRequest b => exact (isRequested_setRequest_of_ne hc false).trans hq
  | _ =>
    simp only [MemberInstr.run]
    repeat' split
    all_goals
      simp [Instr.isQuiet, World.setLevel, setBinding, answer, fail, say, modCensus, modRoster,
        ofRecord_modRecord, ofRecord_addRecord, Nat.ne_of_lt hr] at hi ⊢
    all_goals exact hq

theorem isRequested_run (i : Instr) (hc : i.clears r = false) (hq : w.isRequested r = true) :
    (i.run t w).1.isRequested r = true := by
  cases i with
  | user => exact hq
  | sync i =>
    obtain ⟨_, _, he⟩ := i.run_fst (w := w) (t := t)
    rw [Instr.run, he]
    exact hq
  | guard i => exact (i.ofRecord_run (fun _ _ => rfl) fun _ _ => rfl).trans hq
  | park i => exact (i.ofRecord_run (fun _ => rfl) fun _ _ => rfl).trans hq
  | stop i => exact i.isRequested_run hc hq
  | pool i => exact (ofRecord_congr i.core_run fun _ => rfl).trans hq
  | member i => exact i.isRequested_run hc hq
  | read i => exact (ofRecord_congr i.core_run fun _ => rfl).trans hq

/-! Only the sleeper itself joins a queue, and while it sleeps it does nothing else. -/

theorem mem_asleep_proceed {x : WaitList × ThreadId} (h : x ∈ (w.proceed t i rest).asleep) :
    x ∈ w.asleep ∨ x.2 = t ∧ ∃ l d, i = .sync (.wait x.1 l d) :=
  mem_asleep_run (w := w.setCode t rest) i h

/-- Where sleeps stand in the code of threads, and who sleeps. -/
structure Nodding (w : World) : Prop where
  tucked : ∀ t, Tucked (w.codeOf t)
  /-- Nothing comes on top of a thread that is on the brink. -/
  below : ∀ t, ∀ j ∈ (w.codeOf t).tail, j.isBrink = false
  awaits : ∀ {t rest}, w.codeOf t = .park .awaitSignal :: rest →
    ∃ p code, rest = .park (.testRequest p) :: code
  waits : ∀ {t r l d rest}, w.codeOf t = .sync (.wait (.park r) l d) :: rest →
    l = .park r ∧ d = none
  rests : ∀ {t r}, (.park r, t) ∈ w.asleep →
    ∃ rest, w.codeOf t = .sync (.resting (.park r) none) :: rest

theorem nodding_initial (n : Nat) : Nodding (World.initial n) := by
  have hcode (t : ThreadId) : (World.initial n).codeOf t = [.user] ∨
      (World.initial n).codeOf t = [] := codeOf_initial n t
  constructor
  case tucked =>
    intro t
    rcases hcode t with hc | hc <;> rw [hc]
    · exact ⟨(fun _ h => by cases h), trivial⟩
    · trivial
  case below =>
    intro t
    rcases hcode t with hc | hc <;> rw [hc] <;> exact fun _ hj => by cases hj
  case awaits =>
    intro t rest h
    rcases hcode t with hc | hc <;> rw [hc] at h <;> cases h
  case waits =>
    intro t r l d rest h
    rcases hcode t with hc | hc <;> rw [hc] at h <;> cases h
  case rests =>
    intro t r h
    cases h

section Proceed

variable (d : Nodding w) (h : w.codeOf t = i :: rest) (hr : i.isReady w t = true)
include d h

/-- What the running thread has before it: it has come to the brink, or nothing there is on one. -/
theorem Nodding.remainder : (∀ j ∈ w.remainder t i rest ++ rest, j.isBrink = false) ∨
    Nods (w.setCode t rest) i (w.remainder t i rest) ∧ ∀ j ∈ rest, j.isBrink = false := by
  have hrest : ∀ j ∈ rest, j.isBrink = false := by
    have hb := d.below t
    rwa [h] at hb
  rcases run_nods (w := w.setCode t rest) (t := t) i with hn | hn
  · left
    intro j hj
    rcases List.mem_append.mp hj with hj | hj
    · exact hn j hj
    · exact hrest j hj
  · exact Or.inr ⟨hn, hrest⟩

/-- The head of a thread's code after a step, if it is on the brink. -/
theorem Nodding.head_proceed {code : List Instr}
    (hc : (w.proceed t i rest).codeOf t' = j :: code) (hj : j.isBrink = true) :
    t' ≠ t ∧ w.codeOf t' = j :: code ∨
      t' = t ∧ ∃ new, Nods w i (j :: new) ∧ code = new ++ rest := by
  by_cases ht : t' = t
  · subst ht
    right
    refine ⟨rfl, ?_⟩
    rw [codeOf_proceed h] at hc
    rcases d.remainder h with hn | ⟨hn, _⟩
    · rw [hc] at hn
      rw [hn j List.mem_cons_self] at hj
      cases hj
    · generalize w.remainder t' i rest = new at hn hc
      cases hn with
      | look p hp hq =>
        obtain ⟨rfl, rfl⟩ := List.cons.inj hc
        exact ⟨[], .look p hp hq, rfl⟩
      | await p hp =>
        obtain ⟨rfl, rfl⟩ := List.cons.inj hc
        exact ⟨_, .await p hp, rfl⟩
      | relook b hq =>
        obtain ⟨rfl, rfl⟩ := List.cons.inj hc
        exact ⟨[], .relook b hq, rfl⟩
      | wait b =>
        obtain ⟨rfl, rfl⟩ := List.cons.inj hc
        exact ⟨[], .wait b, rfl⟩
  -- what the others are about to do is not changed, and a new thread begins far from any brink
  · left
    refine ⟨ht, ?_⟩
    by_cases hlt : t' < w.threads.length
    · rwa [codeOf_proceed_of_ne h ht hlt] at hc
    · rcases thread_proceed_of_le h (Nat.le_of_not_lt hlt) with hl | ⟨s, r, _, _, hx⟩
      · rw [codeOf, ofThread_of_le _ _ hl] at hc
        cases hc
      · simp only [codeOf, ofThread, hx, threadCode] at hc
        obtain ⟨rfl, _⟩ := List.cons.inj hc
        cases hj

theorem Nodding.tucked_proceed (t' : ThreadId) : Tucked ((w.proceed t i rest).codeOf t') := by
  have hk := d.tucked t
  rw [h] at hk
  refine codeOf_proceed_cases h hk.run (d.tucked t') trivial fun s r => ?_
  rw [← List.append_nil (threadCode s r)]
  exact Tucked.append_of_awake trivial rfl

theorem Nodding.below_proceed (t' : ThreadId) :
    ∀ j ∈ ((w.proceed t i rest).codeOf t').tail, j.isBrink = false := by
  refine codeOf_proceed_cases (P := fun c => ∀ j ∈ c.tail, j.isBrink = false) h ?_ (d.below t')
    (fun _ hj => by cases hj) fun s r => by simp [threadCode, Instr.isBrink]
  rcases d.remainder h with hn | ⟨hn, hb⟩
  · exact fun j hj => hn j (List.mem_of_mem_tail hj)
  · generalize w.remainder t i rest = new at hn
    cases hn with
    | await p hp => exact List.forall_mem_cons.mpr ⟨rfl, hb⟩
    | _ => exact hb

include hr

theorem Nodding.rests_proceed (ha : (.park r, t') ∈ (w.proceed t i rest).asleep) :
    ∃ code, (w.proceed t i rest).codeOf t' = .sync (.resting (.park r) none) :: code := by
  rcases mem_asleep_proceed ha with hold | ⟨ht, l, m, rfl⟩
  · obtain ⟨code, hc⟩ := d.rests hold
    by_cases ht : t' = t
    · -- a thread that sleeps is not ready
      subst ht
      rw [h] at hc
      obtain ⟨rfl, rfl⟩ := List.cons.inj hc
      simp [Instr.isReady, SyncInstr.isReady, isDue, hold] at hr
    · refine ⟨code, ?_⟩
      rw [codeOf_proceed_of_ne h ht (lt_of_head hc)]
      exact hc
  · obtain rfl : t' = t := ht
    obtain ⟨rfl, rfl⟩ := d.waits h
    refine ⟨.sync (.acquire (.park r)) :: rest, ?_⟩
    rw [codeOf_proceed h]
    rfl

theorem Nodding.proceed : Nodding (w.proceed t i rest) where
  tucked := d.tucked_proceed h
  below := d.below_proceed h
  awaits := by
    intro t' code hc
    rcases d.head_proceed h hc rfl with ⟨_, hc⟩ | ⟨_, new, hn, rfl⟩
    · exact d.awaits hc
    · cases hn with
      | await p hp => exact ⟨p, rest, rfl⟩
  waits := by
    intro t' b l m code hc
    rcases d.head_proceed h hc rfl with ⟨_, hc⟩ | ⟨_, new, hn, _⟩
    · exact d.waits hc
    · cases hn with
      | wait b => exact ⟨rfl, rfl⟩
  rests := d.rests_proceed h hr

end Proceed

theorem muted_of_brink (h : i.isBrink = true) : i.isMuted = true ∨ i.how? = some .safepoint := by
  cases i with
  | park k =>
    cases k with
    | testLevel p => exact Or.inl h
    | awaitSignal => exact Or.inl rfl
    | retestLevel b => exact Or.inr rfl
    | _ => cases h
  | sync k =>
    cases k with
    | wait q l d =>
      cases q with
      | park b => exact Or.inr rfl
      | _ => cases h
    | _ => cases h
  | _ => cases h

/-- No stop signal comes where it is blocked, or where threads are stopped at safe points. -/
theorem Muted.not_interrupted (m : Muted w) (f : Uniform w) (hj : j ∈ w.codeOf t)
    (h : j.isMuted = true ∨ j.how? = some .safepoint) : w.canInterrupt t = false := by
  cases hi : w.canInterrupt t
  · rfl
  · obtain ⟨hp, hm, _⟩ := canInterrupt_iff.mp hi
    rcases h with h | h
    · rw [m.masked hj h] at hm
      cases hm
    · have hs := (f.sent hp).2
      rw [(f.how hj h).2] at hs
      cases hs

theorem Call.code_awake (c : Call) : (c.code w t).all Instr.isAwake = true := by
  rcases c.code_plain (w := w) (t := t) with hp | ⟨s, r, _, _, he⟩
  · exact awake_of_plain hp
  · rw [he]
    rfl

section Undisturbed

variable (d : Nodding w) (k : Muted w) (f : Uniform w)
include d k f

/-- Code that comes from no instruction is put on top of what is on no brink. -/
theorem Nodding.takes {code : List Instr} (h : Takes w t e code) :
    Tucked code ∧ (∀ j ∈ code, j.isBrink = false) ∧ ∀ r, (.park r, t) ∉ w.asleep := by
  have above {new : List Instr} (hnew : new.all Instr.isAwake = true)
      (hold : ∀ j ∈ w.codeOf t, j.isBrink = false) : Tucked (new ++ w.codeOf t) ∧
      ∀ j ∈ new ++ w.codeOf t, j.isBrink = false := by
    refine ⟨(d.tucked t).append_of_awake hnew, fun j hj => ?_⟩
    rcases List.mem_append.mp hj with hj | hj
    · exact not_brink_of_awake (List.all_eq_true.mp hnew j hj)
    · exact hold j hj
  -- in its own code a thread is on no brink and not asleep
  have user (hu : w.inUser t = true) : (∀ j ∈ w.codeOf t, j.isBrink = false) ∧
      ∀ r, (.park r, t) ∉ w.asleep := by
    obtain ⟨rest, hc⟩ := head_user hu
    refine ⟨?_, fun r ha => ?_⟩
    · have hb := d.below t
      rw [hc] at hb ⊢
      exact List.forall_mem_cons.mpr ⟨rfl, hb⟩
    · obtain ⟨code, hc'⟩ := d.rests ha
      rw [hc] at hc'
      cases hc'
  cases h with
  -- on a brink the signal is blocked, so the handler never comes on top of one
  | interrupt hi =>
    have hold : ∀ j ∈ w.codeOf t, j.isBrink = false := by
      intro j hj
      cases hb : j.isBrink
      · rfl
      · rw [k.not_interrupted f hj (muted_of_brink hb)] at hi
        cases hi
    have hnew : (w.handlerCode t ++ [Instr.guard (.setMask false)]).all Instr.isAwake = true := by
      rw [List.all_append, handlerCode_awake]
      rfl
    refine ⟨(above hnew hold).1, (above hnew hold).2, fun r ha => ?_⟩
    obtain ⟨rest, hc⟩ := d.rests ha
    rw [k.not_interrupted f (hc ▸ List.mem_cons_self) (Or.inr rfl)] at hi
    cases hi
  | invoke c hu =>
    obtain ⟨hb, ha⟩ := user hu
    exact ⟨(above c.code_awake hb).1, (above c.code_awake hb).2, ha⟩
  | finish p hu =>
    obtain ⟨hb, ha⟩ := user hu
    obtain ⟨rest, hc⟩ := head_user hu
    have hk := d.tucked t
    rw [hc] at hk hb ⊢
    refine ⟨?_, fun j hj => ?_, ha⟩
    · unfold epilogue
      split
      next s r code he =>
        rw [← he]
        apply hk.2.append_of_awake
        split <;> rfl
      next => exact hk.2
    · rcases mem_epilogue hj with hj | ⟨s, r, rfl, _⟩
      · exact hb j (List.mem_cons_of_mem _ hj)
      · rfl

theorem Nodding.undisturbed (u : Undisturbed w e w') : Nodding w' where
  tucked t := by
    rcases u.code t with hc | hc
    · rw [hc]
      exact d.tucked t
    · exact (d.takes k f hc).1
  below t := by
    rcases u.code t with hc | hc
    · rw [hc]
      exact d.below t
    · exact fun j hj => (d.takes k f hc).2.1 j (List.mem_of_mem_tail hj)
  awaits := by
    intro t rest h
    rcases u.code t with hc | hc
    · exact d.awaits (hc ▸ h)
    · cases (d.takes k f hc).2.1 _ (h ▸ List.mem_cons_self)
  waits := by
    intro t r l x rest h
    rcases u.code t with hc | hc
    · exact d.waits (hc ▸ h)
    · cases (d.takes k f hc).2.1 _ (h ▸ List.mem_cons_self)
  rests := by
    intro t r h
    have ha := u.asleep.subset h
    rcases u.code t with hc | hc
    · rw [hc]
      exact d.rests ha
    · exact absurd ha ((d.takes k f hc).2.2 r)

end Undisturbed

theorem Alone.nodding (h : Alone n w) : Nodding w := by
  refine h.induct (nodding_initial n) ?_
  intro w e hw _ _ d
  rcases w.step_cases e with ⟨t, i, rest, _, hc, hr, hs⟩ | hu
  · rw [hs]
    exact d.proceed hc hr
  · exact d.undisturbed hw.reachable.muted hw.uniform hu

/-! What follows from being on the brink. -/

section Brink

variable (d : Nodding w) (b : OnBrink w t r m)
include d b

/-- The thread looks at the request again when it has slept. -/
theorem Nodding.loops : ∃ j ∈ w.codeOf t, j.parksOn ParkInstr.isLoop r = true := by
  have tucked {i : Instr} {rest : List Instr} (hi : i.napRecord? = some r)
      (h : w.codeOf t = i :: rest) :
      ∃ j ∈ w.codeOf t, j.parksOn ParkInstr.isLoop r = true := by
    have hk := d.tucked t
    rw [h] at hk
    obtain ⟨p, hp, hm⟩ := hk.1 r hi
    exact ⟨_, h ▸ List.mem_cons_of_mem _ hm,
      parksOn_iff.mpr ⟨.testRequest p, rfl, rfl, congrArg some hp⟩⟩
  cases b with
  | test p rest h hp hr =>
    exact ⟨_, h ▸ List.mem_cons_self,
      parksOn_iff.mpr ⟨.testLevel p, rfl, rfl, congrArg some hr⟩⟩
  | await p rest h hr =>
    exact ⟨_, h ▸ List.mem_cons_of_mem _ List.mem_cons_self,
      parksOn_iff.mpr ⟨.testRequest p, rfl, rfl, congrArg some hr⟩⟩
  | retest rest h => exact tucked rfl h
  | wait rest h => exact tucked rfl h
  | rest h =>
    obtain ⟨rest, h⟩ := d.rests h
    exact tucked rfl h

theorem Nodding.way : ∃ j ∈ w.codeOf t, j.how? = some m := by
  cases b with
  | test p rest h hp hr =>
    exact ⟨.park (.testLevel p), h ▸ List.mem_cons_self, congrArg some hp⟩
  | await p rest h hr => exact ⟨_, h ▸ List.mem_cons_self, rfl⟩
  | retest rest h => exact ⟨_, h ▸ List.mem_cons_self, rfl⟩
  | wait rest h => exact ⟨_, h ▸ List.mem_cons_self, rfl⟩
  | rest h =>
    obtain ⟨rest, h⟩ := d.rests h
    exact ⟨_, h ▸ List.mem_cons_self, rfl⟩

theorem Nodding.not_interrupted (mu : Muted w) (f : Uniform w) : w.canInterrupt t = false := by
  cases b with
  | test p rest h hp hr =>
    exact mu.not_interrupted f (h ▸ List.mem_cons_self) (Or.inl (by simp [Instr.isMuted, hp]))
  | await p rest h hr => exact mu.not_interrupted f (h ▸ List.mem_cons_self) (Or.inl rfl)
  | retest rest h => exact mu.not_interrupted f (h ▸ List.mem_cons_self) (Or.inr rfl)
  | wait rest h => exact mu.not_interrupted f (h ▸ List.mem_cons_self) (Or.inr rfl)
  | rest h =>
    obtain ⟨rest, h⟩ := d.rests h
    exact mu.not_interrupted f (h ▸ List.mem_cons_self) (Or.inr rfl)

end Brink

/-! What is owed to a thread on the brink stays owed until it has been given. -/

theorem Owed.congr (o : Owed w t r m) (hq : w'.isRequested r = w.isRequested r)
    (hp : w'.isPending t = w.isPending t)
    (hc : ∀ q ≠ t, ∀ j ∈ w.codeOf q, j ≠ .user → j ∈ w'.codeOf q) : Owed w' t r m := by
  rcases o with o | ⟨q, hne, j, hj, hw⟩ | ⟨hm, o⟩ | ⟨hm, q, hne, hj⟩
  · exact Or.inl (hq.trans o)
  · refine Or.inr (Or.inl ⟨q, hne, j, hc q hne j hj ?_, hw⟩)
    rintro rfl
    cases hw
  · exact Or.inr (Or.inr (Or.inl ⟨hm, hp.trans o⟩))
  · exact Or.inr (Or.inr (Or.inr ⟨hm, q, hne, hc q hne _ hj (fun h => by cases h)⟩))

theorem isPending_signalOwner_self (ho : w.ownerOf r = some t) (ht : t < w.threads.length) :
    (w.signalOwner r).isPending t = true := by
  simp [signalOwner, ho, isPending, sendSignal, ofThread_modThread, ofThread_const, ht]

section Proceed

variable (h : w.codeOf q = i :: rest) (hne : q ≠ t)
include h hne

theorem waking_of_remainder (hj : j ∈ w.remainder q i rest) (hw : j.wakes r = true) :
    Waking (w.proceed q i rest) t r := by
  refine ⟨q, hne, j, ?_, hw⟩
  rw [codeOf_proceed h]
  exact List.mem_append_left _ hj

/-- Whoever clears a request goes on to wake the owner. -/
theorem requested_or_waking (c : Custody w) (g : Registered w) (ho : Orderly (w.codeOf q))
    (hown : w.ownerOf r = some t) (hq : w.isRequested r = true) :
    (w.proceed q i rest).isRequested r = true ∨ Waking (w.proceed q i rest) t r := by
  cases hc : i.clears r
  · exact Or.inl (isRequested_run (w := w.setCode q rest) i hc hq)
  have hi : i ∈ w.codeOf q := h ▸ List.mem_cons_self
  cases i with
  | stop k =>
    cases k with
    | withdraw b => exact absurd hi (g.kept q b)
    | resumeClear s b =>
      exact Or.inr (waking_of_remainder (j := .stop (.resumeLevel s b)) h hne List.mem_cons_self hc)
    | freeClear s b =>
      exact Or.inr (waking_of_remainder (j := .stop (.freeLevel s b)) h hne List.mem_cons_self hc)
    | _ => cases hc
  | member k =>
    cases k with
    | clearRequest b =>
      -- only the owner itself clears its request so
      obtain rfl : b = r := by simpa [Instr.clears] using hc
      rcases c.tends ho h (Or.inr (Or.inr rfl)) with hb | hb
      · rw [hown] at hb
        exact absurd (Option.some.inj hb).symm hne
      · cases hb
    | _ => cases hc
  | _ => cases hc

theorem ringing_of_remainder (hj : .sync (.notifyAll (.park r)) ∈ w.remainder q i rest) :
    Ringing (w.proceed q i rest) t r := by
  refine ⟨q, hne, ?_⟩
  rw [codeOf_proceed h]
  exact List.mem_append_left _ hj

omit h hne in
theorem remainder_resumeLevel (q : ThreadId) (s : ServiceId) (rest : List Instr)
    (hl : w.levelOf r = .noBlock) :
    w.remainder q (.stop (.resumeLevel s r)) rest = [.stop (.resumeWake s r)] := by
  have hs : (w.setCode q rest).levelOf r = .noBlock := hl
  simp only [remainder, Instr.run, StopInstr.run, hs, if_true]

omit h hne in
theorem remainder_freeLevel (q : ThreadId) (s : ServiceId) (rest : List Instr)
    (hl : w.levelOf r = .noBlock) :
    w.remainder q (.stop (.freeLevel s r)) rest = [.stop (.freeWake s r)] := by
  have hs : (w.setCode q rest).levelOf r = .noBlock := hl
  simp only [remainder, Instr.run, StopInstr.run, hs, if_true]

/-- A wake-up reaches the owner: its signal is sent to it, or the bell is about to be rung. -/
theorem woken_of_wake (hi : i = .stop (.resumeWake s r) ∨ i = .stop (.freeWake s r))
    (hown : w.ownerOf r = some t) (ht : t < w.threads.length) :
    w.mechanism s = .signal ∧ (w.proceed q i rest).isPending t = true ∨
      w.mechanism s = .safepoint ∧ Ringing (w.proceed q i rest) t r := by
  have ho : (w.setCode q rest).ownerOf r = some t := hown
  have hm : (w.setCode q rest).mechanism s = w.mechanism s := rfl
  have hl : t < (w.setCode q rest).threads.length := by rwa [threads_length_setCode]
  have hout : (w.setCode q rest).isOutOfReach s r = false := by simp [isOutOfReach, ho]
  cases hw : w.mechanism s
  · left
    refine ⟨rfl, ?_⟩
    rw [isPending_proceed]
    rcases hi with rfl | rfl
    · simp only [Instr.run, StopInstr.run, hout, hm, hw, Bool.false_eq_true, if_false]
      exact isPending_signalOwner_self ho hl
    · simp only [Instr.run, StopInstr.run, hm, hw]
      exact isPending_signalOwner_self ho hl
  · right
    refine ⟨rfl, ringing_of_remainder h hne ?_⟩
    rcases hi with rfl | rfl
    · simp [remainder, Instr.run, StopInstr.run, hout, hm, hw, ringPark, locked]
    · simp [remainder, Instr.run, StopInstr.run, hm, hw, ringPark, locked]

/-- A thread that is to wake the owner stays so until it does, as the level is `noBlock`. -/
theorem Waking.proceed (o : Waking w t r) (f : Uniform w) (hown : w.ownerOf r = some t)
    (ht : t < w.threads.length) (hl : w.levelOf r = .noBlock) (hm : w.mechanism 0 = m) :
    Owed (w.proceed q i rest) t r m := by
  obtain ⟨q', hne', j, hj, hw⟩ := o
  by_cases hji : q' = q ∧ j = i
  · obtain ⟨rfl, rfl⟩ := hji
    -- the owner is woken in the way of the only service there is
    have woken {s : ServiceId} (hs : j.service? = some s)
        (hj : j = .stop (.resumeWake s r) ∨ j = .stop (.freeWake s r)) :
        Owed (w.proceed q' j rest) t r m := by
      obtain rfl := f.service_eq_zero h hs
      rcases woken_of_wake h hne hj hown ht with ⟨hk, hp⟩ | ⟨hk, hp⟩
      · exact Or.inr (Or.inr (Or.inl ⟨hm.symm.trans hk, hp⟩))
      · exact Or.inr (Or.inr (Or.inr ⟨hm.symm.trans hk, hp⟩))
    cases j with
    | stop k =>
      cases k with
      -- the level is no block, so the look at it leads to the wake-up
      | resumeLevel s b =>
        obtain rfl : b = r := by simpa [Instr.wakes] using hw
        have hr := remainder_resumeLevel q' s rest hl
        exact Or.inr (Or.inl (waking_of_remainder (j := .stop (.resumeWake s b)) h hne
          (hr ▸ List.mem_cons_self) hw))
      | freeLevel s b =>
        obtain rfl : b = r := by simpa [Instr.wakes] using hw
        have hr := remainder_freeLevel q' s rest hl
        exact Or.inr (Or.inl (waking_of_remainder (j := .stop (.freeWake s b)) h hne
          (hr ▸ List.mem_cons_self) hw))
      | resumeWake s b =>
        obtain rfl : b = r := by simpa [Instr.wakes] using hw
        exact woken rfl (Or.inl rfl)
      | freeWake s b =>
        obtain rfl : b = r := by simpa [Instr.wakes] using hw
        exact woken rfl (Or.inr rfl)
      | _ => cases hw
    | _ => cases hw
  · exact Or.inr (Or.inl ⟨q', hne', j,
      mem_codeOf_proceed_of_mem h hj fun hq hj' => hji ⟨hq, hj'⟩, hw⟩)

omit h in
theorem pending_proceed (hp : w.isPending t = true) : (w.proceed q i rest).isPending t = true := by
  have hs : (w.setCode q rest).isPending t = w.isPending t := ofThread_setCode fun _ _ => rfl
  rw [isPending_proceed]
  rcases isPending_run (w := w.setCode q rest) i q t with he | ⟨_, ht⟩ | ⟨he, _⟩
  · rw [he, hs, hp]
  · exact absurd ht.symm hne
  · exact he

/-- A thread that the bell is rung for sleeps no longer, and is not about to, as the ringer holds the
park lock. -/
theorem Ringing.proceed (o : Ringing w t r) (k : Keeping w) (ht : t < w.threads.length)
    (b : OnBrink (w.proceed q i rest) t r .safepoint) : Ringing (w.proceed q i rest) t r := by
  obtain ⟨q', hne', hj⟩ := o
  by_cases hji : q' = q ∧ .sync (.notifyAll (.park r)) = i
  · obtain ⟨rfl, rfl⟩ := hji
    have holds {t : ThreadId} {j : Instr} {code : List Instr} (hc : w.codeOf t = j :: code)
        (hk : .lock (.park r) ∈ j.closes) : (.park r, t) ∈ w.held := by
      obtain ⟨hs, hk'⟩ := k.keeps t
      have hf := hk'.code
      rw [hc] at hf
      obtain ⟨fs, rfl, _, _⟩ := hf
      rw [← mem_locksOf, hk'.locks]
      exact List.mem_filterMap.mpr ⟨_, List.mem_append_left _ hk, rfl⟩
    have ringer := holds h List.mem_cons_self
    have hsame := codeOf_proceed_of_ne h (Ne.symm hne) ht
    exfalso
    cases b with
    | retest code hc =>
      exact hne (k.holder_unique ringer (holds (hsame.symm.trans hc) List.mem_cons_self))
    | wait code hc =>
      exact hne (k.holder_unique ringer (holds (hsame.symm.trans hc) List.mem_cons_self))
    | rest ha =>
      have hf : (.park r, t) ∈ w.asleep.filter (·.1 != .park r) := ha
      simp at hf
  · exact ⟨q', hne', mem_codeOf_proceed_of_mem h hj fun hq hj' => hji ⟨hq, hj'⟩⟩

end Proceed

section Proceed

variable (d : Nodding w) (h : w.codeOf q = i :: rest) (hr : i.isReady w q = true)
include d h hr

omit d h hr in
theorem isPending_setCode : (w.setCode q rest).isPending t = w.isPending t :=
  ofThread_setCode fun _ _ => rfl

/-- A thread on the brink was there before the step, and has not been told anything by a step of its
own, or it has just seen its request standing. -/
theorem Nodding.brink_proceed (b : OnBrink (w.proceed q i rest) t r m) :
    (w.proceed q i rest).isRequested r = true ∨ OnBrink w t r m ∧
      (q = t → (w.proceed q i rest).isRequested r = w.isRequested r ∧
        (w.proceed q i rest).isPending t = w.isPending t) := by
  cases b with
  | test p code hc hp hpr =>
    have hb : (Instr.park (.testLevel p)).isBrink = true := by simp [Instr.isBrink, hp]
    rcases d.head_proceed h hc hb with ⟨ht, hc⟩ | ⟨_, new, hn, _⟩
    · exact Or.inr ⟨.test p code hc hp hpr, fun he => absurd he.symm ht⟩
    · left
      cases hn with
      | look _ _ hq => exact hpr ▸ hq
  | await p code hc hpr =>
    rcases d.head_proceed h hc rfl with ⟨ht, hc⟩ | ⟨rfl, new, hn, hcode⟩
    · exact Or.inr ⟨.await p code hc hpr, fun he => absurd he.symm ht⟩
    · right
      cases hn with
      | await p' hp =>
        obtain ⟨hpp, _⟩ := List.cons.inj hcode
        obtain rfl : p = p' := by simpa using hpp
        exact ⟨.test p rest h hp hpr, fun _ => ⟨rfl, isPending_proceed.trans isPending_setCode⟩⟩
  | retest code hc =>
    rcases d.head_proceed h hc rfl with ⟨ht, hc⟩ | ⟨_, new, hn, _⟩
    · exact Or.inr ⟨.retest code hc, fun he => absurd he.symm ht⟩
    · left
      cases hn with
      | relook _ hq => exact hq
  | wait code hc =>
    rcases d.head_proceed h hc rfl with ⟨ht, hc⟩ | ⟨rfl, new, hn, _⟩
    · exact Or.inr ⟨.wait code hc, fun he => absurd he.symm ht⟩
    · right
      cases hn with
      | wait _ =>
        exact ⟨.retest rest h, fun _ => ⟨rfl, isPending_proceed.trans isPending_setCode⟩⟩
  -- a sleeper that is not due takes no step, so a step of its own is the one that put it to sleep
  | rest ha =>
    right
    rcases mem_asleep_proceed ha with hold | ⟨ht, l, x, rfl⟩
    · refine ⟨.rest hold, ?_⟩
      rintro rfl
      obtain ⟨code, hc⟩ := d.rests hold
      rw [h] at hc
      obtain ⟨rfl, rfl⟩ := List.cons.inj hc
      simp [Instr.isReady, SyncInstr.isReady, isDue, hold] at hr
    · obtain rfl : t = q := ht
      obtain ⟨rfl, rfl⟩ := d.waits h
      exact ⟨.wait rest h, fun _ => ⟨rfl, isPending_proceed.trans isPending_setCode⟩⟩

theorem owed_proceed (hw : Alone n w) (o : ∀ {t r m}, OnBrink w t r m → Owed w t r m)
    (b : OnBrink (w.proceed q i rest) t r m) : Owed (w.proceed q i rest) t r m := by
  have hreach := hw.reachable
  rcases d.brink_proceed h hr b with hq | ⟨b₀, hsame⟩
  · exact Or.inl hq
  by_cases hne : q = t
  · obtain ⟨hq, hp⟩ := hsame hne
    subst hne
    refine (o b₀).congr hq hp ?_
    intro q' hne' j hj _
    exact mem_codeOf_proceed_of_mem h hj fun he => absurd he hne'
  · obtain ⟨j, hj, hl⟩ := d.loops b₀
    have hc := committed_of_loop hl
    obtain ⟨j', hj', hh⟩ := d.way b₀
    have hlt : t < w.threads.length := lt_of_codeOf (List.ne_nil_of_mem hj)
    have hown := hreach.custody.parked hj (parkRecord_of_parksOn hc)
    have hlevel := hreach.parkLoop.level hj hc
    have hmech := (hw.uniform.how hj' hh).2
    rcases o b₀ with hq | hk | ⟨hm, hp⟩ | ⟨hm, hk⟩
    · rcases requested_or_waking h hne hreach.custody hreach.registered (hreach.orderly q) hown hq
        with hq | hk
      · exact Or.inl hq
      · exact Or.inr (Or.inl hk)
    · exact hk.proceed h hne hw.uniform hown hlt hlevel hmech
    · exact Or.inr (Or.inr (Or.inl ⟨hm, pending_proceed hne hp⟩))
    · subst hm
      exact Or.inr (Or.inr (Or.inr ⟨rfl, hk.proceed h hne hreach.keeping hlt b⟩))

end Proceed

theorem OnBrink.undisturbed (d : Nodding w) (k : Muted w) (f : Uniform w)
    (u : Undisturbed w e w') (b : OnBrink w' t r m) : OnBrink w t r m := by
  have same {j : Instr} {code : List Instr} (hc : w'.codeOf t = j :: code)
      (hj : j.isBrink = true) : w.codeOf t = j :: code := by
    rcases u.code t with hs | hs
    · rwa [← hs]
    · rw [(d.takes k f hs).2.1 j (hc ▸ List.mem_cons_self)] at hj
      cases hj
  cases b with
  | test p code hc hp hpr => exact .test p code (same hc (by simp [Instr.isBrink, hp])) hp hpr
  | await p code hc hpr => exact .await p code (same hc rfl) hpr
  | retest code hc => exact .retest code (same hc rfl)
  | wait code hc => exact .wait code (same hc rfl)
  | rest ha => exact .rest (u.asleep.subset ha)

/-- As long as a thread is on the brink of a sleep, or sleeps, it is owed something. -/
theorem Alone.owed (hw : Alone n w) : ∀ {t r m}, OnBrink w t r m → Owed w t r m := by
  refine hw.induct (P := fun w => ∀ {t r m}, OnBrink w t r m → Owed w t r m) ?_ ?_
  · intro t r m b
    obtain ⟨j, hj, hc⟩ := (nodding_initial n).loops b
    rw [eq_user_of_initial hj] at hc
    cases hc
  · intro w e hw _ _ o t r m b
    have hmuted := hw.reachable.muted
    rcases w.step_cases e with ⟨q, i, rest, _, hc, hr, hs⟩ | u
    · rw [hs] at b ⊢
      exact owed_proceed hw.nodding hc hr hw o b
    · have b₀ := b.undisturbed hw.nodding hmuted hw.uniform u
      have hpend : (w.step e).isPending t = w.isPending t := by
        rcases u.signals t with ⟨hp, _⟩ | ⟨hi, _⟩
        · exact hp
        · rw [hw.nodding.not_interrupted b₀ hmuted hw.uniform] at hi
          cases hi
      refine (o b₀).congr u.ofRecord hpend ?_
      intro q _ j hj hu
      rcases u.code q with hc | hc
      · rwa [hc]
      · exact hc.mem_of_mem hj hu

/-! The theorem. -/

/-- Thread `t` sleeps in its park loop on account of record `r`: under the park lock, or until a
signal comes, and none has been sent to it. -/
inductive Asleep (w : World) (t : ThreadId) : RecordId → Prop
  | wait (r : RecordId) (h : (.park r, t) ∈ w.asleep) : Asleep w t r
  | signal (p : Parking) (rest : List Instr)
    (h : w.codeOf t = .park .awaitSignal :: .park (.testRequest p) :: rest)
    (hp : w.isPending t = false) : Asleep w t p.record

theorem Asleep.onBrink (ha : Asleep w t r) :
    ∃ m, OnBrink w t r m ∧ (m = .signal → w.isPending t = false) := by
  cases ha with
  | wait _ h => exact ⟨_, .rest h, fun h => by cases h⟩
  | signal p rest h hp => exact ⟨_, .await p rest h rfl, fun _ => hp⟩

/-- A sleeper has still to look at its request once more. -/
theorem Asleep.loops (ha : Asleep w t r) (d : Nodding w) :
    ∃ j ∈ w.codeOf t, j.parksOn ParkInstr.isLoop r = true :=
  let ⟨_, b, _⟩ := ha.onBrink
  d.loops b

/-- A sleeper has been asked to stop, or another thread has still to wake it. -/
theorem Alone.owed_of_asleep (hw : Alone n w) (ha : Asleep w t r) :
    w.isRequested r = true ∨ Waking w t r ∨ Ringing w t r := by
  obtain ⟨m, b, hm⟩ := ha.onBrink
  rcases hw.owed b with hq | hk | ⟨he, hp⟩ | ⟨_, hk⟩
  · exact Or.inl hq
  · exact Or.inr (Or.inl hk)
  · rw [hm he] at hp
    cases hp
  · exact Or.inr (Or.inr hk)

/-- No wake-up is lost: whoever sleeps in its park loop sleeps on a record of its own, and its request
stands or another thread, having cleared it, has still to wake the sleeper. -/
theorem no_wake_up_is_lost (hw : Alone n w) (t : ThreadId) :
    (∀ r, Asleep w t r → w.ownerOf r = some t ∧
      (w.isRequested r = true ∨ Waking w t r ∨ Ringing w t r)) ∧
    ((w.codeOf t).head? = some (.park .awaitSignal) → w.isPending t = false →
      ∃ r, Asleep w t r) := by
  have d := hw.nodding
  refine ⟨fun r ha => ?_, fun hh hp => ?_⟩
  · obtain ⟨j, hj, hl⟩ := ha.loops d
    exact ⟨hw.reachable.custody.parked hj (parkRecord_of_parksOn hl), hw.owed_of_asleep ha⟩
  -- a thread that waits for the signal is in the loop of a record, and with none pending it sleeps
  · cases hc : w.codeOf t with
    | nil =>
      rw [hc] at hh
      cases hh
    | cons i code =>
      rw [hc] at hh
      obtain rfl := Option.some.inj hh
      obtain ⟨p, rest, rfl⟩ := d.awaits hc
      exact ⟨p.record, .signal p rest hc hp⟩

/-- The second thread is parked by the stop signal, and the first has cleared its request and not yet
looked whether to wake it. -/
def clearedSleeper : List Event :=
  .invoke 0 (.establish { mechanism := .signal }) :: turns 0 5 ++
    .invoke 1 (.attach 0 "late") :: turns 1 5 ++
    .invoke 0 (.suspendAll 0) :: turns 0 12 ++ .interrupt 1 :: turns 1 12 ++
    .invoke 0 (.resumeAll 0) :: turns 0 4

theorem cleared_sleeper_is_being_woken :
    Asleep ((World.initial 2).run clearedSleeper) 1 1 ∧
      ((World.initial 2).run clearedSleeper).isRequested 1 = false ∧
      (Waking ((World.initial 2).run clearedSleeper) 1 1 ∨
        Ringing ((World.initial 2).run clearedSleeper) 1 1) := by
  have hw : Alone 2 ((World.initial 2).run clearedSleeper) :=
    ⟨clearedSleeper, by decide +kernel, rfl, by decide +kernel⟩
  have hc : ((World.initial 2).run clearedSleeper).codeOf 1 =
      [.park .awaitSignal, .park (.testRequest ⟨.signal, 1, .running⟩),
        .guard (.setMask false), .user] := by decide +kernel
  have ha : Asleep ((World.initial 2).run clearedSleeper) 1 1 :=
    .signal ⟨.signal, 1, .running⟩ _ hc (by decide +kernel)
  have hq : ((World.initial 2).run clearedSleeper).isRequested 1 = false := by decide +kernel
  refine ⟨ha, hq, ?_⟩
  rcases ((no_wake_up_is_lost hw 1).1 1 ha).2 with h | h
  · rw [hq] at h
    cases h
  · exact h

end Standstill
