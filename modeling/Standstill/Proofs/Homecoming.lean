import Standstill.Proofs.StartGate
import Standstill.Proofs.Unwinding

/-!
How a thread comes back from a call. Guards, sleeping phases and park loops each note what they have
found of the level and the phase and bring it back, and they lie within one another in any order. Main
statement: whatever a call answers, and however often its thread has been stopped and let go inside it,
the record that stands for the thread has the level and the phase again that it had at the call, and
the call has set no other record's.
-/
namespace Standstill

open World

variable {n : Nat} {w w' : World} {t q : ThreadId} {r b : RecordId} {i j : Instr} {k : ParkInstr}
  {base top rest code : List Instr} {x : Scope} {xs : List Scope} {rs : List ThreadRecord} {e : Event}
  {es : List Event}

/-! The level and the phase of a record. -/

/-- How a record stands to being stopped. -/
structure Stance where
  level : Level
  phase : Phase
  deriving DecidableEq, Repr

def ThreadRecord.stance (c : ThreadRecord) : Stance := ⟨c.level, c.phase⟩

def World.stanceOf (w : World) (r : RecordId) : Stance := ⟨w.levelOf r, w.phaseOf r⟩

theorem stanceOf_eq : w.stanceOf r = w.ofRecord r ⟨.noBlock, .creating⟩ ThreadRecord.stance := by
  simp only [stanceOf, levelOf_eq, phaseOf_eq, ofRecord]
  cases w.records[r]? <;> rfl

theorem getElem?_stance (hr : r < w.records.length) :
    w.records[r]?.map ThreadRecord.stance = some (w.stanceOf r) := by
  rw [stanceOf_eq, ofRecord, List.getElem?_eq_getElem hr]
  rfl

theorem stanceOf_modRecord {f : ThreadRecord → ThreadRecord} (hf : ∀ c, (f c).stance = c.stance) :
    (w.modRecord b f).stanceOf r = w.stanceOf r := by
  simp only [stanceOf_eq, ofRecord_modRecord, hf, ite_self]

theorem stanceOf_setPhase {p : Phase} (hr : r < w.records.length) :
    (w.setPhase r p).stanceOf r = { w.stanceOf r with phase := p } := by
  simp [stanceOf_eq, World.setPhase, modRecord, ofRecord, ThreadRecord.stance, hr]

theorem stanceOf_proceed_of_not_tends (hx : ¬Tends w t i r) (hr : r < w.records.length) :
    (w.proceed t i rest).stanceOf r = w.stanceOf r := by
  rw [stanceOf, levelOf_proceed_of_not_tends hx, phaseOf_proceed_of_not_tends hx hr, stanceOf]

/-! What is left to do brings a stance back. -/

/-- The phase that the instruction takes up again when it leaves the park loop. -/
def Instr.previous? : Instr → Option Phase
  | .park (.spill p) | .park (.mark p) | .park (.count p) | .park (.testRequest p)
  | .park (.testLevel p) | .park (.restore p) => some p.previous
  | _ => none

def Stance.afterInstr (g : Stance) (i : Instr) : Stance :=
  match i.previous? with
  | some p => { g with phase := p }
  | none => g

/-- What closing the scope makes of the stance of record `r`. -/
def Stance.afterScope (r : RecordId) (g : Stance) : Scope → Stance
  | .guard (some b) _ l => if b = r then { g with level := l } else g
  | .phase (some b) p => if b = r then { g with phase := p } else g
  | _ => g

/-- The stance in which record `r` will be once its thread `t` has done `top` and has closed its
scopes. -/
def World.prospect (w : World) (t : ThreadId) (r : RecordId) (top : List Instr) : Stance :=
  (w.scopesOf t).foldl (Stance.afterScope r) (top.foldl Stance.afterInstr (w.stanceOf r))

theorem foldl_afterInstr (g : Stance) (h : ∀ j ∈ code, j.previous? = none) :
    code.foldl Stance.afterInstr g = g := by
  induction code generalizing g with
  | nil => rfl
  | cons i code ih =>
    obtain ⟨hi, hc⟩ := List.forall_mem_cons.mp h
    have hg : g.afterInstr i = g := by simp only [Stance.afterInstr, hi]
    rw [List.foldl_cons, hg, ih g hc]

/-- Code that comes from no instruction has no phase to take up again. -/
theorem previous_of_loose (h : code.all Instr.isLoose = true) : ∀ j ∈ code, j.previous? = none := by
  intro j hj
  have hl := List.all_eq_true.mp h j hj
  cases j with
  | park k => cases k <;> first | rfl | cases hl
  | _ => rfl

theorem Scope.stance_undo (x : Scope) :
    (x.undo rs)[r]?.map ThreadRecord.stance =
      (rs[r]?.map ThreadRecord.stance).map (Stance.afterScope r · x) := by
  -- a scope about another record leaves this one's stance alone
  have same (h : ∀ g : Stance, g.afterScope r x = g) :
      (rs[r]?.map ThreadRecord.stance).map (Stance.afterScope r · x) =
        rs[r]?.map ThreadRecord.stance := by
    cases rs[r]? <;> simp [h]
  cases x with
  | guard b _ l | phase b l =>
    cases b with
    | none => exact (same fun _ => rfl).symm
    | some b =>
      simp only [Scope.undo, List.getElem?_modify]
      by_cases hb : b = r
      · cases rs[r]? <;> simp [hb, Stance.afterScope, ThreadRecord.stance]
      · rw [same fun _ => if_neg hb]
        cases rs[r]? <;> simp [hb]

theorem stance_unwind :
    (unwind xs rs)[r]?.map ThreadRecord.stance =
      (rs[r]?.map ThreadRecord.stance).map (xs.foldl (Stance.afterScope r)) := by
  induction xs generalizing rs with
  | nil => exact (Option.map_id' ..).symm
  | cons x xs ih =>
    rw [unwind_cons, ih, x.stance_undo, Option.map_map]
    rfl

/-- The records as they will be tell the stance, if nothing is left that takes a phase up again. -/
theorem stance_unwound (hr : r < w.records.length) :
    (w.unwound t)[r]?.map ThreadRecord.stance = some (w.prospect t r []) := by
  rw [unwound, stance_unwind, getElem?_stance hr]
  rfl

theorem prospect_append (h : ∀ j ∈ code, j.previous? = none) :
    w.prospect t r (code ++ top) = w.prospect t r top := by
  rw [prospect, List.foldl_append, foldl_afterInstr _ h, prospect]

theorem prospect_of_calm (h : ∀ j ∈ top, j.isUrgent = false) :
    w.prospect t r top = w.prospect t r [] := by
  rw [← List.append_nil top]
  refine prospect_append fun j hj => ?_
  have hu := h j hj
  cases j with
  | park => cases hu
  | _ => rfl

theorem prospect_congr (hs : w'.scopesOf t = w.scopesOf t) (hg : w'.stanceOf r = w.stanceOf r) :
    w'.prospect t r top = w.prospect t r top := by
  rw [prospect, hs, hg, prospect]

/-- A step of the park loop notes the phase, sets it, or brings it back. -/
theorem ParkInstr.stance_run (k : ParkInstr) (hk : ∀ b, k.record? = some b → b = r)
    (hr : r < w.records.length) :
    (k.run t w).2.foldl Stance.afterInstr ((k.run t w).1.stanceOf r) =
      (w.stanceOf r).afterInstr (.park k) := by
  cases k with
  | check tests entry b =>
    rcases tests with _ | ⟨x, tests⟩
    · rcases entry with _ | _ | _ <;> simp only [ParkInstr.run]
      · rfl
      · split <;> rfl
      · rfl
    · simp only [ParkInstr.run]
      split <;> rfl
  | save sleep b =>
    obtain rfl := hk b rfl
    rfl
  | spill p => exact congrArg (Stance.afterInstr · (.park (.mark p))) (stanceOf_modRecord fun _ => rfl)
  | mark p =>
    obtain rfl := hk p.record rfl
    exact (congrArg (Stance.afterInstr · (.park (.count p))) (stanceOf_setPhase hr)).trans rfl
  | count p =>
    exact congrArg (Stance.afterInstr · (.park (.testRequest p))) (stanceOf_modRecord fun _ => rfl)
  | testRequest p | testLevel p =>
    simp only [ParkInstr.run, Parking.sleepCode]
    repeat' split
    all_goals rfl
  | retestRequest b | retestLevel b =>
    simp only [ParkInstr.run]
    split <;> rfl
  -- the handler notes and sets nothing until it parks itself
  | awaitSignal => exact foldl_afterInstr _ (previous_of_loose handlerCode_loose)
  | restore p =>
    obtain rfl := hk p.record rfl
    exact stanceOf_setPhase hr

/-! Calls that keep to guards. -/

/-- The instruction sets no level but for the time of a guard, and gives its thread no other record. -/
def Instr.isScoped : Instr → Bool
  | .guard g => g.isScoped
  | .member (.awaitExit ..) | .member (.awaitExitCheck ..) => true
  | .user | .member _ => false
  | _ => true

/-- The call neither makes or ends a membership nor sets a level that outlasts it. -/
def Call.isScoped : Call → Bool
  | .establish _ | .spawn .. | .attach .. | .detach _ | .disableSuspend _ | .enableSuspend _
  | .disableSuspendFast _ | .enableSuspendFast _ => false
  | _ => true

theorem scoped_of_work (h : i.isWork = true) : i.isScoped = true := by
  cases i with
  | guard g => cases g <;> first | rfl | cases h
  | sync | pool | read => rfl
  | _ => cases h

theorem scoped_of_nested (h : i.isNested = true) : i.isScoped = true := by
  cases i with
  | guard g => cases g <;> first | rfl | cases h
  | sync | park => rfl
  | _ => cases h

section Scoped

attribute [local simp] Instr.isScoped GuardInstr.isScoped stopIfDue

theorem run_scoped (h : i.isScoped = true) : (i.run t w).2.all Instr.isScoped = true := by
  cases i with
  | user => cases h
  | sync k => cases k <;> rfl
  | guard g =>
    cases g <;> simp only [Instr.run, GuardInstr.run] <;> repeat' split
    all_goals rfl
  | park k => exact all_imp scoped_of_nested (run_nested rfl)
  | stop k =>
    cases k with
    | scanRequest s d rs settled =>
      cases rs <;> simp only [Instr.run, StopInstr.run]
      · simp
      · split <;> simp
    | _ =>
      simp only [Instr.run, StopInstr.run, resumeAllCode]
      repeat' split
      all_goals simp
  | pool k => exact all_imp scoped_of_work k.run_work
  | member k =>
    cases k with
    | awaitExit | awaitExitCheck =>
      simp only [Instr.run, MemberInstr.run]
      repeat' split
      all_goals simp
    | _ => cases h
  | read k => exact all_imp scoped_of_work k.run_work

theorem Call.code_scoped {c : Call} (h : c.isScoped = true) :
    (c.code w t).all Instr.isScoped = true := by
  cases c with
  | safePoint s =>
    simp only [Call.code]
    split <;> simp
  | mutex s a c => cases a <;> cases c <;> simp [Call.code, MutexCall.code]
  | cond s a c => cases a <;> cases c <;> simp [Call.code, CondCall.code]
  | _ =>
    first
    | (simp [Call.code, inquireCode, suspendAllCode, resumeAllCode, sleepCode]; done)
    | cases h

end Scoped

/-- What such an instruction leaves sets no phase and parks nowhere, if it is not about guards or
parking itself. -/
theorem run_unprompted (hi : i.isScoped = true) (hg : ∀ g, i ≠ .guard g) (hk : ∀ k, i ≠ .park k) :
    ∀ j ∈ (i.run t w).2, j.isPrompt = false := by
  cases i with
  | user => cases hi
  | sync k => cases k <;> simp [Instr.run, SyncInstr.run, Instr.isPrompt]
  | guard g => exact absurd rfl (hg g)
  | park k => exact absurd rfl (hk k)
  | stop k => exact unprompted_of_plain k.run_plain
  | pool k => exact unprompted_of_plain k.run_plain
  | member k =>
    cases k with
    | awaitExit | awaitExitCheck =>
      apply unprompted_of_plain
      simp only [Instr.run, MemberInstr.run]
      repeat' split
      all_goals rfl
    | _ => cases hi
  | read k => exact unprompted_of_plain k.run_plain

/-- And it changes no record's stance. -/
theorem stanceOf_run (hi : i.isScoped = true) (hg : ∀ g, i ≠ .guard g) (hk : ∀ k, i ≠ .park k) :
    (i.run t w).1.stanceOf r = w.stanceOf r := by
  rw [stanceOf_eq, stanceOf_eq]
  cases i with
  | user => cases hi
  | sync k =>
    obtain ⟨_, _, he⟩ := k.run_fst (w := w) (t := t)
    rw [Instr.run, he]
    rfl
  | guard g => exact absurd rfl (hg g)
  | park k => exact absurd rfl (hk k)
  | stop k => exact k.ofRecord_run fun _ _ => rfl
  | pool k => exact ofRecord_congr k.core_run fun _ => rfl
  | member k =>
    cases k with
    | awaitExit | awaitExitCheck =>
      simp only [Instr.run, MemberInstr.run]
      repeat' split
      all_goals rfl
    | _ => cases hi
  | read k => exact ofRecord_congr k.core_run fun _ => rfl

/-! A thread in its call. -/

/-- Thread `t` has `top` left to do of a call from which the record that stands for it comes back in
stance `g`. -/
structure Homebound (w : World) (t : ThreadId) (r : RecordId) (g : Stance) (base top : List Instr) :
    Prop extends InCall w t base top where
  inScope : top.all Instr.isScoped = true
  bound : w.bindingOf t = some r
  opened : ∀ x ∈ w.scopesOf t, ∀ b, x.record? = some b → b = r
  parked : ∀ j ∈ top, ∀ b, j.parkRecord? = some b → b = r
  prospect : w.prospect t r top = g

variable {g : Stance}

section Proceed

variable (m : Homebound w t r g base (i :: top))
include m

theorem Homebound.scoped_head : i.isScoped = true :=
  List.all_eq_true.mp m.inScope i List.mem_cons_self

/-- Such a thread looks after one record. -/
theorem Homebound.tends (hb : Tends w t i b) : b = r := by
  rcases hb with hb | ⟨x, hx, hb⟩ | hb
  · exact Option.some.inj (hb.symm.trans m.bound)
  · exact m.opened x hx b hb
  · have hp (h : i.parkRecord? = some b) : b = r := m.parked i List.mem_cons_self b h
    have hi := m.scoped_head
    cases i with
    | guard g =>
      cases g with
      -- the phase that is set back is that of the scope on top
      | setPhase c p =>
        obtain rfl : c = b := Option.some.inj hb
        obtain ⟨q, xs, hx⟩ := m.noted List.mem_cons_self
        exact m.opened _ (hx ▸ List.mem_cons_self) c rfl
      | _ => cases hb
    | member k =>
      cases k with
      | awaitExit | awaitExitCheck => cases hb
      | _ => cases hi
    | _ => exact hp hb

theorem Homebound.stanceOf_proceed_of_ne (hb : b ≠ r) :
    (w.proceed t i (top ++ base)).stanceOf b = w.stanceOf b := by
  have hx : ¬Tends w t i b := fun h => hb (m.tends h)
  by_cases hi : ∃ k, i = .member k
  · obtain ⟨k, rfl⟩ := hi
    exact stanceOf_run (w := w.setCode t (top ++ base)) m.scoped_head (fun g h => by cases h)
      fun k h => by cases h
  · have hp : (w.proceed t i (top ++ base)).phaseOf b = w.phaseOf b :=
      phaseOf_proceed_of_not_sets fun p hs => (tends_of_setsPhase hs).elim hx fun h => hi h.2
    rw [stanceOf, levelOf_proceed_of_not_tends hx, hp, stanceOf]

omit m in
theorem previous_remainder (hk : ∀ k, i ≠ .park k) :
    i.previous? = none ∧ ∀ j ∈ w.remainder t i rest, j.previous? = none := by
  constructor
  · cases i with
    | park k => exact absurd rfl (hk k)
    | _ => rfl
  · intro j hj
    cases j with
    | park k =>
      rcases remainder_park hj with ⟨k', he, -⟩ | ⟨_, _, _, -, -, rfl⟩ | ⟨_, _, _, -, -, rfl⟩
      · exact absurd he (hk k')
      · rfl
      · rfl
    | _ => rfl

/-- A guard, a step of the park loop and everything else bring the stance back each in its own way. -/
theorem Homebound.prospect_proceed (c : Custody w) (ho : Orderly (w.codeOf t)) :
    (w.proceed t i (top ++ base)).prospect t r (w.remainder t i (top ++ base) ++ top) = g := by
  have h : w.codeOf t = i :: (top ++ base) := m.code
  have hr : r < w.records.length := lt_of_ownerOf (c.bound m.bound)
  by_cases hk : ∃ k, i = .park k
  · obtain ⟨k, rfl⟩ := hk
    rw [← m.prospect, World.prospect, scopesOf_proceed_of_nested rfl, List.foldl_append]
    exact congrArg (fun g => (w.scopesOf t).foldl _ (top.foldl _ g))
      (k.stance_run (w := w.setCode t (top ++ base)) (m.parked _ List.mem_cons_self) hr)
  obtain ⟨hi, hrem⟩ : i.previous? = none ∧
      ∀ j ∈ w.remainder t i (top ++ base), j.previous? = none :=
    previous_remainder fun k he => hk ⟨k, he⟩
  have hone : ∀ j ∈ [i], j.previous? = none := List.forall_mem_singleton.mpr hi
  have hg : w.prospect t r top = g := by
    rw [← m.prospect]
    exact (prospect_append hone).symm
  rw [prospect_append hrem, ← hg]
  by_cases hn : ∃ k, i = .guard k ∧ i.isNested = false
  · -- nothing below parks, so the records as they will be tell the stance
    obtain ⟨k, rfl, hn⟩ := hn
    have hcalm : ∀ j ∈ top, j.isUrgent = false := fun j hj =>
      (h ▸ ho).calm hn j (List.mem_append_left _ hj)
    have hu := m.toInCall.unwound_guard rfl m.scoped_head
    rw [prospect_of_calm hcalm, prospect_of_calm hcalm]
    apply Option.some.inj
    rw [← stance_unwound hr, ← hu, stance_unwound]
    exact Nat.lt_of_lt_of_le hr World.records_length_proceed
  · by_cases hs : ∃ b, i = .guard (.setMask b)
    · obtain ⟨b, rfl⟩ := hs
      exact prospect_congr (scopesOf_proceed_of_nested rfl) rfl
    · have hguard : ∀ k, i ≠ .guard k := by
        rintro k rfl
        refine hn ⟨k, rfl, ?_⟩
        cases k with
        | setMask b => exact absurd ⟨b, rfl⟩ hs
        | _ => rfl
      exact prospect_congr (scopesOf_proceed_of_not_guard hguard)
        (stanceOf_run m.scoped_head hguard fun k he => hk ⟨k, he⟩)

theorem Homebound.inCall_proceed :
    InCall (w.proceed t i (top ++ base)) t base (w.remainder t i (top ++ base) ++ top) := by
  by_cases hg : ∃ k, i = .guard k
  · obtain ⟨k, hk⟩ := hg
    exact m.toInCall.proceed_guard hk
  by_cases hk : ∃ k, i = .park k
  · obtain ⟨k, rfl⟩ := hk
    have hn : (w.remainder t (.park k) (top ++ base)).all Instr.isNested = true := run_nested rfl
    refine m.toInCall.proceed ?_ fun b p hx => ?_
    · exact List.append_nil (w.remainder ..) ▸ topped_of_nested hn List.Pairwise.nil
    · cases List.all_eq_true.mp hn _ hx
  -- all other code neither sets a phase nor parks
  · have hp := run_unprompted (w := w.setCode t (top ++ base)) (t := t) m.scoped_head
      (fun k he => hg ⟨k, he⟩) fun k he => hk ⟨k, he⟩
    refine m.toInCall.proceed (topped_of_none fun j hj => ?_) fun b p hx => ?_
    · rw [hp j hj]
      exact Bool.false_ne_true
    · cases hp _ hx

theorem Homebound.proceed (c : Custody w) (ho : Orderly (w.codeOf t)) :
    Homebound (w.proceed t i (top ++ base)) t r g base (w.remainder t i (top ++ base) ++ top) where
  toInCall := m.inCall_proceed
  inScope := by
    have hi : (i :: top).all Instr.isScoped = true := m.inScope
    rw [List.all_cons, Bool.and_eq_true] at hi
    rw [List.all_append, Bool.and_eq_true]
    exact ⟨run_scoped hi.1, hi.2⟩
  bound := by
    rw [bindingOf_proceed_of_not_binder, m.bound]
    rintro k rfl
    have hi := m.scoped_head
    cases k <;> first | rfl | cases hi
  opened x hx b hb := by
    rcases mem_scopesOf_proceed hx with hx | ⟨-, -, hx⟩
    · exact m.opened x hx b hb
    · cases hx with
      | bare _ hn =>
        rw [hn] at hb
        cases hb
      | guard a l h => exact Option.some.inj (hb.symm.trans (h.symm.trans m.bound))
      | phase a h => exact Option.some.inj (hb.symm.trans (h.symm.trans m.bound))
  parked j hj b hb := by
    rcases List.mem_append.mp hj with hj | hj
    · rcases remainder_parkRecord hj hb with h | ⟨x, hx, h⟩ | h
      · exact m.tends (Or.inl h)
      · exact m.tends (Or.inr (Or.inl ⟨x, hx, h⟩))
      · exact m.tends (Or.inr (Or.inr (record_of_parkRecord h)))
    · exact m.parked j (List.mem_cons_of_mem _ hj) b hb
  prospect := m.prospect_proceed c ho

end Proceed

/-- A step of another thread. -/
theorem Homebound.proceed_of_ne (m : Homebound w t r g base top) (c : Custody w)
    (ho : Orderly (w.codeOf q)) (h : w.codeOf q = i :: rest) (hq : t ≠ q) (hl : t < w.threads.length) :
    Homebound (w.proceed q i rest) t r g base top := by
  have hown : w.ownerOf r = some t := c.bound m.bound
  have hs : (w.proceed q i rest).scopesOf t = w.scopesOf t := scopesOf_proceed_of_ne hq
  have hb : (w.proceed q i rest).bindingOf t = w.bindingOf t :=
    (bindingOf_proceed w q t i rest).resolve_right fun h => hq h.1
  refine ⟨m.toInCall.frame (codeOf_proceed_of_ne h hq hl) hs, m.inScope, hb.trans m.bound, ?_,
    m.parked, ?_⟩
  · rw [hs]
    exact m.opened
  · rw [← m.prospect]
    exact prospect_congr hs
      (stanceOf_proceed_of_not_tends (c.not_tends ho h hown hq) (lt_of_ownerOf hown))

/-- An event in which no instruction is run. -/
theorem Homebound.undisturbed (m : Homebound w t r g base top) (u : Undisturbed w e w')
    (he : e.isBy t = false) : ∃ top', Homebound w' t r g base top' := by
  obtain ⟨new, hnew, m'⟩ := m.toInCall.undisturbed u he
  have hn : new.all Instr.isNested = true ∧ (∀ j ∈ new, j.previous? = none) ∧
      ∀ j ∈ new, ∀ b, j.parkRecord? = some b → b = r := by
    rcases hnew with rfl | rfl
    · simp
    · refine ⟨handler_nested, fun j hj => ?_, fun j hj b hb => ?_⟩
      · rcases List.mem_append.mp hj with hj | hj
        · exact previous_of_loose handlerCode_loose j hj
        · obtain rfl := List.mem_singleton.mp hj
          rfl
      · rcases List.mem_append.mp hj with hj | hj
        · have hbound := handlerCode_record hj (record_of_parkRecord hb)
          exact Option.some.inj (hbound.symm.trans m.bound)
        · obtain rfl := List.mem_singleton.mp hj
          cases hb
  refine ⟨new ++ top, m', ?_, (u.binding t).trans m.bound, ?_, fun j hj => ?_, ?_⟩
  · rw [List.all_append, all_imp scoped_of_nested hn.1, m.inScope]
    rfl
  · rw [u.scopes]
    exact m.opened
  · rcases List.mem_append.mp hj with hj | hj
    · exact hn.2.2 j hj
    · exact m.parked j hj
  · rw [prospect_append hn.2.1, ← m.prospect]
    refine prospect_congr (u.scopes t) ?_
    rw [stanceOf_eq, stanceOf_eq, u.ofRecord]

/-! From the call to the return. -/

theorem Homebound.step (m : Homebound w t r g (.user :: base) top) (c : Custody w)
    (ho : ∀ q, Orderly (w.codeOf q)) (he : e.isBy t = false) :
    ∃ top', Homebound (w.step e) t r g (.user :: base) top' := by
  rcases w.step_cases e with ⟨q, i, rest, rfl, h, hready, hs⟩ | u
  · rw [hs]
    by_cases hq : t = q
    · subst hq
      obtain ⟨top', rfl, rfl⟩ := m.toInCall.of_ready h hready
      exact ⟨_, m.proceed c (ho t)⟩
    · have hl : t < w.threads.length := lt_of_codeOf (by rw [m.code]; simp)
      exact ⟨top, m.proceed_of_ne c (ho q) h hq hl⟩
  · exact m.undisturbed u he

/-- The thread itself changes the stance of no record but its own. -/
theorem Homebound.stanceOf_step (m : Homebound w t r g (.user :: base) top)
    (hq : ∀ q, q ≠ t → e ≠ .advance q) (hb : b ≠ r) : (w.step e).stanceOf b = w.stanceOf b := by
  rcases w.step_cases e with ⟨q, i, rest, rfl, h, hready, hs⟩ | u
  · obtain rfl : q = t := by
      by_contra hn
      exact hq q hn rfl
    obtain ⟨top', rfl, rfl⟩ := m.toInCall.of_ready h hready
    rw [hs, m.stanceOf_proceed_of_ne hb]
  · rw [stanceOf_eq, stanceOf_eq, u.ofRecord]

/-- An event is another thread's own step, or leaves the stance of all records but `r` as it is. -/
def SparesOthers (t : ThreadId) (r : RecordId) (w : World) (e : Event) : Prop :=
  (∀ q, q ≠ t → e ≠ .advance q) → ∀ b, b ≠ r →
    (w.step e).levelOf b = w.levelOf b ∧ (w.step e).phaseOf b = w.phaseOf b

theorem Homebound.run (m : Homebound w t r g (.user :: base) top) (c : Custody w)
    (ho : ∀ q, Orderly (w.codeOf q)) (hes : ∀ e ∈ es, e.isBy t = false) :
    (∃ top', Homebound (w.run es) t r g (.user :: base) top') ∧ w.Along (SparesOthers t r) es := by
  induction es generalizing w top with
  | nil => exact ⟨⟨top, m⟩, trivial⟩
  | cons e es ih =>
    obtain ⟨he, hes⟩ := List.forall_mem_cons.mp hes
    obtain ⟨top', m'⟩ := m.step c ho he
    obtain ⟨hend, ha⟩ := ih m' (c.step ho e) (orderly_step ho e) hes
    refine ⟨hend, fun hq b hb => ?_, ha⟩
    have hst := m.stanceOf_step hq hb
    exact ⟨congrArg Stance.level hst, congrArg Stance.phase hst⟩

/-- A thread that is back from its call has brought the stance back. -/
theorem Homebound.stanceOf_of_back (m : Homebound w t r g base top) (hc : w.codeOf t = base) :
    w.stanceOf r = g := by
  obtain rfl : top = [] := by simpa using m.code.symm.trans hc
  rw [← m.prospect, World.prospect, m.toInCall.scopesOf_of_nil]
  rfl

/-- A thread that has made a call, or has been refused it for its arguments, has to come back. -/
theorem homebound_of_invoke {c : Call} (hu : w.inUser t = true) (hs : w.scopesOf t = [])
    (hb : w.bindingOf t = some r) (hc : c.isScoped = true) :
    ∃ top, Homebound (w.step (.invoke t c)) t r (w.stanceOf r) (w.codeOf t) top := by
  have u : Undisturbed w (.invoke t c) (w.step (.invoke t c)) := undisturbed_invoke w t c
  have hscopes := (u.scopes t).trans hs
  have hstance : (w.step (.invoke t c)).stanceOf r = w.stanceOf r := by
    rw [stanceOf_eq, stanceOf_eq, u.ofRecord]
  have hopen : ∀ x ∈ (w.step (.invoke t c)).scopesOf t, ∀ b, x.record? = some b → b = r := by
    rw [hscopes]
    exact fun x hx => absurd hx List.not_mem_nil
  -- no scope is open yet, so what the thread comes home to is where it is now
  have hnow (top : List Instr) (h : ∀ j ∈ top, j.previous? = none) :
      (w.step (.invoke t c)).prospect t r top = w.stanceOf r := by
    rw [prospect, foldl_afterInstr _ h, hscopes, hstance]
    rfl
  cases hr : c.refusal? with
  | some f =>
    refine ⟨[], ?_, rfl, (u.binding t).trans hb, hopen, by simp, hnow [] (by simp)⟩
    rw [← invoke_refused hr]
    exact inCall_nil hscopes
  | none =>
    refine ⟨c.code w t, inCall_of_invoke hu hs hr, c.code_scoped hc, (u.binding t).trans hb, hopen,
      fun j hj b hj' => ?_, hnow _ (previous_of_loose c.code_loose)⟩
    exact Option.some.inj ((c.code_record hj (record_of_parkRecord hj')).symm.trans hb)

theorem Custody.modRecord (c : Custody w) {f : ThreadRecord → ThreadRecord}
    (hf : ∀ c, (f c).owner = c.owner) : Custody (w.modRecord r f) := by
  have ho (b : RecordId) : (w.modRecord r f).ownerOf b = w.ownerOf b := by
    simp only [ownerOf_eq, ofRecord_modRecord, hf, ite_self]
  have hl : (w.modRecord r f).records.length = w.records.length := (modRecord_fields f).2.1
  constructor
  case bound => exact fun h => (ho _).trans (c.bound h)
  case opened => exact fun h hr => (ho _).trans (c.opened h hr)
  case parked => exact fun h hr => (ho _).trans (c.parked h hr)
  case kept =>
    intro t j b h hr
    rw [ho]
    exact c.kept h hr
  case pledged =>
    intro t b h
    rw [ho, hl]
    exact c.pledged h
  case borne =>
    intro t s b h
    rw [ho, hl]
    exact c.borne h

/-- A call that begins and ends no membership, and sets no level that is to outlast it, brings the
level and the phase of the record that stands for its thread back to what it has found, whatever that
is and whatever it answers, while others stop the thread and let it go as often as they like. The
thread itself changes the level and the phase of no other record. -/
theorem call_brings_level_and_phase_back {c : Call} (hw : Reachable n w)
    (hb : w.bindingOf t = some r) (hc : c.isScoped = true) (l : Level) (p : Phase)
    (hr : ((w.setLevel r l).setPhase r p).Returns t c es) :
    (((w.setLevel r l).setPhase r p).run (.invoke t c :: es)).levelOf r = l ∧
      (((w.setLevel r l).setPhase r p).run (.invoke t c :: es)).phaseOf r = p ∧
      ((w.setLevel r l).setPhase r p).Along (SparesOthers t r) (.invoke t c :: es) := by
  have hlt : r < w.records.length := lt_of_ownerOf (hw.custody.bound hb)
  have hg : ((w.setLevel r l).setPhase r p).stanceOf r = ⟨l, p⟩ := by
    rw [stanceOf_setPhase (by simpa [World.setLevel] using hlt), stanceOf, levelOf_setLevel,
      if_pos hlt]
  have hcust : Custody ((w.setLevel r l).setPhase r p) :=
    Custody.modRecord (w := w.setLevel r l) (hw.custody.modRecord fun _ => rfl) fun _ => rfl
  have ho : ∀ q, Orderly (((w.setLevel r l).setPhase r p).codeOf q) := hw.orderly
  have hs : ((w.setLevel r l).setPhase r p).scopesOf t = [] := hw.scopesOf_of_user hr.user
  obtain ⟨base, hbase⟩ := head_user hr.user
  -- whatever the level and the phase are, the scopes that the call opens note them and bring them
  -- back
  obtain ⟨top, m⟩ := homebound_of_invoke hr.user hs hb hc
  rw [hbase, hg] at m
  obtain ⟨⟨top', m'⟩, ha⟩ := m.run (hcust.step ho _) (orderly_step ho _) hr.busy
  have hend := m'.stanceOf_of_back (hr.back.trans hbase)
  refine ⟨congrArg Stance.level hend, congrArg Stance.phase hend, fun _ b _ => ?_, ha⟩
  have u := undisturbed_invoke ((w.setLevel r l).setPhase r p) t c
  exact ⟨u.ofRecord, u.ofRecord⟩

/-- There is a service, and thread 1 has joined it; its record reads `waiting`. -/
def onDuty : World :=
  (World.initial 2).run (.invoke 0 (.establish { mechanism := .safepoint }) :: turns 0 5 ++
    .invoke 1 (.attach 0 "worker") :: turns 1 5)

/-- Thread 1 is to stop while it sleeps, and parks when it gets up. -/
def stoppedInSleep : List Event :=
  turns 1 5 ++ .invoke 0 (.suspend 0 2) :: turns 0 10 ++ .tick 5 :: turns 1 15

/-- It is let go, and comes back from its sleep. -/
def letGo : List Event := .invoke 0 (.resume 0 2) :: turns 0 12 ++ turns 1 8

theorem stopped_sleeper_comes_back :
    ((onDuty.setLevel 1 .noBlock).setPhase 1 .waiting).Returns 1 (.sleep 0 5)
        (stoppedInSleep ++ letGo) ∧
      (((onDuty.setLevel 1 .noBlock).setPhase 1 .waiting).run
        (.invoke 1 (.sleep 0 5) :: stoppedInSleep)).phaseOf 1 = .suspended ∧
      (((onDuty.setLevel 1 .noBlock).setPhase 1 .waiting).run
        (.invoke 1 (.sleep 0 5) :: (stoppedInSleep ++ letGo))).phaseOf 1 = .waiting := by
  have hr : ((onDuty.setLevel 1 .noBlock).setPhase 1 .waiting).Returns 1 (.sleep 0 5)
      (stoppedInSleep ++ letGo) := ⟨by decide +kernel, by decide, by decide +kernel⟩
  have hw : Reachable 2 onDuty := ⟨_, rfl⟩
  refine ⟨hr, by decide +kernel, ?_⟩
  exact (call_brings_level_and_phase_back hw (by decide +kernel) rfl .noBlock .waiting hr).2.1

end Standstill
