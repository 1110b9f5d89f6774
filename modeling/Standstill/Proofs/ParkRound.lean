import Standstill.Proofs.Unwinding

/-!
A thread that is asked to stop, seen from what it was doing before. It takes the stop signal, or comes
to a safe point, on top of that; it parks and comes back, once for one request. On the way its record
goes through seven rounds, and it comes back as it was but for the stack noted and the epoch counted.
-/
namespace Standstill

open World ParkInstr

variable {w w' : World} {t : ThreadId} {r : RecordId} {i : Instr} {m : Mechanism}
  {c : ThreadRecord} {base rest : List Instr} {q : Bool}

/-- How far a thread has come with parking, for one request. -/
inductive Round
  /-- It has not found the request yet. -/
  | calm
  /-- It may have found it. -/
  | drawn
  | spilled
  | marked
  | counted
  /-- It has found that the request is gone. -/
  | released
  | back
  deriving DecidableEq, Repr

namespace Round

def next : Round → Round
  | calm => drawn
  | drawn => spilled
  | spilled => marked
  | marked => counted
  | counted => released
  | released | back => back

/-- What there is of a record that read `c` before, as far as parking goes. -/
def record (c : ThreadRecord) : Round → ThreadRecord
  | calm | drawn => c
  | spilled => { c with stackTop := .parked }
  | marked => { c with stackTop := .parked, phase := .suspended }
  | counted | released =>
    { c with stackTop := .parked, phase := .suspended, epoch := c.epoch + 1 }
  | back => { c with stackTop := .parked, epoch := c.epoch + 1 }

/-- The thread may be found in none of its park code. -/
def isStill : Round → Bool
  | calm | drawn | back => true
  | _ => false

/-- The thread has begun to park. -/
def isUnderWay : Round → Bool
  | calm | drawn => false
  | _ => true

/-- The thread does not go on until the request is gone. -/
def isOut : Round → Bool
  | released | back => true
  | _ => false

end Round

/-- The owner of the record parks when it is asked to. -/
def ThreadRecord.CanPark (c : ThreadRecord) : Prop := c.level = .noBlock ∧ c.phase ≠ .suspended

/-- How a thread gets into its park loop. -/
def Mechanism.entry : Mechanism → Entry
  | .signal => .handler
  | .safepoint => .call .safepoint

/-- What a thread still does after its park loop. -/
def Mechanism.exit : Mechanism → List Instr
  | .signal => [.guard (.setMask false)]
  | .safepoint => []

/-- The first look of a thread that may have to park. -/
def Mechanism.look (m : Mechanism) (r : RecordId) : ParkInstr :=
  .check [.request, .level, .phase] m.entry r

/-- What the owner of a record that read `c` before has before it in each round. -/
inductive Stands (c : ThreadRecord) (r : RecordId) (m : Mechanism) : Round → ParkInstr → Prop
  | look (x : Round) (hx : x.isStill = true) : Stands c r m x (m.look r)
  | level : Stands c r m .drawn (.check [.level, .phase] m.entry r)
  | phase (hl : c.level = .noBlock) : Stands c r m .drawn (.check [.phase] m.entry r)
  | enter (hc : c.CanPark) : Stands c r m .drawn (.check [] m.entry r)
  | save (hc : c.CanPark) : Stands c r m .drawn (.save m r)
  | spill (hc : c.CanPark) : Stands c r m .drawn (.spill ⟨m, r, c.phase⟩)
  | mark : Stands c r m .spilled (.mark ⟨m, r, c.phase⟩)
  | count : Stands c r m .marked (.count ⟨m, r, c.phase⟩)
  | testRequest : Stands c r m .counted (.testRequest ⟨m, r, c.phase⟩)
  | testLevel : Stands c r m .counted (.testLevel ⟨m, r, c.phase⟩)
  | restore : Stands c r m .released (.restore ⟨m, r, c.phase⟩)

/-- The instruction belongs to the sleep of a parked thread, in which no record changes. -/
def Instr.isDormant (r : RecordId) : Instr → Bool
  | .sync (.acquire (.park _)) | .sync (.release (.park _)) => true
  | .sync (.wait (.park _) (.park _) _) | .sync (.resting (.park _) _) => true
  | .park .awaitSignal | .park (.retestRequest _) | .park (.retestLevel _) => true
  | .park (.check tests .handler b) => tests.contains .phase && b == r
  | _ => false

/-- Where thread `t` stands above what it did before. -/
inductive Place (w : World) (t : ThreadId) (c : ThreadRecord) (r : RecordId) (m : Mechanism)
    (base : List Instr) : Round → Prop
  | rest (x : Round) (hx : x.isStill = true) (hc : w.codeOf t = base) : Place w t c r m base x
  | leaving (x : Round) (hx : x.isStill = true) (hc : w.codeOf t = m.exit ++ base)
    (hm : m = .signal → w.isMasked t = true) : Place w t c r m base x
  | bound (x : Round) (top : List Instr) (k : ParkInstr) (ht : top.all (Instr.isDormant r) = true)
    (hx : x ≠ .counted → top = []) (hk : Stands c r m x k)
    (hc : w.codeOf t = top ++ .park k :: (m.exit ++ base))
    (hm : m = .signal → w.isMasked t = true) : Place w t c r m base x

/-- Thread `t`, which did `base` before and whose record `r` read `c`, has come so far with parking. -/
structure Course (w : World) (t : ThreadId) (c : ThreadRecord) (r : RecordId) (m : Mechanism)
    (base : List Instr) (x : Round) : Prop where
  able : x.isUnderWay = true → c.CanPark
  place : Place w t c r m base x

theorem nested_of_dormant (h : i.isDormant r = true) : i.isNested = true := by
  cases i with
  | sync k =>
    cases k with
    | acquire l | release l => cases l <;> first | rfl | cases h
    | wait q l d => cases q <;> cases l <;> first | rfl | cases h
    | resting q d => cases q <;> first | rfl | cases h
    | _ => cases h
  | park => rfl
  | _ => cases h

theorem setsMask_of_dormant (h : i.isDormant r = true) : i.setsMask = false := by
  cases i with
  | park k =>
    cases k with
    | check tests entry b => cases entry <;> first | rfl | cases h
    | _ => rfl
  | sync => rfl
  | _ => cases h

theorem nested_exit : m.exit.all Instr.isNested = true := by
  cases m <;> rfl

/-- All that a thread has above what it did before is nested. -/
theorem Place.nested {x : Round} (g : Place w t c r m base x) :
    ∃ top, top.all Instr.isNested = true ∧ w.codeOf t = top ++ base := by
  cases g with
  | rest hx hc => exact ⟨[], rfl, hc⟩
  | leaving hx hc => exact ⟨m.exit, nested_exit, hc⟩
  | bound top k ht hx hk hc =>
    refine ⟨top ++ .park k :: m.exit, ?_, by rw [hc, List.append_assoc]; rfl⟩
    have hn : top.all Instr.isNested = true := all_imp nested_of_dormant ht
    rw [List.all_append, List.all_cons, nested_exit, hn]
    rfl

theorem Course.congr {x : Round} (g : Course w t c r m base x) (hc : w'.codeOf t = w.codeOf t)
    (hm : w'.isMasked t = w.isMasked t) : Course w' t c r m base x := by
  refine ⟨g.able, ?_⟩
  cases g.place with
  | rest hx h => exact .rest x hx (hc.trans h)
  | leaving hx h hk => exact .leaving x hx (hc.trans h) (hm ▸ hk)
  | bound top k ht hx hk h hs => exact .bound x top k ht hx hk (hc.trans h) (hm ▸ hs)

/-! Asleep. -/

theorem run_dormant (h : i.isDormant r = true) (hb : ∀ b, w.bindingOf t = some b → b = r)
    (hp : w.phaseOf r = .suspended) :
    (i.run t w).2.all (Instr.isDormant r) = true ∧ (i.run t w).1.records = w.records := by
  cases i with
  | sync k =>
    obtain ⟨_, _, he⟩ := k.run_fst (w := w) (t := t)
    refine ⟨?_, by rw [Instr.run, he]⟩
    cases k with
    | acquire l | release l => rfl
    | wait q l d => cases q <;> cases l <;> first | rfl | cases h
    | resting q d => rfl
    | _ => cases h
  | park k =>
    cases k with
    | awaitSignal =>
      refine ⟨?_, rfl⟩
      simp only [Instr.run, ParkInstr.run, handlerCode_eq]
      split
      · rfl
      next b hx => simp [Instr.isDormant, hb b hx]
    | retestRequest b | retestLevel b =>
      refine ⟨?_, rfl⟩
      simp only [Instr.run, ParkInstr.run]
      split <;> rfl
    | check tests entry b =>
      obtain rfl : entry = .handler := by cases entry <;> first | rfl | cases h
      simp only [Instr.isDormant, Bool.and_eq_true, beq_iff_eq] at h
      obtain ⟨ht, rfl⟩ := h
      cases tests with
      | nil => cases ht
      | cons x tests =>
        -- the record reads as suspended, so that the test of the phase, still to come, gives it up
        refine ⟨?_, rfl⟩
        simp only [Instr.run, ParkInstr.run]
        split
        next hx =>
          have hne : x ≠ .phase := by
            rintro rfl
            simp [passes, hp] at hx
          have ht' : Test.phase ∈ tests := by simpa [hne.symm] using ht
          simp [Instr.isDormant, ht']
        next => rfl
    | _ => cases h
  | _ => cases h

/-! One step of the thread. -/

/-- The record changes as the rounds go on. -/
structure Passes (w w' : World) (t : ThreadId) (c : ThreadRecord) (r : RecordId) (m : Mechanism)
    (base : List Instr) (x x' : Round) : Prop where
  course : Course w' t c r m base x'
  records : ∃ f, w'.records = w.records.modify r f ∧
    ∀ q, f { x.record c with requested := q } = { x'.record c with requested := q }

theorem passes_same {x x' : Round} (g : Course w' t c r m base x') (hr : w'.records = w.records)
    (hx : x'.record c = x.record c) : Passes w w' t c r m base x x' := by
  refine ⟨g, id, ?_, fun q => by rw [hx]; rfl⟩
  rw [hr]
  exact (modify_self fun _ _ => rfl).symm

/-- A step from one round on to the next, or within one. -/
inductive Moves (q : Bool) (x : Round) : Round → Prop
  | stay : Moves q x x
  | next (hc : x = .calm → q = true) (hr : x = .counted → q = false) : Moves q x x.next

section Onward

variable {x' : Round} {k : ParkInstr} (h : w.codeOf t = .park k :: (m.exit ++ base))
  (hm : m = .signal → w.isMasked t = true)
  (hs : m = .signal → (Instr.park k).setsMask = false)
  (ha : x'.isUnderWay = true → c.CanPark)
include h hm hs ha

/-- The instruction was the last above what the thread does on its way out. -/
theorem course_leaving (hx : x'.isStill = true)
    (hr : w.remainder t (.park k) (m.exit ++ base) = []) :
    Course (w.proceed t (.park k) (m.exit ++ base)) t c r m base x' := by
  refine ⟨ha, .leaving x' hx (by rw [codeOf_proceed h, hr]; rfl) fun hsig => ?_⟩
  rw [isMasked_proceed, isMasked_run_of_nested _ rfl (hs hsig), isMasked_setCode]
  exact hm hsig

/-- The instruction leaves another one of the round to do, and maybe a sleep before it. -/
theorem course_bound {j : ParkInstr} (top : List Instr) (ht : top.all (Instr.isDormant r) = true)
    (hx : x' ≠ .counted → top = []) (hj : Stands c r m x' j)
    (hr : w.remainder t (.park k) (m.exit ++ base) = top ++ [.park j]) :
    Course (w.proceed t (.park k) (m.exit ++ base)) t c r m base x' := by
  refine ⟨ha, .bound x' top j ht hx hj ?_ fun hsig => ?_⟩
  · rw [codeOf_proceed h, hr, List.append_assoc]
    rfl
  · rw [isMasked_proceed, isMasked_run_of_nested _ rfl (hs hsig), isMasked_setCode]
    exact hm hsig

end Onward

section Step

variable {x : Round} (g : Course w t c r m base x) (h : w.codeOf t = i :: rest)
  (hq : w.isRequested r = q) (hl : w.levelOf r = c.level) (hp : w.phaseOf r = (x.record c).phase)
  (hout : x = .back → q = false)
include g h hq hl hp hout

/-- The thread goes on from where it stands. -/
theorem Course.proceed_park {k : ParkInstr} (hk : Stands c r m x k) (hi : i = .park k)
    (hrest : rest = m.exit ++ base) (hm : m = .signal → w.isMasked t = true) :
    ∃ x', Moves q x x' ∧ Passes w (w.proceed t i rest) t c r m base x x' := by
  subst hi hrest
  have leave {y : Round} (hs : m = .signal → (Instr.park k).setsMask = false)
      (ha : y.isUnderWay = true → c.CanPark) :=
    course_leaving (c := c) (r := r) h hm hs ha
  have go {y : Round} {j : ParkInstr} (hs : m = .signal → (Instr.park k).setsMask = false)
      (ha : y.isUnderWay = true → c.CanPark) :=
    course_bound (r := r) (j := j) h hm hs ha [] rfl fun _ => rfl
  have able := g.able
  have check (tests : List Test) :
      m = .signal → (Instr.park (.check tests m.entry r)).setsMask = false := by
    rintro rfl
    rfl
  have other {k : ParkInstr} (hk : (Instr.park k).setsMask = false) :
      m = .signal → (Instr.park k).setsMask = false := fun _ => hk
  cases hk with
  | look x hx =>
    have hr : w.remainder t (.park (m.look r)) (m.exit ++ base) =
        if w.isRequested r then [.park (.check [.level, .phase] m.entry r)] else [] := rfl
    cases hw : w.isRequested r with
    | true =>
      rw [hw, if_pos rfl] at hr
      cases x with
      | calm =>
        exact ⟨_, .next (fun _ => hq.symm.trans hw) (fun h => by cases h),
          passes_same (go (check _) (fun h => by cases h) .level hr) rfl rfl⟩
      | drawn => exact ⟨_, .stay, passes_same (go (check _) able .level hr) rfl rfl⟩
      | back =>
        -- who is back has not been asked again
        have := hout rfl
        rw [← hq, hw] at this
        cases this
      | _ => cases hx
    | false =>
      rw [hw, if_neg (by simp)] at hr
      exact ⟨_, .stay, passes_same (leave (check _) able hx hr) rfl rfl⟩
  | level =>
    have hr : w.remainder t (.park (.check [.level, .phase] m.entry r)) (m.exit ++ base) =
        if decide (w.levelOf r = .noBlock) then [.park (.check [.phase] m.entry r)] else [] := rfl
    refine ⟨_, .stay, ?_⟩
    by_cases hc : c.level = .noBlock
    · rw [hl, hc] at hr
      exact passes_same (go (check _) able (.phase hc) hr) rfl rfl
    · rw [hl, if_neg (by simpa using hc)] at hr
      exact passes_same (leave (check _) able rfl hr) rfl rfl
  | phase hc =>
    have hr : w.remainder t (.park (.check [.phase] m.entry r)) (m.exit ++ base) =
        if decide (w.phaseOf r ≠ .suspended) then [.park (.check [] m.entry r)] else [] := rfl
    have hp' : w.phaseOf r = c.phase := hp
    refine ⟨_, .stay, ?_⟩
    by_cases hs : c.phase = .suspended
    · rw [hp', if_neg (by simpa using hs)] at hr
      exact passes_same (leave (check _) able rfl hr) rfl rfl
    · rw [hp', if_pos (by simpa using hs)] at hr
      exact passes_same (go (check _) able (.enter ⟨hc, hs⟩) hr) rfl rfl
  | enter hc =>
    refine ⟨_, .stay, passes_same (go (check _) able (.save hc) ?_) ?_ rfl⟩ <;> cases m <;> rfl
  | save hc =>
    have hp' : w.phaseOf r = c.phase := hp
    refine ⟨_, .stay, passes_same (go (other rfl) able (.spill hc) ?_) rfl rfl⟩
    rw [← hp']
    rfl
  | spill hc =>
    exact ⟨_, .next (fun h => by cases h) (fun h => by cases h),
      go (other rfl) (fun _ => hc) .mark rfl, fun d => { d with stackTop := .parked }, rfl,
      fun _ => rfl⟩
  | mark =>
    exact ⟨_, .next (fun h => by cases h) (fun h => by cases h),
      go (other rfl) (fun _ => able rfl) .count rfl, fun d => { d with phase := .suspended }, rfl,
      fun _ => rfl⟩
  | count =>
    exact ⟨_, .next (fun h => by cases h) (fun h => by cases h),
      go (other rfl) (fun _ => able rfl) .testRequest rfl,
      fun d => { d with epoch := d.epoch + 1 }, rfl, fun _ => rfl⟩
  | testRequest =>
    have hr : w.remainder t (.park (.testRequest ⟨m, r, c.phase⟩)) (m.exit ++ base) =
        if w.isRequested r then [.park (.testLevel ⟨m, r, c.phase⟩)]
        else [.park (.restore ⟨m, r, c.phase⟩)] := rfl
    cases hw : w.isRequested r with
    | true =>
      rw [hw, if_pos rfl] at hr
      exact ⟨_, .stay, passes_same (go (other rfl) able .testLevel hr) rfl rfl⟩
    | false =>
      rw [hw, if_neg (by simp)] at hr
      exact ⟨_, .next (fun h => by cases h) (fun _ => hq.symm.trans hw),
        passes_same (go (other rfl) (fun _ => able rfl) .restore hr) rfl rfl⟩
  | testLevel =>
    have hn : w.levelOf r = .noBlock := hl.trans (able rfl).1
    have hr : w.remainder t (.park (.testLevel ⟨m, r, c.phase⟩)) (m.exit ++ base) =
        (Parking.sleepCode ⟨m, r, c.phase⟩) ++ [.park (.testRequest ⟨m, r, c.phase⟩)] :=
      if_pos hn
    refine ⟨_, .stay, passes_same (course_bound h hm (other rfl) able _ ?_ (fun h => absurd rfl h)
      .testRequest hr) rfl rfl⟩
    cases m <;> rfl
  | restore =>
    exact ⟨_, .next (fun h => by cases h) (fun h => by cases h),
      leave (other rfl) (fun _ => able rfl) rfl rfl, fun d => { d with phase := c.phase }, rfl,
      fun _ => rfl⟩

/-- The thread takes one step above what it did before. -/
theorem Course.proceed (hb : ∀ b, w.bindingOf t = some b → b = r) (hne : w.codeOf t ≠ base) :
    ∃ x', Moves q x x' ∧ Passes w (w.proceed t i rest) t c r m base x x' := by
  cases g.place with
  | rest hx hc => exact absurd hc hne
  | leaving hx hc hm =>
    cases m with
    | safepoint => exact absurd hc hne
    | signal =>
      obtain ⟨rfl, rfl⟩ := List.cons.inj (h.symm.trans hc)
      exact ⟨x, .stay, passes_same ⟨g.able, .rest x hx (codeOf_proceed h)⟩ rfl rfl⟩
  | bound top k ht hx hk hc hm =>
    -- the thread is asleep where there is something above its park code
    cases top with
    | nil =>
      obtain ⟨rfl, rfl⟩ := List.cons.inj (h.symm.trans hc)
      exact g.proceed_park h hq hl hp hout hk rfl rfl hm
    | cons j top =>
      obtain ⟨rfl, rfl⟩ := List.cons.inj (h.symm.trans hc)
      obtain rfl : x = .counted := by
        by_contra hn
        cases hx hn
      rw [List.all_cons, Bool.and_eq_true] at ht
      generalize hrest : top.append (.park k :: (m.exit ++ base)) = rest at h ⊢
      have hd := run_dormant (w := w.setCode t rest) (t := t) ht.1
        (fun b hx => hb b ((ofThread_setCode fun _ _ => rfl).symm.trans hx)) hp
      refine ⟨_, .stay, passes_same ⟨g.able, .bound _ (w.remainder t i rest ++ top) k ?_
        (fun h => absurd rfl h) hk ?_ ?_⟩ hd.2 rfl⟩
      · rw [List.all_append, remainder, hd.1, ht.2]
        rfl
      · rw [codeOf_proceed h, ← hrest, List.append_assoc]
        rfl
      · intro hs
        rw [isMasked_proceed, isMasked_run_of_nested _ (nested_of_dormant ht.1)
          (setsMask_of_dormant ht.1), isMasked_setCode]
        exact hm hs

end Step

/-! Other events. -/

section Events

variable {x : Round} {s : ServiceId}

theorem Place.codeOf_of_unmasked (g : Place w t c r .signal base x) (hm : w.isMasked t = false) :
    x.isStill = true ∧ w.codeOf t = base := by
  cases g with
  | rest hx hc => exact ⟨hx, hc⟩
  | leaving hx hc hk =>
    rw [hk rfl] at hm
    cases hm
  | bound top k ht hx hk hc hs =>
    rw [hs rfl] at hm
    cases hm

theorem Place.codeOf_of_user (g : Place w t c r .safepoint base x)
    (hu : (w.codeOf t).head? = some .user) : x.isStill = true ∧ w.codeOf t = base := by
  cases g with
  | rest hx hc => exact ⟨hx, hc⟩
  | leaving hx hc => exact ⟨hx, hc⟩
  | bound top k ht hx hk hc =>
    rw [hc] at hu
    cases top with
    | nil => cases hu
    | cons j top =>
      rw [List.all_cons, Bool.and_eq_true] at ht
      cases Option.some.inj hu
      cases ht.1

/-- The thread takes the stop signal, and looks whether it has to park. -/
theorem Course.interrupt (g : Course w t c r .signal base x)
    (hb : ∀ b, w.bindingOf t = some b → b = r) :
    Course (w.step (.interrupt t)) t c r .signal base x := by
  rcases (undisturbed_interrupt w t).signals t with ⟨-, -, hn⟩ | ⟨hi, hm, hc⟩
  · have hs : w.step (.interrupt t) = w := by
      simp only [World.step, World.interrupt, hn rfl, Bool.false_eq_true, if_false]
    rw [hs]
    exact g
  -- the signal gets through only where the thread rests from the round
  · obtain ⟨hx, hbase⟩ := g.place.codeOf_of_unmasked (canInterrupt_iff.mp hi).2.1
    refine ⟨g.able, ?_⟩
    generalize hcode : (w.interrupt t).codeOf t = code at hc
    cases hc with
    | interrupt =>
      rw [hbase, handlerCode_eq] at hcode
      cases hbind : w.bindingOf t with
      | none =>
        rw [hbind] at hcode
        exact .leaving x hx hcode fun _ => hm
      | some b =>
        obtain rfl := hb b hbind
        rw [hbind] at hcode
        exact .bound x [] _ rfl (fun _ => rfl) (.look x hx) hcode fun _ => hm

/-- The thread comes to a safe point, and looks whether it has to park. -/
theorem Course.poll (g : Course w t c r .safepoint base x) (hs : w.mechanism s = .safepoint)
    (hb : ∀ b, w.bindingOf t = some b → b = r) :
    Course (w.step (.invoke t (.safePoint s))) t c r .safepoint base x := by
  cases hu : w.inUser t with
  | false =>
    have hw : w.step (.invoke t (.safePoint s)) = w := by
      simp only [World.step, World.invoke, hu, Bool.false_eq_true, if_false]
    rw [hw]
    exact g
  | true =>
    obtain ⟨hx, hbase⟩ := g.place.codeOf_of_user (inUser_iff.mp hu).1
    refine ⟨g.able, ?_⟩
    have hc := (invoke_admitted (c := .safePoint s) hu rfl).1
    rw [hbase] at hc
    cases hself : w.selfIn t s with
    | none =>
      simp only [Call.code, hself] at hc
      exact .rest x hx hc
    | some b =>
      obtain rfl := hb b (selfIn_eq_some.mp hself).1
      simp only [Call.code, hself, hs] at hc
      exact .bound x [] _ rfl (fun _ => rfl) (.look x hx) hc fun h => by cases h

end Events

end Standstill
