import Standstill.Proofs.Custody

/-!
The order of a thread's code. What changes who is registered, who has to stop or which record stands
for a thread lies in a straight stretch of code: above such an instruction there is nothing but what
the stretch itself runs before it, and nested code. Below code of the thread's own there is at most
its departure.
-/
namespace Standstill

open World

namespace Instr

/-- Code of the thread's own, or the departure that follows it. -/
def isGround : Instr → Bool
  | .user | .member (.exitRaise ..) => true
  | _ => false

/-- A call that makes a record stand for its thread, or none. -/
def isJoin : Instr → Bool
  | .member (.establish _) | .member (.attach ..) | .member (.detach _) => true
  | _ => false

/-- The instruction is left to do by another instruction. -/
def isSequel (i : Instr) : Bool := !i.isGround && !i.isJoin

/-- What the thread of record `r` does before it registers with service `s`. -/
def isOutset (s : ServiceId) (r : RecordId) : Instr → Bool
  | .member (.own b) | .member (.bind b) | .member (.capture b) | .guard (.setPhase b _) => b == r
  | .guard (.raise b _) | .guard (.mask b) | .sync (.acquire (.roster b)) => b == s
  | _ => false

/-- What a thread that waits at the start gate of service `s` does. -/
def isAtGate (s : ServiceId) (r : RecordId) : Instr → Bool
  | .member (.gateEnter b c) => b == s && c == r
  | .sync (.wait (.roster b) (.roster c) _) => b == s && c == s
  | .sync (.resting (.roster b) _) => b == s
  | i => i.isOutset s r

/-- A section on the roster of service `s` begins. -/
def isLocking (s : ServiceId) : Instr → Bool
  | .sync (.acquire (.roster b)) => b == s
  | _ => false

/-- The end of a section on a roster: the lock is given up, and who waits is woken. -/
def isUnlocking : Instr → Bool
  | .sync (.release (.roster _)) | .sync (.notifyAll (.roster _)) => true
  | _ => false

/-- One of the others is asked to stop. -/
def isHalting (s : ServiceId) : Instr → Bool
  | .stop (.haltRequest b _) | .stop (.haltLevel b _) | .stop (.haltDeliver b _) => b == s
  | _ => false

/-- One of the others is let go. -/
def isFreeing (s : ServiceId) : Instr → Bool
  | .stop (.freeClear b _) | .stop (.freeLevel b _) | .stop (.freeWake b _) => b == s
  | .sync (.notifyAll (.park _)) => true
  | _ => false

end Instr

/-- Instruction `i` of its own stretch may stand above the instruction. -/
def MemberInstr.lets (i : Instr) : MemberInstr → Bool
  | .exitRaise .. => i == .user || !i.isGround
  | .own _ | .spawnNative .. | .detachRaise .. | .gatePass .. => false
  | .bind r =>
    match i with
    | .member (.own b) | .member (.publish _ b) => b == r
    | .sync (.acquire (.roster _)) | .sync (.release (.roster _)) => true
    | _ => false
  | .publish s _ | .detachRemove s .. => i.isLocking s
  | .exitRemove s _ =>
    match i with
    | .guard (.mask b) => b == s
    | i => i.isLocking s
  | .unbind _ => i.isUnlocking
  | .clearRequest _ =>
    match i with
    | .member (.unbind _) => true
    | i => i.isUnlocking
  | .setLevel r _ =>
    match i with
    | .member (.unbind _) => true
    | .member (.clearRequest b) => b == r
    | i => i.isUnlocking
  | .gateEnter s r => i.isOutset s r
  | .gateWait s r => i.isAtGate s r
  | .noteStarted r =>
    match i with
    | .member (.gatePass _ b) | .guard (.setPhase b _) => b == r
    | _ => false
  | _ => i.isSequel

def StopInstr.lets (i : Instr) : StopInstr → Bool
  | .haltRequest s _ | .closeGate s => i.isHalting s
  | .freeClear s _ | .openGate s => i.isFreeing s
  | .resumeClear .. => false
  | _ => i.isSequel

namespace Instr

/-- Instruction `i` may stand above `j`. -/
def lets (j i : Instr) : Bool :=
  i.isNested || match j with
    | .user => !i.isGround
    | .member j => j.lets i
    | .stop j => j.lets i
    | _ => i.isSequel

/-- Not just anything that is left to do may stand above the instruction. -/
def isMarked : Instr → Bool
  | .member (.own _) | .member (.bind _) | .member (.publish ..) | .member (.spawnNative ..)
  | .member (.detachRaise ..) | .member (.detachRemove ..) | .member (.exitRemove ..)
  | .member (.unbind _) | .member (.clearRequest _) | .member (.setLevel ..)
  | .member (.gateEnter ..) | .member (.gateWait ..) | .member (.gatePass ..)
  | .member (.noteStarted _) => true
  | .stop (.haltRequest ..) | .stop (.closeGate _) | .stop (.freeClear ..) | .stop (.openGate _)
  | .stop (.resumeClear ..) => true
  | _ => false

end Instr

/-- Every instruction has above it only what it lets stand there. -/
def Sealed (code : List Instr) : Prop := code.Pairwise fun i j => j.lets i = true

variable {n : Nat} {w w' : World} {t t' : ThreadId} {s : ServiceId} {r : RecordId} {i j : Instr}
  {code rest : List Instr} {e : Event}

theorem lets_of_nested (h : i.isNested = true) : j.lets i = true := by
  simp only [Instr.lets, h, Bool.true_or]

theorem lets_of_unmarked (hj : j.isMarked = false) (hi : i.isSequel = true) : j.lets i = true := by
  simp only [Instr.lets, Bool.or_eq_true]
  right
  have hg : i.isGround = false := by
    simp only [Instr.isSequel, Bool.and_eq_true, Bool.not_eq_true'] at hi
    exact hi.1
  cases j with
  | user => simp [hg]
  | member j =>
    cases j with
    | exitRaise b c => simp [MemberInstr.lets, hg]
    | _ => first | exact hi | cases hj
  | stop j => cases j <;> first | exact hi | cases hj
  | _ => exact hi

theorem sealed_of_unmarked (hc : code.all Instr.isSequel = true)
    (hm : ∀ j ∈ code, j.isMarked = false) : Sealed code := by
  apply List.pairwise_of_forall_mem_list
  intro i hi j hj
  exact lets_of_unmarked (hm j hj) (List.all_eq_true.mp hc i hi)

theorem sealed_of_nested (hc : code.all Instr.isNested = true) : Sealed code := by
  apply List.pairwise_of_forall_mem_list
  intro i hi j _
  exact lets_of_nested (List.all_eq_true.mp hc i hi)

theorem sequel_of_nested (h : i.isNested = true) : i.isSequel = true := by
  cases i with
  | user => cases h
  | member i => cases h
  | _ => rfl

theorem sequel_of_work (h : i.isWork = true) : i.isSequel = true := by
  cases i with
  | pool | read | guard | sync => rfl
  | _ => cases h

theorem unmarked_of_work (h : code.all Instr.isWork = true) : ∀ j ∈ code, j.isMarked = false := by
  intro j hj
  have hw := List.all_eq_true.mp h j hj
  cases j with
  | pool | read | guard | sync => rfl
  | _ => cases hw

/-! What an instruction leaves to do. -/

section NewCode

attribute [local simp] Instr.isSequel Instr.isGround Instr.isJoin Instr.isMarked

theorem SyncInstr.run_unmarked (i : SyncInstr) : ∀ j ∈ (i.run t w).2, j.isMarked = false := by
  cases i <;> simp [SyncInstr.run]

theorem GuardInstr.run_sequel (i : GuardInstr) : (i.run t w).2.all Instr.isSequel = true := by
  cases i <;> simp only [GuardInstr.run] <;> repeat' split
  all_goals rfl

theorem unmarked_of_all (h : code.all (!·.isMarked) = true) : ∀ j ∈ code, j.isMarked = false := by
  simpa using h

theorem GuardInstr.run_unmarked (i : GuardInstr) : ∀ j ∈ (i.run t w).2, j.isMarked = false := by
  apply unmarked_of_all
  cases i <;> simp only [GuardInstr.run] <;> repeat' split
  all_goals rfl

theorem StopInstr.run_sequel (i : StopInstr) : (i.run t w).2.all Instr.isSequel = true := by
  cases i with
  | haltOthers s | freeOthers s => simp [StopInstr.run, leaveRoster]
  | scanRequest s d rs settled =>
    cases rs <;> simp only [StopInstr.run]
    · rfl
    · split <;> rfl
  | _ =>
    simp only [StopInstr.run, resumeAllCode]
    repeat' split
    all_goals rfl

/-- The instruction looks up whom to stop or let go, and leaves marked code to do. -/
def StopInstr.isSource : StopInstr → Bool
  | .haltOthers _ | .freeOthers _ | .resumeFind .. => true
  | _ => false

theorem StopInstr.run_unmarked (i : StopInstr) (h : i.isSource = false) :
    ∀ j ∈ (i.run t w).2, j.isMarked = false := by
  apply unmarked_of_all
  cases i with
  | haltOthers | freeOthers | resumeFind => cases h
  | scanRequest s d rs settled =>
    cases rs <;> simp only [StopInstr.run]
    · rfl
    · split <;> rfl
  | _ =>
    simp only [StopInstr.run, resumeAllCode]
    repeat' split
    all_goals rfl

theorem MemberInstr.run_sequel (i : MemberInstr) : (i.run t w).2.all Instr.isSequel = true := by
  cases i <;> simp only [MemberInstr.run] <;> repeat' split
  all_goals rfl

/-- The instruction leaves marked code to do. -/
def MemberInstr.isSource : MemberInstr → Bool
  | .establish _ | .attach .. | .detach _ | .detachRaise .. | .detachRemove .. | .spawnRecord ..
  | .gateWait .. | .exitRaise .. | .exitRemove .. => true
  | _ => false

theorem MemberInstr.run_unmarked (i : MemberInstr) (h : i.isSource = false) :
    ∀ j ∈ (i.run t w).2, j.isMarked = false := by
  apply unmarked_of_all
  cases i <;> simp only [MemberInstr.isSource] at h <;> simp only [MemberInstr.run] <;>
    repeat' split
  all_goals first | rfl | cases h

/-- No instruction leaves a call to do, or a departure. -/
theorem run_sequel (i : Instr) (hu : i ≠ .user) : (i.run t w).2.all Instr.isSequel = true := by
  cases i with
  | user => exact absurd rfl hu
  | sync i => cases i <;> rfl
  | guard i => exact i.run_sequel
  | park i =>
    apply List.all_eq_true.mpr
    intro j hj
    exact sequel_of_nested (List.all_eq_true.mp (run_nested rfl) j hj)
  | stop i => exact i.run_sequel
  | pool i => exact all_imp sequel_of_work i.run_work
  | member i => exact i.run_sequel
  | read i => exact all_imp sequel_of_work i.run_work

end NewCode

section Sealed

attribute [local simp] Instr.lets Instr.isNested Instr.isSequel Instr.isGround Instr.isJoin
  Instr.isOutset Instr.isAtGate Instr.isLocking Instr.isUnlocking Instr.isHalting Instr.isFreeing MemberInstr.lets
  StopInstr.lets Instr.isMarked

theorem sealed_cons : Sealed (i :: code) ↔ (∀ j ∈ code, j.lets i = true) ∧ Sealed code :=
  List.pairwise_cons

theorem sealed_nil : Sealed [] := List.Pairwise.nil

theorem sealed_publishCode : Sealed (publishCode s r) := by
  simp only [publishCode, locked, List.cons_append, List.nil_append, sealed_cons,
    List.forall_mem_cons]
  and_intros <;>
    first | rfl | exact beq_self_eq_true _ | exact List.forall_mem_nil _ | exact sealed_nil

theorem sealed_threadCode : Sealed (threadCode s r) := by
  simp only [threadCode, sealed_cons, List.forall_mem_cons]
  and_intros <;>
    first | rfl | exact beq_self_eq_true _ | exact List.forall_mem_nil _ | exact sealed_nil | simp

theorem sealed_map (rs : List RecordId) (f : RecordId → Instr) (hf : ∀ b c, (f b).lets (f c) = true)
    (hc : Sealed code) (hr : ∀ j ∈ code, ∀ b, j.lets (f b) = true) :
    Sealed (rs.map f ++ code) := by
  refine List.pairwise_append.mpr ⟨?_, hc, ?_⟩
  · refine List.pairwise_map.mpr ?_
    exact List.pairwise_of_forall fun b c => hf c b
  · intro i hi j hj
    obtain ⟨b, _, rfl⟩ := List.mem_map.mp hi
    exact hr j hj b

theorem StopInstr.run_sealed (i : StopInstr) : Sealed (i.run t w).2 := by
  cases i with
  | haltOthers s =>
    apply sealed_map
    · intro b c
      simp
    · simp only [leaveRoster, sealed_cons, List.forall_mem_cons]
      and_intros <;> first | rfl | exact List.forall_mem_nil _ | exact sealed_nil
    · simp [leaveRoster]
  | freeOthers s =>
    apply sealed_map
    · intro b c
      simp
    · simp only [sealed_cons, List.forall_mem_cons]
      and_intros <;> first | rfl | exact List.forall_mem_nil _ | exact sealed_nil
    · simp
  | resumeFind s h =>
    simp only [StopInstr.run]
    split
    · simp only [leaveRoster, sealed_cons, List.forall_mem_cons]
      and_intros <;> first | rfl | exact List.forall_mem_nil _ | exact sealed_nil
    · exact List.pairwise_singleton _ _
  | _ => exact sealed_of_unmarked (StopInstr.run_sequel _) (StopInstr.run_unmarked _ rfl)

theorem MemberInstr.run_sealed (i : MemberInstr) : Sealed (i.run t w).2 := by
  cases i with
  | establish x => exact sealed_publishCode
  | attach s name =>
    simp only [MemberInstr.run]
    repeat' split
    · exact sealed_nil
    · exact sealed_nil
    · exact sealed_publishCode
  | detach | detachRaise | detachRemove | spawnRecord | gateWait | exitRaise | exitRemove =>
    simp only [MemberInstr.run]
    repeat' split
    all_goals simp only [sealed_cons, List.forall_mem_cons, List.cons_append, List.nil_append]
    all_goals and_intros
    all_goals
      first | rfl | exact beq_self_eq_true _ | exact List.forall_mem_nil _ | exact sealed_nil | simp
  | _ => exact sealed_of_unmarked (MemberInstr.run_sequel _) (MemberInstr.run_unmarked _ rfl)

/-- Whatever an instruction leaves to do is sealed. -/
theorem run_sealed (i : Instr) : Sealed (i.run t w).2 := by
  cases i with
  | user => exact List.pairwise_singleton _ _
  | sync i => exact sealed_of_unmarked (run_sequel _ (fun h => by cases h)) i.run_unmarked
  | guard i => exact sealed_of_unmarked i.run_sequel i.run_unmarked
  | park i => exact sealed_of_nested (run_nested rfl)
  | stop i => exact i.run_sealed
  | pool i => exact sealed_of_unmarked (all_imp sequel_of_work i.run_work) (unmarked_of_work i.run_work)
  | member i => exact i.run_sealed
  | read i => exact sealed_of_unmarked (all_imp sequel_of_work i.run_work) (unmarked_of_work i.run_work)

/-- What may stand above marked code of a thread that joins or leaves has nothing to leave to do, but
for a wait at the start gate and a guard that is opened. -/
theorem MemberInstr.lets_run {j : MemberInstr} (hj : (Instr.member j).isMarked = true)
    (hi : j.lets i = true) : ∀ a ∈ (i.run t w).2, j.lets a = true := by
  cases i with
  | sync i =>
    cases i with
    -- only the wait at the gate sleeps above marked code, in the queue of the roster and with its
    -- lock
    | wait q l d =>
      cases j with
      | gateWait s r =>
        cases q with
        | roster b =>
          cases l with
          | roster c =>
            intro a ha
            simp only [MemberInstr.lets, Instr.isAtGate, Bool.and_eq_true, beq_iff_eq] at hi
            simp only [Instr.run, SyncInstr.run, List.mem_cons, List.not_mem_nil, or_false] at ha
            rcases ha with rfl | rfl
            · exact beq_iff_eq.mpr hi.1
            · exact beq_iff_eq.mpr hi.2
          | _ => cases hi
        | _ => cases hi
      | _ => first | exact absurd hj Bool.false_ne_true | exact absurd hi Bool.false_ne_true
    | doze k => cases j <;> first | exact absurd hj Bool.false_ne_true | exact absurd hi Bool.false_ne_true
    | _ => exact fun a ha => absurd ha List.not_mem_nil
  | guard i =>
    cases i with
    -- the guard that is opened may block the signal, and that is let above the code as well
    | raise b l =>
      have hm : j.lets (.guard (.mask b)) = true := by
        cases j <;> first | exact absurd hj Bool.false_ne_true | exact absurd hi Bool.false_ne_true | exact hi
      intro a ha
      simp only [Instr.run, GuardInstr.run] at ha
      repeat' split at ha
      · cases ha
      · rw [List.mem_singleton] at ha
        exact ha ▸ hm
      · cases ha
    | mask | setMask | setPhase => exact fun a ha => absurd ha List.not_mem_nil
    | _ => cases j <;> first | exact absurd hj Bool.false_ne_true | exact absurd hi Bool.false_ne_true
  | member i =>
    have hn : (i.run t w).2 = [] := by
      cases i with
      | own | bind | capture | clearRequest => rfl
      | publish | unbind | gateEnter | gatePass =>
        simp only [MemberInstr.run]
        repeat' split
        all_goals rfl
      | _ => cases j <;> first | exact absurd hj Bool.false_ne_true | exact absurd hi Bool.false_ne_true
    rw [Instr.run, hn]
    exact fun a ha => absurd ha List.not_mem_nil
  | _ => cases j <;> first | exact absurd hj Bool.false_ne_true | exact absurd hi Bool.false_ne_true

theorem StopInstr.lets_run {j : StopInstr} (hj : (Instr.stop j).isMarked = true)
    (hi : j.lets i = true) : ∀ a ∈ (i.run t w).2, (Instr.stop j).lets a = true := by
  have own {a : Instr} (ha : j.lets a = true) : (Instr.stop j).lets a = true := by
    simp only [Instr.lets, ha, Bool.or_true]
  cases i with
  | sync i =>
    cases i with
    | notifyAll => exact fun a ha => absurd ha List.not_mem_nil
    | _ => cases j <;> first | exact absurd hj Bool.false_ne_true | exact absurd hi Bool.false_ne_true
  | stop i =>
    cases i with
    | haltRequest | freeClear =>
      intro a ha
      rw [Instr.run, StopInstr.run, List.mem_singleton] at ha
      subst ha
      apply own
      cases j <;> first | exact absurd hj Bool.false_ne_true | exact absurd hi Bool.false_ne_true | exact hi
    | haltLevel | freeLevel =>
      intro a ha
      simp only [Instr.run, StopInstr.run] at ha
      split at ha
      · rw [List.mem_singleton] at ha
        subst ha
        apply own
        cases j <;> first | exact absurd hj Bool.false_ne_true | exact absurd hi Bool.false_ne_true | exact hi
      · cases ha
    | haltDeliver => exact fun a ha => absurd ha List.not_mem_nil
    -- the bell is rung under the lock of the park, and both ends of that are nested
    | freeWake =>
      intro a ha
      simp only [Instr.run, StopInstr.run] at ha
      split at ha
      · cases ha
      · simp only [ringPark, locked, List.cons_append, List.nil_append, List.mem_cons,
          List.not_mem_nil, or_false] at ha
        rcases ha with rfl | rfl | rfl
        · exact lets_of_nested rfl
        · apply own
          cases j <;> first | exact absurd hj Bool.false_ne_true | exact absurd hi Bool.false_ne_true | rfl
        · exact lets_of_nested rfl
    | _ => cases j <;> first | exact absurd hj Bool.false_ne_true | exact absurd hi Bool.false_ne_true
  | _ => cases j <;> first | exact absurd hj Bool.false_ne_true | exact absurd hi Bool.false_ne_true

/-- Where an instruction may stand, there may stand what it leaves to do. -/
theorem lets_run (hu : i ≠ .user) (hi : j.lets i = true) :
    ∀ a ∈ (i.run t w).2, j.lets a = true := by
  intro a ha
  cases hn : i.isNested with
  | true => exact lets_of_nested (List.all_eq_true.mp (run_nested hn) a ha)
  | false =>
    have hl := List.all_eq_true.mp (run_sequel (w := w) (t := t) i hu) a ha
    cases hm : j.isMarked with
    | false => exact lets_of_unmarked hm hl
    | true =>
      have hi' := hi
      simp only [Instr.lets, hn, Bool.false_or] at hi'
      cases j with
      | member j =>
        simp only [Instr.lets, Bool.or_eq_true]
        exact Or.inr (MemberInstr.lets_run hm hi' a ha)
      | stop j => exact StopInstr.lets_run hm hi' a ha
      | _ => cases hm

/-- A call is neither the thread's own code nor does it change at once who is registered. -/
theorem Call.code_calm (c : Call) :
    (c.code w t).all (fun i => !i.isGround && !i.isMarked) = true := by
  cases c with
  | safePoint s =>
    simp only [Call.code]
    split <;> rfl
  | mutex s a c | cond s a c => cases a <;> cases c <;> rfl
  | _ => rfl

theorem Call.code_groundless (c : Call) : ∀ i ∈ c.code w t, i.isGround = false := by
  intro i hi
  have h := List.all_eq_true.mp c.code_calm i hi
  simp only [Bool.and_eq_true, Bool.not_eq_true'] at h
  exact h.1

theorem Call.code_unmarked (c : Call) : ∀ j ∈ c.code w t, j.isMarked = false := by
  intro j hj
  have h := List.all_eq_true.mp c.code_calm j hj
  simp only [Bool.and_eq_true, Bool.not_eq_true'] at h
  exact h.2

theorem Call.code_sealed (c : Call) : Sealed (c.code w t) := by
  have sequel (hl : (c.code w t).all Instr.isSequel = true) : Sealed (c.code w t) :=
    sealed_of_unmarked hl c.code_unmarked
  cases c with
  | establish | attach | detach => exact List.pairwise_singleton _ _
  | safePoint s =>
    apply sequel
    simp only [Call.code]
    split <;> rfl
  | mutex s a c | cond s a c =>
    apply sequel
    cases a <;> cases c <;> rfl
  | _ => exact sequel rfl

/-- Below code of the thread's own there is only a departure. -/
theorem eq_exitRaise_of_lets (h : j.lets .user = true) : ∃ s r, j = .member (.exitRaise s r) := by
  cases j with
  | user => simp at h
  | member j => cases j <;> simp at h ⊢
  | stop j => cases j <;> simp at h
  | _ => simp at h

/-- Nothing is left to do below a departure. -/
theorem not_lets_exitRaise : j.lets (.member (.exitRaise s r)) = false := by
  cases j with
  | member j => cases j <;> simp
  | stop j => cases j <;> simp
  | _ => simp

end Sealed

theorem Sealed.lets (h : Sealed (i :: rest)) (hj : j ∈ rest) : j.lets i = true :=
  (List.pairwise_cons.mp h).1 j hj

theorem Sealed.tail (h : Sealed (i :: rest)) : Sealed rest := (List.pairwise_cons.mp h).2

theorem Sealed.of_user (h : Sealed (.user :: rest)) (hj : j ∈ rest) :
    ∃ s r, j = .member (.exitRaise s r) := eq_exitRaise_of_lets (h.lets hj)

theorem Sealed.of_exitRaise (h : Sealed (.member (.exitRaise s r) :: rest)) : rest = [] := by
  apply List.eq_nil_iff_forall_not_mem.mpr
  intro j hj
  have hl := h.lets hj
  rw [not_lets_exitRaise] at hl
  cases hl

theorem sealed_epilogue {panicked : Bool} (h : Sealed code) : Sealed (epilogue panicked code) := by
  unfold epilogue
  split
  next s r rest =>
    refine List.pairwise_append.mpr ⟨?_, h, ?_⟩
    · split <;> simp
    · obtain rfl := h.of_exitRaise
      split <;> simp [Instr.lets, MemberInstr.lets, Instr.isGround]
  next => exact h

theorem World.Takes.sealed (h : Takes w t e code) (ho : Sealed (w.codeOf t)) : Sealed code := by
  cases h with
  | interrupt h =>
    refine List.pairwise_append.mpr ⟨sealed_of_nested handler_nested, ho, fun i hi j _ => ?_⟩
    exact lets_of_nested (List.all_eq_true.mp handler_nested i hi)
  | invoke c h =>
    obtain ⟨rest, hc⟩ := head_user h
    rw [hc] at ho ⊢
    refine List.pairwise_append.mpr ⟨c.code_sealed, ho, fun i hi j hj => ?_⟩
    have hg := c.code_groundless i hi
    rcases List.mem_cons.mp hj with rfl | hj
    · simp [Instr.lets, hg]
    · obtain ⟨s, r, rfl⟩ := ho.of_user hj
      simp [Instr.lets, MemberInstr.lets, hg]
  | finish p h =>
    obtain ⟨rest, hc⟩ := head_user h
    rw [hc] at ho ⊢
    exact sealed_epilogue ho.tail

theorem sealed_proceed (h : w.codeOf t = i :: rest) (hu : i ≠ .user)
    (ho : ∀ t, Sealed (w.codeOf t)) : Sealed ((w.proceed t i rest).codeOf t') := by
  have hir : Sealed (i :: rest) := h ▸ ho t
  refine codeOf_proceed_cases h ?_ (ho t') List.Pairwise.nil fun _ _ => sealed_threadCode
  exact List.pairwise_append.mpr
    ⟨run_sealed i, hir.tail, fun a ha j hj => lets_run hu (hir.lets hj) a ha⟩

/-! Where marked code comes from. -/

/-- Instruction `i`, run by `t`, leaves the marked instruction `j` to do. -/
inductive Begets (w : World) (t : ThreadId) : Instr → Instr → Prop
  | establishPublish (x : Settings) :
    Begets w t (.member (.establish x)) (.member (.publish w.services.length w.records.length))
  | establishBind (x : Settings) :
    Begets w t (.member (.establish x)) (.member (.bind w.records.length))
  | attachPublish (s : ServiceId) (name : String) (h : w.selfIn t s = none) :
    Begets w t (.member (.attach s name)) (.member (.publish s w.records.length))
  | attachBind (s : ServiceId) (name : String) (h : w.selfIn t s = none) :
    Begets w t (.member (.attach s name)) (.member (.bind w.records.length))
  | spawnNative (s : ServiceId) (o : SpawnOptions) (k : Nat) :
    Begets w t (.member (.spawnRecord s o k)) (.member (.spawnNative s w.records.length))
  | detachRaise (s : ServiceId) (r : RecordId) (h : w.selfIn t s = some r) :
    Begets w t (.member (.detach s)) (.member (.detachRaise s r))
  | detachRemove (s : ServiceId) (r : RecordId) :
    Begets w t (.member (.detachRaise s r)) (.member (.detachRemove s r (w.levelOf r)))
  | unbind (s : ServiceId) (r : RecordId) (l : Level) (h : Handle) (hh : w.handleOf r = some h) :
    Begets w t (.member (.detachRemove s r l)) (.member (.unbind h))
  | clearRequest (s : ServiceId) (r : RecordId) (l : Level) :
    Begets w t (.member (.detachRemove s r l)) (.member (.clearRequest r))
  | setLevel (s : ServiceId) (r : RecordId) (l : Level) :
    Begets w t (.member (.detachRemove s r l)) (.member (.setLevel r l))
  | exitRemove (s : ServiceId) (r : RecordId) :
    Begets w t (.member (.exitRaise s r)) (.member (.exitRemove s r))
  | exitUnbind (s : ServiceId) (r : RecordId) (c : ThreadRecord) (hc : w.records[r]? = some c) :
    Begets w t (.member (.exitRemove s r)) (.member (.unbind c.handle))
  | gateWait (s : ServiceId) (r : RecordId) (h : (w.census s).allSuspended = true) :
    Begets w t (.member (.gateWait s r)) (.member (.gateWait s r))
  | gatePass (s : ServiceId) (r : RecordId) (h : (w.census s).allSuspended = false) :
    Begets w t (.member (.gateWait s r)) (.member (.gatePass s r))
  | noteStarted (s : ServiceId) (r : RecordId) (h : (w.census s).allSuspended = false) :
    Begets w t (.member (.gateWait s r)) (.member (.noteStarted r))
  | haltRequest (s : ServiceId) (r : RecordId) (h : r ∈ w.others t s) :
    Begets w t (.stop (.haltOthers s)) (.stop (.haltRequest s r))
  | closeGate (s : ServiceId) : Begets w t (.stop (.haltOthers s)) (.stop (.closeGate s))
  | freeClear (s : ServiceId) (r : RecordId) (h : r ∈ w.others t s) :
    Begets w t (.stop (.freeOthers s)) (.stop (.freeClear s r))
  | openGate (s : ServiceId) : Begets w t (.stop (.freeOthers s)) (.stop (.openGate s))
  | resumeClear (s : ServiceId) (r : RecordId) (h : Handle) (hr : (w.roster s).lookup h = some r) :
    Begets w t (.stop (.resumeFind s h)) (.stop (.resumeClear s r))

section Begets

attribute [local simp] Instr.isMarked

theorem StopInstr.begets_of_run (i : StopInstr) (hj : j ∈ (i.run t w).2)
    (hm : j.isMarked = true) : Begets w t (.stop i) j := by
  cases i with
  -- each of the others is asked to stop, and behind the last request the gate is closed
  | haltOthers s =>
    simp only [StopInstr.run, leaveRoster, List.mem_append, List.mem_map, List.mem_cons,
      List.not_mem_nil, or_false] at hj
    rcases hj with ⟨b, hb, rfl⟩ | rfl | rfl | rfl
    · exact .haltRequest s b hb
    · exact .closeGate s
    · cases hm
    · cases hm
  | freeOthers s =>
    simp only [StopInstr.run, List.mem_append, List.mem_map, List.mem_cons, List.not_mem_nil,
      or_false] at hj
    rcases hj with ⟨b, hb, rfl⟩ | rfl | rfl | rfl | rfl
    · exact .freeClear s b hb
    · exact .openGate s
    · cases hm
    · cases hm
    · cases hm
  -- a handle that nobody has leads to no request that could be taken back
  | resumeFind s h =>
    simp only [StopInstr.run] at hj
    split at hj
    · simp only [leaveRoster, List.mem_cons, List.not_mem_nil, or_false] at hj
      rcases hj with rfl | rfl <;> cases hm
    next b hb =>
      rw [List.mem_singleton] at hj
      subst hj
      exact .resumeClear s b h hb
  | _ =>
    rw [StopInstr.run_unmarked _ rfl j hj] at hm
    cases hm

theorem begets_publishCode (hj : j ∈ publishCode s r) (hm : j.isMarked = true) :
    j = .member (.publish s r) ∨ j = .member (.bind r) := by
  simp only [publishCode, locked, List.cons_append, List.nil_append, List.mem_cons,
    List.not_mem_nil, or_false] at hj
  rcases hj with rfl | rfl | rfl | rfl
  · cases hm
  · exact Or.inl rfl
  · cases hm
  · exact Or.inr rfl

theorem MemberInstr.begets_of_run (i : MemberInstr) (hj : j ∈ (i.run t w).2)
    (hm : j.isMarked = true) : Begets w t (.member i) j := by
  cases i with
  | establish x =>
    rcases begets_publishCode hj hm with rfl | rfl
    · exact .establishPublish x
    · exact .establishBind x
  | attach s name =>
    simp only [MemberInstr.run] at hj
    split at hj
    · split at hj <;> cases hj
    next hs =>
      rcases begets_publishCode hj hm with rfl | rfl
      · exact .attachPublish s name hs
      · exact .attachBind s name hs
  | detach s =>
    simp only [MemberInstr.run] at hj
    split at hj
    · cases hj
    next r hs =>
      split at hj
      · cases hj
      · rw [List.mem_singleton] at hj
        subst hj
        exact .detachRaise s r hs
  | spawnRecord s o k =>
    simp only [MemberInstr.run, List.mem_singleton] at hj
    subst hj
    exact .spawnNative s o k
  | detachRaise s r =>
    simp only [MemberInstr.run, List.mem_cons, List.not_mem_nil, or_false] at hj
    rcases hj with rfl | rfl
    · cases hm
    · exact .detachRemove s r
  -- only a thread that is on the roster gives up its binding, its request and its level
  | detachRemove s r l =>
    simp only [MemberInstr.run] at hj
    split at hj
    · rw [List.mem_singleton] at hj
      subst hj
      cases hm
    next h hh =>
      split at hj
      · rw [List.mem_singleton] at hj
        subst hj
        cases hm
      · simp only [List.mem_cons, List.not_mem_nil, or_false] at hj
        rcases hj with rfl | rfl | rfl | rfl | rfl
        · cases hm
        · cases hm
        · exact .unbind s r l h hh
        · exact .clearRequest s r l
        · exact .setLevel s r l
  -- behind a closed gate the thread comes back to this look, otherwise it passes and notes its
  -- start
  | gateWait s r =>
    simp only [MemberInstr.run] at hj
    split at hj
    next ha =>
      simp only [List.mem_cons, List.not_mem_nil, or_false] at hj
      rcases hj with rfl | rfl
      · cases hm
      · exact .gateWait s r ha
    next ha =>
      have ha := Bool.eq_false_iff.mpr ha
      simp only [List.mem_cons, List.not_mem_nil, or_false] at hj
      rcases hj with rfl | rfl | rfl | rfl | rfl | rfl
      · exact .gatePass s r ha
      · cases hm
      · exact .noteStarted s r ha
      · cases hm
      · cases hm
      · cases hm
  | exitRaise s r =>
    simp only [MemberInstr.run, List.mem_append, List.mem_cons, List.not_mem_nil, or_false] at hj
    rcases hj with hj | rfl | rfl
    · split at hj
      · cases hj
      · rw [List.mem_singleton] at hj
        subst hj
        cases hm
    · cases hm
    · exact .exitRemove s r
  | exitRemove s r =>
    simp only [MemberInstr.run] at hj
    split at hj
    · rw [List.mem_singleton] at hj
      subst hj
      cases hm
    next c hc =>
      simp only [List.mem_cons, List.not_mem_nil, or_false] at hj
      rcases hj with rfl | rfl | rfl
      · cases hm
      · cases hm
      · exact .exitUnbind s r c hc
  | _ =>
    rw [MemberInstr.run_unmarked _ rfl j hj] at hm
    cases hm

theorem begets_of_run (i : Instr) (hu : i ≠ .user) (hj : j ∈ (i.run t w).2)
    (hm : j.isMarked = true) : Begets w t i j := by
  cases i with
  | user => exact absurd rfl hu
  | sync i =>
    rw [i.run_unmarked j hj] at hm
    cases hm
  | guard i =>
    rw [i.run_unmarked j hj] at hm
    cases hm
  | park i =>
    have hn := List.all_eq_true.mp (run_nested (w := w) (t := t) (i := .park i) rfl) j hj
    cases j with
    | member | stop => cases hn
    | _ => cases hm
  | stop i => exact i.begets_of_run hj hm
  | pool i =>
    rw [unmarked_of_work i.run_work j hj] at hm
    cases hm
  | member i => exact i.begets_of_run hj hm
  | read i =>
    rw [unmarked_of_work i.run_work j hj] at hm
    cases hm

end Begets

/-- Neither calls nor the handler nor the end of a thread bring the instruction. -/
def Instr.isLasting : Instr → Bool
  | .user => false
  | i => i.isMarked || i.isGround

theorem World.Takes.mem_of_lasting (h : Takes w t e code) (hj : j ∈ code)
    (hm : j.isLasting = true) : j ∈ w.codeOf t := by
  cases h.origin hj with
  | kept h => exact h
  | handler _ _ h =>
    have hn := List.all_eq_true.mp handler_nested j h
    cases j with
    | member | stop => cases hn
    | _ => cases hm
  | call c _ _ h =>
    have hg := c.code_groundless j h
    have hu := c.code_unmarked j h
    cases j with
    | user => cases hm
    | _ => simp [Instr.isLasting, hg, hu] at hm
  | mourn s r h =>
    subst h
    cases hm

theorem World.Undisturbed.mem_iff (u : Undisturbed w e w') (hm : j.isLasting = true) :
    j ∈ w'.codeOf t ↔ j ∈ w.codeOf t := by
  rcases u.code t with hc | hc
  · rw [hc]
  · refine ⟨fun hj => hc.mem_of_lasting hj hm, fun hj => hc.mem_of_mem hj ?_⟩
    rintro rfl
    cases hm

/-- Where an instruction of a thread's code after a step has been before. -/
theorem mem_codeOf_step (so : Sealed (w.codeOf t)) (h : w.codeOf t = i :: rest)
    (hj : j ∈ (w.proceed t i rest).codeOf t') :
    t' = t ∧ j ∈ w.remainder t i rest ∨ j ∈ w.codeOf t' ∧ (t' = t → j ∈ rest ∧ j.lets i = true) ∨
      ∃ s r, i = .member (.spawnNative s r) ∧ t' = w.threads.length ∧ j ∈ threadCode s r ∧
        (w.proceed t i rest).codeOf t' = threadCode s r := by
  rcases mem_codeOf_proceed h hj with ⟨ht, hm⟩ | ⟨ht, hm⟩ | ⟨ht, hm⟩ | ⟨s, r, hi, ht, hm, hc⟩
  · exact Or.inl ⟨ht, hm⟩
  · rw [h] at so
    right
    left
    refine ⟨?_, fun _ => ⟨hm, so.lets hm⟩⟩
    rw [ht, h]
    exact List.mem_cons_of_mem _ hm
  · exact Or.inr (Or.inl ⟨hm, fun he => absurd he ht⟩)
  · exact Or.inr (Or.inr ⟨s, r, hi, ht, hm, hc⟩)

theorem Reachable.sealed (h : Reachable n w) (t : ThreadId) : Sealed (w.codeOf t) := by
  revert t
  refine h.induct (P := fun w => ∀ t, Sealed (w.codeOf t)) ?_ ?_
  · intro t
    rcases codeOf_initial n t with h | h <;> rw [h] <;> simp [Sealed]
  · intro w e _ ho t'
    rcases w.step_cases e with ⟨t, i, rest, _, hc, hr, hs⟩ | hu
    · rw [hs]
      exact sealed_proceed hc (ne_user_of_ready hr) ho
    · rcases hu.code t' with hc | hc
      · rw [hc]
        exact ho t'
      · exact hc.sealed (ho t')

end Standstill
