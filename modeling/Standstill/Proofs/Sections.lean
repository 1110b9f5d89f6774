import Standstill.Proofs.Custody

/-!
Critical sections, guards and noted phases lie properly inside one another. What a thread holds can
be read off the code that it has still to run: each section that is open there is closed by it, the
innermost first.
-/
namespace Standstill

open World

/-- Something that a thread has taken and has to give back. -/
inductive Hold
  | lock (l : Lock)
  | guard
  | phase
  deriving DecidableEq

def Hold.lock? : Hold → Option Lock
  | .lock l => some l
  | _ => none

/-- The kind of scope that stands for the hold. -/
def Hold.scope? : Hold → Option Hold
  | .lock _ => none
  | h => some h

def Scope.hold : Scope → Hold
  | .guard .. => .guard
  | .phase .. => .phase

/-! What an instruction finds held and gives back, and what is held in its place once it is done with
all that it has left to do. -/

def SyncInstr.closes : SyncInstr → List Hold
  | .release l | .wait _ l _ => [.lock l]
  | .notifyAll (.park r) => [.lock (.park r)]
  | _ => []

def SyncInstr.opens : SyncInstr → List Hold
  | .acquire l | .wait _ l _ => [.lock l]
  | .notifyAll (.park r) => [.lock (.park r)]
  | _ => []

/-- What is held right after the step itself. -/
def SyncInstr.leaves : SyncInstr → List Hold
  | .acquire l => [.lock l]
  | .notifyAll (.park r) => [.lock (.park r)]
  | _ => []

def GuardInstr.closes : GuardInstr → List Hold
  | .lower _ => [.guard]
  | .leave => [.phase]
  | _ => []

def GuardInstr.opens : GuardInstr → List Hold
  | .raise .. => [.guard]
  | .enter .. => [.phase]
  | _ => []

def ParkInstr.closes : ParkInstr → List Hold
  | .retestRequest r | .retestLevel r => [.lock (.park r)]
  | _ => []

def StopInstr.closes : StopInstr → List Hold
  | .suspendFind s _ | .readEpoch s _ | .request s .. | .readLevel s .. | .deliver s ..
  | .resumeFind s _ | .resumeClear s _ | .resumeLevel s _ | .resumeWake s _ | .haltOthers s
  | .freeOthers s | .scan s _ | .scanRequest s .. | .scanLevel s .. | .scanPhase s .. =>
    [.lock (.roster s), .guard]
  | .haltRequest s _ | .haltLevel s _ | .haltDeliver s _ | .closeGate s | .freeClear s _
  | .freeLevel s _ | .freeWake s _ | .openGate s => [.lock (.roster s)]
  | .verdict .. => [.guard]
  | _ => []

def StopInstr.opens : StopInstr → List Hold
  | .haltRequest s _ | .haltLevel s _ | .haltDeliver s _ | .closeGate s | .freeClear s _
  | .freeLevel s _ | .freeWake s _ | .openGate s => [.lock (.roster s)]
  | _ => []

/-- A use that goes on to sleep finds a guard around the look-up and closes it. -/
def MutexUse.closes : MutexUse → List Hold
  | .lock | .wait .. => [.guard]
  | _ => []

def CondUse.closes : CondUse → List Hold
  | .wait .. => [.guard]
  | _ => []

def PoolInstr.closes : PoolInstr → List Hold
  | .mutexAllot s _ | .mutexDispose s _ | .mutexFree s _ => [.lock (.mutexTable s)]
  | .condAllot s _ | .condDispose s _ | .condFree s _ => [.lock (.condTable s)]
  | .mutexFind s _ use => .lock (.mutexTable s) :: use.closes
  | .condFind s _ use => .lock (.condTable s) :: use.closes
  | .tryTake m | .take _ m | .retake _ m _ | .giveUp m | .waitOwner _ _ m _ =>
    [.lock (.mutexState m)]
  | .mutexIdle s _ m => [.lock (.mutexState m), .lock (.mutexTable s)]
  | .condIdle s _ c => [.lock (.condState c), .lock (.condTable s)]
  | .signal c | .broadcast c => [.lock (.condState c)]
  | .waitClock .. => []
  | .waitRegister x | .waitCheck x _ | .waitRetire x => [.lock (.condState x.cond)]
  | .waitGiveUp x _ => [.lock (.mutexState x.mutex), .lock (.condState x.cond)]

def PoolInstr.opens : PoolInstr → List Hold
  | .mutexAllot s _ | .mutexDispose s _ | .mutexFree s _ | .mutexIdle s .. =>
    [.lock (.mutexTable s)]
  | .condAllot s _ | .condDispose s _ | .condFree s _ | .condIdle s .. => [.lock (.condTable s)]
  | .tryTake m | .take _ m | .retake _ m _ => [.lock (.mutexState m)]
  | .signal c | .broadcast c => [.lock (.condState c)]
  | _ => []

def MemberInstr.closes : MemberInstr → List Hold
  | .publish s _ | .detachRemove s .. | .gateEnter s _ | .gatePass s _ | .noThread s
  | .exitRemove s _ => [.lock (.roster s)]
  | .gateWait s _ | .spawnWait s _ | .awaitExitCheck s _ => [.lock (.roster s), .guard]
  | _ => []

def MemberInstr.opens : MemberInstr → List Hold
  | .publish s _ | .gateEnter s _ | .gatePass s _ | .noThread s => [.lock (.roster s)]
  | _ => []

def ReadInstr.closes : ReadInstr → List Hold
  | .find s .. => [.lock (.roster s), .guard]
  | .name r | .rename r _ => [.lock (.name r)]
  | .all s _ | .census s | .statsCensus s => [.lock (.roster s)]
  | .statsMutexes s => [.lock (.mutexTable s)]
  | .statsConds s => [.lock (.condTable s)]
  | _ => []

def ReadInstr.opens : ReadInstr → List Hold
  | .find .. => []
  | i => i.closes

namespace Instr

def closes : Instr → List Hold
  | .user => []
  | .sync i => i.closes
  | .guard i => i.closes
  | .park i => i.closes
  | .stop i => i.closes
  | .pool i => i.closes
  | .member i => i.closes
  | .read i => i.closes

def opens : Instr → List Hold
  | .user => []
  | .sync i => i.opens
  | .guard i => i.opens
  | .park i => i.closes
  | .stop i => i.opens
  | .pool i => i.opens
  | .member i => i.opens
  | .read i => i.opens

def leaves : Instr → List Hold
  | .sync i => i.leaves
  | .guard i => i.opens
  | i => i.closes

/-- The instruction may be run whatever the thread holds; the others find no more than a phase noted,
beside what they give back. -/
def isFree : Instr → Bool
  | .user => false
  | .sync _ | .park _ => true
  | .guard (.mask _) | .guard (.setMask _) | .guard (.setPhase ..) => true
  | .guard _ => false
  | .stop (.withdraw _) | .stop (.haltRequest ..) | .stop (.haltLevel ..)
  | .stop (.haltDeliver ..) | .stop (.closeGate _) | .stop (.freeClear ..)
  | .stop (.freeLevel ..) | .stop (.freeWake ..) | .stop (.openGate _) => true
  | .stop _ => false
  | .pool (.mutexFind _ _ use) => use.closes.isEmpty
  | .pool (.condFind _ _ use) => use.closes.isEmpty
  | .pool _ => true
  | .member (.publish ..) | .member (.capture _) | .member (.gateEnter ..)
  | .member (.gatePass ..) | .member (.noThread _) | .member (.noteStarted _) => true
  | .member _ => false
  | .read (.find ..) => false
  | .read _ => true

/-- What the thread may hold beside what the instruction gives back. -/
def Bears (hs : List Hold) : Instr → Prop
  | .user => hs = []
  | i => i.isFree = true ∨ ∀ h ∈ hs, h = .phase

end Instr

/-- A thread that holds `hs`, the innermost first, and runs the code holds `gs` after it. -/
def Fits (gs : List Hold) : List Instr → List Hold → Prop
  | [], hs => hs = gs
  | i :: rest, hs => ∃ fs, hs = i.closes ++ fs ∧ i.Bears fs ∧ Fits gs rest (i.opens ++ fs)

variable {n : Nat} {w w' : World} {t t' : ThreadId} {s : ServiceId} {r : RecordId} {l : Lock}
  {i : Instr} {code rest : List Instr} {e : Event} {fs gs hs : List Hold}

theorem Fits.append (h : Fits fs code hs) (hr : Fits gs rest fs) : Fits gs (code ++ rest) hs := by
  induction code generalizing hs with
  | nil =>
    obtain rfl : hs = fs := h
    exact hr
  | cons i code ih =>
    obtain ⟨ks, rfl, hb, h⟩ := h
    exact ⟨ks, rfl, hb, ih h⟩

/-- What is held before can be told from what is held after. -/
theorem Fits.unique (h : Fits gs code fs) (h' : Fits gs code hs) : fs = hs := by
  induction code generalizing fs hs with
  | nil => exact Eq.trans h (Eq.symm h')
  | cons i code ih =>
    obtain ⟨ks, rfl, _, h⟩ := h
    obtain ⟨ks', rfl, _, h'⟩ := h'
    rw [List.append_cancel_left (ih h h')]

/-- A lock that is given back in the end, and not taken before, is held from the start. -/
theorem mem_of_fits (h : Fits gs (code ++ i :: rest) hs)
    (hc : ∀ j ∈ code, .lock l ∈ j.opens → .lock l ∈ j.closes) (hl : .lock l ∈ i.closes) :
    .lock l ∈ hs := by
  induction code generalizing hs with
  | nil =>
    obtain ⟨fs, rfl, _, _⟩ := h
    exact List.mem_append_left _ hl
  | cons j code ih =>
    obtain ⟨fs, rfl, _, hf⟩ := h
    rcases List.mem_append.mp (ih hf fun k hk => hc k (List.mem_cons_of_mem _ hk)) with hm | hm
    · exact List.mem_append_left _ (hc j List.mem_cons_self hm)
    · exact List.mem_append_right _ hm

theorem fits_flatMap {α : Type} (xs : List α) (f : α → List Instr) (h : ∀ x, Fits gs (f x) gs) :
    Fits gs (xs.flatMap f) gs := by
  induction xs with
  | nil => rfl
  | cons x xs ih =>
    rw [List.flatMap_cons]
    exact (h x).append ih

theorem fits_map {α : Type} (xs : List α) (f : α → Instr) (h : ∀ x, Fits gs [f x] gs) :
    Fits gs (xs.map f) gs := by
  rw [List.map_eq_flatMap]
  exact fits_flatMap xs _ h

/-! Whatever an instruction leaves to do closes what it leaves open. -/

section Run

attribute [local simp] Fits Instr.Bears Instr.closes Instr.opens Instr.leaves Instr.isFree
  SyncInstr.closes SyncInstr.opens GuardInstr.closes GuardInstr.opens ParkInstr.closes
  StopInstr.closes StopInstr.opens PoolInstr.closes PoolInstr.opens MemberInstr.closes
  MemberInstr.opens ReadInstr.closes ReadInstr.opens MutexUse.closes CondUse.closes
  locked guarded leaveRoster

theorem SyncInstr.fits_run (i : SyncInstr) :
    Fits (i.opens ++ fs) (i.run t w).2 (i.leaves ++ fs) := by
  cases i with
  | notifyAll q => cases q <;> simp [SyncInstr.run, SyncInstr.leaves]
  | _ => simp [SyncInstr.run, SyncInstr.leaves]

theorem GuardInstr.fits_run (i : GuardInstr) (hb : (Instr.guard i).Bears fs) :
    Fits ((Instr.guard i).opens ++ fs) (i.run t w).2 ((Instr.guard i).leaves ++ fs) := by
  cases i <;> simp only [GuardInstr.run] <;> repeat' split
  all_goals simp [stopIfDue] at hb ⊢
  all_goals exact hb

theorem handlerCode_fits : Fits fs (w.handlerCode t) fs := by
  rw [handlerCode_eq]
  split <;> simp

theorem ParkInstr.fits_run (i : ParkInstr) :
    Fits (i.closes ++ fs) (i.run t w).2 (i.closes ++ fs) := by
  cases i with
  | check tests entry b =>
    rcases tests with _ | ⟨x, rest⟩
    · rcases entry with _ | _ | _ <;> simp only [ParkInstr.run]
      · simp
      · split <;> simp
      · simp
    · simp only [ParkInstr.run]
      split <;> simp
  | awaitSignal => exact handlerCode_fits
  | testLevel p =>
    rcases p with ⟨sleep, b, q⟩
    simp only [ParkInstr.run]
    split
    · cases sleep <;> simp [Parking.sleepCode]
    · simp
  | testRequest | retestRequest | retestLevel =>
    simp only [ParkInstr.run]
    split <;> simp
  | _ => simp [ParkInstr.run]

theorem fits_ringPark : Fits fs (ringPark r) fs := by simp [ringPark]

theorem StopInstr.fits_run (i : StopInstr) (hb : (Instr.stop i).Bears fs) :
    Fits (i.opens ++ fs) (i.run t w).2 (i.closes ++ fs) := by
  cases i with
  | haltOthers s =>
    exact (fits_map _ _ fun r => by simp).append (by simpa using hb)
  | freeOthers s =>
    exact (fits_map _ _ fun r => by simp).append (by simpa using hb)
  | scanRequest s d rs settled =>
    cases rs <;> simp only [StopInstr.run]
    · simpa using hb
    · split <;> simpa using hb
  | freeWake s r =>
    simp only [StopInstr.run]
    split
    · simp
    · exact fits_ringPark
  | resumeWake s r =>
    simp only [StopInstr.run]
    repeat' split
    · simpa using hb
    · simpa using hb
    · exact fits_ringPark.append (by simpa using hb)
  | _ =>
    simp only [StopInstr.run, resumeAllCode]
    repeat' split
    all_goals first | (simp; done) | simpa using hb

theorem PoolInstr.fits_run (i : PoolInstr) (hb : (Instr.pool i).Bears fs) :
    Fits (i.opens ++ fs) (i.run t w).2 (i.closes ++ fs) := by
  cases i with
  | mutexFind s k use =>
    simp only [PoolInstr.run]
    split <;> cases use <;> simp [MutexUse.found, MutexUse.missing, takeCode, sleeping] at hb ⊢
    all_goals exact hb
  | condFind s k use =>
    simp only [PoolInstr.run]
    split <;> cases use <;> simp [CondUse.found, CondUse.missing] at hb ⊢
    all_goals exact hb
  | _ =>
    simp only [PoolInstr.run]
    repeat' split
    all_goals simp [takeCode]

theorem MemberInstr.fits_run (i : MemberInstr) (hb : (Instr.member i).Bears fs) :
    Fits (i.opens ++ fs) (i.run t w).2 (i.closes ++ fs) := by
  cases i <;> simp only [MemberInstr.run] <;> repeat' split
  all_goals simp [publishCode, refuseCode] at hb ⊢
  all_goals exact hb

theorem ReadInstr.fits_run (i : ReadInstr) (hb : (Instr.read i).Bears fs) :
    Fits (i.opens ++ fs) (i.run t w).2 (i.closes ++ fs) := by
  cases i with
  | find s h q =>
    simp only [ReadInstr.run]
    split
    · simpa using hb
    · cases q <;> simp [Inquiry.code] at hb ⊢
      all_goals exact hb
  | all s withNames =>
    exact fits_flatMap _ _ fun r => by cases withNames <;> simp
  | _ =>
    simp only [ReadInstr.run, ReadInstr.tell, ReadInstr.consult]
    repeat' split
    all_goals simp

theorem threadCode_fits (s : ServiceId) (r : RecordId) : Fits [] (threadCode s r) [] := by
  simp [threadCode]

theorem Call.code_fits (c : Call) : Fits [] (c.code w t) [] := by
  cases c with
  | safePoint s =>
    simp only [Call.code]
    split <;> simp
  | mutex s a c => cases a <;> cases c <;> simp [Call.code, MutexCall.code]
  | cond s a c => cases a <;> cases c <;> simp [Call.code, CondCall.code]
  | _ => simp [Call.code, inquireCode, suspendAllCode, resumeAllCode, sleepCode, sleeping]

theorem fits_run (i : Instr) (hu : i ≠ .user) (hb : i.Bears fs) :
    Fits (i.opens ++ fs) (i.run t w).2 (i.leaves ++ fs) := by
  cases i with
  | user => exact absurd rfl hu
  | sync i => exact i.fits_run
  | guard i => exact i.fits_run hb
  | park i => exact i.fits_run
  | stop i => exact i.fits_run hb
  | pool i => exact i.fits_run hb
  | member i => exact i.fits_run hb
  | read i => exact i.fits_run hb

end Run

/-! Who holds what after a step. -/

/-- The locks that thread `t` holds, the one it took last first. -/
def World.locksOf (w : World) (t : ThreadId) : List Lock :=
  (w.held.filter (·.2 == t)).map (·.1)

theorem mem_locksOf : l ∈ w.locksOf t ↔ (l, t) ∈ w.held := by
  simp [locksOf]

theorem held_run (i : Instr) (hi : ∀ j, i ≠ .sync j) : (i.run t w).1.held = w.held := by
  have hsame (h : (i.run t w).1.outline = w.outline) : (i.run t w).1.held = w.held := by
    simp only [World.outline, Prod.mk.injEq] at h
    exact h.2.1
  cases i with
  | user => rfl
  | sync i => exact absurd rfl (hi i)
  | guard i => exact hsame i.outline_run
  | park i => exact hsame i.outline_run
  | stop i => exact hsame i.outline_run
  | pool i => exact held_congr i.core_run
  | member i => exact i.queues_run.1
  | read i => exact held_congr i.core_run

theorem filter_erase_of_ne {t' : ThreadId} (ht : t' ≠ t) (hs : List (Lock × ThreadId)) :
    (hs.erase (l, t)).filter (·.2 == t') = hs.filter (·.2 == t') := by
  rw [← List.erase_filter, List.erase_of_not_mem]
  simp [Ne.symm ht]

theorem locksOf_of_held_eq (h : w'.held = w.held) (t : ThreadId) :
    w'.locksOf t = w.locksOf t := by
  rw [locksOf, locksOf, h]

theorem locksOf_erase {hs : List (Lock × ThreadId)} {ls : List Lock}
    (h : (hs.filter (·.2 == t)).map (·.1) = l :: ls) :
    ((hs.erase (l, t)).filter (·.2 == t)).map (·.1) = ls := by
  rw [← List.erase_filter]
  obtain ⟨x, xs, hx, rfl, rfl⟩ := List.map_eq_cons_iff.mp h
  have ht : x.2 = t := by
    have hm : x ∈ hs.filter (·.2 == t) := hx ▸ List.mem_cons_self
    simpa using (List.mem_filter.mp hm).2
  rw [hx, ← ht]
  exact congrArg _ (List.erase_cons_head x xs)

theorem held_wakeFirst {q : WaitList} : (w.wakeFirst q).held = w.held := by
  simp only [wakeFirst]
  split <;> rfl

/-- The locks of the thread that runs an instruction. -/
theorem locksOf_run (i : Instr) (h : w.locksOf t = (i.closes ++ fs).filterMap Hold.lock?) :
    (i.run t w).1.locksOf t = (i.leaves ++ fs).filterMap Hold.lock? := by
  by_cases hi : ∃ j, i = .sync j
  · obtain ⟨j, rfl⟩ := hi
    cases j with
    | acquire l =>
      have hc : w.locksOf t = fs.filterMap Hold.lock? := h
      simp only [Instr.run, SyncInstr.run, locksOf, List.filter_cons, beq_self_eq_true, if_true,
        List.map_cons]
      rw [locksOf] at hc
      rw [hc]
      rfl
    | release l => exact locksOf_erase h
    | wait q l d => exact locksOf_erase h
    | notifyOne q => exact (locksOf_of_held_eq held_wakeFirst t).trans h
    | notifyAll q => cases q <;> exact h
    | _ => exact h
  · have hj : ∀ j, i ≠ .sync j := fun j he => hi ⟨j, he⟩
    rw [locksOf_of_held_eq (held_run i hj), h]
    cases i with
    | sync j => exact absurd rfl (hj j)
    | guard j => cases j <;> rfl
    | _ => rfl

theorem locksOf_run_of_ne {t' : ThreadId} (ht : t' ≠ t) (i : Instr) :
    (i.run t w).1.locksOf t' = w.locksOf t' := by
  by_cases hi : ∃ j, i = .sync j
  · obtain ⟨j, rfl⟩ := hi
    cases j with
    | acquire l => simp [Instr.run, SyncInstr.run, locksOf, Ne.symm ht]
    | release l | wait q l d => exact congrArg _ (filter_erase_of_ne ht _)
    | notifyOne q => exact locksOf_of_held_eq held_wakeFirst t'
    | _ => rfl
  · exact locksOf_of_held_eq (held_run i fun j he => hi ⟨j, he⟩) t'

/-- The scopes of thread `t`, by kind, the one it opened last first. -/
def World.kindsOf (w : World) (t : ThreadId) : List Hold := (w.scopesOf t).map Scope.hold

/-- Scopes are opened and closed by guards alone. -/
theorem scopesOf_run_of_not_guard (i : Instr) (hi : ∀ j, i ≠ .guard j) (t' : ThreadId) :
    (i.run t w).1.scopesOf t' = w.scopesOf t' := by
  cases i with
  | user => rfl
  | sync i =>
    obtain ⟨_, _, he⟩ := i.run_fst (w := w) (t := t)
    rw [Instr.run, he]
    rfl
  | guard i => exact absurd rfl (hi i)
  | park i => exact i.ofThread_run (fun _ => rfl) (fun _ _ => rfl) fun _ _ => rfl
  | stop i => exact i.ofThread_run (fun _ => rfl) fun _ _ => rfl
  | pool i => exact ofThread_congr i.core_run fun _ => rfl
  | member i => exact i.scopesOf_run
  | read i => exact ofThread_congr i.core_run fun _ => rfl

theorem kindsOf_run_of_not_guard (i : Instr) (hi : ∀ j, i ≠ .guard j) (t' : ThreadId) :
    (i.run t w).1.kindsOf t' = w.kindsOf t' := by
  rw [kindsOf, kindsOf, scopesOf_run_of_not_guard i hi t']

theorem kindsOf_openScope (ht : t < w.threads.length) (x : Scope) (t' : ThreadId) :
    (w.openScope t x).kindsOf t' = if t' = t then x.hold :: w.kindsOf t else w.kindsOf t' := by
  simp only [kindsOf, scopesOf, openScope, ofThread_modThread]
  split
  next he =>
    subst he
    simp [ofThread, List.getElem?_eq_getElem ht]
  next => rfl

theorem kindsOf_closeScope (w : World) (t t' : ThreadId) :
    (w.closeScope t).kindsOf t' = if t' = t then (w.kindsOf t).tail else w.kindsOf t' := by
  simp only [kindsOf, scopesOf_closeScope]
  split
  next he => rw [he, List.map_tail]
  next => rfl

theorem kindsOf_guard (i : GuardInstr) (ht : t < w.threads.length) (t' : ThreadId) :
    (i.run t w).1.kindsOf t' = if t' = t then
      (Instr.guard i).opens ++ (w.kindsOf t).drop (Instr.guard i).closes.length
      else w.kindsOf t' := by
  -- what opens nothing and closes nothing leaves the scopes of all threads as they are
  have hsame (w' : World) (h : w'.scopesOf t' = w.scopesOf t') : w'.kindsOf t' =
      if t' = t then w.kindsOf t else w.kindsOf t' := by
    rw [kindsOf, h]
    split
    next he => rw [he, kindsOf]
    next => rfl
  have hclose (w' : World) (h : w'.threads = w.threads) : (w'.closeScope t).kindsOf t' =
      if t' = t then (w.kindsOf t).drop 1 else w.kindsOf t' := by
    have hk (t₁ : ThreadId) : w'.kindsOf t₁ = w.kindsOf t₁ := by
      simp only [kindsOf, scopesOf, ofThread, h]
    rw [kindsOf_closeScope, hk, hk, List.drop_one]
  cases i with
  | raise s l =>
    simp only [GuardInstr.run]
    split <;> exact kindsOf_openScope ht _ t'
  | enter s p =>
    simp only [GuardInstr.run]
    split <;> exact kindsOf_openScope ht _ t'
  | lower s =>
    simp only [GuardInstr.run]
    split <;> exact hclose _ rfl
  | leave =>
    simp only [GuardInstr.run]
    split <;> exact hclose _ rfl
  | mask s | unmask s =>
    apply hsame
    simp only [GuardInstr.run, setMaskFor]
    split
    · simp [scopesOf, World.setMask, ofThread_modThread]
    · rfl
  | setMask b =>
    apply hsame
    simp [GuardInstr.run, scopesOf, World.setMask, ofThread_modThread]
  | setPhase b p => exact hsame _ rfl
  | _ =>
    apply hsame
    simp only [GuardInstr.run]
    split
    · simp [scopesOf, fail, say, ofThread_modThread]
    · rfl

/-- Thread `t` holds `hs`, the innermost first, and its code gives all of it back. -/
structure Keeps (w : World) (t : ThreadId) (hs : List Hold) : Prop where
  code : Fits [] (w.codeOf t) hs
  locks : w.locksOf t = hs.filterMap Hold.lock?
  scopes : w.kindsOf t = hs.filterMap Hold.scope?

theorem Keeps.congr {t' : ThreadId} (k : Keeps w t hs) (hc : w'.codeOf t' = w.codeOf t)
    (hl : w'.locksOf t' = w.locksOf t) (hk : w'.kindsOf t' = w.kindsOf t) : Keeps w' t' hs :=
  ⟨hc ▸ k.code, hl.trans k.locks, hk.trans k.scopes⟩

theorem kindsOf_proceed {t' : ThreadId} :
    (w.proceed t i rest).kindsOf t' = (i.run t (w.setCode t rest)).1.kindsOf t' := by
  rw [kindsOf, kindsOf]
  exact congrArg _ (ofThread_push (fun _ _ => rfl) _)

theorem kindsOf_setCode {t' : ThreadId} : (w.setCode t rest).kindsOf t' = w.kindsOf t' := by
  rw [kindsOf, kindsOf]
  exact congrArg _ (ofThread_setCode fun _ _ => rfl)

section Proceed

variable (h : w.codeOf t = i :: rest)
include h

/-- The scopes of the running thread, by kind. -/
theorem kindsOf_proceed_own (hk : w.kindsOf t = (i.closes ++ fs).filterMap Hold.scope?) :
    (w.proceed t i rest).kindsOf t = (i.leaves ++ fs).filterMap Hold.scope? := by
  have ht : t < (w.setCode t rest).threads.length := by
    rw [threads_length_setCode]
    exact lt_of_head h
  rw [kindsOf_proceed]
  by_cases hi : ∃ j, i = .guard j
  · obtain ⟨j, rfl⟩ := hi
    rw [Instr.run, kindsOf_guard j ht, if_pos rfl, kindsOf_setCode, hk]
    cases j <;> rfl
  · have hj : ∀ j, i ≠ .guard j := fun j he => hi ⟨j, he⟩
    rw [kindsOf_run_of_not_guard i hj, kindsOf_setCode, hk]
    cases i with
    | guard j => exact absurd rfl (hj j)
    | sync j =>
      cases j with
      | notifyAll q => cases q <;> rfl
      | _ => rfl
    | _ => rfl

/-- The running thread holds what the instruction leaves in place of what it gives back. -/
theorem Keeps.proceed (k : Keeps w t (i.closes ++ fs)) (hu : i ≠ .user) (hb : i.Bears fs)
    (hr : Fits [] rest (i.opens ++ fs)) : Keeps (w.proceed t i rest) t (i.leaves ++ fs) where
  code := by
    rw [codeOf_proceed h]
    exact (fits_run i hu hb).append hr
  locks := locksOf_run i k.locks
  scopes := kindsOf_proceed_own h k.scopes

theorem kindsOf_proceed_of_ne {t' : ThreadId} (ht : t' ≠ t) :
    (w.proceed t i rest).kindsOf t' = w.kindsOf t' := by
  have hts : t < (w.setCode t rest).threads.length := by
    rw [threads_length_setCode]
    exact lt_of_head h
  rw [kindsOf_proceed]
  by_cases hi : ∃ j, i = .guard j
  · obtain ⟨j, rfl⟩ := hi
    rw [Instr.run, kindsOf_guard j hts, if_neg ht, kindsOf_setCode]
  · rw [kindsOf_run_of_not_guard i fun j he => hi ⟨j, he⟩, kindsOf_setCode]

theorem Keeps.proceed_of_ne {t' : ThreadId} (k : Keeps w t' hs) (ht : t' ≠ t)
    (hlt : t' < w.threads.length) : Keeps (w.proceed t i rest) t' hs :=
  k.congr (codeOf_proceed_of_ne h ht hlt) (locksOf_run_of_ne ht i) (kindsOf_proceed_of_ne h ht)

/-- A thread that is not there yet holds nothing, and nor does one that has just been started. -/
theorem Keeps.proceed_of_le {t' : ThreadId} (k : Keeps w t' hs) (hl : w.threads.length ≤ t') :
    Keeps (w.proceed t i rest) t' [] := by
  have ht : t' ≠ t := Nat.ne_of_gt (Nat.lt_of_lt_of_le (lt_of_head h) hl)
  have hc : w.codeOf t' = [] := ofThread_of_le _ _ hl
  obtain rfl : hs = [] := by
    have hk := k.code
    rwa [hc] at hk
  refine ⟨?_, (locksOf_run_of_ne ht i).trans k.locks, (kindsOf_proceed_of_ne h ht).trans k.scopes⟩
  rcases thread_proceed_of_le h hl with hn | ⟨s, r, _, _, hx⟩
  · rw [codeOf, ofThread_of_le _ _ hn]
    rfl
  · simp only [codeOf, ofThread, hx]
    exact threadCode_fits s r

end Proceed

/-- Every thread gives back in good order what it holds, and no lock is held twice. -/
structure Keeping (w : World) : Prop where
  keeps : ∀ t, ∃ hs, Keeps w t hs
  sole : (w.held.map (·.1)).Nodup

theorem keeping_initial (n : Nat) : Keeping (World.initial n) where
  keeps t := by
    refine ⟨[], ?_, rfl, ?_⟩
    · rcases codeOf_initial n t with h | h <;> rw [h]
      · exact ⟨[], rfl, rfl, rfl⟩
      · rfl
    · rw [kindsOf, scopesOf_initial]
      rfl
  sole := List.nodup_nil

theorem not_mem_held_of_free (h : w.isFree l = true) : l ∉ w.held.map (·.1) := by
  have hl : w.held.lookup l = none := by simpa [isFree, holder?] using h
  intro hm
  obtain ⟨x, hx, rfl⟩ := List.mem_map.mp hm
  have hne := List.lookup_eq_none_iff.mp hl x hx
  simp at hne

theorem sole_run (i : Instr) (hf : ∀ l, i = .sync (.acquire l) → w.isFree l = true)
    (h : (w.held.map (·.1)).Nodup) :
    ((i.run t w).1.held.map (·.1)).Nodup := by
  by_cases hi : ∃ j, i = .sync j
  · obtain ⟨j, rfl⟩ := hi
    cases j with
    | acquire l => exact List.nodup_cons.mpr ⟨not_mem_held_of_free (hf l rfl), h⟩
    | release l | wait q l d => exact h.sublist (List.erase_sublist.map _)
    | notifyOne q =>
      rw [Instr.run, SyncInstr.run, held_wakeFirst]
      exact h
    | _ => exact h
  · rw [held_run i fun j he => hi ⟨j, he⟩]
    exact h

theorem Keeping.proceed (k : Keeping w) (h : w.codeOf t = i :: rest)
    (hr : i.isReady w t = true) : Keeping (w.proceed t i rest) where
  keeps t' := by
    obtain ⟨hs, hk⟩ := k.keeps t'
    by_cases ht : t' = t
    · subst ht
      have hf := hk.code
      rw [h] at hf
      obtain ⟨fs, rfl, hb, hf⟩ := hf
      have hu : i ≠ .user := by
        rintro rfl
        cases hr
      exact ⟨i.leaves ++ fs, hk.proceed h hu hb hf⟩
    · by_cases hlt : t' < w.threads.length
      · exact ⟨hs, hk.proceed_of_ne h ht hlt⟩
      · exact ⟨[], hk.proceed_of_le h (Nat.le_of_not_lt hlt)⟩
  sole := by
    refine sole_run (w := w.setCode t rest) i ?_ k.sole
    rintro l rfl
    exact hr

theorem fits_epilogue {panicked : Bool} (h : Fits [] code []) :
    Fits [] (epilogue panicked code) [] := by
  unfold epilogue
  split
  next s r rest =>
    split
    · exact ⟨[], rfl, Or.inr (by simp), h⟩
    · exact h
  next => exact h

theorem World.Takes.fits (hc : Takes w t e code) (h : Fits [] (w.codeOf t) hs) :
    Fits [] code hs := by
  have user (hu : w.inUser t = true) : hs = [] ∧ Fits [] (w.codeOf t).tail [] := by
    obtain ⟨rest, hc⟩ := head_user hu
    rw [hc] at h ⊢
    obtain ⟨fs, he, hb, hf⟩ := h
    obtain rfl : fs = [] := hb
    exact ⟨he, hf⟩
  cases hc with
  | interrupt =>
    rw [List.append_assoc]
    exact handlerCode_fits.append ⟨hs, rfl, Or.inl rfl, h⟩
  | invoke c hu =>
    obtain ⟨rfl, _⟩ := user hu
    exact (c.code_fits).append h
  | finish p hu =>
    obtain ⟨rfl, hf⟩ := user hu
    exact fits_epilogue hf

theorem Keeping.undisturbed (k : Keeping w) (u : Undisturbed w e w') : Keeping w' where
  keeps t := by
    obtain ⟨hs, hk⟩ := k.keeps t
    refine ⟨hs, ?_, (locksOf_of_held_eq u.held t).trans hk.locks, ?_⟩
    · rcases u.code t with hc | hc
      · exact hc ▸ hk.code
      · exact hc.fits hk.code
    · rw [kindsOf, u.scopes]
      exact hk.scopes
  sole := u.held ▸ k.sole

theorem Reachable.keeping (h : Reachable n w) : Keeping w := by
  refine h.induct (keeping_initial n) ?_
  intro w e _ k
  rcases w.step_cases e with ⟨t, i, rest, _, hc, hr, hs⟩ | hu
  · rw [hs]
    exact k.proceed hc hr
  · exact k.undisturbed hu

/-- A lock has no two holders. -/
theorem Keeping.holder_unique (k : Keeping w) {t' : ThreadId} (h : (l, t) ∈ w.held)
    (h' : (l, t') ∈ w.held) : t = t' :=
  congrArg Prod.snd (List.inj_on_of_nodup_map k.sole h h' rfl)

end Standstill
