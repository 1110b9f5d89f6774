import Standstill.Proofs.OneService
import Standstill.Proofs.Sections

/-!
Every lock but that of a park loop is taken under a guard. The exceptions are the sections in which
a thread joins or leaves a service: there it takes the lock of the roster without.
-/
namespace Standstill

open World

/-- Neither the call nor what it leads to is made straight on the pools. -/
def Call.isManaged : Call → Bool
  | .mutex _ .raw _ | .cond _ .raw _ => false
  | _ => true

def Event.isManaged : Event → Bool
  | .invoke _ c => c.isManaged
  | _ => true

def Lock.isPark : Lock → Bool
  | .park _ => true
  | _ => false

/-- What a thread does to the roster on joining or leaving. -/
def Instr.isBare : Instr → Bool
  | .member (.publish ..) | .member (.detachRemove ..) | .member (.exitRemove ..) => true
  | _ => false

/-- The instruction stands under a guard that it does not open itself. -/
def Instr.isSheltered : Instr → Bool
  | .sync (.wait _ l _) => !l.isPark
  | .pool _ | .read (.all ..) => true
  | _ => false

/-- The instruction takes no lock without a guard but for what comes next. -/
def Instr.Shelters (hs : List Hold) (rest : List Instr) : Instr → Prop
  | .sync (.acquire l) =>
    l.isPark = true ∨ .guard ∈ hs ∨ rest.head?.any Instr.isBare = true
  | i => i.isSheltered = true → .guard ∈ hs

/-- A thread that holds `hs` and runs the code takes its locks under guards. -/
def Roofed : List Instr → List Hold → Prop
  | [], _ => True
  | i :: rest, hs => i.Shelters hs rest ∧ Roofed rest (i.opens ++ hs.drop i.closes.length)

variable {n : Nat} {w w' : World} {t t' : ThreadId} {s : ServiceId} {r : RecordId} {l : Lock}
  {i j : Instr} {code rest : List Instr} {e : Event} {fs gs hs : List Hold}

theorem Instr.Shelters.append (h : i.Shelters hs code) : i.Shelters hs (code ++ rest) := by
  cases i with
  | sync k =>
    cases k with
    | acquire l =>
      rcases h with h | h | h
      · exact Or.inl h
      · exact Or.inr (Or.inl h)
      · refine Or.inr (Or.inr ?_)
        cases code with
        | nil => cases h
        | cons => exact h
    | _ => exact h
  | _ => exact h

theorem Roofed.append (h : Roofed code hs) (hf : Fits fs code hs) (hr : Roofed rest fs) :
    Roofed (code ++ rest) hs := by
  induction code generalizing hs with
  | nil =>
    obtain rfl : hs = fs := hf
    exact hr
  | cons i code ih =>
    obtain ⟨ks, rfl, _, hf⟩ := hf
    obtain ⟨hi, h⟩ := h
    refine ⟨hi.append, ih ?_ ?_⟩
    · exact h
    · rwa [List.drop_left]

theorem roofed_flatMap {α : Type} (xs : List α) (f : α → List Instr) (hf : ∀ x, Fits hs (f x) hs)
    (h : ∀ x, Roofed (f x) hs) : Roofed (xs.flatMap f) hs := by
  induction xs with
  | nil => trivial
  | cons x xs ih =>
    rw [List.flatMap_cons]
    exact (h x).append (hf x) ih

theorem roofed_map {α : Type} (xs : List α) (f : α → Instr) (hf : ∀ x, Fits hs [f x] hs)
    (h : ∀ x, Roofed [f x] hs) : Roofed (xs.map f) hs := by
  rw [List.map_eq_flatMap]
  exact roofed_flatMap xs _ hf h

section Run

attribute [local simp] Roofed Instr.Shelters Instr.isSheltered Lock.isPark Instr.isBare Fits
  Instr.Bears Instr.closes Instr.opens Instr.leaves Instr.isFree SyncInstr.closes SyncInstr.opens
  GuardInstr.closes GuardInstr.opens ParkInstr.closes StopInstr.closes StopInstr.opens
  PoolInstr.closes PoolInstr.opens MemberInstr.closes MemberInstr.opens ReadInstr.closes
  ReadInstr.opens MutexUse.closes CondUse.closes locked guarded leaveRoster

theorem SyncInstr.roofed_run (i : SyncInstr) (h : (Instr.sync i).Shelters (i.closes ++ fs) rest) :
    Roofed (i.run t w).2 (i.leaves ++ fs) := by
  cases i with
  | wait q l d =>
    cases l with
    | park b => simp [SyncInstr.run, SyncInstr.leaves]
    | _ => simpa [SyncInstr.run, SyncInstr.leaves] using h
  | notifyAll q => cases q <;> simp [SyncInstr.run]
  | _ => simp [SyncInstr.run]

theorem GuardInstr.roofed_run (i : GuardInstr) :
    Roofed (i.run t w).2 ((Instr.guard i).leaves ++ fs) := by
  cases i <;> simp only [GuardInstr.run] <;> repeat' split
  all_goals simp [stopIfDue]

theorem handlerCode_roofed : Roofed (w.handlerCode t) hs := by
  rw [handlerCode_eq]
  split <;> simp

theorem ParkInstr.roofed_run (i : ParkInstr) : Roofed (i.run t w).2 (i.closes ++ fs) := by
  cases i with
  | check tests entry b =>
    rcases tests with _ | ⟨x, rest⟩
    · rcases entry with _ | _ | _ <;> simp only [ParkInstr.run]
      · simp
      · split <;> simp
      · simp
    · simp only [ParkInstr.run]
      split <;> simp
  | awaitSignal => exact handlerCode_roofed
  | testLevel p =>
    rcases p with ⟨sleep, b, q⟩
    simp only [ParkInstr.run]
    split
    · cases sleep <;> simp [Parking.sleepCode]
    · simp
  | testRequest | retestRequest | retestLevel =>
    simp only [ParkInstr.run]
    split <;> simp
  | _ => simp [ParkInstr.run]

theorem StopInstr.roofed_run (i : StopInstr) : Roofed (i.run t w).2 (i.closes ++ fs) := by
  cases i with
  | haltOthers s =>
    exact (roofed_map _ _ (fun r => by simp) fun r => by simp).append
      (fits_map _ _ fun r => by simp) (by simp)
  | freeOthers s =>
    exact (roofed_map _ _ (fun r => by simp) fun r => by simp).append
      (fits_map _ _ fun r => by simp) (by simp)
  | scanRequest s d rs settled =>
    cases rs <;> simp only [StopInstr.run]
    · simp
    · split <;> simp
  | _ =>
    simp only [StopInstr.run, resumeAllCode, ringPark]
    repeat' split
    all_goals simp

theorem PoolInstr.roofed_run (i : PoolInstr) (h : .guard ∈ i.closes ++ fs) :
    Roofed (i.run t w).2 (i.closes ++ fs) := by
  cases i with
  | mutexFind s k use =>
    simp only [PoolInstr.run]
    split <;> cases use <;>
      simp [MutexUse.found, MutexUse.missing, takeCode, sleeping] at h ⊢
    all_goals exact h
  | condFind s k use =>
    simp only [PoolInstr.run]
    split <;> cases use <;> simp [CondUse.found, CondUse.missing] at h ⊢
    all_goals exact h
  | _ =>
    simp only [PoolInstr.run]
    repeat' split
    all_goals simp [takeCode] at h ⊢
    all_goals simp [h]

theorem MemberInstr.roofed_run (i : MemberInstr) : Roofed (i.run t w).2 (i.closes ++ fs) := by
  cases i <;> simp only [MemberInstr.run] <;> repeat' split
  all_goals simp [publishCode, refuseCode]

theorem ReadInstr.roofed_run (i : ReadInstr) (h : (Instr.read i).Shelters (i.closes ++ fs) rest) :
    Roofed (i.run t w).2 (i.closes ++ fs) := by
  cases i with
  | find s h q =>
    simp only [ReadInstr.run]
    split
    · simp
    · cases q <;> simp [Inquiry.code]
  | all s withNames =>
    have hg : .guard ∈ fs := by simpa using h
    exact roofed_flatMap _ _ (fun r => by cases withNames <;> simp)
      fun r => by cases withNames <;> simp [hg]
  | _ =>
    simp only [ReadInstr.run, ReadInstr.tell, ReadInstr.consult]
    repeat' split
    all_goals simp

theorem threadCode_roofed (s : ServiceId) (r : RecordId) : Roofed (threadCode s r) [] := by
  simp [threadCode]

theorem Call.code_roofed (c : Call) (h : c.isManaged = true) : Roofed (c.code w t) [] := by
  cases c with
  | safePoint s =>
    simp only [Call.code]
    split <;> simp
  | mutex s a c =>
    cases a
    · cases c <;> simp [Call.code, MutexCall.code]
    · cases h
  | cond s a c =>
    cases a
    · cases c <;> simp [Call.code, CondCall.code]
    · cases h
  | _ => simp [Call.code, inquireCode, suspendAllCode, resumeAllCode, sleepCode, sleeping]

/-- Whatever an instruction leaves to do takes its locks under guards too. -/
theorem roofed_run (i : Instr) (hu : i ≠ .user) (h : i.Shelters (i.closes ++ fs) rest) :
    Roofed (i.run t w).2 (i.leaves ++ fs) := by
  cases i with
  | user => exact absurd rfl hu
  | sync i => exact i.roofed_run h
  | guard i => exact i.roofed_run
  | park i => exact i.roofed_run
  | stop i => exact i.roofed_run
  | pool i => exact i.roofed_run (h rfl)
  | member i => exact i.roofed_run
  | read i => exact i.roofed_run h

end Run

/-! Worlds without calls straight on the pools, in which no thread leaves on a record that it had
given up before. -/

/-- Thread `t` is about to leave its service under a record that is raised already, so that it will
not block the stop signal, while another record stands for it, at level `noBlock`. -/
def World.leavesStale (w : World) (t : ThreadId) : Bool :=
  match (w.codeOf t).head? with
  | some (.member (.exitRaise s r)) =>
    w.levelOf r == .blocking && !w.isMasked t && w.mechanism s == .signal &&
      match w.bindingOf t with
      | some b => w.levelOf b == .noBlock
      | none => false
  | _ => false

def Event.isTimely (w : World) : Event → Bool
  | .advance t => !w.leavesStale t
  | _ => true

def World.manages (w : World) : List Event → Bool
  | [] => true
  | e :: es => e.isPlaced w && e.isManaged && e.isTimely w && (w.step e).manages es

/-- The worlds that `n` threads can bring about with no more than one service, through its own calls
and without leaving it on a record that no longer stands for them. -/
def Managed (n : Nat) (w : World) : Prop :=
  ∃ es, (World.initial n).manages es = true ∧ (World.initial n).run es = w ∧ w.services.length ≤ 1

theorem manages_append (w : World) (es fs : List Event) :
    w.manages (es ++ fs) = (w.manages es && (w.run es).manages fs) := by
  induction es generalizing w with
  | nil => rfl
  | cons e es ih => simp only [List.cons_append, manages, ih, run_cons, Bool.and_assoc]

theorem admits_of_manages {es : List Event} (h : w.manages es = true) : w.admits es = true := by
  induction es generalizing w with
  | nil => rfl
  | cons e es ih =>
    simp only [manages, Bool.and_eq_true] at h
    simp only [admits, Bool.and_eq_true]
    exact ⟨h.1.1.1, ih h.2⟩

theorem Managed.alone (h : Managed n w) : Alone n w := by
  obtain ⟨es, hm, hr, h1⟩ := h
  exact ⟨es, admits_of_manages hm, hr, h1⟩

theorem Managed.induct {P : World → Prop} (h : Managed n w) (h0 : P (World.initial n))
    (hs : ∀ w e, Managed n w → e.isPlaced w = true → e.isManaged = true → e.isTimely w = true →
      (w.step e).services.length ≤ 1 → P w → P (w.step e)) : P w := by
  obtain ⟨es, hm, rfl, h1⟩ := h
  induction es using List.reverseRecOn with
  | nil => exact h0
  | append_singleton es e ih =>
    rw [run_append] at h1 ⊢
    rw [manages_append, Bool.and_eq_true] at hm
    have hl := Nat.le_trans (services_length_step _ e) h1
    have he := hm.2
    simp only [manages, Bool.and_true, Bool.and_eq_true] at he
    exact hs _ e ⟨es, hm.1, rfl, hl⟩ he.1.1 he.1.2 he.2 h1 (ih hm.1 hl)

theorem roofed_proceed (k : Keeping w) (h : w.codeOf t = i :: rest) (hu : i ≠ .user)
    (hr : ∀ {t hs}, Fits [] (w.codeOf t) hs → Roofed (w.codeOf t) hs)
    (hf : Fits [] ((w.proceed t i rest).codeOf t') hs) :
    Roofed ((w.proceed t i rest).codeOf t') hs := by
  revert hf
  refine codeOf_proceed_cases (P := fun c => Fits [] c hs → Roofed c hs) h (fun hf => ?_) hr
    (fun _ => trivial) fun s r hf => ?_
  · obtain ⟨ks, hk⟩ := k.keeps t
    have hroof := hr hk.code
    have hcode := hk.code
    rw [h] at hroof hcode
    obtain ⟨fs, rfl, hb, hfit⟩ := hcode
    obtain ⟨hshelter, hrest⟩ := hroof
    rw [List.drop_left] at hrest
    have hnew := fits_run (w := w.setCode t rest) (t := t) i hu hb
    obtain rfl := Fits.unique hf (hnew.append hfit)
    exact (roofed_run i hu hshelter).append hnew hrest
  · obtain rfl := Fits.unique hf (threadCode_fits s r)
    exact threadCode_roofed s r

/-- A thread in code of its own holds nothing. -/
theorem holds_nothing (hu : w.inUser t = true) (hf : Fits gs (w.codeOf t) hs) : hs = [] := by
  obtain ⟨rest, hc⟩ := head_user hu
  rw [hc] at hf
  obtain ⟨fs, rfl, hb, _⟩ := hf
  exact hb

/-- A thread in code of its own has no scope open. -/
theorem Reachable.scopesOf_of_user (hw : Reachable n w) (hu : w.inUser t = true) :
    w.scopesOf t = [] := by
  obtain ⟨hs, k⟩ := hw.keeping.keeps t
  obtain rfl := holds_nothing hu k.code
  exact List.map_eq_nil_iff.mp k.scopes

theorem roofed_epilogue {panicked : Bool} (h : Roofed code []) :
    Roofed (epilogue panicked code) [] := by
  unfold epilogue
  split
  · split
    · exact ⟨(fun h => by cases h), h⟩
    · exact h
  · exact h

theorem Managed.roofed (hw : Managed n w) (hf : Fits [] (w.codeOf t) hs) :
    Roofed (w.codeOf t) hs := by
  revert t hs
  refine hw.induct (P := fun w => ∀ {t hs}, Fits [] (w.codeOf t) hs → Roofed (w.codeOf t) hs) ?_ ?_
  · intro t hs _
    rcases codeOf_initial n t with hc | hc <;> rw [hc]
    · exact ⟨(fun h => by cases h), trivial⟩
    · trivial
  · intro w e hw _ hm _ _ hr t hs hf
    have k := hw.alone.reachable.keeping
    rcases w.step_cases e with ⟨q, i, rest, _, hc, hready, he⟩ | u
    · rw [he] at hf ⊢
      refine roofed_proceed k hc ?_ hr hf
      rintro rfl
      cases hready
    · obtain ⟨ks, hk⟩ := k.keeps t
      rcases u.code t with hc | hc
      · rw [hc] at hf ⊢
        exact hr hf
      -- what a thread has open is the same before and after code comes on top
      · obtain rfl := Fits.unique hf (hc.fits hk.code)
        have hold := hr hk.code
        generalize (w.step e).codeOf t = code at hc
        cases hc with
        | interrupt hi =>
          rw [List.append_assoc]
          exact handlerCode_roofed.append handlerCode_fits ⟨(fun h => by cases h), hold⟩
        | invoke c hu =>
          obtain rfl := holds_nothing hu hk.code
          exact (c.code_roofed hm).append c.code_fits hold
        | finish p hu =>
          obtain rfl := holds_nothing hu hk.code
          obtain ⟨rest, hc⟩ := head_user hu
          rw [hc] at hold ⊢
          have hrest : Roofed rest [] := hold.2
          exact roofed_epilogue hrest

/-! The sections without a guard. -/

/-- The instruction may come before one that is bare. -/
def Instr.isAnte (i : Instr) : Bool :=
  i.isNested ||
    match i with
    | .sync (.acquire (.roster _)) | .guard (.mask _) => true
    | _ => false

/-- The instruction opens a section without a guard. -/
def MemberInstr.isAbrupt : MemberInstr → Bool
  | .establish _ | .attach .. | .detachRaise .. | .exitRaise .. => true
  | _ => false

/-- What is bare comes next, but for the lock that it needs. -/
def Prompt (code : List Instr) : Prop :=
  code.Pairwise fun i j => j.isBare = true → i.isAnte = true

theorem not_bare_of_record (h : j.record? = none) : j.isBare = false := by
  cases j with
  | member k => cases k <;> first | rfl | cases h
  | _ => rfl

theorem not_bare_of_nested (h : j.isNested = true) : j.isBare = false := by
  cases j with
  | member => cases h
  | _ => rfl

theorem MemberInstr.run_bare (i : MemberInstr) (h : i.isAbrupt = false) :
    ∀ j ∈ (i.run t w).2, j.isBare = false := by
  have hc : (i.run t w).2.all (!·.isBare) = true := by
    cases i <;> simp only [MemberInstr.isAbrupt] at h <;> simp only [MemberInstr.run] <;>
      repeat' split
    all_goals first | rfl | cases h
  simpa using hc

theorem GuardInstr.run_bare (i : GuardInstr) : ∀ j ∈ (i.run t w).2, j.isBare = false := by
  have hc : (i.run t w).2.all (!·.isBare) = true := by
    cases i <;> simp only [GuardInstr.run] <;> repeat' split
    all_goals rfl
  simpa using hc

theorem run_bare (i : Instr) (hj : j ∈ (i.run t w).2) (hb : j.isBare = true) :
    ∃ k, i = .member k ∧ k.isAbrupt = true := by
  have none (h : j.isBare = false) : False := by
    rw [h] at hb
    cases hb
  cases i with
  | user =>
    rw [Instr.run, List.mem_singleton] at hj
    subst hj
    cases hb
  | sync i =>
    cases i <;> simp [Instr.run, SyncInstr.run] at hj
    · rcases hj with rfl | rfl <;> cases hb
    · subst hj
      cases hb
  | guard i => exact False.elim (none (i.run_bare j hj))
  | park i =>
    exact False.elim (none (not_bare_of_nested (List.all_eq_true.mp (run_nested rfl) j hj)))
  | stop i => exact False.elim (none (not_bare_of_record (record_of_plain i.run_plain j hj)))
  | pool i => exact False.elim (none (not_bare_of_record (record_of_plain i.run_plain j hj)))
  | read i => exact False.elim (none (not_bare_of_record (record_of_plain i.run_plain j hj)))
  | member i =>
    cases ha : i.isAbrupt
    · exact False.elim (none (i.run_bare ha j hj))
    · exact ⟨i, rfl, ha⟩

theorem prompt_of_unbare (h : ∀ j ∈ code, j.isBare = false) : Prompt code := by
  apply List.pairwise_of_forall_mem_list
  intro i _ j hj hb
  rw [h j hj] at hb
  cases hb

theorem run_prompt (i : Instr) : Prompt (i.run t w).2 := by
  by_cases ha : ∃ k, i = .member k ∧ k.isAbrupt = true
  · obtain ⟨k, rfl, hk⟩ := ha
    cases k <;> simp only [MemberInstr.isAbrupt] at hk <;>
      simp only [Instr.run, MemberInstr.run] <;> repeat' split
    all_goals simp [Prompt, publishCode, locked, Instr.isBare, Instr.isAnte] at hk ⊢
  · apply prompt_of_unbare
    intro j hj
    cases hb : j.isBare
    · rfl
    · exact absurd (run_bare i hj hb) ha

/-- A bare instruction comes next in the code, and no blocking of the stop signal before it. -/
def bareSoon : List Instr → Bool
  | [] => false
  | .guard (.mask _) :: _ => false
  | i :: rest => i.isBare || bareSoon rest

theorem bareSoon_cons (hi : ∀ s, i ≠ .guard (.mask s)) :
    bareSoon (i :: rest) = (i.isBare || bareSoon rest) := by
  cases i with
  | guard k =>
    cases k with
    | mask s => exact absurd rfl (hi s)
    | _ => rfl
  | _ => rfl

theorem mem_of_bareSoon (h : bareSoon code = true) : ∃ j ∈ code, j.isBare = true := by
  induction code with
  | nil => cases h
  | cons i code ih =>
    by_cases hi : ∃ s, i = .guard (.mask s)
    · obtain ⟨s, rfl⟩ := hi
      cases h
    · rw [bareSoon_cons fun s he => hi ⟨s, he⟩, Bool.or_eq_true] at h
      rcases h with h | h
      · exact ⟨i, List.mem_cons_self, h⟩
      · obtain ⟨j, hj, hb⟩ := ih h
        exact ⟨j, List.mem_cons_of_mem _ hj, hb⟩

theorem bareSoon_append (hc : ∀ j ∈ code, j.isBare = false)
    (h : bareSoon (code ++ rest) = true) : bareSoon rest = true := by
  induction code with
  | nil => exact h
  | cons i code ih =>
    obtain ⟨hi, hc⟩ := List.forall_mem_cons.mp hc
    apply ih hc
    by_cases hm : ∃ s, i = .guard (.mask s)
    · obtain ⟨s, rfl⟩ := hm
      cases h
    · rwa [List.cons_append, bareSoon_cons fun s he => hm ⟨s, he⟩, hi, Bool.false_or] at h

/-- What comes after all that is bare does not matter. -/
theorem bareSoon_of_append (hr : ∀ j ∈ rest, j.isBare = false)
    (h : bareSoon (code ++ rest) = true) : bareSoon code = true := by
  induction code with
  | nil =>
    obtain ⟨j, hj, hb⟩ := mem_of_bareSoon h
    rw [hr j hj] at hb
    cases hb
  | cons i code ih =>
    by_cases hm : ∃ s, i = .guard (.mask s)
    · obtain ⟨s, rfl⟩ := hm
      cases h
    · have hi : ∀ s, i ≠ .guard (.mask s) := fun s he => hm ⟨s, he⟩
      rw [List.cons_append, bareSoon_cons hi, Bool.or_eq_true] at h
      rw [bareSoon_cons hi, Bool.or_eq_true]
      exact h.imp_right ih

end Standstill
