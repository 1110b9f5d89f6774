import Standstill.Proofs.Shape

/-!
What one instruction writes, taken field by field: each field of a record or a thread is the same
afterwards, or the instruction is one of the few that write it.
-/
namespace Standstill

open World

variable {α : Type} {w : World} {t t' : ThreadId} {r b : RecordId} {d : α}

attribute [local simp] World.setLevel World.setPhase World.setRequest World.openScope
  World.closeScope World.setMask World.setMaskFor World.fail World.answer World.say
  World.setBinding World.sendSignal World.signalOwner World.modCensus World.modRoster
  ofThread_modThread ofRecord_modRecord ofRecord_addRecord ofThread_addThread

/-! Each kind of instruction writes few fields, and what does not depend on these stays. -/

section Kinds

variable {f : ThreadRecord → α} {g : Thread → α}

theorem SyncInstr.run_fst (i : SyncInstr) :
    ∃ h a, (i.run t w).1 = { w with held := h, asleep := a } := by
  cases i with
  | notifyOne q =>
    simp only [SyncInstr.run, wakeFirst]
    split
    · exact ⟨w.held, w.asleep, rfl⟩
    · exact ⟨w.held, _, rfl⟩
  | _ => exact ⟨_, _, rfl⟩

theorem StopInstr.ofRecord_run (i : StopInstr) (hr : ∀ c q, f { c with requested := q } = f c) :
    (i.run t w).1.ofRecord r d f = w.ofRecord r d f := by
  cases i with
  | scanRequest s d rs settled => cases rs <;> rfl
  | _ =>
    simp only [StopInstr.run]
    repeat' split
    all_goals simp [hr, World.count]
    all_goals repeat' split
    all_goals simp

theorem StopInstr.ofThread_run (i : StopInstr) (hg : ∀ x, g x.core = g x)
    (hp : ∀ x q, g { x with pending := q } = g x) :
    (i.run t w).1.ofThread t' d g = w.ofThread t' d g := by
  by_cases hq : (Instr.stop i).isQuiet = true
  · exact ofThread_congr (i.core_run hq) hg
  have ho : ∀ x o, g { x with outcome := o } = g x := by
    intro x o
    rw [← hg, ← hg x]
    rfl
  cases i <;> simp only [Instr.isQuiet] at hq <;> simp only [StopInstr.run] <;> repeat' split
  all_goals simp [ho] at hq ⊢
  all_goals repeat' split
  all_goals simp [hp]

theorem PoolInstr.ofRecord_run (i : PoolInstr) :
    (i.run t w).1.ofRecord r d f = w.ofRecord r d f := by
  cases i with
  | retake s m since =>
    simp only [PoolInstr.run]
    split <;> rfl
  | _ =>
    simp only [PoolInstr.run]
    repeat' split
    all_goals rfl

theorem ParkInstr.ofRecord_run (i : ParkInstr) (hf : ∀ c, f c.core = f c)
    (hp : ∀ c p, f { c with phase := p } = f c) :
    (i.run t w).1.ofRecord r d f = w.ofRecord r d f := by
  by_cases hq : (Instr.park i).isQuiet = true
  · exact ofRecord_congr (i.core_run hq) hf
  cases i with
  | check tests entry r =>
    cases tests with
    | cons => exact absurd rfl hq
    | nil =>
      rcases entry with _ | _ | _
      · exact absurd rfl hq
      · simp only [ParkInstr.run]
        split <;> simp
      · exact absurd rfl hq
  | mark p => simp [ParkInstr.run, hp]
  | awaitSignal => simp [ParkInstr.run]
  | restore p => simp [ParkInstr.run, hp]
  | _ => exact absurd rfl hq

theorem ParkInstr.ofThread_run (i : ParkInstr) (hg : ∀ x, g x.core = g x)
    (hm : ∀ x m, g { x with masked := m } = g x) (hp : ∀ x q, g { x with pending := q } = g x) :
    (i.run t w).1.ofThread t' d g = w.ofThread t' d g := by
  by_cases hq : (Instr.park i).isQuiet = true
  · exact ofThread_congr (i.core_run hq) hg
  cases i with
  | check tests entry r =>
    cases tests with
    | cons => exact absurd rfl hq
    | nil =>
      rcases entry with _ | _ | _
      · exact absurd rfl hq
      · simp only [ParkInstr.run]
        split <;> simp [hm]
      · exact absurd rfl hq
  | mark p => simp [ParkInstr.run]
  | awaitSignal => simp [ParkInstr.run, hp]
  | restore p => simp [ParkInstr.run]
  | _ => exact absurd rfl hq

/-- What depends neither on masks and signals nor on what a thread notes when it parks is the same after
an instruction of the park loop. -/
theorem ParkInstr.keeps {β : Type} (i : ParkInstr) (k : World → β)
    (hmask : k (w.setMask t true) = k w)
    (hsignal : k (w.modThread t fun x => { x with pending := false }) = k w)
    (hspill : ∀ b, k (w.modRecord b fun c => { c with stackTop := .parked }) = k w)
    (hphase : ∀ b p, k (w.setPhase b p) = k w)
    (hcount : ∀ b, k (w.modRecord b fun c => { c with epoch := c.epoch + 1 }) = k w) :
    k (i.run t w).1 = k w := by
  cases i with
  | check tests entry b =>
    rcases tests with _ | ⟨x, rest⟩
    · rcases entry with _ | _ | _
      · rfl
      · simp only [ParkInstr.run]
        split
        · rfl
        · exact hmask
      · rfl
    · rfl
  | spill p => exact hspill p.record
  | mark p | restore p => exact hphase p.record _
  | count p => exact hcount p.record
  | awaitSignal => exact hsignal
  | _ => rfl

theorem GuardInstr.ofRecord_run (i : GuardInstr) (hl : ∀ c l, f { c with level := l } = f c)
    (hp : ∀ c p, f { c with phase := p } = f c) :
    (i.run t w).1.ofRecord r d f = w.ofRecord r d f := by
  cases i <;> simp only [GuardInstr.run] <;> repeat' split
  all_goals simp [hl, hp]
  all_goals split <;> simp

theorem GuardInstr.ofThread_run (i : GuardInstr) (hg : ∀ x, g x.core = g x)
    (hs : ∀ x c, g { x with scopes := c } = g x) (hm : ∀ x m, g { x with masked := m } = g x) :
    (i.run t w).1.ofThread t' d g = w.ofThread t' d g := by
  have ho : ∀ x o, g { x with outcome := o } = g x := by
    intro x o
    rw [← hg, ← hg x]
    rfl
  cases i <;> simp only [GuardInstr.run] <;> repeat' split
  all_goals simp [hs, hm, ho]
  all_goals split <;> simp [hm]

theorem MemberInstr.ofThread_run (i : MemberInstr) (ht : t' < w.threads.length)
    (hg : ∀ x, g x.core = g x) (hb : ∀ x q, g { x with binding := q } = g x) :
    (i.run t w).1.ofThread t' d g = w.ofThread t' d g := by
  have ho : ∀ x o, g { x with outcome := o } = g x := by
    intro x o
    rw [← hg, ← hg x]
    rfl
  by_cases hq : (Instr.member i).isQuiet = true
  · exact ofThread_congr (i.core_run hq) hg
  cases i <;> simp only [Instr.isQuiet] at hq <;> simp only [MemberInstr.run] <;> repeat' split
  all_goals simp [hb, ho, Nat.ne_of_lt ht] at hq ⊢

theorem MemberInstr.ofRecord_run (i : MemberInstr) (hr : r < w.records.length)
    (hf : ∀ c, f c.core = f c) (hl : ∀ c l, f { c with level := l } = f c)
    (hq : ∀ c q, f { c with requested := q } = f c) (ho : ∀ c o, f { c with owner := o } = f c) :
    (i.run t w).1.ofRecord r d f = w.ofRecord r d f := by
  by_cases hi : (Instr.member i).isQuiet = true
  · exact ofRecord_congr (i.core_run hi) hf
  cases i <;> simp only [Instr.isQuiet] at hi <;> simp only [MemberInstr.run] <;> repeat' split
  all_goals simp [hl, hq, ho, Nat.ne_of_lt hr] at hi ⊢

end Kinds

/-! How many threads, records and services there are, who holds a lock and who sleeps. -/

/-- All of the core that is not a field of one thread, record or service. -/
def World.outline (w : World) :
    (Nat × Nat × Nat) × List (Lock × ThreadId) × List (WaitList × ThreadId) :=
  ((w.threads.length, w.records.length, w.services.length), w.held, w.asleep)

theorem outline_congr {w' : World} (h : w.core = w'.core) : w.outline = w'.outline := by
  rw [outline, outline, threads_congr h, records_congr h, services_congr h, held_congr h,
    asleep_congr h]

section Outline

attribute [local simp] World.outline

theorem GuardInstr.outline_run (i : GuardInstr) : (i.run t w).1.outline = w.outline := by
  cases i <;> simp only [GuardInstr.run] <;> repeat' split
  all_goals simp
  all_goals split <;> simp

theorem ParkInstr.outline_run (i : ParkInstr) : (i.run t w).1.outline = w.outline :=
  i.keeps outline (by simp) (by simp) (by simp) (by simp) (by simp)

theorem StopInstr.outline_run (i : StopInstr) : (i.run t w).1.outline = w.outline := by
  by_cases hq : (Instr.stop i).isQuiet = true
  · exact outline_congr (i.core_run hq)
  cases i <;> simp only [Instr.isQuiet] at hq <;> simp only [StopInstr.run] <;> repeat' split
  all_goals simp at hq ⊢
  all_goals repeat' split
  all_goals simp

/-- Only `establish`, `attach`, `spawnRecord` and `spawnNative` make anything new. -/
def MemberInstr.isMaker : MemberInstr → Bool
  | .establish _ | .attach .. | .spawnRecord .. | .spawnNative .. => true
  | _ => false

theorem MemberInstr.outline_run (i : MemberInstr) (h : i.isMaker = false) :
    (i.run t w).1.outline = w.outline := by
  cases i <;> simp only [MemberInstr.isMaker] at h <;> simp only [MemberInstr.run] <;>
    repeat' split
  all_goals simp at h ⊢

/-- Only locks and queues are taken and left by `sync`; all else keeps them. -/
theorem MemberInstr.queues_run (i : MemberInstr) :
    (i.run t w).1.held = w.held ∧ (i.run t w).1.asleep = w.asleep := by
  cases i <;> simp only [MemberInstr.run] <;> repeat' split
  all_goals simp

theorem MemberInstr.sizes_run (i : MemberInstr) :
    w.threads.length ≤ (i.run t w).1.threads.length ∧
      w.records.length ≤ (i.run t w).1.records.length ∧
      w.services.length ≤ (i.run t w).1.services.length := by
  cases i <;> simp only [MemberInstr.run] <;> repeat' split
  all_goals simp

end Outline

/-! The fields of a record. -/

/-- Thread `t`, about to run `i`, looks after record `r`. -/
def Tends (w : World) (t : ThreadId) (i : Instr) (r : RecordId) : Prop :=
  w.bindingOf t = some r ∨ (∃ x ∈ w.scopesOf t, x.record? = some r) ∨ i.record? = some r

section Records

variable {i : Instr}

theorem ne_of_selfIn {s : ServiceId} (h : ¬Tends w t i r) (hb : w.selfIn t s = some b) : r ≠ b := by
  rintro rfl
  exact h (Or.inl (selfIn_eq_some.mp hb).1)

theorem ne_of_innermost {x : Scope} (h : ¬Tends w t i r) (hx : w.innermost? t = some x)
    (hb : x.record? = some b) :
    r ≠ b := by
  rintro rfl
  rw [innermost_eq] at hx
  exact h (Or.inr (Or.inl ⟨x, List.mem_of_mem_head? hx, hb⟩))

theorem GuardInstr.levelOf_run (i : GuardInstr) (h : ¬Tends w t (.guard i) r) :
    (i.run t w).1.levelOf r = w.levelOf r := by
  simp only [levelOf_eq]
  cases i <;> simp only [GuardInstr.run]
  case lower s =>
    split
    next b l p hx => simp [ne_of_innermost h hx rfl]
    next => simp
  case mask | unmask =>
    simp only [setMaskFor]
    split <;> simp
  case setMask | setPhase => simp
  case enter | leave => split <;> simp
  all_goals
    split
    next hs => simp
    next b hs => simp [ne_of_selfIn h hs]

/-- The record whose level the instruction sets. -/
def MemberInstr.levelRecord? : MemberInstr → Option RecordId
  | .detachRaise _ r | .setLevel r _ | .exitRaise _ r => some r
  | _ => none

theorem MemberInstr.levelOf_run (i : MemberInstr) (h : i.levelRecord? ≠ some r) :
    (i.run t w).1.levelOf r = w.levelOf r := by
  have hnew : w.ofRecord w.records.length .noBlock (·.level) = .noBlock :=
    ofRecord_of_le _ _ (Nat.le_refl _)
  simp only [levelOf_eq]
  by_cases hi : (Instr.member i).isQuiet = true
  · exact ofRecord_congr (i.core_run hi) fun _ => rfl
  cases i <;> simp only [Instr.isQuiet] at hi
  case establish | attach | spawnRecord =>
    simp only [MemberInstr.run]
    repeat' split
    all_goals simp
    all_goals rintro rfl; exact hnew.symm
  case detachRaise s b | setLevel b l | exitRaise s b =>
    have hb : r ≠ b := fun he => h (congrArg some he.symm)
    simp [MemberInstr.run, hb]
  all_goals
    simp only [MemberInstr.run]
    repeat' split
    all_goals simp at hi ⊢

theorem MemberInstr.record_of_levelRecord {i : MemberInstr} (h : i.levelRecord? = some r) :
    i.record? = some r := by
  cases i <;> first | exact h | cases h

/-- A level is changed only by the thread that looks after the record. -/
theorem levelOf_run_of_not_tends (i : Instr) (h : ¬Tends w t i r) :
    (i.run t w).1.levelOf r = w.levelOf r := by
  cases i with
  | user => rfl
  | sync i =>
    obtain ⟨h, a, he⟩ := i.run_fst (w := w) (t := t)
    rw [Instr.run, he]
    rfl
  | guard i => exact i.levelOf_run h
  | park i => exact i.ofRecord_run (fun _ => rfl) fun _ _ => rfl
  | stop i => exact i.ofRecord_run fun _ _ => rfl
  | pool i => exact ofRecord_congr i.core_run fun _ => rfl
  | member i =>
    exact i.levelOf_run fun hr => h (Or.inr (Or.inr (MemberInstr.record_of_levelRecord hr)))
  | read i => exact ofRecord_congr i.core_run fun _ => rfl

/-- Nested code changes a phase, and what is not in the core, but nothing else of a record. -/
theorem ofRecord_run_of_nested {α : Type} {d : α} {f : ThreadRecord → α} (i : Instr)
    (h : i.isNested = true) (hf : ∀ c, f c.core = f c) (hp : ∀ c p, f { c with phase := p } = f c) :
    (i.run t w).1.ofRecord r d f = w.ofRecord r d f := by
  cases i with
  | sync i =>
    obtain ⟨_, _, he⟩ := i.run_fst (w := w) (t := t)
    rw [Instr.run, he]
    rfl
  | guard i =>
    cases i with
    | setMask m => rfl
    | _ => cases h
  | park i => exact i.ofRecord_run hf hp
  | _ => cases h

theorem levelOf_run_of_nested (i : Instr) (h : i.isNested = true) :
    (i.run t w).1.levelOf r = w.levelOf r :=
  ofRecord_run_of_nested i h (fun _ => rfl) fun _ _ => rfl

theorem isRequested_run_of_nested (i : Instr) (h : i.isNested = true) :
    (i.run t w).1.isRequested r = w.isRequested r :=
  ofRecord_run_of_nested i h (fun _ => rfl) fun _ _ => rfl

/-- Instruction `i`, run by `t`, gives record `r` a phase. -/
inductive SetsPhase (w : World) (t : ThreadId) (r : RecordId) : Instr → Phase → Prop
  | set (p : Phase) : SetsPhase w t r (.guard (.setPhase r p)) p
  | leave (p : Phase) (h : w.innermost? t = some (.phase (some r) p)) :
    SetsPhase w t r (.guard .leave) p
  | mark (p : Parking) (h : p.record = r) : SetsPhase w t r (.park (.mark p)) .suspended
  | restore (p : Parking) (h : p.record = r) : SetsPhase w t r (.park (.restore p)) p.previous
  | create (i : MemberInstr) (h : r = w.records.length) : SetsPhase w t r (.member i) .running

theorem phaseOf_setPhase (p : Phase) :
    (w.setPhase b p).phaseOf r = w.phaseOf r ∨ r = b ∧ (w.setPhase b p).phaseOf r = p := by
  by_cases hb : r = b
  · subst hb
    by_cases hr : r < w.records.length
    · right
      simp [phaseOf_eq, ofRecord_const, hr]
    · left
      simp only [phaseOf_eq, ofRecord_of_le _ _ (Nat.le_of_not_lt hr)]
      exact ofRecord_of_le _ _ (by simpa using hr)
  · left
    simp [phaseOf_eq, hb]

theorem GuardInstr.phaseOf_run (i : GuardInstr) :
    (i.run t w).1.phaseOf r = w.phaseOf r ∨
      SetsPhase w t r (.guard i) ((i.run t w).1.phaseOf r) := by
  cases i with
  | setPhase b p =>
    rcases phaseOf_setPhase (w := w) (r := r) (b := b) p with h | ⟨rfl, h⟩
    · exact Or.inl h
    · right
      simp only [GuardInstr.run, h]
      exact .set p
  -- a scope that is left brings the phase back that it was entered with
  | leave =>
    simp only [GuardInstr.run]
    split
    next b p hx =>
      rcases phaseOf_setPhase (w := w) (r := r) (b := b) p with h | ⟨rfl, h⟩
      · exact Or.inl h
      · right
        have hc : ((w.setPhase r p).closeScope t).phaseOf r = p := h
        simp only [hc]
        exact .leave p hx
    next => exact Or.inl rfl
  | mask s | unmask s =>
    simp only [GuardInstr.run, setMaskFor]
    split <;> exact Or.inl rfl
  | lower s =>
    left
    simp only [GuardInstr.run, phaseOf_eq]
    split <;> simp
  | setMask m => exact Or.inl rfl
  | _ =>
    left
    simp only [GuardInstr.run, phaseOf_eq]
    split <;> simp

theorem ParkInstr.phaseOf_run (i : ParkInstr) :
    (i.run t w).1.phaseOf r = w.phaseOf r ∨
      SetsPhase w t r (.park i) ((i.run t w).1.phaseOf r) := by
  by_cases hq : (Instr.park i).isQuiet = true
  · exact Or.inl (ofRecord_congr (i.core_run hq) fun _ => rfl)
  cases i with
  | check tests entry b =>
    cases tests with
    | cons => exact absurd rfl hq
    | nil =>
      rcases entry with _ | _ | _
      · exact absurd rfl hq
      · left
        simp only [ParkInstr.run]
        split <;> rfl
      · exact absurd rfl hq
  | mark p =>
    rcases phaseOf_setPhase (w := w) (r := r) (b := p.record) .suspended with h | ⟨hb, h⟩
    · exact Or.inl h
    · right
      simp only [ParkInstr.run, h]
      exact .mark p hb.symm
  | awaitSignal => exact Or.inl rfl
  | restore p =>
    rcases phaseOf_setPhase (w := w) (r := r) (b := p.record) p.previous with h | ⟨hb, h⟩
    · exact Or.inl h
    · right
      simp only [ParkInstr.run, h]
      exact .restore p hb.symm
  | _ => exact absurd rfl hq

theorem MemberInstr.phaseOf_run (i : MemberInstr) :
    (i.run t w).1.phaseOf r = w.phaseOf r ∨
      SetsPhase w t r (.member i) ((i.run t w).1.phaseOf r) := by
  have hnew : w.ofRecord w.records.length .creating (·.phase) = .creating :=
    ofRecord_of_le _ _ (Nat.le_refl _)
  by_cases hi : (Instr.member i).isQuiet = true
  · exact Or.inl (ofRecord_congr (i.core_run hi) fun _ => rfl)
  -- a member instruction sets the phase of a record only as it makes it
  by_cases hr : r = w.records.length
  · subst hr
    cases i <;> simp only [Instr.isQuiet] at hi
    case establish settings =>
      right
      have hp : ((MemberInstr.establish settings).run t w).1.phaseOf w.records.length = .running := by
        simp [MemberInstr.run, phaseOf_eq]
      rw [hp]
      exact .create _ rfl
    case attach s name =>
      simp only [MemberInstr.run]
      split
      · left
        split <;> rfl
      · right
        simp only [phaseOf_eq, World.answer, World.say, ofRecord_modThread, ofRecord_addRecord,
          if_true]
        exact .create _ rfl
    all_goals
      left
      simp only [MemberInstr.run, phaseOf_eq]
      repeat' split
      all_goals simp [hnew, ThreadRecord.create] at hi ⊢
  · left
    simp only [phaseOf_eq]
    cases i <;> simp only [Instr.isQuiet] at hi <;> simp only [MemberInstr.run] <;> repeat' split
    all_goals simp [hr] at hi ⊢

/-- A phase stays or is set by one of the few instructions that set phases. -/
theorem phaseOf_run (i : Instr) :
    (i.run t w).1.phaseOf r = w.phaseOf r ∨ SetsPhase w t r i ((i.run t w).1.phaseOf r) := by
  cases i with
  | user => exact Or.inl rfl
  | sync i =>
    obtain ⟨h, a, he⟩ := i.run_fst (w := w) (t := t)
    left
    rw [Instr.run, he]
    rfl
  | guard i => exact i.phaseOf_run
  | park i => exact i.phaseOf_run
  | stop i => exact Or.inl (i.ofRecord_run fun _ _ => rfl)
  | pool i => exact Or.inl (ofRecord_congr i.core_run fun _ => rfl)
  | member i => exact i.phaseOf_run
  | read i => exact Or.inl (ofRecord_congr i.core_run fun _ => rfl)

/-- An owner stays, or takes a record over itself, or has made a new record. -/
theorem MemberInstr.ownerOf_run (i : MemberInstr) :
    (i.run t w).1.ownerOf r = w.ownerOf r ∨ (i.run t w).1.ownerOf r = some t ∧
      (i = .own r ∨ r = w.records.length) := by
  have hnew : w.ofRecord w.records.length none (·.owner) = none :=
    ofRecord_of_le _ _ (Nat.le_refl _)
  by_cases hi : (Instr.member i).isQuiet = true
  · exact Or.inl (ofRecord_congr (i.core_run hi) fun _ => rfl)
  cases i <;> simp only [Instr.isQuiet] at hi
  -- taking over a record that is not there writes nothing
  case own b =>
    by_cases hb : r = b
    · subst hb
      by_cases hr : r < w.records.length
      · right
        simp [MemberInstr.run, ownerOf_eq, ofRecord_const, hr]
      · left
        simp only [ownerOf_eq, ofRecord_of_le _ _ (Nat.le_of_not_lt hr)]
        exact ofRecord_of_le _ _ (by simpa [MemberInstr.run] using hr)
    · left
      simp [MemberInstr.run, ownerOf_eq, hb]
  case establish settings =>
    by_cases hr : r = w.records.length
    · subst hr
      right
      simp [MemberInstr.run, ownerOf_eq, ThreadRecord.bindTo]
    · left
      simp [MemberInstr.run, ownerOf_eq, hr]
  case attach s name =>
    simp only [MemberInstr.run]
    split
    · left
      split <;> rfl
    · by_cases hr : r = w.records.length
      · subst hr
        right
        simp [ownerOf_eq, ThreadRecord.bindTo]
      · left
        simp [ownerOf_eq, hr]
  -- the record of a new thread has no owner until the thread takes it over
  case spawnRecord s o n =>
    left
    by_cases hr : r = w.records.length
    · subst hr
      simp [MemberInstr.run, ownerOf_eq, hnew, ThreadRecord.create]
    · simp [MemberInstr.run, ownerOf_eq, hr]
  all_goals
    left
    simp only [MemberInstr.run, ownerOf_eq]
    repeat' split
    all_goals simp at hi ⊢

theorem ownerOf_run (i : Instr) :
    (i.run t w).1.ownerOf r = w.ownerOf r ∨ (i.run t w).1.ownerOf r = some t ∧
      (i = .member (.own r) ∨ r = w.records.length) := by
  cases i with
  | user => exact Or.inl rfl
  | sync i =>
    obtain ⟨h, a, he⟩ := i.run_fst (w := w) (t := t)
    left
    rw [Instr.run, he]
    rfl
  | guard i => exact Or.inl (i.ofRecord_run (fun _ _ => rfl) fun _ _ => rfl)
  | park i => exact Or.inl (i.ofRecord_run (fun _ => rfl) fun _ _ => rfl)
  | stop i => exact Or.inl (i.ofRecord_run fun _ _ => rfl)
  | pool i => exact Or.inl (ofRecord_congr i.core_run fun _ => rfl)
  | member i =>
    rcases i.ownerOf_run (w := w) (t := t) (r := r) with h | ⟨h, rfl | hr⟩
    · exact Or.inl h
    · exact Or.inr ⟨h, Or.inl rfl⟩
    · exact Or.inr ⟨h, Or.inr hr⟩
  | read i => exact Or.inl (ofRecord_congr i.core_run fun _ => rfl)

/-- Threads, records and services are never taken away. -/
theorem sizes_run (i : Instr) :
    w.threads.length ≤ (i.run t w).1.threads.length ∧
      w.records.length ≤ (i.run t w).1.records.length ∧
      w.services.length ≤ (i.run t w).1.services.length := by
  have hsame (h : (i.run t w).1.outline = w.outline) : w.threads.length ≤
      (i.run t w).1.threads.length ∧ w.records.length ≤ (i.run t w).1.records.length ∧
      w.services.length ≤ (i.run t w).1.services.length := by
    simp only [World.outline, Prod.mk.injEq] at h
    exact ⟨h.1.1.ge, h.1.2.1.ge, h.1.2.2.ge⟩
  cases i with
  | user => exact hsame rfl
  | sync i =>
    obtain ⟨h, a, he⟩ := i.run_fst (w := w) (t := t)
    rw [Instr.run, he]
    exact ⟨Nat.le_refl _, Nat.le_refl _, Nat.le_refl _⟩
  | guard i => exact hsame i.outline_run
  | park i => exact hsame i.outline_run
  | stop i => exact hsame i.outline_run
  | pool i => exact hsame (outline_congr i.core_run)
  | member i => exact i.sizes_run
  | read i => exact hsame (outline_congr i.core_run)

end Records

/-! Who sleeps in which queue. -/

section Queues

variable {i : Instr} {q : WaitList}

theorem asleep_run (i : Instr) (hi : ∀ j, i ≠ .sync j) : (i.run t w).1.asleep = w.asleep := by
  have hsame (h : (i.run t w).1.outline = w.outline) : (i.run t w).1.asleep = w.asleep := by
    simp only [World.outline, Prod.mk.injEq] at h
    exact h.2.2
  cases i with
  | user => rfl
  | sync i => exact absurd rfl (hi i)
  | guard i => exact hsame i.outline_run
  | park i => exact hsame i.outline_run
  | stop i => exact hsame i.outline_run
  | pool i => exact asleep_congr i.core_run
  | member i => exact i.queues_run.2
  | read i => exact asleep_congr i.core_run

theorem asleep_wakeFirst_sublist : (w.wakeFirst q).asleep.Sublist w.asleep := by
  simp only [wakeFirst]
  split
  · exact List.Sublist.refl _
  · exact List.erase_sublist

/-- Whoever joins a queue does so itself. -/
theorem mem_asleep_run (i : Instr) {x : WaitList × ThreadId} (h : x ∈ (i.run t w).1.asleep) :
    x ∈ w.asleep ∨ x.2 = t ∧ ∃ l d, i = .sync (.wait x.1 l d) := by
  by_cases hi : ∃ j, i = .sync j
  · obtain ⟨j, rfl⟩ := hi
    cases j with
    | wait q l d =>
      rcases List.mem_append.mp h with h | h
      · exact Or.inl h
      · obtain rfl := List.mem_singleton.mp h
        exact Or.inr ⟨rfl, l, d, rfl⟩
    | resting q d => exact Or.inl (List.mem_of_mem_erase h)
    | notifyOne q => exact Or.inl (asleep_wakeFirst_sublist.subset h)
    | notifyAll q => exact Or.inl (List.mem_filter.mp h).1
    | _ => exact Or.inl h
  · rw [asleep_run i fun j he => hi ⟨j, he⟩] at h
    exact Or.inl h

/-- Nobody comes to sleep in a queue that is not joined. -/
theorem count_asleep_run (i : Instr) (hi : ∀ l d, i ≠ .sync (.wait q l d)) :
    (i.run t w).1.asleep.count (q, t') ≤ w.asleep.count (q, t') := by
  by_cases hs : ∃ j, i = .sync j
  · obtain ⟨j, rfl⟩ := hs
    cases j with
    | wait q' l d =>
      have hne : (q', t) ≠ (q, t') := by
        intro he
        obtain rfl := congrArg Prod.fst he
        exact hi l d rfl
      simp [Instr.run, SyncInstr.run, List.count_append, hne]
    | resting q' d => exact List.erase_sublist.count_le _
    | notifyOne q' => exact asleep_wakeFirst_sublist.count_le _
    | notifyAll q' => exact List.filter_sublist.count_le _
    | _ => exact Nat.le_refl _
  · rw [asleep_run i fun j he => hs ⟨j, he⟩]

end Queues

/-! The fields of a thread. -/

section Threads

variable {i : Instr}

/-- Running an instruction changes the code of no thread that is there. -/
theorem codeOf_run (i : Instr) (ht : t' < w.threads.length) :
    (i.run t w).1.codeOf t' = w.codeOf t' := by
  cases i with
  | user => rfl
  | sync i =>
    obtain ⟨h, a, he⟩ := i.run_fst (w := w) (t := t)
    rw [Instr.run, he]
    rfl
  | guard i => exact i.ofThread_run (fun _ => rfl) (fun _ _ => rfl) fun _ _ => rfl
  | park i => exact i.ofThread_run (fun _ => rfl) (fun _ _ => rfl) fun _ _ => rfl
  | stop i => exact i.ofThread_run (fun _ => rfl) fun _ _ => rfl
  | pool i => exact ofThread_congr i.core_run fun _ => rfl
  | member i => exact i.ofThread_run ht (fun _ => rfl) fun _ _ => rfl
  | read i => exact ofThread_congr i.core_run fun _ => rfl

theorem threads_length_eq (h : (i.run t w).1.outline = w.outline) :
    (i.run t w).1.threads.length = w.threads.length := by
  simp only [World.outline, Prod.mk.injEq] at h
  exact h.1.1

theorem spawnNative_thread {s : ServiceId} (ht : t < w.threads.length) :
    ((MemberInstr.spawnNative s r).run t w).1.threads.length = w.threads.length ∨
      ((MemberInstr.spawnNative s r).run t w).1.threads.length = w.threads.length + 1 ∧
      ((MemberInstr.spawnNative s r).run t w).1.threads[w.threads.length]? =
        some { code := threadCode s r, masked := w.isMasked t } := by
  simp only [MemberInstr.run]
  repeat' split
  any_goals (left; simp; done)
  next c x _ hx _ _ _ =>
    right
    have hm : w.isMasked t = x.masked := by simp only [isMasked, ofThread, hx]
    have hne : t ≠ w.threads.length := Nat.ne_of_lt ht
    refine ⟨by simp, ?_⟩
    simp only [World.answer, World.say, modThread, addThread, List.getElem?_modify, hne, if_false,
      hm]
    simp

/-- A thread that was not there before is one that `spawnNative` has made. -/
theorem thread_run_of_le (i : Instr) (ht : t < w.threads.length) (h : w.threads.length ≤ t') :
    (i.run t w).1.threads.length ≤ t' ∨ ∃ s r, i = .member (.spawnNative s r) ∧
      t' = w.threads.length ∧ (i.run t w).1.threads[t']? =
        some { code := threadCode s r, masked := w.isMasked t } := by
  have hsame (ho : (i.run t w).1.outline = w.outline) : (i.run t w).1.threads.length ≤ t' := by
    rw [threads_length_eq ho]
    exact h
  cases i with
  | user => exact Or.inl h
  | sync i =>
    obtain ⟨_, a, he⟩ := i.run_fst (w := w) (t := t)
    rw [Instr.run, he]
    exact Or.inl h
  | guard i => exact Or.inl (hsame i.outline_run)
  | park i => exact Or.inl (hsame i.outline_run)
  | stop i => exact Or.inl (hsame i.outline_run)
  | pool i => exact Or.inl (hsame (outline_congr i.core_run))
  | read i => exact Or.inl (hsame (outline_congr i.core_run))
  | member i =>
    cases i with
    | spawnNative s r =>
      rcases spawnNative_thread (s := s) (r := r) ht with hl | ⟨hl, hx⟩
      · exact Or.inl (by rw [Instr.run, hl]; exact h)
      · rcases Nat.eq_or_lt_of_le h with rfl | hlt
        · exact Or.inr ⟨s, r, rfl, rfl, hx⟩
        · exact Or.inl (by rw [Instr.run, hl]; exact hlt)
    | establish | attach | spawnRecord =>
      left
      simp only [Instr.run, MemberInstr.run]
      repeat' split
      all_goals simpa using h
    | _ => exact Or.inl (hsame (MemberInstr.outline_run _ rfl))

/-- Another record comes to stand for the thread, or none. -/
def MemberInstr.isBinder : MemberInstr → Bool
  | .bind _ | .unbind _ => true
  | _ => false

theorem MemberInstr.bindingOf_run_of_not_binder (i : MemberInstr) (h : i.isBinder = false) :
    (i.run t w).1.bindingOf t' = w.bindingOf t' := by
  by_cases hi : (Instr.member i).isQuiet = true
  · exact ofThread_congr (i.core_run hi) fun _ => rfl
  cases i with
  | bind | unbind => cases h
  | spawnNative s b =>
    simp only [MemberInstr.run]
    repeat' split
    all_goals simp [bindingOf]
    rintro rfl
    exact (ofThread_of_le _ _ (Nat.le_refl _)).symm
  | _ =>
    simp only [MemberInstr.run, bindingOf]
    repeat' split
    all_goals simp [Instr.isQuiet] at hi ⊢

theorem bindingOf_run_of_not_binder (i : Instr) (h : ∀ k, i = .member k → k.isBinder = false) :
    (i.run t w).1.bindingOf t' = w.bindingOf t' := by
  cases i with
  | user => rfl
  | sync i =>
    obtain ⟨h, a, he⟩ := i.run_fst (w := w) (t := t)
    rw [Instr.run, he]
    rfl
  | guard i => exact i.ofThread_run (fun _ => rfl) (fun _ _ => rfl) fun _ _ => rfl
  | park i => exact i.ofThread_run (fun _ => rfl) (fun _ _ => rfl) fun _ _ => rfl
  | stop i => exact i.ofThread_run (fun _ => rfl) fun _ _ => rfl
  | pool i => exact ofThread_congr i.core_run fun _ => rfl
  | member i => exact i.bindingOf_run_of_not_binder (h i rfl)
  | read i => exact ofThread_congr i.core_run fun _ => rfl

theorem MemberInstr.bindingOf_run (i : MemberInstr) (t t' : ThreadId) :
    (i.run t w).1.bindingOf t' = w.bindingOf t' ∨
      t' = t ∧ ∀ r, (i.run t w).1.bindingOf t' = some r → i = .bind r := by
  cases i with
  | bind b =>
    by_cases ht : t' = t
    · right
      refine ⟨ht, ?_⟩
      intro r hr
      simp only [MemberInstr.run, bindingOf, setBinding, ofThread_modThread, ht, if_true,
        ofThread_const] at hr
      split at hr
      · exact congrArg _ (Option.some.inj hr)
      · cases hr
    · left
      simp [MemberInstr.run, bindingOf, ht]
  | unbind h =>
    simp only [MemberInstr.run]
    repeat' split
    any_goals exact Or.inl rfl
    by_cases ht : t' = t
    · right
      refine ⟨ht, ?_⟩
      intro r hr
      simp only [bindingOf, setBinding, ofThread_modThread, ht, if_true, ofThread_const] at hr
      split at hr <;> cases hr
    · left
      simp [bindingOf, ht]
  | _ => exact Or.inl (MemberInstr.bindingOf_run_of_not_binder _ rfl)

/-- The record that stands for a thread is changed by that thread alone. -/
theorem bindingOf_run (i : Instr) :
    (i.run t w).1.bindingOf t' = w.bindingOf t' ∨
      t' = t ∧ ∀ r, (i.run t w).1.bindingOf t' = some r → i = .member (.bind r) := by
  by_cases hk : ∃ k, i = .member k
  · obtain ⟨k, rfl⟩ := hk
    rcases k.bindingOf_run (w := w) t t' with h | ⟨ht, h⟩
    · exact Or.inl h
    · exact Or.inr ⟨ht, fun r hr => congrArg _ (h r hr)⟩
  · exact Or.inl (bindingOf_run_of_not_binder i fun k hi => absurd ⟨k, hi⟩ hk)

/-- A scope that thread `t` can open now: it is about the record that stands for the thread, if it
is about any, and notes what that record has at present. -/
inductive Opens (w : World) (t : ThreadId) : Scope → Prop
  | bare (x : Scope) (h : x.record? = none) : Opens w t x
  | guard (r : RecordId) (level : Level) (h : w.bindingOf t = some r) :
    Opens w t (.guard (some r) level (w.levelOf r))
  | phase (r : RecordId) (h : w.bindingOf t = some r) :
    Opens w t (.phase (some r) (w.phaseOf r))

theorem scopesOf_closeScope (w : World) (t t' : ThreadId) :
    (w.closeScope t).scopesOf t' = if t' = t then (w.scopesOf t').tail else w.scopesOf t' := by
  simp only [scopesOf, closeScope, ofThread_modThread]
  split
  · simp only [ofThread]
    split <;> rfl
  · rfl

theorem mem_scopesOf_openScope {x y : Scope} (h : x ∈ (w.openScope t y).scopesOf t') :
    x ∈ w.scopesOf t' ∨ t' = t ∧ x = y := by
  simp only [scopesOf, openScope, ofThread_modThread] at h ⊢
  split at h
  next ht =>
    simp only [ofThread] at h ⊢
    split at h
    · rcases List.mem_cons.mp h with rfl | h
      · exact Or.inr ⟨ht, rfl⟩
      · exact Or.inl h
    · cases h
  next => exact Or.inl h

theorem mem_scopesOf_closeScope {x : Scope} (h : x ∈ (w.closeScope t).scopesOf t') :
    x ∈ w.scopesOf t' := by
  rw [scopesOf_closeScope] at h
  split at h
  · exact List.mem_of_mem_tail h
  · exact h

theorem GuardInstr.mem_scopesOf_run (i : GuardInstr) {x : Scope}
    (h : x ∈ (i.run t w).1.scopesOf t') :
    x ∈ w.scopesOf t' ∨ t' = t ∧ (Instr.guard i).isNested = false ∧ Opens w t x := by
  cases i with
  | raise s l =>
    simp only [GuardInstr.run] at h
    split at h
    · rcases mem_scopesOf_openScope h with h | ⟨ht, rfl⟩
      · exact Or.inl h
      · exact Or.inr ⟨ht, rfl, .bare _ rfl⟩
    next b hs =>
      rcases mem_scopesOf_openScope h with h | ⟨ht, rfl⟩
      · exact Or.inl h
      · exact Or.inr ⟨ht, rfl, .guard b l (selfIn_eq_some.mp hs).1⟩
  | lower s =>
    simp only [GuardInstr.run] at h
    split at h <;> exact Or.inl (mem_scopesOf_closeScope h)
  | leave =>
    simp only [GuardInstr.run] at h
    split at h <;> exact Or.inl (mem_scopesOf_closeScope h)
  | enter s p =>
    simp only [GuardInstr.run] at h
    split at h
    · rcases mem_scopesOf_openScope h with h | ⟨ht, rfl⟩
      · exact Or.inl h
      · exact Or.inr ⟨ht, rfl, .bare _ rfl⟩
    next b hs =>
      rcases mem_scopesOf_openScope h with h | ⟨ht, rfl⟩
      · exact Or.inl h
      · exact Or.inr ⟨ht, rfl, .phase b (selfIn_eq_some.mp hs).1⟩
  | mask s | unmask s =>
    left
    simp only [GuardInstr.run, setMaskFor] at h
    split at h
    · simpa [scopesOf] using h
    · exact h
  | setMask m =>
    left
    simpa [GuardInstr.run, scopesOf] using h
  | setPhase => exact Or.inl h
  | _ =>
    left
    simp only [GuardInstr.run] at h
    split at h
    · simpa [scopesOf] using h
    · exact h

theorem MemberInstr.scopesOf_run (i : MemberInstr) :
    (i.run t w).1.scopesOf t' = w.scopesOf t' := by
  by_cases hi : (Instr.member i).isQuiet = true
  · exact ofThread_congr (i.core_run hi) fun _ => rfl
  cases i with
  | spawnNative s b =>
    simp only [MemberInstr.run]
    repeat' split
    all_goals simp [scopesOf]
    rintro rfl
    exact ofThread_of_le _ _ (Nat.le_refl _)
  | _ =>
    simp only [MemberInstr.run, scopesOf]
    repeat' split
    all_goals simp [Instr.isQuiet] at hi ⊢

/-- Scopes are opened by `raise` and `enter`, each for the thread that runs it. -/
theorem mem_scopesOf_run (i : Instr) {x : Scope} (h : x ∈ (i.run t w).1.scopesOf t') :
    x ∈ w.scopesOf t' ∨ t' = t ∧ i.isNested = false ∧ Opens w t x := by
  have hsame (he : (i.run t w).1.scopesOf t' = w.scopesOf t') : x ∈ w.scopesOf t' := by
    rw [← he]
    exact h
  cases i with
  | user => exact Or.inl h
  | sync i =>
    obtain ⟨_, a, he⟩ := i.run_fst (w := w) (t := t)
    rw [Instr.run, he] at h
    exact Or.inl h
  | guard i => exact i.mem_scopesOf_run h
  | park i => exact Or.inl (hsame (i.ofThread_run (fun _ => rfl) (fun _ _ => rfl) fun _ _ => rfl))
  | stop i => exact Or.inl (hsame (i.ofThread_run (fun _ => rfl) fun _ _ => rfl))
  | pool i => exact Or.inl (hsame (ofThread_congr i.core_run fun _ => rfl))
  | member i => exact Or.inl (hsame i.scopesOf_run)
  | read i => exact Or.inl (hsame (ofThread_congr i.core_run fun _ => rfl))

end Threads

/-! Parking, guards and stopping leave the services alone, but for the gate and the count of stops. -/

theorem GuardInstr.services_run (i : GuardInstr) : (i.run t w).1.services = w.services := by
  cases i with
  | mask s | unmask s =>
    simp only [GuardInstr.run, setMaskFor]
    split <;> rfl
  | setMask | setPhase => rfl
  | _ =>
    simp only [GuardInstr.run]
    split <;> rfl

theorem ParkInstr.services_run (i : ParkInstr) : (i.run t w).1.services = w.services :=
  i.keeps World.services rfl rfl (fun _ => rfl) (fun _ _ => rfl) fun _ => rfl

theorem StopInstr.services_run (i : StopInstr) (h : (Instr.stop i).isQuiet ≠ true) :
    (i.run t w).1.services = w.services := by
  have signal (r : RecordId) : (w.signalOwner r).services = w.services := by
    simp only [signalOwner]
    split <;> rfl
  cases i with
  | deliver s r | resumeWake s r =>
    simp only [StopInstr.run]
    repeat' split
    all_goals first | rfl | exact signal r
  | haltDeliver s r | freeWake s r =>
    simp only [StopInstr.run]
    split
    · exact signal r
    · rfl
  | request | withdraw | resumeClear | haltRequest | freeClear => rfl
  | _ => exact absurd rfl h

end Standstill
