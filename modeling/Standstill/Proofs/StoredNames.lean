import Standstill.Proofs.CallAnswer
import Standstill.Proofs.Labels
import Standstill.Proofs.PoolTables

/-!
Names that are kept. A name comes into the world with a call, waits in the code of a thread until the
instruction that stores it, and is cut when it is stored; reading a record hands it on as it is.
-/
namespace Standstill

open World

/-! The names that calls give and instructions store. -/

/-- The name that an instruction stores, or hands on to the one that does. -/
def Instr.naming? : Instr → Option String
  | .member (.establish _) => some "main"
  | .member (.attach _ name) => some name
  | .member (.spawn _ o) | .member (.spawnRecord _ o _) => some o.name
  | .read (.find _ _ (.rename name)) | .read (.rename _ name) => some name
  | .pool (.mutexAllot _ name) | .pool (.condAllot _ name) => some name
  | _ => none

/-- The name that a call gives. The thread that sets up a service is called `main`. -/
def Call.naming? : Call → Option String
  | .establish _ => some "main"
  | .attach _ name => some name
  | .spawn _ o => some o.name
  | .inquire _ _ (.rename name) => some name
  | .mutex _ _ (.create name) | .cond _ _ (.create name) => some name
  | _ => none

def Event.naming? : Event → Option String
  | .invoke _ c => c.naming?
  | _ => none

/-- The text is a name given in one of the calls, cut to the room there is. -/
def IsGiven (es : List Event) (label : String) : Prop :=
  ∃ e ∈ es, ∃ name, e.naming? = some name ∧ label = Label.clamp name

/-! The names that the world keeps. -/

def Value.labels : Value → List String
  | .text label => [label]
  | .record (some (_, c)) => [c.name]
  | .records cs => cs.map (·.name)
  | _ => []

/-- The names in what a call answers. -/
def Outcome.labels : Outcome → List String
  | .value v => v.labels
  | _ => []

namespace World

def nameOf? (w : World) (r : RecordId) : Option String := w.ofRecord r none (some ·.name)

/-- The name of a thread or of a pool object, or one that a call has read. -/
inductive KeepsLabel (w : World) (label : String) : Prop
  | thread (r : RecordId) (h : w.nameOf? r = some label)
  | mutex (s : ServiceId) (i : Nat) (h : (w.mutexSlots s).nameAt i = .ok label)
  | cond (s : ServiceId) (i : Nat) (h : (w.condSlots s).nameAt i = .ok label)
  | read (t : ThreadId) (h : label ∈ (w.outcomeOf t).labels)

end World

variable {α : Type} {w w' : World} {t t' : ThreadId} {r : RecordId} {s : ServiceId} {i j : Instr}
  {k : PoolInstr} {rest : List Instr} {e : Event} {es : List Event} {name label : String}

/-! Where a name in the code comes from. -/

section Naming

attribute [local simp] Instr.naming? takeCode locked guarded sleeping stopIfDue publishCode
  leaveRoster threadCode refuseCode Inquiry.code handlerCode resumeAllCode

/-- The instruction has no name but the given one. -/
def Instr.bears (name : Option String) (i : Instr) : Bool := i.naming? = none ∨ i.naming? = name

attribute [local simp] Instr.bears

variable {x : Option String}

theorem SyncInstr.run_bears (i : SyncInstr) : (i.run t w).2.all (Instr.bears x) = true := by
  cases i <;> simp [SyncInstr.run]

theorem GuardInstr.run_bears (i : GuardInstr) : (i.run t w).2.all (Instr.bears x) = true := by
  cases i <;> simp only [GuardInstr.run] <;> repeat' split
  all_goals simp

theorem bears_of_nested {code : List Instr} (h : code.all Instr.isNested = true) :
    code.all (Instr.bears x) = true := by
  refine all_imp (fun {i} hi => ?_) h
  cases i with
  | guard | sync | park => simp
  | _ => cases hi

theorem StopInstr.run_bears (i : StopInstr) : (i.run t w).2.all (Instr.bears x) = true := by
  cases i with
  | scanRequest s d rs settled =>
    cases rs with
    | nil => simp [StopInstr.run]
    | cons r rs =>
      simp only [StopInstr.run]
      split <;> simp
  | _ =>
    simp only [StopInstr.run]
    repeat' split
    all_goals simp

theorem PoolInstr.run_bears (i : PoolInstr) : (i.run t w).2.all (Instr.bears x) = true := by
  cases i with
  | mutexFind s k use =>
    simp only [PoolInstr.run]
    split <;> cases use <;> simp [MutexUse.missing, MutexUse.found]
  | condFind s k use =>
    simp only [PoolInstr.run]
    split <;> cases use <;> simp [CondUse.missing, CondUse.found]
  | _ =>
    simp only [PoolInstr.run]
    repeat' split
    all_goals simp

theorem MemberInstr.run_bears (i : MemberInstr) :
    (i.run t w).2.all (Instr.bears (Instr.member i).naming?) = true := by
  cases i <;> simp only [MemberInstr.run] <;> repeat' split
  all_goals simp

theorem ReadInstr.run_bears (i : ReadInstr) :
    (i.run t w).2.all (Instr.bears (Instr.read i).naming?) = true := by
  cases i with
  | find s h q =>
    simp only [ReadInstr.run]
    split
    · simp
    · cases q <;> simp
  | all s withNames =>
    simp only [ReadInstr.run]
    split <;> simp [List.all_flatMap]
  | _ =>
    simp only [ReadInstr.run, ReadInstr.tell, ReadInstr.consult]
    repeat' split
    all_goals simp

/-- An instruction leaves no other name to be stored than its own. -/
theorem run_bears (i : Instr) : (i.run t w).2.all (Instr.bears i.naming?) = true := by
  cases i with
  | user => rfl
  | sync i => exact i.run_bears
  | guard i => exact i.run_bears
  | park i => exact bears_of_nested (run_nested rfl)
  | stop i => exact i.run_bears
  | pool i => exact i.run_bears
  | member i => exact i.run_bears
  | read i => exact i.run_bears

theorem Call.code_bears (c : Call) : (c.code w t).all (Instr.bears c.naming?) = true := by
  cases c with
  | mutex s a c | cond s a c =>
    cases a <;> cases c <;> simp [Call.code, MutexCall.code, CondCall.code, Call.naming?]
  | safePoint s =>
    simp only [Call.code]
    split
    · rfl
    · simp
  | inquire s h q => cases q <;> simp [Call.code, inquireCode, Call.naming?]
  | _ => simp [Call.code, sleepCode, suspendAllCode, resumeAllCode, Call.naming?]

end Naming

/-! Instructions that store a name. -/

section Stores

attribute [local simp] World.setLevel World.setPhase World.setRequest World.openScope
  World.closeScope World.setMask World.setMaskFor World.fail World.answer World.say
  World.setBinding World.sendSignal World.signalOwner World.modStats World.addRow
  World.modCensus World.modRoster World.count ofRecord_modRecord ofRecord_addRecord ofThread_modThread
  ofThread_addThread

theorem ParkInstr.nameOf_run (i : ParkInstr) : (i.run t w).1.nameOf? r = w.nameOf? r :=
  i.keeps (·.nameOf? r) rfl rfl (by simp [nameOf?]) (by simp [nameOf?]) (by simp [nameOf?])

theorem MemberInstr.nameOf_run (i : MemberInstr) (h : (i.run t w).1.nameOf? r = some label) :
    w.nameOf? r = some label ∨
      ∃ name, (Instr.member i).naming? = some name ∧ label = Label.clamp name := by
  by_cases hr : r = w.records.length
  · subst hr
    have hnew : w.ofRecord w.records.length none (some ·.name) = none :=
      ofRecord_of_le _ _ (Nat.le_refl _)
    simp only [nameOf?] at h
    cases i <;> simp only [MemberInstr.run] at h <;> repeat' split at h
    all_goals simp [hnew, ThreadRecord.create, ThreadRecord.bindTo] at h
    all_goals exact Or.inr ⟨_, rfl, h.symm⟩
  · left
    rw [← h]
    simp only [nameOf?]
    cases i <;> simp only [MemberInstr.run] <;> repeat' split
    all_goals simp [hr]

theorem ReadInstr.nameOf_run (i : ReadInstr) (h : (i.run t w).1.nameOf? r = some label) :
    w.nameOf? r = some label ∨
      ∃ name, (Instr.read i).naming? = some name ∧ label = Label.clamp name := by
  simp only [nameOf?] at h ⊢
  cases i with
  | rename b name =>
    by_cases hb : r = b
    · subst hb
      right
      by_cases hr : r < w.records.length
      · simp [ReadInstr.run, ofRecord_const, hr] at h
        exact ⟨name, rfl, h.symm⟩
      · rw [ofRecord_of_le _ _ (by simpa [ReadInstr.run] using hr)] at h
        cases h
    · simp [ReadInstr.run, hb] at h
      exact Or.inl h
  | _ =>
    left
    rw [← h]
    simp only [ReadInstr.run, ReadInstr.tell, ReadInstr.consult]
    repeat' split
    all_goals simp

/-- The name of a record stays, or it is set to the one that the instruction stores. -/
theorem nameOf_run (i : Instr) (h : (i.run t w).1.nameOf? r = some label) :
    w.nameOf? r = some label ∨ ∃ name, i.naming? = some name ∧ label = Label.clamp name := by
  cases i with
  | user => exact Or.inl h
  | sync i =>
    obtain ⟨_, _, he⟩ := i.run_fst (w := w) (t := t)
    rw [Instr.run, he] at h
    exact Or.inl h
  | guard i => exact Or.inl ((i.ofRecord_run (fun _ _ => rfl) fun _ _ => rfl).symm.trans h)
  | park i => exact Or.inl (i.nameOf_run.symm.trans h)
  | stop i => exact Or.inl ((i.ofRecord_run fun _ _ => rfl).symm.trans h)
  | pool i => exact Or.inl (i.ofRecord_run.symm.trans h)
  | member i => exact i.nameOf_run h
  | read i => exact i.nameOf_run h

/-! What a call has read. -/

attribute [local simp] Outcome.labels Value.labels ofThread_const

section Answers

variable (ht : t < w.threads.length)
include ht

theorem GuardInstr.labels_run (i : GuardInstr) : (i.run t w).1.outcomeOf t = w.outcomeOf t ∨
    ((i.run t w).1.outcomeOf t).labels = [] := by
  cases i <;> simp only [GuardInstr.run, outcomeOf_eq] <;> repeat' split
  all_goals simp [ht]
  all_goals split <;> simp

theorem StopInstr.labels_run (i : StopInstr) : (i.run t w).1.outcomeOf t = w.outcomeOf t ∨
    ((i.run t w).1.outcomeOf t).labels = [] := by
  cases i with
  | scanRequest s d rs settled => cases rs <;> exact Or.inl rfl
  | _ =>
    simp only [StopInstr.run, outcomeOf_eq]
    repeat' split
    all_goals simp [ht]
    all_goals repeat' split
    all_goals simp

theorem PoolInstr.labels_run (i : PoolInstr) : (i.run t w).1.outcomeOf t = w.outcomeOf t ∨
    ((i.run t w).1.outcomeOf t).labels = [] := by
  cases i with
  | mutexAllot s name | condAllot s name =>
    right
    simp only [PoolInstr.run]
    split
    · exact congrArg Outcome.labels (outcomeOf_say ht)
    · exact congrArg Outcome.labels (outcomeOf_say ht)
  | _ =>
    simp only [PoolInstr.run, outcomeOf_eq]
    repeat' split
    all_goals first | exact Or.inl rfl | simp [ht]

theorem MemberInstr.labels_run (i : MemberInstr) : (i.run t w).1.outcomeOf t = w.outcomeOf t ∨
    ((i.run t w).1.outcomeOf t).labels = [] := by
  cases i <;> simp only [MemberInstr.run, outcomeOf_eq] <;> repeat' split
  all_goals simp [ht, Nat.le_of_lt ht]

theorem labels_modStats (f : Stats → Stats) : ((w.modStats t f).outcomeOf t).labels = [] := by
  obtain ⟨x, hx⟩ := outcomeOf_modStats ht f
  rw [hx]
  rfl

theorem ReadInstr.labels_run (i : ReadInstr)
    (h : label ∈ ((i.run t w).1.outcomeOf t).labels) :
    label ∈ (w.outcomeOf t).labels ∨ ∃ r, w.nameOf? r = some label := by
  have hname {r : RecordId} {c : ThreadRecord} (hc : w.records[r]? = some c) :
      w.nameOf? r = some c.name := by
    simp only [nameOf?, ofRecord, hc]
  -- what is told of a record has no text in it but its name
  have htell {r : RecordId} {f : ThreadRecord → Value} (hf : ∀ c, (f c).labels ⊆ [c.name])
      (h : label ∈ ((ReadInstr.tell t w r f).1.outcomeOf t).labels) :
      label ∈ (w.outcomeOf t).labels ∨ ∃ r, w.nameOf? r = some label := by
    simp only [ReadInstr.tell] at h
    split at h
    · exact Or.inl h
    next c hc =>
      rw [World.answer, outcomeOf_say ht] at h
      obtain rfl := List.mem_singleton.mp (hf c h)
      exact Or.inr ⟨r, hname hc⟩
  cases i with
  | phase | name | priority | isSuspendable | stack | record => exact htell (fun c => by simp) h
  | find s b q =>
    simp only [ReadInstr.run] at h
    split at h
    · rw [outcomeOf_say ht] at h
      cases q <;> cases h
    · exact Or.inl h
  -- a row of the table is added to the rows that the thread has read so far
  | row r =>
    simp only [ReadInstr.run] at h
    split at h
    · exact Or.inl h
    next c hc =>
      simp only [World.addRow, outcomeOf_eq, ofThread_modThread, if_true] at h ⊢
      simp only [ofThread, List.getElem?_eq_getElem ht] at h ⊢
      split at h
      next rs hx =>
        rw [hx]
        have hl : label ∈ (rs ++ [c]).map (·.name) := h
        rw [List.map_append] at hl
        rcases List.mem_append.mp hl with h | h
        · exact Or.inl h
        · obtain rfl := List.mem_singleton.mp h
          exact Or.inr ⟨r, hname hc⟩
      next =>
        obtain rfl := List.mem_singleton.mp h
        exact Or.inr ⟨r, hname hc⟩
  | rename => exact Or.inl h
  | setPriority r p =>
    simp only [ReadInstr.run] at h
    split at h
    · rw [World.fail, outcomeOf_say ht] at h
      cases h
    · split at h
      · exact Or.inl h
      · rw [World.fail, outcomeOf_say ht] at h
        cases h
  | all | census =>
    simp only [ReadInstr.run, World.answer, outcomeOf_say ht] at h
    cases h
  | statsCensus =>
    rw [ReadInstr.run, labels_modStats ht] at h
    cases h
  | statsMutexes | statsConds | statsCounters =>
    simp only [ReadInstr.run, ReadInstr.consult] at h
    split at h
    · exact Or.inl h
    · rw [labels_modStats ht] at h
      cases h

/-- What a call answers has no names, or those that it had before, or the name of a record. -/
theorem labels_run (i : Instr) (h : label ∈ ((i.run t w).1.outcomeOf t).labels) :
    label ∈ (w.outcomeOf t).labels ∨ ∃ r, w.nameOf? r = some label := by
  have hsame (h : label ∈ ((i.run t w).1.outcomeOf t).labels)
      (hl : (i.run t w).1.outcomeOf t = w.outcomeOf t ∨ ((i.run t w).1.outcomeOf t).labels = []) :
      label ∈ (w.outcomeOf t).labels := by
    rcases hl with hl | hl
    · exact hl ▸ h
    · rw [hl] at h
      cases h
  cases i with
  | user => exact Or.inl h
  | sync i => exact Or.inl (hsame h (Or.inl (outcomeOf_run_of_mute rfl fun _ hj => by cases hj)))
  | guard i => exact Or.inl (hsame h (i.labels_run ht))
  | park i => exact Or.inl (hsame h (Or.inl i.outcomeOf_run))
  | stop i => exact Or.inl (hsame h (i.labels_run ht))
  | pool i => exact Or.inl (hsame h (i.labels_run ht))
  | member i => exact Or.inl (hsame h (i.labels_run ht))
  | read i => exact i.labels_run ht h

end Answers

end Stores

/-! The names in the slot tables. -/

namespace Slots

variable {p p' : Slots α} {n m : Nat} {v : α}

theorem nameAt_eq_ok :
    p.nameAt m = .ok label ↔ ∃ x, p.slots[m]? = some x ∧ x.used = true ∧ x.name = label := by
  unfold nameAt
  cases p.slots[m]? with
  | none => simp
  | some x => cases hu : x.used <;> simp [hu]

theorem nameAt_set {x : Slot α} (hp : p'.slots = p.slots.set n x) (hm : p'.nameAt m = .ok label) :
    p.nameAt m = .ok label ∨ x.used = true ∧ x.name = label := by
  obtain ⟨y, hy, hu, hl⟩ := nameAt_eq_ok.mp hm
  rw [hp, List.getElem?_set] at hy
  split at hy
  · split at hy
    · obtain rfl := Option.some.inj hy
      exact Or.inr ⟨hu, hl⟩
    · cases hy
  · exact Or.inl (nameAt_eq_ok.mpr ⟨y, hy, hu, hl⟩)

/-- A slot that is handed out bears the name, cut to the room there is. -/
theorem nameAt_allocate (h : p.allocate name v = .ok (n, p')) (hm : p'.nameAt m = .ok label) :
    p.nameAt m = .ok label ∨ label = Label.clamp name := by
  unfold Slots.allocate at h
  split at h
  · cases h
  · obtain ⟨rfl, rfl⟩ := Prod.mk.inj (Except.ok.inj h)
    exact (nameAt_set rfl hm).imp_right fun h => h.2.symm

theorem nameAt_free (hm : (p.free n).nameAt m = .ok label) : p.nameAt m = .ok label :=
  (nameAt_set rfl hm).resolve_right fun h => Bool.false_ne_true h.1

theorem nameAt_empty (c : Nat) : (empty c : Slots α).nameAt m ≠ .ok label := by
  intro hm
  obtain ⟨x, hx, hu, -⟩ := nameAt_eq_ok.mp hm
  obtain rfl := List.eq_of_mem_replicate (List.mem_of_getElem? hx)
  cases hu

end Slots

namespace PoolInstr

variable {p : Slots MutexRef} {q : Slots CondRef} {m : MutexRef} {c : CondRef} {n : Nat}

theorem nameAt_onMutexes (h : (k.onMutexes s m p).nameAt n = .ok label) :
    p.nameAt n = .ok label ∨
      ∃ name, (Instr.pool k).naming? = some name ∧ label = Label.clamp name := by
  cases k with
  | mutexAllot s' name =>
    simp only [onMutexes] at h
    split at h
    · split at h
      next ha => exact (Slots.nameAt_allocate ha h).imp_right fun hl => ⟨name, rfl, hl⟩
      next => exact Or.inl h
    · exact Or.inl h
  | mutexFree s' i =>
    simp only [onMutexes] at h
    split at h
    · exact Or.inl (Slots.nameAt_free h)
    · exact Or.inl h
  | _ => exact Or.inl h

theorem nameAt_onConds (h : (k.onConds s c q).nameAt n = .ok label) :
    q.nameAt n = .ok label ∨
      ∃ name, (Instr.pool k).naming? = some name ∧ label = Label.clamp name := by
  cases k with
  | condAllot s' name =>
    simp only [onConds] at h
    split at h
    · split at h
      next ha => exact (Slots.nameAt_allocate ha h).imp_right fun hl => ⟨name, rfl, hl⟩
      next => exact Or.inl h
    · exact Or.inl h
  | condFree s' i =>
    simp only [onConds] at h
    split at h
    · exact Or.inl (Slots.nameAt_free h)
    · exact Or.inl h
  | _ => exact Or.inl h

end PoolInstr

/-! What one event stores. -/

/-- The event stores the label: the thread that it advances runs an instruction with that name. -/
def Stores (w : World) (e : Event) (label : String) : Prop :=
  ∃ t i rest name, e = .advance t ∧ w.codeOf t = i :: rest ∧ i.naming? = some name ∧
    label = Label.clamp name

/-- A name in a slot table was there before, or it has just been stored. -/
theorem nameAt_step {n : Nat} : (((w.step e).mutexSlots s).nameAt n = .ok label →
      (w.mutexSlots s).nameAt n = .ok label ∨ Stores w e label) ∧
    (((w.step e).condSlots s).nameAt n = .ok label →
      (w.condSlots s).nameAt n = .ok label ∨ Stores w e label) := by
  cases hk : w.ran e with
  | some k =>
    obtain ⟨t, below, rfl, hp⟩ := poolRun_of_ran hk
    obtain ⟨rest, hc⟩ := hp.head
    by_cases hs : s < w.services.length
    · obtain ⟨hm, hq⟩ := slots_step_of_ran hk hs
      rw [hm, hq]
      exact ⟨fun h => (PoolInstr.nameAt_onMutexes h).imp_right fun ⟨name, hn, hl⟩ =>
          ⟨t, .pool k, rest, name, rfl, hc, hn, hl⟩,
        fun h => (PoolInstr.nameAt_onConds h).imp_right fun ⟨name, hn, hl⟩ =>
          ⟨t, .pool k, rest, name, rfl, hc, hn, hl⟩⟩
    · have hf : (w.step (.advance t)).fittings s = w.fittings s := by
        rw [fittings_step_of_ran hk, fittings_eq_none.mpr (Nat.le_of_not_lt hs)]
        rfl
      obtain ⟨hm, hq⟩ := slots_congr hf
      rw [hm, hq]
      exact ⟨Or.inl, Or.inl⟩
  | none =>
    rcases fittings_step_of_not_ran hk s with hf | ⟨-, t, x, rest, -, -, hf⟩
    · obtain ⟨hm, hq⟩ := slots_congr hf
      rw [hm, hq]
      exact ⟨Or.inl, Or.inl⟩
    · obtain ⟨hm, hq⟩ := slots_of_fittings hf
      rw [hm, hq]
      exact ⟨fun h => absurd h (Slots.nameAt_empty _), fun h => absurd h (Slots.nameAt_empty _)⟩

theorem nameOf_step (h : (w.step e).nameOf? r = some label) :
    w.nameOf? r = some label ∨ Stores w e label := by
  rcases w.step_cases e with ⟨t, i, rest, rfl, hc, -, hp⟩ | u
  · rw [hp] at h
    exact (nameOf_run (w := w.setCode t rest) i h).imp_right fun ⟨name, hn, hl⟩ =>
      ⟨t, i, rest, name, rfl, hc, hn, hl⟩
  · exact Or.inl (u.ofRecord.symm.trans h)

theorem labels_step (h : label ∈ ((w.step e).outcomeOf t).labels) :
    label ∈ (w.outcomeOf t).labels ∨ ∃ r, w.nameOf? r = some label := by
  cases e with
  | advance t' =>
    rcases w.advance_cases t' with hw | ⟨i, rest, hc, -, hp⟩
    · rw [World.step, hw] at h
      exact Or.inl h
    · rw [World.step, hp] at h
      have ht := lt_of_head hc
      by_cases he : t = t'
      · subst he
        have ho : (w.proceed t i rest).outcomeOf t = (i.run t (w.setCode t rest)).1.outcomeOf t :=
          ofThread_push (fun _ _ => rfl) _
        rw [ho] at h
        have hl := labels_run (w := w.setCode t rest) (by rwa [threads_length_setCode]) i h
        rwa [outcomeOf_setCode] at hl
      -- a thread that this step starts has no answer yet
      · by_cases hlt : t < w.threads.length
        · have ho : (w.proceed t' i rest).outcomeOf t =
              (i.run t' (w.setCode t' rest)).1.outcomeOf t := ofThread_push (fun _ _ => rfl) _
          rw [ho, outcomeOf_run_of_ne i he (by rwa [threads_length_setCode]), outcomeOf_setCode] at h
          exact Or.inl h
        · rcases thread_proceed_of_le hc (Nat.le_of_not_lt hlt) with hl | ⟨s, r, -, -, hx⟩
          · rw [outcomeOf_eq, ofThread_of_le _ _ hl] at h
            cases h
          · simp only [outcomeOf_eq, ofThread, hx] at h
            cases h
  | invoke t' c =>
    by_cases he : t' = t
    · subst he
      simp only [World.step, World.invoke] at h
      split at h
      next hu =>
        have ht : t' < w.threads.length := by
          obtain ⟨rest, hc⟩ := head_user hu
          exact lt_of_head hc
        split at h
        · rw [World.fail, outcomeOf_say ht] at h
          cases h
        · rw [outcomeOf_eq, ofThread_push fun _ _ => rfl, ← outcomeOf_eq, World.answer,
            outcomeOf_say ht] at h
          cases h
      next => exact Or.inl h
    · have hby : (Event.invoke t' c).isBy t = false := by simpa [Event.isBy] using he
      rw [outcomeOf_step_of_not_by hby fun _ h => by cases h] at h
      exact Or.inl h
  | finish t' panicked =>
    simp only [World.step, World.finish] at h
    split at h
    · simp only [outcomeOf_eq, ofThread_modThread, ite_self] at h
      exact Or.inl h
    · exact Or.inl h
  | interrupt | stir | tick | system =>
    rw [outcomeOf_step_of_not_by rfl fun _ h => by cases h] at h
    exact Or.inl h

/-- What the world keeps after an event it kept before, or the event stores it. -/
theorem World.KeepsLabel.step (h : (w.step e).KeepsLabel label) : w.KeepsLabel label ∨ Stores w e label := by
  cases h with
  | thread r h => exact (nameOf_step h).imp_left (.thread r)
  | mutex s n h => exact (nameAt_step.1 h).imp_left (.mutex s n)
  | cond s n h => exact (nameAt_step.2 h).imp_left (.cond s n)
  | read t h =>
    rcases labels_step h with h | ⟨r, h⟩
    · exact Or.inl (.read t h)
    · exact Or.inl (.thread r h)

theorem not_keeps_initial (n : Nat) : ¬(World.initial n).KeepsLabel label := by
  rintro (⟨r, h⟩ | ⟨s, i, h⟩ | ⟨s, i, h⟩ | ⟨t, h⟩)
  · cases h
  · exact Slots.nameAt_empty 0 h
  · exact Slots.nameAt_empty 0 h
  · simp only [outcomeOf_eq, ofThread, World.initial, List.getElem?_replicate] at h
    split at h
    next hx =>
      split at hx
      · obtain rfl := Option.some.inj hx
        cases h
      · cases hx
    next => cases h

/-! The names that are still in the code. -/

/-- Whatever a thread has still to store has been given in one of the calls. -/
def Requested (es : List Event) (w : World) : Prop :=
  ∀ t, ∀ i ∈ w.codeOf t, ∀ name, i.naming? = some name → ∃ e ∈ es, e.naming? = some name

theorem naming_of_bears {code : List Instr} {x : Option String} (h : code.all (Instr.bears x) = true)
    (hj : j ∈ code) (hn : j.naming? = some name) : x = some name := by
  have hb := List.all_eq_true.mp h j hj
  rw [Instr.bears, decide_eq_true_iff, hn] at hb
  exact (hb.resolve_left (Option.some_ne_none _)).symm

theorem Requested.step (h : Requested es w) : Requested (es ++ [e]) (w.step e) := by
  have hold {t i name} (hi : i ∈ w.codeOf t) (hn : i.naming? = some name) :
      ∃ e' ∈ es ++ [e], e'.naming? = some name := by
    obtain ⟨e', he, hn⟩ := h t i hi name hn
    exact ⟨e', List.mem_append_left _ he, hn⟩
  intro t j hj name hn
  rcases w.step_cases e with ⟨t', i, rest, rfl, hc, -, hp⟩ | u
  · rw [hp] at hj
    rcases mem_codeOf_proceed hc hj with ⟨-, hj⟩ | ⟨-, hj⟩ | ⟨-, hj⟩ | ⟨s, r, -, -, hj, -⟩
    · have hi := naming_of_bears (run_bears i) hj hn
      exact hold (hc ▸ List.mem_cons_self) hi
    · exact hold (hc ▸ List.mem_cons_of_mem _ hj) hn
    · exact hold hj hn
    · rw [threadCode_none (f := Instr.naming?) rfl hj] at hn
      cases hn
  · cases u.origin hj with
    | kept h => exact hold h hn
    | handler _ _ h => cases naming_of_bears (bears_of_nested (x := none) handler_nested) h hn
    | call c _ he h =>
      subst he
      exact ⟨_, List.mem_append_right _ List.mem_cons_self, naming_of_bears c.code_bears h hn⟩
    | mourn s r h =>
      subst h
      cases hn

theorem requested_initial (n : Nat) : Requested [] (World.initial n) := by
  intro t i hi name hn
  have hu : i = .user := by
    simp only [codeOf, ofThread, World.initial, List.getElem?_replicate] at hi
    split at hi
    next hx =>
      split at hx
      · obtain rfl := Option.some.inj hx
        exact List.mem_singleton.mp hi
      · cases hx
    next => cases hi
  subst hu
  cases hn

theorem requested_run (n : Nat) (es : List Event) : Requested es ((World.initial n).run es) := by
  induction es using List.reverseRecOn with
  | nil => exact requested_initial n
  | append_singleton es e ih =>
    rw [run_snoc]
    exact ih.step

theorem IsGiven.append (h : IsGiven es label) : IsGiven (es ++ [e]) label := by
  obtain ⟨e', he, h⟩ := h
  exact ⟨e', List.mem_append_left _ he, h⟩

/-- Every name that is kept is one that was given, cut. -/
theorem isGiven_of_keeps (n : Nat) (es : List Event) (h : ((World.initial n).run es).KeepsLabel label) :
    IsGiven es label := by
  induction es using List.reverseRecOn with
  | nil => exact absurd h (not_keeps_initial n)
  | append_singleton es e ih =>
    rw [run_snoc] at h
    rcases h.step with h | ⟨t, i, rest, name, rfl, hc, hn, rfl⟩
    · exact (ih h).append
    · obtain ⟨e', he, hn⟩ := requested_run n es t i (hc ▸ List.mem_cons_self) name hn
      exact ⟨e', List.mem_append_left _ he, name, hn, rfl⟩

namespace Label

/-- The label of a name is found by going back from the limit to the last place at which the name can
be cut, which is always there: no place with room is later. A name that has room is its own label, and
so is a label. All names of threads and of pool objects, and all that are read back, are labels of
names given in calls. -/
theorem names_are_cut_at_the_last_place :
    (∀ name : String, ∃ e, lastCut? name capacity = some e ∧ IsCut name e ∧ e ≤ capacity ∧
      (∀ d, IsCut name d → d ≤ capacity → d ≤ e) ∧
      (clamp name).toByteArray = name.toByteArray.extract 0 e ∧
      (name.utf8ByteSize ≤ capacity → clamp name = name) ∧ clamp (clamp name) = clamp name) ∧
    ∀ (n : Nat) (es : List Event) (label : String), ((World.initial n).run es).KeepsLabel label →
      IsGiven es label ∧ label.utf8ByteSize ≤ capacity ∧ clamp label = label := by
  refine ⟨fun name => ⟨(clamp name).utf8ByteSize, lastCut?_capacity name, isCut_clamp name,
    clamp_has_room name, fun _ => le_clamp_of_isCut, toByteArray_clamp name, clamp_of_fits,
    clamp_clamp name⟩, fun n es label h => ?_⟩
  -- a name that is kept was cut from one that a call has given
  obtain ⟨e, he, name, hn, rfl⟩ := isGiven_of_keeps n es h
  exact ⟨⟨e, he, name, hn, rfl⟩, clamp_has_room name, clamp_clamp name⟩

/-- A thread attaches itself under a name of 30 letters and one more of two bytes. -/
theorem attached_name_is_cut :
    ((World.initial 2).run [.invoke 0 (.establish {}), .advance 0,
      .invoke 1 (.attach 0 "aaaaaaaaaaaaaaaaaaaaaaaaaaaaaaé"), .advance 1]).KeepsLabel
        "aaaaaaaaaaaaaaaaaaaaaaaaaaaaaa" ∧
      clamp "aaaaaaaaaaaaaaaaaaaaaaaaaaaaaa" = "aaaaaaaaaaaaaaaaaaaaaaaaaaaaaa" := by
  have hk : ((World.initial 2).run [.invoke 0 (.establish {}), .advance 0,
      .invoke 1 (.attach 0 "aaaaaaaaaaaaaaaaaaaaaaaaaaaaaaé"), .advance 1]).KeepsLabel
        "aaaaaaaaaaaaaaaaaaaaaaaaaaaaaa" := .thread 1 (by decide +kernel)
  exact ⟨hk, (names_are_cut_at_the_last_place.2 _ _ _ hk).2.2⟩

end Label

end Standstill
