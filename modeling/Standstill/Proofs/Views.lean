import Mathlib.Tactic
import Standstill.Step

/-!
What can be asked about one thread or one record of a world, and what an elementary change of the
world does to the answers.
-/
namespace Standstill.World

/-- What `f` says of thread `t`; `d` if there is no such thread. -/
def ofThread {α : Type} (w : World) (t : ThreadId) (d : α) (f : Thread → α) : α :=
  match w.threads[t]? with
  | some x => f x
  | none => d

def codeOf (w : World) (t : ThreadId) : List Instr := w.ofThread t [] (·.code)

def scopesOf (w : World) (t : ThreadId) : List Scope := w.ofThread t [] (·.scopes)

def bindingOf (w : World) (t : ThreadId) : Option RecordId := w.ofThread t none (·.binding)

def isMasked (w : World) (t : ThreadId) : Bool := w.ofThread t false (·.masked)

def isPending (w : World) (t : ThreadId) : Bool := w.ofThread t false (·.pending)

/-- What `f` says of record `r`; `d` if there is no such record. -/
def ofRecord {α : Type} (w : World) (r : RecordId) (d : α) (f : ThreadRecord → α) : α :=
  match w.records[r]? with
  | some c => f c
  | none => d

/-- The service that record `r` belongs to. -/
def homeOf (w : World) (r : RecordId) : Option ServiceId := w.ofRecord r none (some ·.service)

/-- What service `s` was made with. -/
def settingsOf (w : World) (s : ServiceId) : Option Settings := w.services[s]?.map (·.settings)

/-- Handles and records that are found in the roster of service `s`. -/
def entriesOf (w : World) (s : ServiceId) : List (Handle × RecordId) := (w.roster s).entries

variable {α : Type} {w : World} {t t' : ThreadId} {r r' : RecordId} {s s' : ServiceId}

theorem ofThread_of_le (d : α) (f : Thread → α) (h : w.threads.length ≤ t) :
    w.ofThread t d f = d := by
  simp only [ofThread, List.getElem?_eq_none h]

theorem ofThread_const (d c : α) :
    w.ofThread t d (fun _ => c) = if t < w.threads.length then c else d := by
  by_cases h : t < w.threads.length
  · simp only [ofThread, List.getElem?_eq_getElem h, h, if_true]
  · rw [ofThread_of_le d _ (Nat.le_of_not_lt h), if_neg h]

theorem ofRecord_of_le (d : α) (f : ThreadRecord → α) (h : w.records.length ≤ r) :
    w.ofRecord r d f = d := by
  simp only [ofRecord, List.getElem?_eq_none h]

theorem ofRecord_const (d c : α) :
    w.ofRecord r d (fun _ => c) = if r < w.records.length then c else d := by
  by_cases h : r < w.records.length
  · simp only [ofRecord, List.getElem?_eq_getElem h, h, if_true]
  · rw [ofRecord_of_le d _ (Nat.le_of_not_lt h), if_neg h]

theorem ofThread_modThread (g : Thread → Thread) (d : α) (f : Thread → α) :
    (w.modThread t g).ofThread t' d f =
      if t' = t then w.ofThread t' d (fun x => f (g x)) else w.ofThread t' d f := by
  simp only [ofThread, modThread, List.getElem?_modify]
  by_cases h : t = t'
  · subst h
    cases w.threads[t]? <;> simp
  · simp only [h, if_false, Ne.symm h]
    cases w.threads[t']? <;> simp

theorem ofRecord_modRecord (g : ThreadRecord → ThreadRecord) (d : α) (f : ThreadRecord → α) :
    (w.modRecord r g).ofRecord r' d f =
      if r' = r then w.ofRecord r' d (fun c => f (g c)) else w.ofRecord r' d f := by
  simp only [ofRecord, modRecord, List.getElem?_modify]
  by_cases h : r = r'
  · subst h
    cases w.records[r]? <;> simp
  · simp only [h, if_false, Ne.symm h]
    cases w.records[r']? <;> simp

theorem ofThread_addThread (x : Thread) (d : α) (f : Thread → α) :
    (w.addThread x).ofThread t d f = if t = w.threads.length then f x else w.ofThread t d f := by
  simp only [ofThread, addThread]
  rcases Nat.lt_trichotomy t w.threads.length with h | rfl | h
  · rw [List.getElem?_append_left h, if_neg (Nat.ne_of_lt h)]
  · simp
  · have hn : w.threads.length + 1 ≤ t := h
    rw [List.getElem?_eq_none (by simpa using hn), List.getElem?_eq_none (Nat.le_of_lt h),
      if_neg (Nat.ne_of_gt h)]

theorem ofRecord_addRecord (c : ThreadRecord) (d : α) (f : ThreadRecord → α) :
    (w.addRecord c).ofRecord r d f = if r = w.records.length then f c else w.ofRecord r d f := by
  simp only [ofRecord, addRecord]
  rcases Nat.lt_trichotomy r w.records.length with h | rfl | h
  · rw [List.getElem?_append_left h, if_neg (Nat.ne_of_lt h)]
  · simp
  · have hn : w.records.length + 1 ≤ r := h
    rw [List.getElem?_eq_none (by simpa using hn), List.getElem?_eq_none (Nat.le_of_lt h),
      if_neg (Nat.ne_of_gt h)]

/-! An elementary change of one kind leaves what is asked about the other kind alone. -/

section Apart

variable (d : α) (f : Thread → α) (f' : ThreadRecord → α)

@[simp] theorem ofThread_modRecord (g : ThreadRecord → ThreadRecord) :
    (w.modRecord r g).ofThread t d f = w.ofThread t d f := rfl

@[simp] theorem ofThread_modService (g : Service → Service) :
    (w.modService s g).ofThread t d f = w.ofThread t d f := rfl

@[simp] theorem ofThread_addRecord (c : ThreadRecord) :
    (w.addRecord c).ofThread t d f = w.ofThread t d f := rfl

@[simp] theorem ofThread_addService (v : Service) :
    (w.addService v).ofThread t d f = w.ofThread t d f := rfl

@[simp] theorem ofThread_held (h : List (Lock × ThreadId)) :
    { w with held := h }.ofThread t d f = w.ofThread t d f := rfl

@[simp] theorem ofThread_asleep (a : List (WaitList × ThreadId)) :
    { w with asleep := a }.ofThread t d f = w.ofThread t d f := rfl

@[simp] theorem ofThread_held_asleep (h : List (Lock × ThreadId)) (a : List (WaitList × ThreadId)) :
    { w with held := h, asleep := a }.ofThread t d f = w.ofThread t d f := rfl

@[simp] theorem ofRecord_modThread (g : Thread → Thread) :
    (w.modThread t g).ofRecord r d f' = w.ofRecord r d f' := rfl

@[simp] theorem ofRecord_modService (g : Service → Service) :
    (w.modService s g).ofRecord r d f' = w.ofRecord r d f' := rfl

@[simp] theorem ofRecord_addThread (x : Thread) :
    (w.addThread x).ofRecord r d f' = w.ofRecord r d f' := rfl

@[simp] theorem ofRecord_addService (v : Service) :
    (w.addService v).ofRecord r d f' = w.ofRecord r d f' := rfl

@[simp] theorem ofRecord_held (h : List (Lock × ThreadId)) :
    { w with held := h }.ofRecord r d f' = w.ofRecord r d f' := rfl

@[simp] theorem ofRecord_asleep (a : List (WaitList × ThreadId)) :
    { w with asleep := a }.ofRecord r d f' = w.ofRecord r d f' := rfl

@[simp] theorem ofRecord_held_asleep (h : List (Lock × ThreadId)) (a : List (WaitList × ThreadId)) :
    { w with held := h, asleep := a }.ofRecord r d f' = w.ofRecord r d f' := rfl

end Apart

/-! What an elementary change does to the fields of the world as such. -/

@[simp] theorem modThread_fields (g : Thread → Thread) :
    (w.modThread t g).threads.length = w.threads.length ∧
    (w.modThread t g).records = w.records ∧ (w.modThread t g).services = w.services ∧
    (w.modThread t g).held = w.held ∧ (w.modThread t g).asleep = w.asleep :=
  ⟨List.length_modify .., rfl, rfl, rfl, rfl⟩

@[simp] theorem modRecord_fields (g : ThreadRecord → ThreadRecord) :
    (w.modRecord r g).threads = w.threads ∧
    (w.modRecord r g).records.length = w.records.length ∧
    (w.modRecord r g).services = w.services ∧
    (w.modRecord r g).held = w.held ∧ (w.modRecord r g).asleep = w.asleep :=
  ⟨rfl, List.length_modify .., rfl, rfl, rfl⟩

@[simp] theorem modService_fields (g : Service → Service) :
    (w.modService s g).threads = w.threads ∧ (w.modService s g).records = w.records ∧
    (w.modService s g).services.length = w.services.length ∧
    (w.modService s g).held = w.held ∧ (w.modService s g).asleep = w.asleep :=
  ⟨rfl, rfl, List.length_modify .., rfl, rfl⟩

@[simp] theorem addThread_fields (x : Thread) :
    (w.addThread x).threads.length = w.threads.length + 1 ∧
    (w.addThread x).records = w.records ∧ (w.addThread x).services = w.services ∧
    (w.addThread x).held = w.held ∧ (w.addThread x).asleep = w.asleep :=
  ⟨List.length_append .., rfl, rfl, rfl, rfl⟩

@[simp] theorem addRecord_fields (c : ThreadRecord) :
    (w.addRecord c).threads = w.threads ∧
    (w.addRecord c).records.length = w.records.length + 1 ∧
    (w.addRecord c).services = w.services ∧
    (w.addRecord c).held = w.held ∧ (w.addRecord c).asleep = w.asleep :=
  ⟨rfl, List.length_append .., rfl, rfl, rfl⟩

@[simp] theorem addService_fields (v : Service) :
    (w.addService v).threads = w.threads ∧ (w.addService v).records = w.records ∧
    (w.addService v).services.length = w.services.length + 1 ∧
    (w.addService v).held = w.held ∧ (w.addService v).asleep = w.asleep :=
  ⟨rfl, rfl, List.length_append .., rfl, rfl⟩

theorem levelOf_eq : w.levelOf r = w.ofRecord r .noBlock (·.level) := rfl

theorem levelOf_setLevel (l : Level) :
    (w.setLevel r l).levelOf r = if r < w.records.length then l else .noBlock := by
  simp only [levelOf_eq, World.setLevel, ofRecord_modRecord, if_true, ofRecord_const]

theorem levelOf_setLevel_of_ne {b : RecordId} (l : Level) (h : r ≠ b) :
    (w.setLevel b l).levelOf r = w.levelOf r := by
  simp only [levelOf_eq, World.setLevel, ofRecord_modRecord, h, if_false]

theorem phaseOf_eq : w.phaseOf r = w.ofRecord r .creating (·.phase) := rfl

theorem isRequested_eq : w.isRequested r = w.ofRecord r false (·.requested) := rfl

theorem ownerOf_eq : w.ownerOf r = w.ofRecord r none (·.owner) := rfl

theorem homeOf_isSome : (w.homeOf r).isSome = true ↔ r < w.records.length := by
  by_cases h : r < w.records.length
  · simp [homeOf, ofRecord, h]
  · simp [homeOf, ofRecord_of_le none _ (Nat.le_of_not_lt h), h]

theorem lt_of_codeOf (h : w.codeOf t ≠ []) : t < w.threads.length := by
  by_contra hn
  exact h (ofThread_of_le [] _ (Nat.le_of_not_lt hn))

/-- The record that stands for thread `t` in service `s` is the one that the thread is bound to. -/
theorem selfIn_eq_some :
    w.selfIn t s = some r ↔ w.bindingOf t = some r ∧ w.homeOf r = some s := by
  simp only [selfIn, bindingOf, ofThread, homeOf, ofRecord]
  cases w.threads[t]? with
  | none => simp
  | some x =>
    cases hb : x.binding with
    | none => simp [hb]
    | some b =>
      simp only [hb]
      by_cases he : b = r
      · subst he
        cases w.records[b]? <;> simp
      · cases w.records[b]? <;> simp [he]

theorem innermost_eq : w.innermost? t = (w.scopesOf t).head? := by
  simp only [innermost?, scopesOf, ofThread]
  cases w.threads[t]? <;> rfl

theorem handlerCode_eq :
    w.handlerCode t =
      match w.bindingOf t with
      | none => []
      | some r => [.park (.check [.request, .level, .phase] .handler r)] := by
  simp only [handlerCode, bindingOf, ofThread]
  cases w.threads[t]? with
  | none => rfl
  | some x => cases hb : x.binding <;> simp [hb]

theorem inUser_iff :
    w.inUser t = true ↔
      (w.codeOf t).head? = some .user ∧ ¬(w.isPending t = true ∧ w.isMasked t = false) := by
  simp only [inUser, codeOf, isPending, isMasked, ofThread]
  cases w.threads[t]? with
  | none => simp
  | some x =>
    simp only [Bool.and_eq_true, beq_iff_eq, Bool.not_eq_true']
    cases x.pending <;> cases x.masked <;> simp

theorem canInterrupt_iff :
    w.canInterrupt t = true ↔
      w.isPending t = true ∧ w.isMasked t = false ∧ w.codeOf t ≠ [] := by
  simp only [canInterrupt, codeOf, isPending, isMasked, ofThread]
  cases w.threads[t]? with
  | none => simp
  | some x => simp [and_assoc]

end Standstill.World
