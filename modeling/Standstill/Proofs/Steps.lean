import Standstill.Proofs.NewCode

/-!
What one event does to a world, and how a fact about all reachable worlds is proved event by event.
-/
namespace Standstill

open World

namespace World

/-- Thread `t` has run `i`, which stood at the head of its code, before `rest`. -/
def proceed (w : World) (t : ThreadId) (i : Instr) (rest : List Instr) : World :=
  (i.run t (w.setCode t rest)).1.push t (i.run t (w.setCode t rest)).2

variable {α : Type} {w : World} {t t' : ThreadId} {r : RecordId} {i : Instr} {rest : List Instr}
  {e : Event}

theorem advance_cases (w : World) (t : ThreadId) :
    w.advance t = w ∨ ∃ i rest, w.codeOf t = i :: rest ∧ i.isReady w t = true ∧
      w.advance t = w.proceed t i rest := by
  cases hx : w.threads[t]? with
  | none => exact Or.inl (by simp only [advance, hx])
  | some x =>
    have hcode : w.codeOf t = x.code := by simp only [codeOf, ofThread, hx]
    cases hc : x.code with
    | nil => exact Or.inl (by simp only [advance, hx, hc])
    | cons i rest =>
      by_cases hr : i.isReady w t = true
      · right
        refine ⟨i, rest, hcode.trans hc, hr, ?_⟩
        simp only [advance, hx, hc, hr, if_true, proceed]
      · left
        simp only [advance, hx, hc, hr, if_false, Bool.false_eq_true]

theorem ne_user_of_ready (h : i.isReady w t = true) : i ≠ .user := by
  rintro rfl
  cases h

theorem advance_of_code (h : w.codeOf t = i :: rest) (hr : i.isReady w t = true) :
    w.advance t = w.proceed t i rest := by
  rcases hx : w.threads[t]? with _ | x
  · simp only [codeOf, ofThread, hx] at h
    cases h
  · have hc : x.code = i :: rest := by simpa only [codeOf, ofThread, hx] using h
    simp only [advance, hx, hc, hr, if_true, proceed]

theorem step_of_code (h : w.codeOf t = i :: rest) (hr : i.isReady w t = true) :
    w.step (.advance t) = w.proceed t i rest :=
  advance_of_code h hr

/-! Putting code away changes nothing but the code. -/

theorem ofThread_setCode {d : α} {f : Thread → α} (hf : ∀ x c, f { x with code := c } = f x) :
    (w.setCode t rest).ofThread t' d f = w.ofThread t' d f := by
  simp only [setCode, ofThread_modThread, hf, ite_self]

theorem ofThread_push {d : α} {f : Thread → α} (hf : ∀ x c, f { x with code := c } = f x)
    (c : List Instr) :
    (w.push t c).ofThread t' d f = w.ofThread t' d f := by
  simp only [push, ofThread_modThread, hf, ite_self]

theorem codeOf_setCode (h : t < w.threads.length) (c : List Instr) :
    (w.setCode t c).codeOf t' = if t' = t then c else w.codeOf t' := by
  simp only [setCode, codeOf, ofThread_modThread, ofThread_const]
  by_cases ht : t' = t
  · simp [ht, h]
  · simp [ht]

theorem codeOf_push (h : t < w.threads.length) (c : List Instr) :
    (w.push t c).codeOf t' = if t' = t then c ++ w.codeOf t else w.codeOf t' := by
  simp only [push, codeOf, ofThread_modThread]
  by_cases ht : t' = t
  · subst ht
    simp [ofThread, List.getElem?_eq_getElem h]
  · simp [ht]

theorem tends_setCode : Tends (w.setCode t rest) t i r ↔ Tends w t i r := by
  have hb : (w.setCode t rest).bindingOf t = w.bindingOf t := ofThread_setCode fun _ _ => rfl
  have hs : (w.setCode t rest).scopesOf t = w.scopesOf t := ofThread_setCode fun _ _ => rfl
  simp only [Tends, hb, hs]

/-! What is left of a thread's code once it has run the instruction at its head. -/

section Proceed

/-- What `i` leaves thread `t` to do, once it has been taken off the code. -/
def remainder (w : World) (t : ThreadId) (i : Instr) (rest : List Instr) : List Instr :=
  (i.run t (w.setCode t rest)).2

theorem threads_length_setCode (c : List Instr) :
    (w.setCode t c).threads.length = w.threads.length := (modThread_fields _).1

variable (h : w.codeOf t = i :: rest)
include h

theorem lt_of_head : t < w.threads.length := by
  apply lt_of_codeOf
  rw [h]
  exact List.cons_ne_nil _ _

theorem codeOf_proceed : (w.proceed t i rest).codeOf t = w.remainder t i rest ++ rest := by
  have ht := lt_of_head h
  have hs : t < (w.setCode t rest).threads.length := by
    rw [threads_length_setCode]
    exact ht
  have hl := (sizes_run (w := w.setCode t rest) (t := t) i).1
  rw [proceed, codeOf_push (Nat.lt_of_lt_of_le hs hl), if_pos rfl, codeOf_run i hs,
    codeOf_setCode ht, if_pos rfl]
  rfl

theorem codeOf_proceed_of_ne (ht : t' ≠ t) (hlt : t' < w.threads.length) :
    (w.proceed t i rest).codeOf t' = w.codeOf t' := by
  have hs : t' < (w.setCode t rest).threads.length := by
    rw [threads_length_setCode]
    exact hlt
  have hl := (sizes_run (w := w.setCode t rest) (t := t) i).1
  have ht0 := lt_of_head h
  have hs0 : t < (w.setCode t rest).threads.length := by
    rw [threads_length_setCode]
    exact ht0
  rw [proceed, codeOf_push (Nat.lt_of_lt_of_le hs0 hl), if_neg ht, codeOf_run i hs,
    codeOf_setCode ht0, if_neg ht]

theorem thread_proceed_of_le (ht : w.threads.length ≤ t') :
    (w.proceed t i rest).threads.length ≤ t' ∨ ∃ s r, i = .member (.spawnNative s r) ∧
      t' = w.threads.length ∧ (w.proceed t i rest).threads[t']? =
        some { code := threadCode s r, masked := w.isMasked t } := by
  have ht0 := lt_of_head h
  have hs := threads_length_setCode (w := w) (t := t) rest
  have hm : (w.setCode t rest).isMasked t = w.isMasked t := ofThread_setCode fun _ _ => rfl
  rcases thread_run_of_le (w := w.setCode t rest) i (hs ▸ ht0)
    (hs ▸ ht) with
    hl | ⟨s, r, hi, he, hx⟩
  · left
    simpa [proceed, push] using hl
  · right
    refine ⟨s, r, hi, he.trans hs, ?_⟩
    have hne : t ≠ t' := Nat.ne_of_lt (Nat.lt_of_lt_of_le ht0 ht)
    simp only [proceed, push, modThread, List.getElem?_modify, hne, if_false, hx, hm]
    rfl

/-- The code of a thread after a step: the running thread's, another's, or a new thread's. -/
theorem codeOf_proceed_cases {P : List Instr → Prop} (hrun : P (w.remainder t i rest ++ rest))
    (hold : P (w.codeOf t')) (hnil : P []) (hnew : ∀ s r, P (threadCode s r)) :
    P ((w.proceed t i rest).codeOf t') := by
  by_cases ht : t' = t
  · rw [ht, codeOf_proceed h]
    exact hrun
  · by_cases hlt : t' < w.threads.length
    · rw [codeOf_proceed_of_ne h ht hlt]
      exact hold
    · rcases thread_proceed_of_le h (Nat.le_of_not_lt hlt) with hl | ⟨s, r, _, _, hx⟩
      · rw [codeOf, ofThread_of_le _ _ hl]
        exact hnil
      · simp only [codeOf, ofThread, hx]
        exact hnew s r

/-- What a thread has in its code after a step, and where it comes from. -/
theorem mem_codeOf_proceed {j : Instr} (hj : j ∈ (w.proceed t i rest).codeOf t') :
    t' = t ∧ j ∈ w.remainder t i rest ∨ t' = t ∧ j ∈ rest ∨ t' ≠ t ∧ j ∈ w.codeOf t' ∨
      ∃ s r, i = .member (.spawnNative s r) ∧ t' = w.threads.length ∧ j ∈ threadCode s r ∧
        (w.proceed t i rest).codeOf t' = threadCode s r := by
  by_cases ht : t' = t
  · subst ht
    rw [codeOf_proceed h] at hj
    rcases List.mem_append.mp hj with hj | hj
    · exact Or.inl ⟨rfl, hj⟩
    · exact Or.inr (Or.inl ⟨rfl, hj⟩)
  · by_cases hlt : t' < w.threads.length
    · rw [codeOf_proceed_of_ne h ht hlt] at hj
      exact Or.inr (Or.inr (Or.inl ⟨ht, hj⟩))
    · rcases thread_proceed_of_le h (Nat.le_of_not_lt hlt) with hl | ⟨s, r, hi, he, hx⟩
      · rw [codeOf, ofThread_of_le _ _ hl] at hj
        cases hj
      · have hc : (w.proceed t i rest).codeOf t' = threadCode s r := by
          simp only [codeOf, ofThread, hx]
        rw [hc] at hj
        exact Or.inr (Or.inr (Or.inr ⟨s, r, hi, he, hj, hc⟩))

/-- Code that a thread still has after a step. -/
theorem mem_codeOf_proceed_of_mem {j : Instr} (hj : j ∈ w.codeOf t') (hi : t' = t → j ≠ i) :
    j ∈ (w.proceed t i rest).codeOf t' := by
  by_cases ht : t' = t
  · subst ht
    rw [codeOf_proceed h]
    rw [h] at hj
    rcases List.mem_cons.mp hj with rfl | hj
    · exact absurd rfl (hi rfl)
    · exact List.mem_append_right _ hj
  · have hlt : t' < w.threads.length := lt_of_codeOf (List.ne_nil_of_mem hj)
    rw [codeOf_proceed_of_ne h ht hlt]
    exact hj

/-- Where an instruction stands in a thread's code after a step, and what is above and below it. -/
theorem codeOf_proceed_split {j : Instr} {top code : List Instr}
    (hc : (w.proceed t i rest).codeOf t' = top ++ j :: code) :
    (t' = t ∧ ∃ bot, w.remainder t i rest = top ++ j :: bot ∧ code = bot ++ rest) ∨
      (t' = t ∧ ∃ mid, top = w.remainder t i rest ++ mid ∧ rest = mid ++ j :: code) ∨
      (t' ≠ t ∧ w.codeOf t' = top ++ j :: code) ∨
      ∃ s r, i = .member (.spawnNative s r) ∧ threadCode s r = top ++ j :: code := by
  by_cases ht : t' = t
  · subst ht
    rw [codeOf_proceed h] at hc
    rcases List.append_eq_append_iff.mp hc with ⟨mid, hm, hr⟩ | ⟨bot, hm, hr⟩
    · exact Or.inr (Or.inl ⟨rfl, mid, hm, hr⟩)
    · cases bot with
      | nil => exact Or.inr (Or.inl ⟨rfl, [], by simpa using hm.symm, hr.symm⟩)
      | cons k bot =>
        obtain ⟨rfl, rfl⟩ := List.cons.inj hr
        exact Or.inl ⟨rfl, bot, hm, rfl⟩
  · have hj : j ∈ (w.proceed t i rest).codeOf t' := hc ▸ by simp
    rcases mem_codeOf_proceed h hj with ⟨he, -⟩ | ⟨he, -⟩ | ⟨-, hold⟩ | ⟨s, r, hi, -, -, hn⟩
    · exact absurd he ht
    · exact absurd he ht
    · rw [codeOf_proceed_of_ne h ht (lt_of_codeOf (List.ne_nil_of_mem hold))] at hc
      exact Or.inr (Or.inr (Or.inl ⟨ht, hc⟩))
    · exact Or.inr (Or.inr (Or.inr ⟨s, r, hi, hn.symm.trans hc⟩))

end Proceed

/-! Records and the other fields of threads after a step. -/

theorem levelOf_proceed_of_not_tends (h : ¬Tends w t i r) :
    (w.proceed t i rest).levelOf r = w.levelOf r :=
  levelOf_run_of_not_tends i (mt tends_setCode.mp h)

theorem levelOf_proceed_of_nested (h : i.isNested = true) :
    (w.proceed t i rest).levelOf r = w.levelOf r :=
  levelOf_run_of_nested i h

theorem isRequested_proceed_of_nested (h : i.isNested = true) :
    (w.proceed t i rest).isRequested r = w.isRequested r :=
  isRequested_run_of_nested i h

theorem ownerOf_proceed (w : World) (t : ThreadId) (i : Instr) (rest : List Instr) (r : RecordId) :
    (w.proceed t i rest).ownerOf r = w.ownerOf r ∨ (w.proceed t i rest).ownerOf r = some t ∧
      (i = .member (.own r) ∨ r = w.records.length) :=
  ownerOf_run (w := w.setCode t rest) i

theorem bindingOf_proceed (w : World) (t t' : ThreadId) (i : Instr) (rest : List Instr) :
    (w.proceed t i rest).bindingOf t' = w.bindingOf t' ∨ t' = t ∧
      ∀ r, (w.proceed t i rest).bindingOf t' = some r → i = .member (.bind r) := by
  have hb : (w.setCode t rest).bindingOf t' = w.bindingOf t' := ofThread_setCode fun _ _ => rfl
  have hp : (w.proceed t i rest).bindingOf t' = (i.run t (w.setCode t rest)).1.bindingOf t' :=
    ofThread_push (fun _ _ => rfl) _
  rw [hp, ← hb]
  exact bindingOf_run i

theorem opens_setCode {x : Scope} (h : Opens (w.setCode t rest) t x) : Opens w t x := by
  have hb : (w.setCode t rest).bindingOf t = w.bindingOf t := ofThread_setCode fun _ _ => rfl
  cases h with
  | bare _ h => exact .bare _ h
  | guard r l h => exact .guard r l (hb ▸ h)
  | phase r h => exact .phase r (hb ▸ h)

theorem mem_scopesOf_proceed {x : Scope} (h : x ∈ (w.proceed t i rest).scopesOf t') :
    x ∈ w.scopesOf t' ∨ t' = t ∧ i.isNested = false ∧ Opens w t x := by
  have hs : (w.setCode t rest).scopesOf t' = w.scopesOf t' := ofThread_setCode fun _ _ => rfl
  have hp : (w.proceed t i rest).scopesOf t' = (i.run t (w.setCode t rest)).1.scopesOf t' :=
    ofThread_push (fun _ _ => rfl) _
  rw [hp] at h
  rcases mem_scopesOf_run i h with h | ⟨ht, hn, ho⟩
  · exact Or.inl (hs ▸ h)
  · exact Or.inr ⟨ht, hn, opens_setCode ho⟩

theorem remainder_avoids (h : ¬Tends w t i r) {j : Instr} (hj : j ∈ w.remainder t i rest)
    (hr : j.record? = some r) :
    (w.proceed t i rest).ownerOf r = some t := by
  rcases run_avoids (w := w.setCode t rest) i (mt tends_setCode.mp h) with ha | ho
  · have hn := List.all_eq_true.mp ha j hj
    simp [Instr.avoids, hr] at hn
  · exact ho

theorem remainder_parkRecord {j : Instr} (hj : j ∈ w.remainder t i rest)
    (hr : j.parkRecord? = some r) :
    w.bindingOf t = some r ∨ (∃ x ∈ w.scopesOf t, x.record? = some r) ∨
      i.parkRecord? = some r := by
  have hb : (w.setCode t rest).bindingOf t = w.bindingOf t := ofThread_setCode fun _ _ => rfl
  have hs : (w.setCode t rest).scopesOf t = w.scopesOf t := ofThread_setCode fun _ _ => rfl
  have hp := run_parkRecord (w := w.setCode t rest) i hj hr
  rwa [hb, hs] at hp

theorem remainder_birth {j : Instr} (hj : j ∈ w.remainder t i rest) (hb : j.isBirth = true) :
    ∃ s o n, i = .member (.spawnRecord s o n) ∧
      j = .member (.spawnNative s w.records.length) :=
  run_birth (w := w.setCode t rest) i hj hb

theorem ownerOf_proceed_own (hr : r < w.records.length) :
    (w.proceed t (.member (.own r)) rest).ownerOf r = some t := by
  have ho : (w.proceed t (.member (.own r)) rest).ownerOf r =
      (w.modRecord r fun c => { c with owner := some t }).ownerOf r := rfl
  rw [ho]
  simp [ownerOf_eq, ofRecord_modRecord, ofRecord_const, hr]

theorem ownerOf_proceed_spawnRecord {s : ServiceId} {o : SpawnOptions} {k : Nat} :
    (w.proceed t (.member (.spawnRecord s o k)) rest).ownerOf w.records.length = none := by
  have ho : (w.proceed t (.member (.spawnRecord s o k)) rest).ownerOf w.records.length =
      (w.addRecord (.create w.nextHandle s o.name o.priority k o.daemon)).ownerOf
        w.records.length := rfl
  rw [ho]
  simp [ownerOf_eq, ofRecord_addRecord, ThreadRecord.create]

theorem lt_records_proceed_spawnRecord {s : ServiceId} {o : SpawnOptions} {k : Nat} :
    w.records.length < (w.proceed t (.member (.spawnRecord s o k)) rest).records.length := by
  have hr : (w.proceed t (.member (.spawnRecord s o k)) rest).records.length =
      (w.addRecord (.create w.nextHandle s o.name o.priority k o.daemon)).records.length := rfl
  rw [hr, (addRecord_fields _).2.1]
  exact Nat.lt_succ_self _

theorem records_length_proceed : w.records.length ≤ (w.proceed t i rest).records.length :=
  (sizes_run (w := w.setCode t rest) (t := t) i).2.1

theorem threads_length_proceed : w.threads.length ≤ (w.proceed t i rest).threads.length := by
  have hp : (w.proceed t i rest).threads.length =
      (i.run t (w.setCode t rest)).1.threads.length := (modThread_fields _).1
  have hz := (sizes_run (w := w.setCode t rest) (t := t) i).1
  rwa [threads_length_setCode, ← hp] at hz

/-! The events that run no instruction. -/

/-- Code that thread `t` gets by an event other than running an instruction. -/
inductive Takes (w : World) (t : ThreadId) : Event → List Instr → Prop
  | interrupt (h : w.canInterrupt t = true) :
    Takes w t (.interrupt t) (w.handlerCode t ++ [.guard (.setMask false)] ++ w.codeOf t)
  | invoke (c : Call) (h : w.inUser t = true) :
    Takes w t (.invoke t c) (c.code w t ++ w.codeOf t)
  | finish (panicked : Bool) (h : w.inUser t = true) :
    Takes w t (.finish t panicked) (epilogue panicked (w.codeOf t).tail)

theorem head_user (h : w.inUser t = true) : ∃ rest, w.codeOf t = .user :: rest := by
  have hu := (inUser_iff.mp h).1
  cases hc : w.codeOf t with
  | nil =>
    rw [hc] at hu
    cases hu
  | cons i rest =>
    rw [hc] at hu
    exact ⟨rest, by rw [Option.some.inj hu]⟩

/-- Where thread `t` has an instruction from after an event by which it runs none. -/
inductive Origin (w : World) (t : ThreadId) (e : Event) (j : Instr) : Prop
  | kept (h : j ∈ w.codeOf t)
  | handler (hi : w.canInterrupt t = true) (he : e = .interrupt t)
    (h : j ∈ w.handlerCode t ++ [.guard (.setMask false)])
  | call (c : Call) (hu : w.inUser t = true) (he : e = .invoke t c) (h : j ∈ c.code w t)
  | mourn (s : ServiceId) (r : RecordId) (h : j = .member (.mourn s r))
    (hx : .member (.exitRaise s r) ∈ w.codeOf t)

theorem Takes.origin {code : List Instr} {j : Instr} (h : Takes w t e code) (hj : j ∈ code) :
    Origin w t e j := by
  cases h with
  | interrupt h =>
    rcases List.mem_append.mp hj with hj | hj
    · exact .handler h rfl hj
    · exact .kept hj
  | invoke c h =>
    rcases List.mem_append.mp hj with hj | hj
    · exact .call c h rfl hj
    · exact .kept hj
  | finish p h =>
    rcases mem_epilogue hj with hj | ⟨s, r, hj, hx⟩
    · exact .kept (List.mem_of_mem_tail hj)
    · exact .mourn s r hj (List.mem_of_mem_tail hx)

/-- Code that is new and comes from no instruction: a handler's, a call's, or that of a thread which
ends. -/
theorem Takes.mem {code : List Instr} {j : Instr} (h : Takes w t e code) (hj : j ∈ code) :
    j ∈ w.codeOf t ∨ j.isBirth = false ∧ ((∀ r, j.record? = some r → w.bindingOf t = some r) ∨
      ∃ s r, j = .member (.mourn s r) ∧ .member (.exitRaise s r) ∈ w.codeOf t) := by
  cases h.origin hj with
  | kept h => exact Or.inl h
  | handler _ _ h =>
    right
    rcases List.mem_append.mp h with h | h
    · exact ⟨unborn_of_nested handlerCode_nested j h, Or.inl fun r hr => handlerCode_record h hr⟩
    · rw [List.mem_singleton] at h
      subst h
      exact ⟨rfl, Or.inl fun r hr => by cases hr⟩
  | call c _ _ h => exact Or.inr ⟨c.code_unborn j h, Or.inl fun r hr => c.code_record h hr⟩
  | mourn s r h hx =>
    subst h
    exact Or.inr ⟨rfl, Or.inr ⟨s, r, rfl, hx⟩⟩

theorem Takes.mem_of_mem {code : List Instr} {j : Instr} (h : Takes w t e code)
    (hj : j ∈ w.codeOf t) (hu : j ≠ .user) : j ∈ code := by
  cases h with
  | interrupt h => exact List.mem_append_right _ hj
  | invoke c h => exact List.mem_append_right _ hj
  | finish p h =>
    obtain ⟨rest, hc⟩ := head_user h
    rw [hc] at hj ⊢
    rcases List.mem_cons.mp hj with rfl | hj
    · exact absurd rfl hu
    · exact mem_epilogue_of_mem hj

/-- New code comes on top of what is left of the old: a handler's, or that of a call, or of a thread
which ends. -/
theorem Takes.split {code : List Instr} (h : Takes w t e code) : ∃ new old, code = new ++ old ∧
    old <:+ w.codeOf t ∧
      (new.all Instr.isNested = true ∧ w.canInterrupt t = true ∨ w.inUser t = true ∧
        ∀ j ∈ new, (∃ c, e = .invoke t c ∧ j ∈ c.code w t) ∨ ∃ s r, j = .member (.mourn s r)) := by
  cases h with
  | interrupt h => exact ⟨_, _, rfl, List.suffix_refl _, Or.inl ⟨handler_nested, h⟩⟩
  | invoke c h =>
    exact ⟨_, _, rfl, List.suffix_refl _, Or.inr ⟨h, fun j hj => Or.inl ⟨c, rfl, hj⟩⟩⟩
  | finish p h =>
    unfold epilogue
    split
    next s r rest hc =>
      refine ⟨_, _, rfl, hc ▸ List.tail_suffix _, Or.inr ⟨h, fun j hj => Or.inr ⟨s, r, ?_⟩⟩⟩
      split at hj
      · exact List.mem_singleton.mp hj
      · cases hj
    next => exact ⟨[], _, rfl, List.tail_suffix _, Or.inr ⟨h, fun _ hj => by cases hj⟩⟩

/-- Nothing but the code, the masks and the sleep of threads differs. -/
structure Undisturbed (w : World) (e : Event) (w' : World) : Prop where
  records : w'.records = w.records
  services : w'.services = w.services
  held : w'.held = w.held
  asleep : w'.asleep.Sublist w.asleep
  length : w'.threads.length = w.threads.length
  scopes : ∀ t, w'.scopesOf t = w.scopesOf t
  binding : ∀ t, w'.bindingOf t = w.bindingOf t
  code : ∀ t, w'.codeOf t = w.codeOf t ∨ Takes w t e (w'.codeOf t)
  /-- A thread that takes the stop signal blocks it. -/
  signals : ∀ t, w'.isPending t = w.isPending t ∧ w'.isMasked t = w.isMasked t ∧
      (e = .interrupt t → w.canInterrupt t = false) ∨
    w.canInterrupt t = true ∧ w'.isMasked t = true ∧ Takes w t e (w'.codeOf t)

theorem Undisturbed.origin {w' : World} {e : Event} {j : Instr} (u : Undisturbed w e w')
    (hj : j ∈ w'.codeOf t) : Origin w t e j := by
  rcases u.code t with hc | hc
  · exact .kept (hc ▸ hj)
  · exact hc.origin hj

/-- A thread that is not in code of its own gets none but its handler's. -/
theorem Undisturbed.code_of_busy {w' : World} {e : Event} (u : Undisturbed w e w')
    (hu : w.inUser t = false) : w'.codeOf t = w.codeOf t ∨ w.canInterrupt t = true ∧
      w'.codeOf t = w.handlerCode t ++ [.guard (.setMask false)] ++ w.codeOf t := by
  rcases u.code t with hc | hc
  · exact Or.inl hc
  · generalize w'.codeOf t = code at hc
    cases hc with
    | interrupt hi => exact Or.inr ⟨hi, rfl⟩
    | invoke _ h | finish _ h =>
      rw [hu] at h
      cases h

theorem Undisturbed.refl (w : World) (e : Event)
    (h : ∀ t, e = .interrupt t → w.canInterrupt t = false) : Undisturbed w e w :=
  ⟨rfl, rfl, rfl, List.Sublist.refl _, rfl, fun _ => rfl, fun _ => rfl, fun _ => Or.inl rfl,
    fun t => Or.inl ⟨rfl, rfl, h t⟩⟩

theorem undisturbed_interrupt (w : World) (t : ThreadId) : Undisturbed w (.interrupt t) (w.interrupt t) := by
  by_cases h : w.canInterrupt t = true
  · have ht : t < w.threads.length := lt_of_codeOf (canInterrupt_iff.mp h).2.2
    -- the handler comes on top of what the thread was at
    have taken : Takes w t (.interrupt t) ((w.interrupt t).codeOf t) := by
      have hc : (w.modThread t fun x => { x with pending := false, masked := true }).codeOf t =
          w.codeOf t := by simp [codeOf, ofThread_modThread]
      rw [interrupt, if_pos h, codeOf_push (by simpa using ht), if_pos rfl, hc]
      exact .interrupt h
    simp only [interrupt, h, if_true] at taken ⊢
    refine ⟨rfl, rfl, rfl, List.Sublist.refl _, by simp [push], fun t' => ?_, fun t' => ?_,
      fun t' => ?_, fun t' => ?_⟩
    · simp [scopesOf, push, ofThread_modThread]
    · simp [bindingOf, push, ofThread_modThread]
    · by_cases he : t' = t
      · subst he
        exact Or.inr taken
      · left
        rw [codeOf_push (by simpa using ht)]
        simp [he, codeOf, ofThread_modThread]
    · by_cases he : t' = t
      · subst he
        right
        refine ⟨h, ?_, taken⟩
        simp [isMasked, push, ofThread_modThread, ofThread_const, ht]
      · left
        refine ⟨?_, ?_, fun hi => absurd (Event.interrupt.inj hi).symm he⟩
        · simp [isPending, push, ofThread_modThread, he]
        · simp [isMasked, push, ofThread_modThread, he]
  · simp only [interrupt, h, if_false, Bool.false_eq_true]
    refine .refl w _ ?_
    intro t' ht
    obtain rfl := Event.interrupt.inj ht
    exact Bool.eq_false_iff.mpr h

theorem undisturbed_invoke (w : World) (t : ThreadId) (c : Call) :
    Undisturbed w (.invoke t c) (w.invoke t c) := by
  by_cases h : w.inUser t = true
  · have ht : t < w.threads.length := by
      apply lt_of_codeOf
      intro hn
      have hu := (inUser_iff.mp h).1
      rw [hn] at hu
      cases hu
    simp only [invoke, h, if_true]
    -- a call that is refused at once leaves an answer, any other its code
    split
    · refine ⟨rfl, rfl, rfl, List.Sublist.refl _, by simp [fail, say], fun t' => ?_, fun t' => ?_,
        fun t' => Or.inl ?_, fun t' => Or.inl ⟨?_, ?_, fun h => by cases h⟩⟩
      · simp [scopesOf, fail, say, ofThread_modThread]
      · simp [bindingOf, fail, say, ofThread_modThread]
      · simp [codeOf, fail, say, ofThread_modThread]
      · simp [isPending, fail, say, ofThread_modThread]
      · simp [isMasked, fail, say, ofThread_modThread]
    · refine ⟨rfl, rfl, rfl, List.Sublist.refl _, by simp [push, answer, say], fun t' => ?_,
        fun t' => ?_, fun t' => ?_, fun t' => Or.inl ⟨?_, ?_, fun h => by cases h⟩⟩
      · simp [scopesOf, push, answer, say, ofThread_modThread]
      · simp [bindingOf, push, answer, say, ofThread_modThread]
      · rw [codeOf_push (by simpa [answer, say] using ht)]
        by_cases he : t' = t
        · subst he
          right
          rw [if_pos rfl]
          have hc : (w.answer t' .unit).codeOf t' = w.codeOf t' := by
            simp [codeOf, answer, say, ofThread_modThread]
          rw [hc]
          exact .invoke c h
        · left
          simp [he, codeOf, answer, say, ofThread_modThread]
      · simp [isPending, push, answer, say, ofThread_modThread]
      · simp [isMasked, push, answer, say, ofThread_modThread]
  · simp only [invoke, h, if_false, Bool.false_eq_true]
    exact .refl w _ (fun _ h => by cases h)

theorem undisturbed_finish (w : World) (t : ThreadId) (panicked : Bool) :
    Undisturbed w (.finish t panicked) (w.finish t panicked) := by
  by_cases h : w.inUser t = true
  · simp only [finish, h, if_true]
    refine ⟨rfl, rfl, rfl, List.Sublist.refl _, by simp, fun t' => ?_, fun t' => ?_, fun t' => ?_,
      fun t' => Or.inl ⟨?_, ?_, fun h => by cases h⟩⟩
    · simp [scopesOf, ofThread_modThread]
    · simp [bindingOf, ofThread_modThread]
    · by_cases he : t' = t
      · subst he
        right
        have hc : (w.modThread t' fun x => { x with code := epilogue panicked x.code.tail }).codeOf
            t' = epilogue panicked (w.codeOf t').tail := by
          rw [codeOf, ofThread_modThread, if_pos rfl]
          simp only [codeOf, ofThread]
          cases w.threads[t']? <;> rfl
        rw [hc]
        exact .finish panicked h
      · left
        simp [codeOf, ofThread_modThread, he]
    · simp [isPending, ofThread_modThread]
    · simp [isMasked, ofThread_modThread]
  · simp only [finish, h, if_false, Bool.false_eq_true]
    exact .refl w _ (fun _ h => by cases h)

/-- An event runs one instruction of one thread, or leaves all records and locks alone. -/
theorem step_cases (w : World) (e : Event) :
    (∃ t i rest, e = .advance t ∧ w.codeOf t = i :: rest ∧ i.isReady w t = true ∧
      w.step e = w.proceed t i rest) ∨ Undisturbed w e (w.step e) := by
  cases e with
  | advance t =>
    rcases w.advance_cases t with h | ⟨i, rest, hc, hr, h⟩
    · right
      have hs : w.step (.advance t) = w := h
      rw [hs]
      exact .refl w _ (fun _ h => by cases h)
    · exact Or.inl ⟨t, i, rest, rfl, hc, hr, h⟩
  | interrupt t => exact Or.inr (undisturbed_interrupt w t)
  | invoke t c => exact Or.inr (undisturbed_invoke w t c)
  | finish t p => exact Or.inr (undisturbed_finish w t p)
  | stir q t =>
    exact Or.inr ⟨rfl, rfl, rfl, List.erase_sublist, rfl, fun _ => rfl, fun _ => rfl,
      fun _ => Or.inl rfl, fun _ => Or.inl ⟨rfl, rfl, fun h => by cases h⟩⟩
  | tick | system =>
    exact Or.inr ⟨rfl, rfl, rfl, List.Sublist.refl _, rfl, fun _ => rfl, fun _ => rfl,
      fun _ => Or.inl rfl, fun _ => Or.inl ⟨rfl, rfl, fun h => by cases h⟩⟩

theorem threads_length_step (w : World) (e : Event) :
    w.threads.length ≤ (w.step e).threads.length := by
  rcases w.step_cases e with ⟨t, i, rest, -, h, -, he⟩ | u
  · rw [he]
    exact threads_length_proceed
  · exact Nat.le_of_eq u.length.symm

theorem Undisturbed.ofRecord {w' : World} {d : α} {f : ThreadRecord → α} (h : Undisturbed w e w') :
    w'.ofRecord r d f = w.ofRecord r d f := by
  simp only [World.ofRecord, h.records]

theorem run_append (w : World) (es fs : List Event) : w.run (es ++ fs) = (w.run es).run fs := by
  simp only [run, List.foldl_append]

theorem run_cons (w : World) (e : Event) (es : List Event) : w.run (e :: es) = (w.step e).run es :=
  rfl

end World

/-- Thread `t` is given its turn `k` times. -/
def turns (t : ThreadId) (k : Nat) : List Event := List.replicate k (.advance t)

variable {n : Nat} {w : World}

/-- Every event of the run is as `Q` says, in the world in which it happens. -/
def World.Along (Q : World → Event → Prop) (w : World) : List Event → Prop
  | [] => True
  | e :: es => Q w e ∧ (w.step e).Along Q es

instance decidableAlong {Q : World → Event → Prop} [∀ w e, Decidable (Q w e)] :
    ∀ (w : World) (es : List Event), Decidable (w.Along Q es)
  | _, [] => inferInstanceAs (Decidable True)
  | w, e :: es =>
    have : Decidable ((w.step e).Along Q es) := decidableAlong (w.step e) es
    inferInstanceAs (Decidable (Q w e ∧ (w.step e).Along Q es))

theorem along_of_forall {es : List Event} {Q : World → Event → Prop} (h : ∀ w, ∀ e ∈ es, Q w e) : w.Along Q es := by
  induction es generalizing w with
  | nil => trivial
  | cons e es ih =>
    exact ⟨h w e List.mem_cons_self, ih fun w e he => h w e (List.mem_cons_of_mem _ he)⟩

theorem run_snoc (w : World) (es : List Event) (e : Event) :
    w.run (es ++ [e]) = (w.run es).step e :=
  w.run_append es [e]

theorem along_append {es fs : List Event} {Q : World → Event → Prop} :
    w.Along Q (es ++ fs) ↔ w.Along Q es ∧ (w.run es).Along Q fs := by
  induction es generalizing w with
  | nil => exact ⟨fun h => ⟨trivial, h⟩, And.right⟩
  | cons e es ih =>
    simp only [List.cons_append, World.Along, ih, run_cons, and_assoc]

theorem along_iff {es : List Event} {Q : World → Event → Prop} :
    w.Along Q es ↔ ∀ fs e gs, es = fs ++ e :: gs → Q (w.run fs) e := by
  constructor
  · rintro h fs e gs rfl
    exact (along_append.mp h).2.1
  · intro h
    induction es generalizing w with
    | nil => trivial
    | cons e es ih =>
      refine ⟨h [] e es rfl, ih fun fs e' gs hes => ?_⟩
      exact h (e :: fs) e' gs (by rw [hes, List.cons_append])

theorem reachable_initial (n : Nat) : Reachable n (World.initial n) := ⟨[], rfl⟩

theorem Reachable.step (h : Reachable n w) (e : Event) : Reachable n (w.step e) := by
  obtain ⟨es, rfl⟩ := h
  exact ⟨es ++ [e], by rw [run_append]; rfl⟩

theorem Reachable.run (h : Reachable n w) (es : List Event) : Reachable n (w.run es) := by
  obtain ⟨fs, rfl⟩ := h
  exact ⟨fs ++ es, run_append _ _ _⟩

/-- What holds at first and is kept by every event holds of all worlds that can be reached. -/
theorem Reachable.induct {P : World → Prop} (h : Reachable n w) (h0 : P (World.initial n))
    (hs : ∀ w e, Reachable n w → P w → P (w.step e)) : P w := by
  obtain ⟨es, rfl⟩ := h
  induction es using List.reverseRecOn with
  | nil => exact h0
  | append_singleton es e ih =>
    rw [run_append]
    exact hs _ e ⟨es, rfl⟩ ih

end Standstill
