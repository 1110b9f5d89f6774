import Standstill.Proofs.LastSteps
import Standstill.Proofs.OneService

/-!
The call that reads the figures of a service. Each of its steps leaves less to do, and if nobody else has
the locks there is nothing that it has to wait for.
-/
namespace Standstill

open World

variable {n : Nat} {w : World} {t : ThreadId} {s : ServiceId} {i j : Instr} {rest : List Instr}
  {e : Event}

/-- The instruction is of the stop signal's handler, or of the end of a guard; it leaves nothing to do
where nobody has asked its thread to stop. -/
def Instr.isLight : Instr → Bool
  | .park (.check (.request :: _) _ _) | .guard (.unmask _) | .guard (.setMask _) => true
  | _ => false

/-- Thread `t` reads the figures of service `s`, or is through with it. -/
def World.Reads (w : World) (t : ThreadId) (s : ServiceId) : Prop :=
  ∃ top below, w.codeOf t = top ++ (below ++ [.user]) ∧ top.all Instr.isLight = true ∧
    below <:+ (Call.stats s).code w t

/-- How much thread `t` has to do at most, if nobody asks it to stop: an instruction that is not light
may leave two light ones to do, and so may a stop signal. -/
def World.toDo (w : World) (t : ThreadId) : Nat :=
  ((w.codeOf t).map fun i => if i.isLight then 1 else 3).sum + if w.isPending t then 3 else 0

theorem toDo_of_light {new : List Instr} (h : new.all Instr.isLight = true) :
    (new.map fun i => if i.isLight then 1 else 3).sum = new.length := by
  induction new with
  | nil => rfl
  | cons i new ih =>
    rw [List.all_cons, Bool.and_eq_true] at h
    rw [List.map_cons, List.sum_cons, ih h.2, if_pos h.1, List.length_cons, Nat.add_comm]

theorem run_light (h : i.isLight = true) (hr : ∀ r, i.parkRecord? = some r → w.isRequested r = false) :
    (i.run t w).2 = [] := by
  cases i with
  | park k =>
    cases k with
    | check tests entry r =>
      cases tests with
      | nil => cases h
      | cons x rest =>
        cases x with
        | request =>
          have hr := hr r rfl
          simp [Instr.run, ParkInstr.run, passes, hr]
        | _ => cases h
    | _ => cases h
  | guard k => cases k <;> first | rfl | cases h
  | _ => cases h

/-- An instruction of the call itself. -/
theorem run_stats (h : i ∈ (Call.stats s).code w t) :
    i.isLight = false ∧ ((i.run t w).2).all Instr.isLight = true ∧ (i.run t w).2.length ≤ 2 := by
  simp only [Call.code, guarded, locked, List.cons_append, List.nil_append, List.mem_cons,
    List.not_mem_nil, or_false] at h
  obtain rfl | rfl | rfl | rfl | rfl | rfl | rfl | rfl | rfl | rfl | rfl | rfl := h
  case inl =>
    simp only [Instr.run, GuardInstr.run]
    split <;> simp [Instr.isLight]
  case inr.inr.inr.inr.inr.inr.inr.inr.inr.inr.inr =>
    simp only [Instr.run, GuardInstr.run, stopIfDue]
    repeat' split
    all_goals simp [Instr.isLight]
  all_goals
    simp only [Instr.run, ReadInstr.run, ReadInstr.consult]
    repeat' split
  all_goals exact ⟨rfl, rfl, Nat.zero_le _⟩

theorem handler_light : (w.handlerCode t ++ [Instr.guard (.setMask false)]).all Instr.isLight = true ∧
    (w.handlerCode t ++ [Instr.guard (.setMask false)]).length ≤ 2 := by
  rw [handlerCode_eq]
  split <;> exact ⟨rfl, by simp⟩

/-- A step that leaves no more than light instructions, and few enough, leaves less to do. -/
theorem toDo_proceed (hc : w.codeOf t = i :: rest) (hp : i ≠ .park .awaitSignal)
    (ha : i.addressee? = none) (hn : (w.remainder t i rest).all Instr.isLight = true)
    (hl : (w.remainder t i rest).length < if i.isLight then 1 else 3) :
    (w.proceed t i rest).toDo t < w.toDo t := by
  have hpend : (w.proceed t i rest).isPending t = w.isPending t := by
    have hs : (w.setCode t rest).isPending t = w.isPending t := ofThread_setCode fun _ _ => rfl
    rw [isPending_proceed, ← hs]
    rcases isPending_run (w := w.setCode t rest) i t t with h | ⟨h, -⟩ | ⟨-, s, r, h, -⟩
    · exact h
    · exact absurd h hp
    · cases ha.symm.trans h
  rw [toDo, toDo, hpend, codeOf_proceed hc, hc, List.map_append, List.sum_append, toDo_of_light hn,
    List.map_cons, List.sum_cons]
  omega

theorem isFree_of_not_held {l : Lock} (h : ∀ q, (l, q) ∉ w.held) : w.isFree l = true := by
  have hl : w.held.lookup l = none := by
    refine List.lookup_eq_none_iff.mpr fun x hx => bne_iff_ne.mpr ?_
    rintro rfl
    exact h x.2 hx
  rw [isFree, holder?, hl]
  rfl

/-- When the call takes a lock its thread has no other. -/
theorem fits_stats {below : List Instr} {l : Lock}
    (h : (.sync (.acquire l) :: below) <:+ (Call.stats s).code w t) :
    Fits [] (.sync (.acquire l) :: (below ++ [.user])) [.guard] ∧ ∀ r, l ≠ .park r := by
  simp only [Call.code, guarded, locked, List.cons_append, List.nil_append, List.suffix_cons_iff,
    List.cons.injEq, reduceCtorEq, Instr.sync.injEq, SyncInstr.acquire.injEq, false_and, false_or,
    List.suffix_nil, or_false] at h
  rcases h with ⟨rfl, rfl⟩ | ⟨rfl, rfl⟩ | ⟨rfl, rfl⟩
  all_goals
    refine ⟨?_, fun r h => by cases h⟩
    simp [Fits, Instr.Bears, Instr.closes, Instr.opens, Instr.isFree, SyncInstr.closes,
      SyncInstr.opens, GuardInstr.closes, GuardInstr.opens, ReadInstr.closes, ReadInstr.opens]

namespace World.Reads

variable (a : w.Reads t s)
include a

/-- What the thread has to do next, unless it is in code of its own. -/
theorem head (hc : w.codeOf t = i :: rest) (hu : i ≠ .user) :
    ∃ below, below <:+ (Call.stats s).code w t ∧
      ((∃ top, rest = top ++ (below ++ [.user]) ∧ i.isLight = true ∧ top.all Instr.isLight = true) ∨
        rest = below ++ [.user] ∧ (i :: below) <:+ (Call.stats s).code w t) := by
  obtain ⟨top, below, h, ht, hb⟩ := a
  rw [hc] at h
  cases top with
  | nil =>
    cases below with
    | nil => exact absurd (List.cons.inj h).1 hu
    | cons j below =>
      obtain ⟨rfl, rfl⟩ := List.cons.inj h
      exact ⟨below, (List.suffix_cons _ _).trans hb, .inr ⟨rfl, hb⟩⟩
  | cons j top =>
    obtain ⟨rfl, rfl⟩ := List.cons.inj h
    rw [List.all_cons, Bool.and_eq_true] at ht
    exact ⟨below, hb, .inl ⟨top, rfl, ht.1, ht.2⟩⟩

/-- One step of the call, or of the handler. -/
theorem proceed (hw : Reachable n w) (hq : ∀ r, w.ownerOf r = some t → w.isRequested r = false)
    (hc : w.codeOf t = i :: rest) (hu : i ≠ .user) :
    (w.proceed t i rest).Reads t s ∧ (w.proceed t i rest).toDo t < w.toDo t := by
  obtain ⟨below, hb, ⟨top, rfl, hi, ht⟩ | ⟨rfl, hib⟩⟩ := a.head hc hu
  · have hn : w.remainder t i (top ++ (below ++ [.user])) = [] := by
      refine run_light hi fun r hr => ?_
      exact hq r (hw.custody.parked (hc ▸ List.mem_cons_self) hr)
    refine ⟨⟨top, below, ?_, ht, hb⟩, toDo_proceed hc ?_ ?_ ?_ ?_⟩
    · rw [codeOf_proceed hc, hn]
      rfl
    · rintro rfl
      cases hi
    · cases i with
      | stop => cases hi
      | _ => rfl
    · rw [hn]
      rfl
    · rw [hn, if_pos hi]
      exact Nat.zero_lt_one
  · have hm : i ∈ (Call.stats s).code w t := hib.subset List.mem_cons_self
    obtain ⟨hi, hn, hl⟩ := run_stats (w := w.setCode t (below ++ [.user])) hm
    refine ⟨⟨_, below, codeOf_proceed hc, hn, hb⟩, toDo_proceed hc ?_ ?_ hn ?_⟩
    · rintro rfl
      simp [Call.code, guarded, locked] at hm
    · cases i with
      | stop => simp [Call.code, guarded, locked] at hm
      | _ => rfl
    · rw [if_neg (Bool.eq_false_iff.mp hi)]
      exact Nat.lt_succ_of_le hl

theorem of_handler {w' : World}
    (hc : w'.codeOf t = w.handlerCode t ++ [.guard (.setMask false)] ++ w.codeOf t) :
    w'.Reads t s := by
  obtain ⟨top, below, h, ht, hb⟩ := a
  refine ⟨w.handlerCode t ++ [.guard (.setMask false)] ++ top, below, ?_, ?_, hb⟩
  · rw [hc, h, List.append_assoc _ top]
  · rw [List.all_append, handler_light.1, ht]
    rfl

/-- The thread takes a stop signal. -/
theorem interrupt (h : w.canInterrupt t = true) :
    (w.step (.interrupt t)).Reads t s ∧ (w.step (.interrupt t)).toDo t < w.toDo t := by
  obtain ⟨hp, -, hne⟩ := canInterrupt_iff.mp h
  have hc : (w.step (.interrupt t)).codeOf t =
      w.handlerCode t ++ [.guard (.setMask false)] ++ w.codeOf t := by
    rcases (undisturbed_interrupt w t).signals t with ⟨-, -, hn⟩ | ⟨-, -, hc⟩
    · rw [hn rfl] at h
      cases h
    · have hx : (w.step (.interrupt t)).codeOf t = (w.interrupt t).codeOf t := rfl
      rw [hx]
      generalize (w.interrupt t).codeOf t = code at hc
      cases hc
      rfl
  have hpend : (w.step (.interrupt t)).isPending t = false := by
    simp [World.step, World.interrupt, h, isPending, push, ofThread_modThread, ofThread_const]
  refine ⟨a.of_handler hc, ?_⟩
  have hl := (handler_light (w := w) (t := t)).2
  rw [toDo, toDo, hpend, hp, hc, List.map_append, List.sum_append, toDo_of_light handler_light.1]
  simp only [Bool.false_eq_true, if_false, if_true]
  omega

theorem code_of_inUser (hu : w.inUser t = true) : w.codeOf t = [.user] := by
  obtain ⟨rest, hrest⟩ := head_user hu
  obtain ⟨top, below, hc, ht, hb⟩ := a
  rw [hrest] at hc ⊢
  cases top with
  | nil =>
    cases below with
    | nil => exact hc
    | cons j below =>
      obtain ⟨rfl, -⟩ := List.cons.inj hc
      have hm := hb.subset List.mem_cons_self
      simp [Call.code, guarded, locked] at hm
  | cons j top =>
    obtain ⟨rfl, -⟩ := List.cons.inj hc
    cases ht

/-- The thread makes the call. -/
theorem begin (hu : w.inUser t = true) : (w.step (.invoke t (.stats s))).Reads t s := by
  refine ⟨[], (Call.stats s).code w t, ?_, rfl, List.suffix_refl _⟩
  rw [(invoke_admitted hu rfl).1, a.code_of_inUser hu]
  rfl

/-- One event that is not the thread's own doing. -/
theorem step (hw : Reachable n w) (hq : ∀ r, w.ownerOf r = some t → w.isRequested r = false)
    (he : e.isBy t = false) : (w.step e).Reads t s := by
  have ht : t < w.threads.length := by
    obtain ⟨top, below, hc, -⟩ := a
    apply lt_of_codeOf
    rw [hc]
    simp
  rcases w.step_cases e with ⟨q, i, rest, -, hc, hr, hs⟩ | u
  · rw [hs]
    by_cases hqt : q = t
    · subst hqt
      refine (a.proceed hw hq hc ?_).1
      rintro rfl
      cases hr
    · obtain ⟨top, below, h⟩ := a
      exact ⟨top, below, by rwa [codeOf_proceed_of_ne hc (Ne.symm hqt) ht]⟩
  · rcases u.code t with hc | hc
    · obtain ⟨top, below, h, hb⟩ := a
      exact ⟨top, below, hc.trans h, hb⟩
    · generalize hcode : (w.step e).codeOf t = code at hc
      cases hc with
      | interrupt hi => exact a.of_handler hcode
      | invoke | finish => simp [Event.isBy] at he

/-- The thread need not wait where nobody else has a lock but the own park lock. -/
theorem isReady (k : Keeping w) (hf : ∀ q, q ≠ t → ∀ l, (l, q) ∈ w.held → ∃ r, l = .park r)
    (hc : w.codeOf t = i :: rest) (hu : i ≠ .user) : i.isReady w t = true := by
  obtain ⟨below, -, ⟨top, -, hi, -⟩ | ⟨rfl, hib⟩⟩ := a.head hc hu
  · cases i with
    | park j => cases j <;> first | rfl | cases hi
    | guard => rfl
    | _ => cases hi
  · by_cases hl : ∃ l, i = .sync (.acquire l)
    · obtain ⟨l, rfl⟩ := hl
      obtain ⟨hfit, hpark⟩ := fits_stats hib
      refine isFree_of_not_held fun q hm => ?_
      by_cases hqt : q = t
      · subst hqt
        obtain ⟨hs, hk⟩ := k.keeps q
        have hcode := hk.code
        rw [hc] at hcode
        obtain rfl := hfit.unique hcode
        rw [← mem_locksOf, hk.locks] at hm
        cases hm
      · obtain ⟨r, hr⟩ := hf q hqt l hm
        exact hpark r hr
    · have hm : i ∈ (Call.stats s).code w t := hib.subset List.mem_cons_self
      simp only [Call.code, guarded, locked, List.cons_append, List.nil_append, List.mem_cons,
        List.not_mem_nil, or_false] at hm
      obtain rfl | rfl | rfl | rfl | rfl | rfl | rfl | rfl | rfl | rfl | rfl | rfl := hm
      all_goals first | rfl | exact absurd ⟨_, rfl⟩ hl

/-- Unless the thread is in code of its own it can take a stop signal or go on, if nobody else has a lock
but the own park lock; then it has less to do. -/
theorem goes_on (hw : Reachable n w) (hq : ∀ r, w.ownerOf r = some t → w.isRequested r = false)
    (hf : ∀ q, q ≠ t → ∀ l, (l, q) ∈ w.held → ∃ r, l = .park r) (hu : w.inUser t ≠ true) :
    (w.step (.interrupt t)).toDo t < w.toDo t ∨
      w.ran (.advance t) = none ∧ (w.step (.advance t)).toDo t < w.toDo t := by
  by_cases hi : w.canInterrupt t = true
  · exact .inl (a.interrupt hi).2
  have hne : w.codeOf t ≠ [] := by
    obtain ⟨top, below, hc, -⟩ := a
    rw [hc]
    simp
  obtain ⟨i, rest, hc⟩ := List.exists_cons_of_ne_nil hne
  have hiu : i ≠ .user := by
    rintro rfl
    refine hu (inUser_iff.mpr ⟨by rw [hc]; rfl, fun hp => hi (canInterrupt_iff.mpr ⟨hp.1, hp.2, hne⟩)⟩)
  have hr := a.isReady hw.keeping hf hc hiu
  refine .inr ⟨?_, ?_⟩
  · rw [ran, head_eq, hc]
    obtain ⟨below, -, ⟨top, -, hl, -⟩ | ⟨-, hib⟩⟩ := a.head hc hiu
    · cases i with
      | pool => cases hl
      | _ => rfl
    · have hm := hib.subset List.mem_cons_self
      cases i with
      | pool => simp [Call.code, guarded, locked] at hm
      | _ => rfl
  · rw [step_of_code hc hr]
    exact (a.proceed hw hq hc hiu).2

end World.Reads

end Standstill
