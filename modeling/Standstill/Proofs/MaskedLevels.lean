import Standstill.Proofs.MemberLevels
import Standstill.Proofs.OpenGuards

/-!
The level of a thread and its signal mask, two copies of one fact under signals. The mask follows the
level into `blocking`, and out of it where a guard is closed or suspension is enabled again. A thread
that goes from `blocking` to another level in a different way takes the mask along.
-/
namespace Standstill

open World

variable {n : Nat} {w w' : World} {t t' : ThreadId} {s : ServiceId} {r b : RecordId} {l p : Level}
  {i j : Instr} {code rest : List Instr} {e : Event} {es : List Event} {m : Bool}

/-! The mask that a thread comes to when it has run what is left of the call at hand. -/

namespace Instr

/-- The instruction blocks the stop signal or lets it through. -/
def turnsMask : Instr → Bool
  | .guard (.mask _) | .guard (.unmask _) | .guard (.setMask _) => true
  | _ => false

/-- The mask after the instruction, if it is `m` before. -/
def maskAfter (w : World) (m : Bool) : Instr → Bool
  | .guard (.mask s) => m || w.mechanism s == .signal
  | .guard (.unmask s) => m && w.mechanism s != .signal
  | .guard (.setMask x) => x
  | _ => m

/-- The instruction leaves another to do that turns the mask. -/
def ordersMask : Instr → Bool
  | .guard (.raise ..) | .guard (.lower _) | .guard (.disable _) | .guard (.enable _)
  | .member (.exitRaise ..) | .park (.check [] (.call .signal) _) => true
  | _ => false

end Instr

/-- The stop signal will be blocked once thread `t` has run all of its code that turns the mask. -/
def World.comesToMask (w : World) (t : ThreadId) : Bool :=
  (w.codeOf t).foldl (Instr.maskAfter w) (w.isMasked t)

theorem maskAfter_of_not_turns (h : j.turnsMask = false) : j.maskAfter w m = m := by
  cases j with
  | guard g => cases g <;> first | rfl | cases h
  | _ => rfl

theorem foldl_maskAfter_of_not_turns (h : ∀ j ∈ code, j.turnsMask = false) :
    code.foldl (Instr.maskAfter w) m = m := by
  induction code with
  | nil => rfl
  | cons j code ih =>
    rw [List.foldl_cons, maskAfter_of_not_turns (h j List.mem_cons_self)]
    exact ih fun k hk => h k (List.mem_cons_of_mem _ hk)

theorem turnless_of_calm (h : ∀ j ∈ code, j.isUrgent = false) : ∀ j ∈ code, j.turnsMask = false := by
  intro j hj
  have hu := h j hj
  cases j with
  | guard g => cases g <;> first | rfl | cases hu
  | _ => rfl

/-- Under a call, and under the end of one, nothing turns the mask. -/
theorem foldl_maskAfter_of_calm (h : ∀ j ∈ code, j.isUrgent = false) :
    code.foldl (Instr.maskAfter w) m = m :=
  foldl_maskAfter_of_not_turns (turnless_of_calm h)

theorem foldl_maskAfter_congr
    (h : ∀ j ∈ code, ∀ s, j.service? = some s → w'.mechanism s = w.mechanism s) :
    code.foldl (Instr.maskAfter w') m = code.foldl (Instr.maskAfter w) m := by
  induction code generalizing m with
  | nil => rfl
  | cons j code ih =>
    have hj : j.maskAfter w' m = j.maskAfter w m := by
      cases j with
      | guard g =>
        cases g with
        | mask s | unmask s => simp only [Instr.maskAfter, h _ List.mem_cons_self s rfl]
        | _ => rfl
      | _ => rfl
    rw [List.foldl_cons, List.foldl_cons, hj]
    exact ih fun k hk => h k (List.mem_cons_of_mem _ hk)

theorem comesToMask_of_user (ho : Orderly (w.codeOf t)) (hu : w.inUser t = true) :
    w.comesToMask t = w.isMasked t := by
  obtain ⟨rest, hc⟩ := head_user hu
  rw [hc] at ho
  rw [comesToMask, hc, List.foldl_cons, foldl_maskAfter_of_calm (ho.calm rfl)]
  rfl

/-! What an instruction does to the mask at once, and what it leaves to do about it. -/

theorem isMasked_run (i : Instr) (hi : i.turnsMask = false)
    (hp : ∀ r, i ≠ .park (.check [] (.call .signal) r)) (ht : t < w.threads.length) :
    (i.run t w).1.isMasked t = w.isMasked t := by
  cases i with
  | user => rfl
  | sync i =>
    obtain ⟨_, _, he⟩ := i.run_fst (w := w) (t := t)
    rw [Instr.run, he]
    rfl
  | guard i =>
    have kept (f : Thread → Thread) (hf : ∀ x, (f x).masked = x.masked) :
        (w.modThread t f).isMasked t = w.isMasked t := by
      simp [isMasked, ofThread_modThread, hf]
    cases i with
    | mask | unmask | setMask => cases hi
    | setPhase => rfl
    | _ =>
      simp only [Instr.run, GuardInstr.run]
      split <;> first | exact kept _ fun _ => rfl | rfl
  | park i =>
    cases i with
    | check tests entry b =>
      rcases tests with _ | ⟨x, rest⟩
      · rcases entry with _ | how
        · rfl
        · cases how
          · exact absurd rfl (hp b)
          · rfl
      · rfl
    | _ => exact ParkInstr.isMasked_run _ rfl
  | stop i => exact i.ofThread_run (fun _ => rfl) fun _ _ => rfl
  | pool i => exact ofThread_congr i.core_run fun _ => rfl
  | member i => exact i.ofThread_run ht (fun _ => rfl) fun _ _ => rfl
  | read i => exact ofThread_congr i.core_run fun _ => rfl

theorem turnless_of_plain (h : code.all Instr.isPlain = true) : ∀ j ∈ code, j.turnsMask = false :=
  turnless_of_calm (calm_of_plain h)

theorem handlerCode_turnless : ∀ j ∈ w.handlerCode t, j.turnsMask = false := by
  intro j hj
  rw [handlerCode_eq] at hj
  split at hj
  · cases hj
  · rw [List.mem_singleton] at hj
    rw [hj]
    rfl

theorem ParkInstr.run_turnless (i : ParkInstr) (h : (Instr.park i).ordersMask = false) :
    ∀ j ∈ (i.run t w).2, j.turnsMask = false := by
  cases i with
  | check tests entry b =>
    rcases tests with _ | ⟨x, rest⟩
    · rcases entry with _ | how
      · simp [ParkInstr.run, Instr.turnsMask]
      · cases how
        · cases h
        · simp [ParkInstr.run, Instr.turnsMask]
    · simp only [ParkInstr.run]
      split <;> simp [Instr.turnsMask]
  | awaitSignal => exact handlerCode_turnless
  | testLevel p =>
    simp only [ParkInstr.run, Parking.sleepCode]
    split
    · split <;> simp [locked, Instr.turnsMask]
    · simp [Instr.turnsMask]
  | testRequest p | retestRequest r | retestLevel r =>
    simp only [ParkInstr.run]
    split <;> simp [Instr.turnsMask]
  | _ => simp [ParkInstr.run, Instr.turnsMask]

theorem MemberInstr.run_turnless (i : MemberInstr) (h : (Instr.member i).ordersMask = false) :
    ∀ j ∈ (i.run t w).2, j.turnsMask = false := by
  have hc : (i.run t w).2.all (!·.turnsMask) = true := by
    cases i with
    | exitRaise => cases h
    | _ =>
      simp only [MemberInstr.run]
      repeat' split
      all_goals rfl
  simpa using hc

/-- The mask is turned by code that guards leave, by the end of a thread and on the way into the
park loop. -/
theorem run_turnless (i : Instr) (h : i.ordersMask = false) :
    ∀ j ∈ (i.run t w).2, j.turnsMask = false := by
  cases i with
  | user => simp [Instr.run, Instr.turnsMask]
  | sync i =>
    cases i <;> simp [Instr.run, SyncInstr.run, Instr.turnsMask]
  | guard i =>
    cases i with
    | raise | lower | disable | enable => cases h
    | _ =>
      simp only [Instr.run, GuardInstr.run]
      repeat' split
      all_goals simp [Instr.turnsMask]
  | park i => exact i.run_turnless h
  | stop i => exact turnless_of_plain i.run_plain
  | pool i => exact turnless_of_plain i.run_plain
  | member i => exact i.run_turnless h
  | read i => exact turnless_of_plain i.run_plain

section Proceed

variable (hw : Lawful n w) (h : w.codeOf t = i :: rest)
include hw h

/-- The mask after a step: what the instruction makes of it, then its new code, then the rest. -/
theorem comesToMask_proceed : (w.proceed t i rest).comesToMask t =
    rest.foldl (Instr.maskAfter w) ((w.remainder t i rest).foldl
      (Instr.maskAfter (w.proceed t i rest)) ((i.run t (w.setCode t rest)).1.isMasked t)) := by
  rw [comesToMask, codeOf_proceed h, List.foldl_append, isMasked_proceed]
  refine foldl_maskAfter_congr fun j hj s hs => mechanism_proceed ?_
  exact hw.founded.placed (h ▸ List.mem_cons_of_mem _ hj) hs

/-- Most instructions leave a thread's mask, and the turns of it that are left to do, as they are. -/
theorem comesToMask_proceed_of_not_orders (hi : i.ordersMask = false) :
    (w.proceed t i rest).comesToMask t = w.comesToMask t := by
  have ht := lt_setCode h
  have hnew := run_turnless (w := w.setCode t rest) (t := t) i hi
  have hsame : (w.setCode t rest).isMasked t = w.isMasked t := isMasked_setCode
  rw [comesToMask_proceed hw h, remainder, foldl_maskAfter_of_not_turns hnew, comesToMask, h,
    List.foldl_cons]
  congr 1
  by_cases hk : i.turnsMask = true
  · have hmask (x : Bool) : ((w.setCode t rest).setMask t x).isMasked t = x := by
      simp [isMasked, World.setMask, ofThread_modThread, ofThread_const, ht]
    cases i with
    | guard g =>
      cases g with
      | setMask x => exact hmask x
      | mask s | unmask s =>
        simp only [Instr.run, GuardInstr.run, setMaskFor, Instr.maskAfter]
        have hm : (w.setCode t rest).mechanism s = w.mechanism s := rfl
        cases hs : w.mechanism s
        · rw [hm, hs]
          simp [hmask]
        · rw [hm, hs]
          simp [hsame]
      | _ => cases hk
    | _ => cases hk
  · have hk : i.turnsMask = false := by simpa using hk
    rw [isMasked_run i hk (fun r he => by subst he; cases hi) ht, hsame, maskAfter_of_not_turns hk]

/-- On the way into the park loop a thread blocks the signal, and is to undo that on the way out. -/
theorem comesToMask_proceed_park (hi : i = .park (.check [] (.call .signal) r)) :
    (w.proceed t i rest).comesToMask t = w.comesToMask t := by
  subst hi
  have ht := lt_setCode h
  have hsame : (w.setCode t rest).isMasked t = w.isMasked t := isMasked_setCode
  have hx : (w.setCode t rest).threads[t]? = some ((w.setCode t rest).threads[t]) :=
    List.getElem?_eq_getElem ht
  have hm : ((w.setCode t rest).threads[t]).masked = w.isMasked t := by
    rw [← hsame, isMasked, ofThread, hx]
  have hrem : w.remainder t (.park (.check [] (.call .signal) r)) rest =
      [.park (.save .signal r), .guard (.setMask (w.isMasked t))] := by
    simp only [remainder, Instr.run, ParkInstr.run, hx, hm]
  rw [comesToMask_proceed hw h, hrem, comesToMask, h]
  rfl

/-- What guards leave to do about the mask, where nothing below turns it. -/
theorem comesToMask_proceed_guard {g : GuardInstr} (hg : i = .guard g) (ho : i.ordersMask = true) :
    w.comesToMask t = w.isMasked t ∧ (w.proceed t i rest).comesToMask t =
      (w.remainder t i rest).foldl (Instr.maskAfter (w.proceed t i rest)) (w.isMasked t) := by
  subst hg
  have hn : (Instr.guard g).isNested = false ∧ (Instr.guard g).turnsMask = false := by
    cases g <;> first | exact ⟨rfl, rfl⟩ | cases ho
  have hcalm : ∀ j ∈ rest, j.isUrgent = false := by
    have hord := hw.reachable.orderly t
    rw [h] at hord
    exact hord.calm hn.1
  constructor
  · rw [comesToMask, h, List.foldl_cons, maskAfter_of_not_turns hn.2, foldl_maskAfter_of_calm hcalm]
  · rw [comesToMask_proceed hw h, foldl_maskAfter_of_calm hcalm,
      isMasked_run _ hn.2 (fun r he => by cases he) (lt_setCode h), isMasked_setCode]

end Proceed

/-! The level that the mask has to go with. -/

/-- Under signals the stop signal has to be blocked for thread `t`: its record is at `blocking`, or a
guard that it has open has found it there. -/
def World.isSheltered (w : World) (t : ThreadId) : Prop :=
  ∃ s r, w.selfIn t s = some r ∧ w.mechanism s = .signal ∧
    match w.guardOf? t with
    | some (_, level, previous) => level = .blocking ∨ previous = .blocking
    | none => w.levelOf r = .blocking

/-- Thread `t`, about to run the instruction, takes its record from `blocking` to another level, or
away, and leaves the mask as it is. -/
def Instr.slips (w : World) (t : ThreadId) : Instr → Prop
  | .guard (.disableFast s) | .guard (.enableFast s) =>
    ∃ r, w.selfIn t s = some r ∧ w.levelOf r = .blocking
  | .member (.detachRaise _ r) => w.bindingOf t = some r ∧ w.levelOf r = .blocking
  | .member (.bind _) => ∃ b, w.bindingOf t = some b ∧ w.levelOf b = .blocking
  | _ => False

/-- What a step does to the mask that a thread comes to, and to the need for it. -/
inductive Turn (w : World) (t : ThreadId) (i : Instr) (w' : World) : Prop
  | same (hm : w'.comesToMask t = w.comesToMask t) (hs : w'.isSheltered t ↔ w.isSheltered t)
  | up (hm : w'.comesToMask t = true) (hs : w'.isSheltered t)
  | down (hm : w'.comesToMask t = false) (hs : ¬w'.isSheltered t)
  | slip (hm : w'.comesToMask t = w.comesToMask t) (hs : ¬w'.isSheltered t) (hi : i.slips w t)
  | last (hu : .user ∉ w'.codeOf t)

section Shelter

/-- Only one service counts, that of the record that stands for the thread. -/
theorem isSheltered_iff (hs : w.selfIn t s = some r) : w.isSheltered t ↔
    w.mechanism s = .signal ∧
      match w.guardOf? t with
      | some (_, level, previous) => level = .blocking ∨ previous = .blocking
      | none => w.levelOf r = .blocking := by
  constructor
  · rintro ⟨s', r', hs', hm, hl⟩
    obtain ⟨hb, hh⟩ := selfIn_eq_some.mp hs
    obtain ⟨hb', hh'⟩ := selfIn_eq_some.mp hs'
    obtain rfl : r = r' := Option.some.inj (hb.symm.trans hb')
    obtain rfl : s = s' := Option.some.inj (hh.symm.trans hh')
    exact ⟨hm, hl⟩
  · rintro ⟨hm, hl⟩
    exact ⟨s, r, hs, hm, hl⟩

theorem isSheltered_of_unguarded (hg : w.guardOf? t = none) (hs : w.isSheltered t) :
    ∃ s r, w.selfIn t s = some r ∧ w.mechanism s = .signal ∧ w.levelOf r = .blocking := by
  obtain ⟨s, r, hr, hm, hl⟩ := hs
  rw [hg] at hl
  exact ⟨s, r, hr, hm, hl⟩

theorem not_isSheltered_of_unbound (hb : w.bindingOf t = none) : ¬w.isSheltered t := by
  rintro ⟨s, r, hs, -⟩
  rw [(selfIn_eq_some.mp hs).1] at hb
  cases hb

theorem isSheltered_congr (hs : ∀ s, w'.selfIn t s = w.selfIn t s)
    (hm : ∀ s r, w.selfIn t s = some r → w'.mechanism s = w.mechanism s)
    (hg : w'.guardOf? t = w.guardOf? t)
    (hl : ∀ s r, w.selfIn t s = some r → w'.levelOf r = w.levelOf r) :
    w'.isSheltered t ↔ w.isSheltered t := by
  constructor
  · rintro ⟨s, r, hr, hk, hv⟩
    rw [hs] at hr
    rw [hm s r hr] at hk
    rw [hg, hl s r hr] at hv
    exact ⟨s, r, hr, hk, hv⟩
  · rintro ⟨s, r, hr, hk, hv⟩
    refine ⟨s, r, (hs s).trans hr, (hm s r hr).trans hk, ?_⟩
    rw [hg, hl s r hr]
    exact hv

end Shelter

section Turn

variable (hw : Lawful n w) (h : w.codeOf t = i :: rest)

theorem selfIn_proceed_eq (c : Custody w)
    (hb : (w.proceed t i rest).bindingOf t' = w.bindingOf t') (s : ServiceId) :
    (w.proceed t i rest).selfIn t' s = w.selfIn t' s := by
  refine Option.ext fun r => ?_
  rw [selfIn_eq_some, selfIn_eq_some, hb]
  refine and_congr_right fun hr => ?_
  rw [homeOf_proceed (lt_of_ownerOf (c.bound hr))]

include hw

theorem mechanism_proceed_of_selfIn (hs : w.selfIn t' s = some r) :
    (w.proceed t i rest).mechanism s = w.mechanism s :=
  mechanism_proceed (hw.founded.homes (selfIn_eq_some.mp hs).2)

/-- A thread for which the same record stands, at the same level and under the same guard, needs the
mask no more and no less. -/
theorem isSheltered_proceed (hb : (w.proceed t i rest).bindingOf t' = w.bindingOf t')
    (hg : (w.proceed t i rest).guardOf? t' = w.guardOf? t')
    (hl : ∀ r, w.bindingOf t' = some r → (w.proceed t i rest).levelOf r = w.levelOf r) :
    (w.proceed t i rest).isSheltered t' ↔ w.isSheltered t' :=
  isSheltered_congr (selfIn_proceed_eq hw.reachable.custody hb)
    (fun _ _ hs => mechanism_proceed_of_selfIn hw hs) hg
    fun _ _ hs => hl _ (selfIn_eq_some.mp hs).1

include h

/-- An instruction that neither opens nor closes a guard turns the mask only if it changes the level
of the record that stands for its thread, or which record that is. -/
theorem turn_of_frame (hi : i.ordersMask = false ∨ ∃ r, i = .park (.check [] (.call .signal) r))
    (hb : (w.proceed t i rest).bindingOf t = w.bindingOf t)
    (hg : ∀ s l, i ≠ .guard (.raise s l)) (hg' : ∀ s, i ≠ .guard (.lower s))
    (hl : ∀ r, w.bindingOf t = some r → (w.proceed t i rest).levelOf r = w.levelOf r) :
    Turn w t i (w.proceed t i rest) := by
  refine .same ?_ ?_
  · rcases hi with hi | ⟨r, hi⟩
    · exact comesToMask_proceed_of_not_orders hw h hi
    · exact comesToMask_proceed_park hw h hi
  · exact isSheltered_proceed hw hb (guardOf_proceed hw.reachable.keeping h hg hg') hl

/-- An instruction that asks for the mask on condition `c`: with `c` met its thread needs the mask from
now on, and without it the need stays as it was. Under safepoints neither counts. -/
theorem turn_of_masking {g : GuardInstr} {c p p' : Prop} [Decidable c] (hi : i = .guard g)
    (ho : i.ordersMask = true) (hs : w.selfIn t s = some r)
    (hrem : w.remainder t i rest = if c then [.guard (.mask s)] else [])
    (hbefore : w.isSheltered t ↔ w.mechanism s = .signal ∧ p)
    (hafter : (w.proceed t i rest).isSheltered t ↔ w.mechanism s = .signal ∧ p')
    (hup : c → p') (hsame : ¬c → (p' ↔ p)) : Turn w t i (w.proceed t i rest) := by
  obtain ⟨hm, hm'⟩ := comesToMask_proceed_guard hw h hi ho
  rw [hrem] at hm'
  by_cases hc : c
  · rw [if_pos hc] at hm'
    simp only [List.foldl_cons, List.foldl_nil, Instr.maskAfter, mechanism_proceed_of_selfIn hw hs]
      at hm'
    cases hk : w.mechanism s with
    | signal => exact .up (by simp [hm', hk]) (hafter.mpr ⟨hk, hup hc⟩)
    | safepoint => exact .same (by simp [hm', hk, hm]) (by rw [hbefore, hafter, hk]; simp)
  · rw [if_neg hc] at hm'
    exact .same (hm'.trans hm.symm) (by rw [hbefore, hafter, hsame hc])

/-- An instruction that gives the mask back on condition `c`, after a look whether its thread has to
stop. -/
theorem turn_of_unmasking {g : GuardInstr} {c p p' : Prop} [Decidable c] (hi : i = .guard g)
    (ho : i.ordersMask = true) (hs : w.selfIn t s = some r)
    (hrem : w.remainder t i rest =
      stopIfDue (w.setCode t rest) s r :: if c then [.guard (.unmask s)] else [])
    (hbefore : w.isSheltered t ↔ w.mechanism s = .signal ∧ p)
    (hafter : (w.proceed t i rest).isSheltered t ↔ w.mechanism s = .signal ∧ p')
    (hdown : c → ¬p') (hsame : ¬c → (p' ↔ p)) : Turn w t i (w.proceed t i rest) := by
  obtain ⟨hm, hm'⟩ := comesToMask_proceed_guard hw h hi ho
  rw [hrem, List.foldl_cons] at hm'
  by_cases hc : c
  · rw [if_pos hc] at hm'
    simp only [List.foldl_cons, List.foldl_nil, stopIfDue, Instr.maskAfter,
      mechanism_proceed_of_selfIn hw hs] at hm'
    cases hk : w.mechanism s with
    | signal => exact .down (by simp [hm', hk]) fun hx => hdown hc (hafter.mp hx).2
    | safepoint => exact .same (by simp [hm', hk, hm]) (by rw [hbefore, hafter, hk]; simp)
  · rw [if_neg hc] at hm'
    exact .same (hm'.trans hm.symm) (by rw [hbefore, hafter, hsame hc])

/-- A guard instruction that finds nothing to do about the mask or the level. -/
theorem turn_of_idle {g : GuardInstr} (hi : i = .guard g)
    (hrem : w.remainder t i rest = [])
    (hg : (w.proceed t i rest).guardOf? t = w.guardOf? t)
    (hl : ∀ b, (g.run t (w.setCode t rest)).1.levelOf b = w.levelOf b) :
    Turn w t i (w.proceed t i rest) := by
  have hb : (w.proceed t i rest).bindingOf t = w.bindingOf t :=
    bindingOf_proceed_of_not_binder fun k hk => by subst hi; cases hk
  refine .same ?_ (isSheltered_proceed hw hb hg fun b _ => ?_)
  · by_cases ho : i.ordersMask = true
    · obtain ⟨hm, hm'⟩ := comesToMask_proceed_guard hw h hi ho
      rw [hm', hrem, hm]
      rfl
    · exact comesToMask_proceed_of_not_orders hw h (by simpa using ho)
  · subst hi
    exact hl b

theorem turn_raise (hi : i = .guard (.raise s l)) : Turn w t i (w.proceed t i rest) := by
  have hb : (w.proceed t i rest).bindingOf t = w.bindingOf t :=
    bindingOf_proceed_of_not_binder fun k hk => by subst hi; cases hk
  have hself := selfIn_proceed_eq hw.reachable.custody hb
  have hopen := hw.reachable.keeping.unguarded h (by subst hi; rfl) (by subst hi; rfl)
  rcases hs : w.selfIn t s with _ | r
  · -- the guard is around a thread that the service does not know
    refine turn_of_idle hw h hi ?_ (guardOf_proceed_raise_none h hi hs) fun b => ?_
    · subst hi
      simp only [remainder, Instr.run, GuardInstr.run, selfIn_setCode, hs]
    · simp only [GuardInstr.run, selfIn_setCode, hs]
      rfl
  · have hbefore := isSheltered_iff hs
    have hafter := isSheltered_iff ((hself s).trans hs)
    rw [hopen] at hbefore
    rw [guardOf_proceed_raise h hi hs, mechanism_proceed_of_selfIn hw hs] at hafter
    refine turn_of_masking (c := l = .blocking ∧ w.levelOf r ≠ .blocking) hw h hi (by subst hi; rfl)
      hs ?_ hbefore hafter (fun hc => .inl hc.1) fun hc => ⟨?_, .inr⟩
    · subst hi
      simp only [remainder, Instr.run, GuardInstr.run, selfIn_setCode, hs]
      rfl
    · rintro (hl | hp)
      · exact not_not.mp fun hp => hc ⟨hl, hp⟩
      · exact hp

theorem turn_lower (hi : i = .guard (.lower s)) : Turn w t i (w.proceed t i rest) := by
  have k := hw.reachable.keeping
  have hb : (w.proceed t i rest).bindingOf t = w.bindingOf t :=
    bindingOf_proceed_of_not_binder fun k hk => by subst hi; cases hk
  have hclosed := guardOf_proceed_lower k h hi
  obtain ⟨x, ⟨hx, hg⟩, -⟩ := k.guardOf_of_lower (hi ▸ h)
  have hx' : (w.setCode t rest).innermost? t = some x := by
    rw [innermost_eq, scopesOf_setCode, ← innermost_eq, hx]
  cases hgx : x.guard? with
  | none =>
    -- a guard around a thread that the service does not know: nothing is restored
    have hrun : (GuardInstr.lower s).run t (w.setCode t rest) =
        ((w.setCode t rest).closeScope t, []) := by
      simp only [GuardInstr.run, hx']
      cases x with
      | guard o level previous =>
        cases o with
        | none => rfl
        | some r => cases hgx
      | phase => rfl
    refine turn_of_idle hw h hi ?_ (by rw [hclosed, hg, hgx]) fun b => by rw [hrun]; rfl
    subst hi
    exact congrArg Prod.snd hrun
  | some g =>
    obtain ⟨r, level, previous⟩ := g
    have hs : w.selfIn t s = some r := selfIn_of_lower hw.reachable (hi ▸ h) (hg.trans hgx)
    have hr : r < w.records.length := lt_of_homeOf (selfIn_eq_some.mp hs).2
    have hrun : (GuardInstr.lower s).run t (w.setCode t rest) =
        (((w.setCode t rest).setLevel r previous).closeScope t, stopIfDue (w.setCode t rest) s r ::
          if level = .blocking ∧ previous ≠ .blocking then [.guard (.unmask s)] else []) := by
      simp only [GuardInstr.run, hx']
      cases x with
      | guard o a b =>
        cases o with
        | none => cases hgx
        | some c =>
          cases hgx
          rfl
      | phase => cases hgx
    have hlevel : (w.proceed t i rest).levelOf r = previous := by
      subst hi
      have hl : (w.proceed t (.guard (.lower s)) rest).levelOf r =
          ((GuardInstr.lower s).run t (w.setCode t rest)).1.levelOf r := rfl
      rw [hl, hrun]
      exact (levelOf_setLevel previous).trans (if_pos hr)
    have hbefore := isSheltered_iff hs
    have hafter := isSheltered_iff ((selfIn_proceed_eq hw.reachable.custody hb s).trans hs)
    rw [hg, hgx] at hbefore
    rw [hclosed, hlevel, mechanism_proceed_of_selfIn hw hs] at hafter
    refine turn_of_unmasking (c := level = .blocking ∧ previous ≠ .blocking) hw h hi
      (by subst hi; rfl) hs ?_ hbefore hafter (fun hc => hc.2) fun hc => ⟨.inr, ?_⟩
    · subst hi
      exact congrArg Prod.snd hrun
    · rintro (hl | hp)
      · exact not_not.mp fun hp => hc ⟨hl, hp⟩
      · exact hp

/-- Where no guard is open before or after, only the level itself counts. -/
theorem isSheltered_unguarded (hb : (w.proceed t i rest).bindingOf t = w.bindingOf t)
    (hs : w.selfIn t s = some r) (hf : i.isFree = false)
    (hc : i.closes.filterMap Hold.scope? = []) (hg : ∀ s l, i ≠ .guard (.raise s l)) :
    (w.isSheltered t ↔ w.mechanism s = .signal ∧ w.levelOf r = .blocking) ∧
      ((w.proceed t i rest).isSheltered t ↔
        w.mechanism s = .signal ∧ (w.proceed t i rest).levelOf r = .blocking) := by
  have k := hw.reachable.keeping
  have hopen := k.unguarded h hf hc
  have hopen' : (w.proceed t i rest).guardOf? t = none := by
    rw [guardOf_proceed k h hg fun s hi => by subst hi; cases hc]
    exact hopen
  have hs' := (selfIn_proceed_eq hw.reachable.custody hb s).trans hs
  have hiff := isSheltered_iff hs
  have hiff' := isSheltered_iff hs'
  rw [hopen] at hiff
  rw [hopen', mechanism_proceed_of_selfIn hw hs] at hiff'
  exact ⟨hiff, hiff'⟩

/-- The four calls by which a thread sets its own level. -/
inductive SetsLevel : GuardInstr → ServiceId → Level → Prop
  | disable (s : ServiceId) : SetsLevel (.disable s) s .blocking
  | enable (s : ServiceId) : SetsLevel (.enable s) s .noBlock
  | disableFast (s : ServiceId) : SetsLevel (.disableFast s) s .critical
  | enableFast (s : ServiceId) : SetsLevel (.enableFast s) s .noBlock

omit hw h in
theorem levelOf_proceed_set {g : GuardInstr} (hg : SetsLevel g s l) (hs : w.selfIn t s = some r) :
    (w.proceed t (.guard g) rest).levelOf r = l := by
  have hr : r < (w.setCode t rest).records.length := lt_of_homeOf (selfIn_eq_some.mp hs).2
  have hl : (w.proceed t (.guard g) rest).levelOf r = (g.run t (w.setCode t rest)).1.levelOf r := rfl
  have hrun : (g.run t (w.setCode t rest)).1 = (w.setCode t rest).setLevel r l := by
    cases hg <;> simp only [GuardInstr.run, selfIn_setCode, hs]
  rw [hl, hrun]
  exact (levelOf_setLevel l).trans (if_pos hr)

theorem turn_set {g : GuardInstr} (hi : i = .guard g) (hg : SetsLevel g s l) :
    Turn w t i (w.proceed t i rest) := by
  have hraise : ∀ s l, i ≠ .guard (.raise s l) := by
    intro s l hk
    subst hi
    cases hk
    cases hg
  rcases hs : w.selfIn t s with _ | r
  · -- the call fails
    refine turn_of_idle hw h hi ?_ ?_ fun b => ?_
    · subst hi
      cases hg <;> simp only [remainder, Instr.run, GuardInstr.run, selfIn_setCode, hs]
    · refine guardOf_proceed hw.reachable.keeping h hraise fun s hk => ?_
      subst hi
      cases hk
      cases hg
    · cases hg <;> simp only [GuardInstr.run, selfIn_setCode, hs] <;> rfl
  · have hb : (w.proceed t i rest).bindingOf t = w.bindingOf t :=
      bindingOf_proceed_of_not_binder fun k hk => by subst hi; cases hk
    obtain ⟨hbefore, hafter⟩ := isSheltered_unguarded hw h hb hs (by subst hi; cases hg <;> rfl)
      (by subst hi; cases hg <;> rfl) hraise
    rw [show (w.proceed t i rest).levelOf r = l from hi ▸ levelOf_proceed_set hg hs] at hafter
    have hself : (w.setCode t rest).selfIn t s = some r := selfIn_setCode.trans hs
    have hsame : (w.setCode t rest).levelOf r = w.levelOf r := rfl
    cases hg with
    | disable =>
      refine turn_of_masking (c := w.levelOf r ≠ .blocking) hw h hi (by subst hi; rfl) hs ?_ hbefore
        hafter (fun _ => rfl) fun hc => iff_of_true rfl (not_not.mp hc)
      subst hi
      simp only [remainder, Instr.run, GuardInstr.run, hself, hsame, ne_eq, ite_not]
    | enable =>
      refine turn_of_unmasking (c := w.levelOf r = .blocking) hw h hi (by subst hi; rfl) hs ?_ hbefore
        hafter (fun _ h => by cases h) fun hc => iff_of_false (fun h => by cases h) hc
      subst hi
      simp only [remainder, Instr.run, GuardInstr.run, hself, hsame]
    | disableFast | enableFast =>
      have hm := comesToMask_proceed_of_not_orders hw h (by subst hi; rfl)
      by_cases hv : w.levelOf r = .blocking
      · refine .slip hm (fun hs => ?_) (by subst hi; exact ⟨r, hs, hv⟩)
        cases (hafter.mp hs).2
      · exact .same hm (by rw [hbefore, hafter]; simp [hv])

omit hw h in
theorem levelOf_setLevel_eq (hr : r < w.records.length) : (w.setLevel r l).levelOf r = l :=
  (levelOf_setLevel l).trans (if_pos hr)

theorem turn_detachRaise (hi : i = .member (.detachRaise s r)) :
    Turn w t i (w.proceed t i rest) := by
  have c := hw.reachable.custody
  have hb : (w.proceed t i rest).bindingOf t = w.bindingOf t :=
    bindingOf_proceed_of_not_binder fun k hk => by subst hi; cases hk; rfl
  have hl (b : RecordId) : (w.proceed t i rest).levelOf b =
      ((w.setCode t rest).setLevel r .critical).levelOf b := by
    subst hi
    rfl
  -- the level counts for the mask only where it is that of the thread's own record
  by_cases hbr : w.bindingOf t = some r
  · have hlt := lt_of_ownerOf (c.bound hbr)
    obtain ⟨s', hh⟩ := Option.isSome_iff_exists.mp (homeOf_isSome.mpr hlt)
    have hs := selfIn_eq_some.mpr ⟨hbr, hh⟩
    obtain ⟨hiff, hiff'⟩ := isSheltered_unguarded hw h hb hs (by subst hi; rfl)
      (by subst hi; rfl) fun _ _ hk => by subst hi; cases hk
    have hm := comesToMask_proceed_of_not_orders hw h (by subst hi; rfl)
    have hn' : ¬(w.proceed t i rest).isSheltered t := by
      intro hx
      have hv := (hiff'.mp hx).2
      rw [hl] at hv
      cases (levelOf_setLevel_eq hlt).symm.trans hv
    by_cases hv : w.levelOf r = .blocking
    -- the raise ends the shelter, but not the mask
    · exact .slip hm hn' (by subst hi; exact ⟨hbr, hv⟩)
    · exact .same hm (iff_of_false hn' fun hx => hv (hiff.mp hx).2)
  · refine turn_of_frame hw h (Or.inl (by subst hi; rfl)) hb (fun _ _ hk => by subst hi; cases hk)
      (fun _ hk => by subst hi; cases hk) fun b hbb => ?_
    rw [hl]
    exact levelOf_setLevel_of_ne _ fun he => hbr (he ▸ hbb)

/-- The level that a thread puts back after it has left a service is that of a record which does not
stand for it any more. -/
theorem turn_setLevel (hi : i = .member (.setLevel r l)) : Turn w t i (w.proceed t i rest) := by
  have hn : w.bindingOf t ≠ some r := by
    intro hb
    have hlt := lt_of_ownerOf (hw.reachable.custody.bound hb)
    obtain ⟨s, hh⟩ := Option.isSome_iff_exists.mp (homeOf_isSome.mpr hlt)
    have hmem : i ∈ w.codeOf t := h ▸ List.mem_cons_self
    have hout : r ∉ w.members s := hw.enrolled.outside hmem (by subst hi; rfl)
    have hsealed := hw.reachable.sealed t
    rw [h] at hsealed
    -- nothing that joins or leaves a service comes after the level is put back
    have below {j : Instr} (hj : j ∈ w.codeOf t) (hne : j ≠ i) (hl : j.lets i = false) : False := by
      rw [h] at hj
      rcases List.mem_cons.mp hj with he | hj
      · exact hne he
      · rw [hsealed.lets hj] at hl
        cases hl
    rcases hw.bound.bound hb hh with g | hu
    · rcases g.place with hm | hm | hm
      · exact hout hm
      · exact below hm (by subst hi; exact fun he => by cases he) (by subst hi; rfl)
      · exact below hm (by subst hi; exact fun he => by cases he) (by subst hi; rfl)
    · exact below hu (by subst hi; exact fun he => by cases he) (by subst hi; rfl)
  have hb : (w.proceed t i rest).bindingOf t = w.bindingOf t :=
    bindingOf_proceed_of_not_binder fun k hk => by subst hi; cases hk; rfl
  refine turn_of_frame hw h (Or.inl (by subst hi; rfl)) hb (fun _ _ hk => by subst hi; cases hk)
    (fun _ hk => by subst hi; cases hk) fun b hbb => ?_
  subst hi
  exact levelOf_setLevel_of_ne (w := w.setCode t rest) l fun he => hn (he ▸ hbb)

/-- Without a guard a thread needs the mask only if its record is at `blocking`. -/
theorem not_isSheltered_of_level (hf : i.isFree = false) (hc : i.closes.filterMap Hold.scope? = [])
    (hl : ∀ b, w.bindingOf t = some b → w.levelOf b ≠ .blocking) : ¬w.isSheltered t := by
  intro hs
  obtain ⟨s, b, hb, -, hv⟩ :=
    isSheltered_of_unguarded (hw.reachable.keeping.unguarded h hf hc) hs
  exact hl b (selfIn_eq_some.mp hb).1 hv

/-- A record is at `noBlock` when it comes to stand for a thread. -/
theorem turn_bind (hi : i = .member (.bind r)) : Turn w t i (w.proceed t i rest) := by
  have k := hw.reachable.keeping
  have hm := comesToMask_proceed_of_not_orders hw h (by subst hi; rfl)
  have hopen := k.unguarded h (by subst hi; rfl) (by subst hi; rfl)
  have hn' : ¬(w.proceed t i rest).isSheltered t := by
    intro hs
    have hopen' : (w.proceed t i rest).guardOf? t = none := by
      rw [guardOf_proceed k h (fun _ _ hk => by subst hi; cases hk) fun _ hk => by subst hi; cases hk]
      exact hopen
    obtain ⟨s, b, hb, -, hv⟩ := isSheltered_of_unguarded hopen' hs
    subst hi
    have hbr := (bindingOf_proceed_bind (lt_of_head h)).symm.trans (selfIn_eq_some.mp hb).1
    obtain rfl := Option.some.inj hbr
    have hfresh : w.levelOf r = .noBlock := hw.levelled.fresh (h ▸ List.mem_cons_self) rfl
    cases hfresh.symm.trans hv
  by_cases hx : ∃ b, w.bindingOf t = some b ∧ w.levelOf b = .blocking
  -- the record that the thread had was at `blocking`, the new one is not: the shelter goes and the
  -- mask stays
  · exact .slip hm hn' (by subst hi; exact hx)
  · have hn : ¬w.isSheltered t :=
      not_isSheltered_of_level hw h (by subst hi; rfl) (by subst hi; rfl)
        fun b hb hv => hx ⟨b, hb, hv⟩
    exact .same hm (iff_of_false hn' hn)

/-- A thread that gives up the record that stands for it and goes on with its own code has it at
another level than `blocking`. -/
theorem turn_unbind {k : Handle} (hi : i = .member (.unbind k)) (hx : .user ∈ rest) :
    Turn w t i (w.proceed t i rest) := by
  have hm := comesToMask_proceed_of_not_orders hw h (by subst hi; rfl)
  have hmem : .member (.unbind k) ∈ w.codeOf t := hi ▸ h ▸ List.mem_cons_self
  obtain ⟨r, hk, -, -⟩ := hw.enrolled.parted hmem
  by_cases hb : w.bindingOf t = some r
  · have hlt := lt_of_ownerOf (hw.reachable.custody.bound hb)
    have hnone : (w.proceed t i rest).bindingOf t = none := by
      subst hi
      exact bindingOf_proceed_unbind hb (hk ▸ hw.reachable.handleOf hlt)
    have hn : ¬w.isSheltered t := by
      refine not_isSheltered_of_level hw h (by subst hi; rfl) (by subst hi; rfl) fun b hbb => ?_
      obtain rfl := Option.some.inj (hb.symm.trans hbb)
      exact hw.levelled.left (hk ▸ hmem) (h ▸ List.mem_cons_of_mem _ hx)
    exact .same hm (iff_of_false (not_isSheltered_of_unbound hnone) hn)
  · -- the record given up is one that has ceased to stand for the thread before
    have hb' : (w.proceed t i rest).bindingOf t = w.bindingOf t := by
      rcases hbb : w.bindingOf t with _ | b
      · rcases bindingOf_proceed w t t i rest with hs | ⟨-, hs⟩
        · rw [hs, hbb]
        · refine Option.eq_none_iff_forall_ne_some.mpr fun b he => ?_
          have hbind := hs b he
          subst hi
          cases hbind
      · refine bindingOf_proceed_of_some hbb (lt_of_head h) (fun _ _ he => by subst hi; cases he) ?_
        intro k' _ he hh
        subst hi
        cases he
        rw [hw.reachable.handleOf (lt_of_ownerOf (hw.reachable.custody.bound hbb)), hk] at hh
        exact hb (hbb.trans (congrArg some (Nat.succ.inj (Option.some.inj hh))))
    refine turn_of_frame hw h (Or.inl (by subst hi; rfl)) hb' (fun _ _ hk => by subst hi; cases hk)
      (fun _ hk => by subst hi; cases hk) fun b _ => ?_
    exact levelOf_proceed_of_steady (by subst hi; rfl)

/-- What one step of a thread does to its mask and to the need for it. -/
theorem turn_proceed (hu : i.isReady w t = true) : Turn w t i (w.proceed t i rest) := by
  by_cases hx : .user ∈ rest
  swap
  · exact .last fun hx' => hx (user_of_proceed h hu hx')
  by_cases hst : i.isSteady = true
  · by_cases hub : ∃ k, i = .member (.unbind k)
    · obtain ⟨k, hi⟩ := hub
      exact turn_unbind hw h hi hx
    · have hmask : i.ordersMask = false ∨ ∃ r, i = .park (.check [] (.call .signal) r) := by
        cases i with
        | guard g => cases g <;> first | exact Or.inl rfl | cases hst
        | member m => cases m <;> first | exact Or.inl rfl | cases hst
        | park p =>
          cases p with
          | check tests entry b =>
            rcases tests with _ | _
            · rcases entry with _ | how
              · exact Or.inl rfl
              · cases how
                · exact Or.inr ⟨b, rfl⟩
                · exact Or.inl rfl
            · exact Or.inl rfl
          | _ => exact Or.inl rfl
        | _ => exact Or.inl rfl
      refine turn_of_frame hw h hmask (bindingOf_proceed_of_not_binder ?_)
        (fun _ _ hk => by subst hk; cases hst) (fun _ hk => by subst hk; cases hst)
        fun _ _ => levelOf_proceed_of_steady hst
      intro m hm
      subst hm
      cases m with
      | unbind k => exact absurd ⟨k, rfl⟩ hub
      | bind => cases hst
      | _ => rfl
  · cases i with
    | guard g =>
      cases g with
      | raise s l => exact turn_raise hw h rfl
      | lower s => exact turn_lower hw h rfl
      | disable s => exact turn_set hw h rfl (.disable s)
      | enable s => exact turn_set hw h rfl (.enable s)
      | disableFast s => exact turn_set hw h rfl (.disableFast s)
      | enableFast s => exact turn_set hw h rfl (.enableFast s)
      | unmask s =>
        refine turn_of_frame hw h (Or.inl rfl)
          (bindingOf_proceed_of_not_binder fun _ hk => by cases hk)
          (fun _ _ hk => by cases hk) (fun _ hk => by cases hk) fun b _ => ?_
        have hl : (w.proceed t (.guard (.unmask s)) rest).levelOf b =
            ((GuardInstr.unmask s).run t (w.setCode t rest)).1.levelOf b := rfl
        rw [hl, GuardInstr.run, setMaskFor]
        split <;> rfl
      | _ => exact absurd rfl hst
    | member m =>
      cases m with
      | bind r => exact turn_bind hw h rfl
      | detachRaise s r => exact turn_detachRaise hw h rfl
      | setLevel r l => exact turn_setLevel hw h rfl
      | exitRaise s r =>
        -- a thread that leaves for good has no code of its own left
        have hsealed := hw.reachable.sealed t
        rw [h] at hsealed
        rw [hsealed.of_exitRaise] at hx
        cases hx
      | _ => exact absurd rfl hst
    | _ => exact absurd rfl hst

/-- A thread's mask and its need for it are its own affair. -/
theorem turn_proceed_of_ne (ht : t' ≠ t) (hlt : t' < w.threads.length) :
    (w.proceed t i rest).comesToMask t' = w.comesToMask t' ∧
      ((w.proceed t i rest).isSheltered t' ↔ w.isSheltered t') := by
  have c := hw.reachable.custody
  have hb : (w.proceed t i rest).bindingOf t' = w.bindingOf t' := by
    rcases bindingOf_proceed w t t' i rest with hb | ⟨he, -⟩
    · exact hb
    · exact absurd he ht
  have hmask : (w.proceed t i rest).isMasked t' = w.isMasked t' := by
    rw [isMasked_proceed, isMasked_run_of_ne i ht (by rwa [threads_length_setCode]), isMasked_setCode]
  constructor
  · rw [comesToMask, codeOf_proceed_of_ne h ht hlt, hmask, comesToMask]
    exact foldl_maskAfter_congr fun j hj s hs => mechanism_proceed (hw.founded.placed hj hs)
  · refine isSheltered_proceed hw hb ?_ fun r hr => ?_
    · rw [guardOf?, scopesOf_proceed_of_ne ht, guardOf?]
    · refine levelOf_proceed_of_ne c (hw.reachable.orderly t) h fun o ho he => ht ?_
      exact Option.some.inj ((c.bound hr).symm.trans (he ▸ ho))

end Turn

theorem Call.code_turnless (c : Call) : ∀ j ∈ c.code w t, j.turnsMask = false := by
  rcases c.code_plain (w := w) (t := t) with hp | ⟨s, r, -, -, hc⟩
  · exact turnless_of_plain hp
  · intro j hj
    rw [hc, List.mem_singleton] at hj
    rw [hj]
    rfl

/-- A handler that runs on top blocks the signal and lets it through again at its end; calls, and the
end of a thread, have nothing to do with the mask. -/
theorem comesToMask_undisturbed (ho : Orderly (w.codeOf t)) (u : Undisturbed w e w') :
    w'.comesToMask t = w.comesToMask t := by
  have hcongr (code : List Instr) (m : Bool) :
      code.foldl (Instr.maskAfter w') m = code.foldl (Instr.maskAfter w) m :=
    foldl_maskAfter_congr fun _ _ _ _ => mechanism_of_services_eq u.services
  rw [comesToMask, hcongr, comesToMask]
  have taken (hc : Takes w t e (w'.codeOf t)) (hk : w'.isMasked t = w.isMasked t ∨
      w.canInterrupt t = true ∧ w'.isMasked t = true)
      (hi : e = .interrupt t → w.canInterrupt t = true → w'.isMasked t = true) :
      (w'.codeOf t).foldl (Instr.maskAfter w) (w'.isMasked t) =
        (w.codeOf t).foldl (Instr.maskAfter w) (w.isMasked t) := by
    -- in its own code a thread is not interrupted, so the mask stays
    have same (hu : w.inUser t = true) : w'.isMasked t = w.isMasked t := by
      rcases hk with hk | ⟨hk, -⟩
      · exact hk
      · obtain ⟨hp, hm, -⟩ := canInterrupt_iff.mp hk
        exact absurd ⟨hp, hm⟩ (inUser_iff.mp hu).2
    generalize w'.codeOf t = code at hc ⊢
    cases hc with
    | interrupt h =>
      rw [hi rfl h, List.foldl_append, List.foldl_append,
        foldl_maskAfter_of_not_turns handlerCode_turnless, (canInterrupt_iff.mp h).2.1]
      rfl
    | invoke c h =>
      rw [same h, List.foldl_append, foldl_maskAfter_of_not_turns c.code_turnless]
    | finish panicked h =>
      obtain ⟨rest, hr⟩ := head_user h
      rw [hr] at ho
      have hcalm := ho.calm rfl
      rw [same h, hr, List.tail_cons, List.foldl_cons, foldl_maskAfter_of_calm hcalm,
        foldl_maskAfter_of_calm (calm_epilogue hcalm)]
      rfl
  rcases u.signals t with ⟨-, hm, hi⟩ | ⟨hi, hm, hc⟩
  · rcases u.code t with hc | hc
    · rw [hc, hm]
    · exact taken hc (Or.inl hm) fun he h => absurd h (Bool.eq_false_iff.mp (hi he))
  · exact taken hc (Or.inr ⟨hi, hm⟩) fun _ _ => hm

theorem isSheltered_undisturbed (u : Undisturbed w e w') :
    w'.isSheltered t ↔ w.isSheltered t :=
  isSheltered_congr (fun _ => u.selfIn) (fun _ _ _ => mechanism_of_services_eq u.services)
    (guardOf_undisturbed u) fun _ _ _ => u.ofRecord

/-- A thread that has code of its own left and needs the mask comes to it. -/
theorem Lawful.comesToMask (hw : Lawful n w) (hx : .user ∈ w.codeOf t) (hs : w.isSheltered t) :
    w.comesToMask t = true := by
  revert t
  refine hw.induct (P := fun w => ∀ {t}, .user ∈ w.codeOf t → w.isSheltered t →
    w.comesToMask t = true) ?_ ?_
  · intro t _ hs
    exact absurd hs (not_isSheltered_of_unbound (bindingOf_initial n t))
  · intro w e hw _ d t' hx hs
    rcases w.step_cases e with ⟨t, i, rest, _, h, hu, he⟩ | u
    · rw [he] at hx hs ⊢
      by_cases ht : t' = t
      · subst ht
        have hx' : .user ∈ w.codeOf t' := h ▸ List.mem_cons_of_mem _ (user_of_proceed h hu hx)
        cases turn_proceed hw h hu with
        | same hm hiff => rw [hm]; exact d hx' (hiff.mp hs)
        | up hm _ => exact hm
        | down _ hn => exact absurd hs hn
        | slip _ hn _ => exact absurd hs hn
        | last hn => exact absurd hx hn
      · by_cases hlt : t' < w.threads.length
        · obtain ⟨hm, hiff⟩ := turn_proceed_of_ne hw h ht hlt
          rw [codeOf_proceed_of_ne h ht hlt] at hx
          rw [hm]
          exact d hx (hiff.mp hs)
        · -- no record stands for a thread that has just been started
          have hnone : w.bindingOf t' = none := ofThread_of_le _ _ (Nat.le_of_not_lt hlt)
          have hnone' : (w.proceed t i rest).bindingOf t' = none := by
            rcases bindingOf_proceed w t t' i rest with hb | ⟨he, -⟩
            · rw [hb, hnone]
            · exact absurd he ht
          exact absurd hs (not_isSheltered_of_unbound hnone')
    · rw [comesToMask_undisturbed (hw.reachable.orderly t') u]
      exact d (user_of_undisturbed u hx) ((isSheltered_undisturbed u).mp hs)

/-! The mask that a thread takes along. -/

/-- Thread `t` lets the stop signal through again. -/
def World.unmasks (w : World) (t : ThreadId) (e : Event) : Prop :=
  e = .advance t ∧ ∃ s rest, w.codeOf t = .guard (.unmask s) :: rest ∧ w.mechanism s = .signal

/-- In the run `es` thread `t` takes its mask along from level `blocking` to another, or away from the
service, and does not let the signal through from then on. -/
def World.takesMask (w : World) (t : ThreadId) (es : List Event) : Prop :=
  ∃ es₁ es₂, es = es₁ ++ .advance t :: es₂ ∧
    (∃ i rest, (w.run es₁).codeOf t = i :: rest ∧ i.slips (w.run es₁) t) ∧
    (w.run (es₁ ++ [.advance t])).Along (fun w e => ¬w.unmasks t e) es₂

theorem takesMask_cons (h : (w.step e).takesMask t es) : w.takesMask t (e :: es) := by
  obtain ⟨es₁, es₂, rfl, hs, ha⟩ := h
  exact ⟨e :: es₁, es₂, rfl, hs, ha⟩

theorem user_of_step (ht : t < w.threads.length) (hx : .user ∈ (w.step e).codeOf t) :
    .user ∈ w.codeOf t := by
  rcases w.step_cases e with ⟨t', i, rest, _, h, hu, he⟩ | u
  · rw [he] at hx
    by_cases hne : t = t'
    · subst hne
      exact h ▸ List.mem_cons_of_mem _ (user_of_proceed h hu hx)
    · rwa [codeOf_proceed_of_ne h hne ht] at hx
  · exact user_of_undisturbed u hx

theorem user_of_run (ht : t < w.threads.length) (hx : .user ∈ (w.run es).codeOf t) :
    .user ∈ w.codeOf t := by
  induction es generalizing w with
  | nil => exact hx
  | cons e es ih =>
    have hlt : t < (w.step e).threads.length := Nat.lt_of_lt_of_le ht (threads_length_step w e)
    exact user_of_step ht (ih hlt hx)

/-- A thread that is about to let the signal through does not come to the mask. -/
theorem comesToMask_of_unmasks (hw : Reachable n w) (h : w.unmasks t e) :
    w.comesToMask t = false := by
  obtain ⟨-, s, rest, hc, hk⟩ := h
  have ho := hw.orderly t
  rw [hc] at ho
  rw [comesToMask, hc, List.foldl_cons, foldl_maskAfter_of_calm (ho.calm rfl)]
  simp [Instr.maskAfter, hk]

/-- One event: a thread that comes to the mask without a need for it has done so before, or has just
taken the mask along. -/
theorem needless_of_step (hw : Lawful n w) (ht : t < w.threads.length)
    (hx : .user ∈ (w.step e).codeOf t) (hm : (w.step e).comesToMask t = true)
    (hs : ¬(w.step e).isSheltered t) :
    (w.comesToMask t = true ∧ ¬w.isSheltered t ∧ ¬w.unmasks t e) ∨
      e = .advance t ∧ ∃ i rest, w.codeOf t = i :: rest ∧ i.slips w t := by
  -- a thread that unmasks does not come to the mask before
  have still (hm : w.comesToMask t = true) : ¬w.unmasks t e := by
    intro h
    rw [comesToMask_of_unmasks hw.reachable h] at hm
    cases hm
  rcases w.step_cases e with ⟨t', i, rest, rfl, h, hu, he⟩ | u
  · rw [he] at hx hm hs
    by_cases hne : t = t'
    · subst hne
      cases turn_proceed hw h hu with
      | same hm' hiff =>
        rw [hm'] at hm
        exact Or.inl ⟨hm, fun hn => hs (hiff.mpr hn), still hm⟩
      | up _ hn => exact absurd hn hs
      | down hn _ => cases hn.symm.trans hm
      | slip _ _ hi => exact Or.inr ⟨rfl, i, rest, h, hi⟩
      | last hn => exact absurd hx hn
    · obtain ⟨hm', hiff⟩ := turn_proceed_of_ne hw h hne ht
      rw [hm'] at hm
      exact Or.inl ⟨hm, fun hn => hs (hiff.mpr hn), still hm⟩
  · rw [comesToMask_undisturbed (hw.reachable.orderly t) u] at hm
    exact Or.inl ⟨hm, fun hn => hs ((isSheltered_undisturbed u).mpr hn), still hm⟩

/-- A whole run: the mask without need for it was there before the run and has not been given up, or
has been taken along on the way. -/
theorem needless_of_run (hw : Lawful n w) (ha : w.admits es = true) (ht : t < w.threads.length)
    (hx : .user ∈ (w.run es).codeOf t) (hm : (w.run es).comesToMask t = true)
    (hs : ¬(w.run es).isSheltered t) :
    (w.comesToMask t = true ∧ w.Along (fun w e => ¬w.unmasks t e) es) ∨ w.takesMask t es := by
  suffices h : (w.comesToMask t = true ∧ ¬w.isSheltered t ∧ w.Along (fun w e => ¬w.unmasks t e) es) ∨
      w.takesMask t es from h.imp_left fun h => ⟨h.1, h.2.2⟩
  induction es generalizing w with
  | nil => exact Or.inl ⟨hm, hs, trivial⟩
  | cons e es ih =>
    obtain ⟨he, ha⟩ := Bool.and_eq_true_iff.mp ha
    have hlt : t < (w.step e).threads.length := Nat.lt_of_lt_of_le ht (threads_length_step w e)
    rcases ih (hw.step he) ha hlt hx hm hs with ⟨hm', hs', hal⟩ | hk
    · rcases needless_of_step hw ht (user_of_run hlt hx) hm' hs' with
        ⟨hm₀, hs₀, hn⟩ | ⟨rfl, i, rest, hc, hi⟩
      · exact Or.inl ⟨hm₀, hs₀, hn, hal⟩
      · exact Or.inr ⟨[], es, rfl, ⟨i, rest, hc, hi⟩, hal⟩
    · exact Or.inr (takesMask_cons hk)

/-- A thread in its own code whose record, of a service that stops by signal, is at `blocking` has
the stop signal blocked. If it has been in its own code with the signal let through, and its record
is now at another level, the signal is let through, unless the thread has left `blocking` in between
by one of the fast calls, by detaching or by joining another service, and has not let the signal
through since. -/
theorem level_and_mask_agree (hw : Lawful n w) (hu : w.inUser t = true)
    (hm : w.isMasked t = false) (ha : w.admits es = true) (hu' : (w.run es).inUser t = true)
    (hs : (w.run es).selfIn t s = some r) (hk : (w.run es).mechanism s = .signal) :
    ((w.run es).levelOf r = .blocking → (w.run es).isMasked t = true) ∧
    ((w.run es).levelOf r ≠ .blocking →
      (w.run es).isMasked t = false ∨ w.takesMask t es) := by
  have hw' := hw.run ha
  -- in code of its own the thread has no guard open and no turn of its mask ahead
  have hcome : (w.run es).comesToMask t = (w.run es).isMasked t :=
    comesToMask_of_user (hw'.reachable.orderly t) hu'
  have hiff := isSheltered_iff hs
  rw [hw'.reachable.keeping.unguarded_of_user hu'] at hiff
  have hx : .user ∈ (w.run es).codeOf t := by
    obtain ⟨rest, hc⟩ := head_user hu'
    exact hc ▸ List.mem_cons_self
  rw [← hcome]
  constructor
  · intro hl
    exact hw'.comesToMask hx (hiff.mpr ⟨hk, hl⟩)
  · intro hl
    cases hm' : (w.run es).comesToMask t with
    | false => exact Or.inl rfl
    | true =>
      right
      have ht : t < w.threads.length := by
        obtain ⟨rest, hc⟩ := head_user hu
        exact lt_of_head hc
      rcases needless_of_run hw ha ht hx hm' fun hn => hl (hiff.mp hn).2 with ⟨hm₀, -⟩ | hk
      · rw [comesToMask_of_user (hw.reachable.orderly t) hu, hm] at hm₀
        cases hm₀
      · exact hk

/-- The main thread of a service that stops its threads by signal. -/
def signalMain : List Event := .invoke 0 (.establish { mechanism := .signal }) :: turns 0 5

/-- It puts off being stopped. -/
def disabled : List Event := .invoke 0 (.disableSuspend 0) :: turns 0 2

/-- It can be stopped again. -/
def enabledAgain : List Event := .invoke 0 (.enableSuspend 0) :: turns 0 3

theorem mask_comes_and_goes :
    (((World.initial 1).run signalMain).run disabled).isMasked 0 = true ∧
      ((((World.initial 1).run signalMain).run (disabled ++ enabledAgain)).isMasked 0 = false ∨
        ((World.initial 1).run signalMain).takesMask 0 (disabled ++ enabledAgain)) := by
  have hw : Lawful 1 ((World.initial 1).run signalMain) := (lawful_initial 1).run (by decide)
  constructor
  · exact (level_and_mask_agree (s := 0) (r := 0) hw (t := 0) (by decide) (by decide) (by decide)
      (by decide) (by decide) (by decide)).1 (by decide)
  · exact (level_and_mask_agree (s := 0) (r := 0) hw (t := 0) (by decide) (by decide) (by decide)
      (by decide) (by decide) (by decide)).2 (by decide)

/-- It puts off being stopped, changes over to the fast way of doing so, and ends that. -/
def disabledTwice : List Event :=
  disabled ++ .invoke 0 (.disableSuspendFast 0) :: turns 0 1 ++ enabledAgain

/-- The thread is at `noBlock` and has the stop signal blocked. -/
theorem stoppable_thread_is_masked :
    (World.initial 1).admits (signalMain ++ disabledTwice) = true ∧
      ((World.initial 1).run signalMain).inUser 0 = true ∧
      ((World.initial 1).run signalMain).selfIn 0 0 = some 0 ∧
      ((World.initial 1).run signalMain).mechanism 0 = .signal ∧
      ((World.initial 1).run signalMain).isMasked 0 = false ∧
      ((World.initial 1).run (signalMain ++ disabledTwice)).inUser 0 = true ∧
      ((World.initial 1).run (signalMain ++ disabledTwice)).selfIn 0 0 = some 0 ∧
      ((World.initial 1).run (signalMain ++ disabledTwice)).levelOf 0 = .noBlock ∧
      ((World.initial 1).run (signalMain ++ disabledTwice)).isMasked 0 = true := by
  refine ⟨?_, ?_, ?_, ?_, ?_, ?_, ?_, ?_, ?_⟩ <;> decide +kernel

end Standstill
