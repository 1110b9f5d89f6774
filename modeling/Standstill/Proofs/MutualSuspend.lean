import Standstill.Proofs.Departures
import Standstill.Proofs.OpenGuards

/-!
Threads that stop one another while nobody is resumed. A thread asks another to stop before it drops
its own guard, and looks for a request of its own before it starts to wait. So a thread that is
waited for, and waits itself, had asked before it was asked; the requests of a circle of such threads
would each come before the other. Main statement: there is no such circle, of any length.
-/
namespace Standstill

open World

variable {n : Nat} {w w' : World} {t t' : ThreadId} {s : ServiceId} {r b u : RecordId}
  {i j : Instr} {x : Watch} {top rest : List Instr} {e : Event} {es fs : List Event}

/-! What stands above a wait. -/

/-- What a thread does for itself before it goes on to wait for another. -/
def Instr.isInterlude : Instr → Bool
  | .sync (.acquire _) | .sync (.release _) | .guard (.raise _ .critical) | .guard (.lower _)
  | .guard (.unmask _) => true
  | i => i.isNested

theorem interlude_of_nested (h : i.isNested = true) : i.isInterlude = true := by
  cases i with
  | sync k => cases k <;> first | rfl | exact h
  | guard g => cases g <;> first | rfl | exact h | cases h
  | park => rfl
  | _ => cases h

theorem run_interlude (h : i.isInterlude = true) : (i.run t w).2.all Instr.isInterlude = true := by
  cases hn : i.isNested with
  | true =>
    exact all_imp interlude_of_nested (run_nested hn)
  | false =>
    cases i with
    | sync k => cases k <;> first | rfl | exact absurd (hn.symm.trans h) Bool.false_ne_true
    | guard g =>
      cases g with
      | raise s l =>
        cases l with
        | critical =>
          simp only [Instr.run, GuardInstr.run]
          split <;> simp
        | _ => cases h
      -- the guard that is closed may lead to a look at the request, which is nested
      | lower s =>
        simp only [Instr.run, GuardInstr.run]
        split
        · split <;> simp [stopIfDue, Instr.isInterlude, Instr.isNested]
        · rfl
      | unmask s => rfl
      | _ => exact absurd (hn.symm.trans h) Bool.false_ne_true
    | park => cases hn
    | _ => cases h

/-- Whoever is pursued, the next step of the pursuit is the last that is left to do by this one. -/
theorem run_pursuit (i : Instr) (hj : j ∈ (i.run t w).2) (hs : j.seeks? ≠ none) :
    ∃ pre, (i.run t w).2 = pre ++ [j] ∧ ∀ a ∈ pre, a.isInterlude = true ∧ a.seeks? = none := by
  have hp := pursues_of_run i hj hs
  cases hp with
  | look s r c a =>
    simp only [Instr.run, StopInstr.run, List.mem_singleton] at hj ⊢
    exact ⟨[], by rw [hj]; rfl, by simp⟩
  | tell s r c a hl =>
    simp only [Instr.run, StopInstr.run, hl, if_true]
    exact ⟨[], rfl, by simp⟩
  -- the section on the roster is left before the pursuit goes on
  | told s r c a =>
    simp only [Instr.run, StopInstr.run] at hj ⊢
    split at hj
    · exfalso
      split at hj <;> simp [leaveRoster] at hj
    next ho =>
      rw [if_neg ho]
      exact ⟨leaveRoster s, rfl, by simp [leaveRoster, Instr.isInterlude, Instr.seeks?]⟩
  | start s r c => exact ⟨[], rfl, by simp⟩
  | epoch x =>
    simp only [Instr.run, StopInstr.run] at hj ⊢
    split at hj
    · cases hj
    next c hc =>
      split at hj
      next he =>
        simp only [he, if_true]
        exact ⟨[], rfl, by simp⟩
      · cases List.mem_singleton.mp hj
  | phase x hp =>
    simp only [Instr.run, StopInstr.run, if_neg hp]
    exact ⟨[], rfl, by simp⟩
  | request x hq =>
    simp only [Instr.run, StopInstr.run, if_pos hq]
    exact ⟨[], rfl, by simp⟩
  | level x hl =>
    simp only [Instr.run, StopInstr.run, if_pos hl]
    exact ⟨[], rfl, by simp⟩
  -- a round that takes long reads the name for its warning, which asks nobody to stop
  | round x warned =>
    simp only [Instr.run, StopInstr.run] at hj ⊢
    split at hj
    next hw =>
      rw [if_pos hw]
      simp [guarded, locked] at hj
      subst hj
      exact ⟨guarded x.service .critical (locked (.name x.record) []), rfl,
        by simp [guarded, locked, Instr.isInterlude, Instr.seeks?]⟩
    next hw =>
      rw [if_neg hw]
      exact ⟨[], by rw [List.mem_singleton.mp hj]; rfl, by simp⟩

theorem tops_seeks : Tops (·.seeks?.isSome) Instr.isInterlude where
  run w t i := by
    -- if a pursuit goes on by this step, its next part is the last thing that the step leaves to do
    by_cases h : ∃ j ∈ (i.run t w).2, j.seeks? ≠ none
    · obtain ⟨j, hj, hs⟩ := h
      obtain ⟨pre, hr, hp⟩ := run_pursuit i hj hs
      rw [hr]
      refine List.pairwise_append.mpr ⟨topped_of_none fun a ha hn => ?_,
        List.pairwise_singleton _ _, fun a ha _ _ _ => (hp a ha).1⟩
      rw [(hp a ha).2] at hn
      cases hn
    · exact topped_of_none fun j hj hn => h ⟨j, hj, fun hx => by simp [hx] at hn⟩
  above _ _ _ h := run_interlude h
  nested i h := ⟨interlude_of_nested h, by rw [seekless_of_nested h]; rfl⟩
  user := ⟨rfl, rfl⟩
  mourn _ _ := rfl
  call w t c j hj := by rw [c.code_seekless j hj]; rfl
  thread s r j hj := by
    rw [threadCode_none (f := Instr.seeks?) rfl hj]
    rfl

/-- What a thread that pursues a record is about to do. -/
theorem head_of_seeks (hw : Reachable n w) (h : w.codeOf t = i :: rest) (hj : j ∈ w.codeOf t)
    (hs : j.seeks? ≠ none) : i.isInterlude = true ∨ i.seeks? ≠ none := by
  rw [h] at hj
  rcases List.mem_cons.mp hj with rfl | hj
  · exact Or.inr hs
  · have ht := tops_seeks.reachable hw t
    rw [h] at ht
    exact Or.inl (ht.head hj (Option.isSome_iff_ne_none.mpr hs))

/-- A thread that pursues a record has taken on what record it is to have. -/
theorem not_bind_of_seeks (hw : Reachable n w) (hj : j ∈ w.codeOf t) (hs : j.seeks? ≠ none) :
    .member (.bind r) ∉ w.codeOf t := by
  intro hb
  obtain ⟨top, below, hc⟩ := List.append_of_mem hj
  have ht := tops_seeks.reachable hw t
  have so := hw.sealed t
  rw [hc] at ht so hb
  rcases List.mem_append.mp hb with hb | hb
  · cases List.all_eq_true.mp (ht.above (Option.isSome_iff_ne_none.mpr hs)) _ hb
  · obtain ⟨k, rfl⟩ : ∃ k, j = .stop k := by
      cases j with
      | stop k => exact ⟨k, rfl⟩
      | _ => exact absurd rfl hs
    have hb := (List.mem_cons.mp hb).resolve_left fun h => by cases h
    cases (List.pairwise_cons.mp (List.pairwise_append.mp so).2.1).1 _ hb

/-! Nobody is resumed: who has been asked to stop stays asked, or leaves. -/

/-- Nobody is about to let a thread of service `s` go. -/
structure Unlet (w : World) (s : ServiceId) : Prop where
  kept : ∀ {t j}, j ∈ w.codeOf t → j.isLetting s = false

theorem unlet_initial (n : Nat) (s : ServiceId) : Unlet (World.initial n) s where
  kept {t j} hj := by
    rw [eq_user_of_initial hj]
    rfl

theorem Unlet.step (d : Unlet w s) (hw : Lawful n w) (e : Event)
    (hi : (w.upNext e).any (·.isResuming s) = false) : Unlet (w.step e) s where
  kept {t j} hj := by
    rw [Bool.eq_false_iff]
    intro hx
    have hj' : j ∈ w.codeOf t := by
      rcases w.step_cases e with ⟨t', i, rest, rfl, h, hu, hs⟩ | u
      · rw [upNext_eq_some.mpr ⟨t', rest, rfl, h⟩] at hi
        rw [hs] at hj
        exact letting_of_proceed hw h hu hi hj hx
      · exact (u.mem_iff (lasting_of_marked (marked_of_letting hx))).mp hj
    exact absurd ((d.kept hj').symm.trans hx) Bool.false_ne_true

/-- The request of record `r` has been raised, if it has not left since. -/
def Asked (w : World) (r : RecordId) : Prop := w.isRequested r = true ∨ Gone w r

theorem isRequested_step (hw : Lawful n w) (d : Unlet w s) (hr : r ∈ w.members s)
    (hq : w.isRequested r = true) (e : Event) : (w.step e).isRequested r = true := by
  rcases w.step_cases e with ⟨t, i, rest, -, h, -, hs⟩ | u
  · rw [hs]
    exact isRequested_proceed hw h hr hq (d.kept (h ▸ List.mem_cons_self))
  · rw [isRequested_of_records_eq u.records]
    exact hq

theorem Asked.step (a : Asked w r) (hw : Alone n w) (d : Unlet w 0) (e : Event) :
    Asked (w.step e) r := by
  have hl := hw.lawful
  rcases a with hq | g
  · by_cases hm : ∃ s, r ∈ w.members s
    · obtain ⟨s, hm⟩ := hm
      obtain rfl := hw.homeOf_eq (hl.rostered.homed hm)
      exact Or.inl (isRequested_step hl d hm hq e)
    · exact Or.inr ((gone_of_isRequested hl (fun s hs => hm ⟨s, hs⟩) hq).step hl e)
  · exact Or.inr (g.step hl e)

/-- The request of thread `t`'s record `b` stands, and `t` stops before it comes to `rest`. -/
structure Caught (w : World) (t : ThreadId) (b : RecordId) (rest : List Instr) : Prop where
  request : w.isRequested b = true
  pinned : Pinned false w t b rest

theorem Caught.step (c : Caught w t b rest) (hw : Alone n w) (d : Unlet w 0) (e : Event) :
    Caught (w.step e) t b rest where
  request := by
    have hl := hw.lawful
    obtain ⟨s, hm⟩ : ∃ s, b ∈ w.members s := by
      by_contra hn
      exact hl.level_of_outside (fun s hs => hn ⟨s, hs⟩) c.request c.pinned.1
    obtain rfl := hw.homeOf_eq (hl.rostered.homed hm)
    exact isRequested_step hl d hm c.request e
  pinned := Pinned.step hw.reachable c.pinned c.request e

theorem Caught.ne_head (c : Caught w t b rest) : w.codeOf t ≠ rest := by
  obtain ⟨-, top, k, mid, hc, -⟩ := c.pinned
  rw [hc]
  intro he
  have hl := congrArg List.length he
  simp only [List.length_append, List.length_cons] at hl
  omega

/-! A thread whose guard was opened at a raised level does not get down to `noBlock`. -/

/-- The level of record `b` is raised, and the guard that thread `t` has open does not change that
when it is closed. -/
structure Raised (w : World) (t : ThreadId) (b : RecordId) : Prop where
  level : w.levelOf b ≠ .noBlock
  guard : ∀ {g}, w.guardOf? t = some g → g.2.2 ≠ .noBlock

section Proceed

variable (hw : Lawful n w) (h : w.codeOf t = i :: rest)
include hw h

theorem Raised.proceed (v : Raised w t b) (hb : w.bindingOf t = some b)
    (hi : i.isInterlude = true ∨ i.seeks? ≠ none) : Raised (w.proceed t i rest) t b where
  level := by
    intro hl
    have hm : i ∈ w.codeOf t := h ▸ List.mem_cons_self
    rcases lowers_of_proceed (hw.reachable.parkLoop.sober hm) v.level hl with hx | ⟨l, rfl⟩
    · cases hx with
      | drop s level hl hg =>
        -- the guard that is closed was opened at a raised level
        obtain ⟨x, ⟨hx, hgx⟩, -⟩ := hw.reachable.keeping.guardOf_of_lower h
        rw [hg] at hx
        cases hx
        exact v.guard hgx rfl
      | enable s hl hs => rcases hi with hi | hi <;> first | cases hi | exact hi rfl
      | enableFast s hl hs => rcases hi with hi | hi <;> first | cases hi | exact hi rfl
    · rcases hi with hi | hi <;> first | cases hi | exact hi rfl
  guard {g} hg := by
    have k := hw.reachable.keeping
    by_cases hr : ∃ s l, i = .guard (.raise s l)
    · obtain ⟨s, l, hr⟩ := hr
      cases hs : w.selfIn t s with
      | none =>
        rw [guardOf_proceed_raise_none h hr hs] at hg
        exact v.guard hg
      | some r =>
        rw [guardOf_proceed_raise h hr hs] at hg
        cases hg
        obtain ⟨hb', -⟩ := selfIn_eq_some.mp hs
        cases hb.symm.trans hb'
        exact v.level
    · by_cases hlw : ∃ s, i = .guard (.lower s)
      · obtain ⟨s, hlw⟩ := hlw
        rw [guardOf_proceed_lower k h hlw] at hg
        cases hg
      · rw [guardOf_proceed k h (fun s l he => hr ⟨s, l, he⟩) fun s he => hlw ⟨s, he⟩] at hg
        exact v.guard hg

theorem Raised.proceed_of_ne (v : Raised w t' b) (hb : w.bindingOf t' = some b) (ht : t' ≠ t) :
    Raised (w.proceed t i rest) t' b where
  level := by
    rw [levelOf_proceed_of_owner hw h (hw.reachable.custody.bound hb) fun he => absurd he ht]
    exact v.level
  guard hg := by
    rw [guardOf?, scopesOf_proceed_of_ne ht] at hg
    exact v.guard hg

end Proceed

section Step

variable (hw : Lawful n w) (hj : j ∈ w.codeOf t) (hs : j.seeks? ≠ none)
include hw hj hs

theorem Raised.step (v : Raised w t b) (hb : w.bindingOf t = some b) (e : Event) :
    Raised (w.step e) t b := by
  rcases w.step_cases e with ⟨q, i, rest, -, h, -, he⟩ | u
  · rw [he]
    by_cases ht : t = q
    · subst ht
      exact v.proceed hw h hb (head_of_seeks hw.reachable h hj hs)
    · exact v.proceed_of_ne hw h hb ht
  · have hl : (w.step e).levelOf b = w.levelOf b := u.ofRecord
    exact ⟨hl ▸ v.level, fun hg => v.guard (guardOf_undisturbed u ▸ hg)⟩

/-- Which record stands for a thread does not change while it pursues another. -/
theorem bindingOf_step_of_seeks (e : Event) : (w.step e).bindingOf t = w.bindingOf t := by
  rcases w.step_cases e with ⟨q, i, rest, -, h, -, he⟩ | u
  · rw [he]
    by_cases ht : t = q
    · subst ht
      refine bindingOf_proceed_of_not_binder ?_
      rintro k rfl
      rcases head_of_seeks hw.reachable h hj hs with hi | hi
      · cases hi
      · exact absurd rfl hi
    · exact bindingOf_proceed_of_ne ht
  · exact u.binding t

end Step

/-! Who waits had asked before it was asked itself. -/

/-- At some moment of the run `es` record `u` had been asked to stop and record `b` had not. -/
def Before (n : Nat) (es : List Event) (u b : RecordId) : Prop :=
  ∃ fs, fs <+: es ∧ Asked ((World.initial n).run fs) u ∧
    ((World.initial n).run fs).isRequested b = false

/-- Thread `t`, for which record `b` stands, may wait for record `u`. -/
def MayWait (n : Nat) (es : List Event) (t : ThreadId) (u b : RecordId) : Prop :=
  Before n es u b ∨ Raised ((World.initial n).run es) t b

/-- What is left to do when a thread has looked for a request of its own. -/
def StopInstr.watches? : StopInstr → Option Watch
  | .watchEpoch x | .watchPhase x | .watchRequest x | .watchLevel x | .watchClock x => some x
  | _ => none

/-- The thread is waiting until another has stopped. -/
def Instr.watches? : Instr → Option Watch
  | .stop i => i.watches?
  | _ => none

theorem seeks_of_watches (h : j.watches? = some x) : j.seeks? = some x.record := by
  cases j with
  | stop k => cases k <;> cases h <;> rfl
  | _ => cases h

/-- The order in which requests are raised, and the moment at which a guard is dropped. -/
structure Ordered (n : Nat) (es : List Event) : Prop where
  asked : ∀ {t j u}, j ∈ ((World.initial n).run es).codeOf t → j.seeks? = some u →
    Asked ((World.initial n).run es) u
  waits : ∀ {t j x b}, j ∈ ((World.initial n).run es).codeOf t → j.watches? = some x →
    ((World.initial n).run es).bindingOf t = some b → MayWait n es t x.record b
  /-- A thread that has told another to stop has still to drop its guard, or it may wait, or it has
  been caught by a request of its own. -/
  starts : ∀ {t top s u c rest b},
    ((World.initial n).run es).codeOf t = top ++ .stop (.watchStart s u c) :: rest →
    ((World.initial n).run es).bindingOf t = some b →
    (∃ s, .guard (.lower s) ∈ top) ∨ MayWait n es t u b ∨
      Caught ((World.initial n).run es) t b (.stop (.watchStart s u c) :: rest)

theorem ordered_nil (n : Nat) : Ordered n [] := by
  constructor
  case asked =>
    intro t j u hj hs
    rw [eq_user_of_initial hj] at hs
    cases hs
  case waits =>
    intro t j x b hj hx
    rw [eq_user_of_initial hj] at hx
    cases hx
  case starts =>
    intro t top s u c rest b hc
    cases eq_user_of_initial (n := n) (hc ▸ List.mem_append_right top List.mem_cons_self)

theorem Before.append (h : Before n es u b) (e : Event) : Before n (es ++ [e]) u b := by
  obtain ⟨fs, hfs, ha, hn⟩ := h
  exact ⟨fs, hfs.trans (List.prefix_append es [e]), ha, hn⟩

/-- What was asked before is the request that is looked for, and the one that is raised now. -/
theorem Pursues.seeks (h : Pursues w i j) :
    i.seeks? = j.seeks? ∨ ∃ s r c, i = .stop (.request s r c) ∧ j.seeks? = some r := by
  cases h with
  | look s r c a => exact Or.inr ⟨s, r, c, rfl, rfl⟩
  | _ => exact Or.inl rfl

theorem Pursues.watches (h : Pursues w i j) (hx : j.watches? = some x) :
    (∃ c, i = .stop (.watchStart x.service x.record c)) ∨
      ∃ y, i.watches? = some y ∧ y.record = x.record := by
  cases h with
  | look | tell | told => cases hx
  | start s r c =>
    cases hx
    exact Or.inl ⟨c, rfl⟩
  | round y warned =>
    cases hx
    exact Or.inr ⟨y, rfl, rfl⟩
  | _ =>
    cases hx
    exact Or.inr ⟨_, rfl, rfl⟩

theorem isRequested_proceed_request {c : Nat} (hr : r < w.records.length) :
    (w.proceed t (.stop (.request s r c)) rest).isRequested r = true := by
  have hp : (w.proceed t (.stop (.request s r c)) rest).isRequested r =
      (w.setRequest r true).isRequested r := rfl
  rw [hp, isRequested_setRequest, if_pos ⟨rfl, hr⟩]

/-- A thread that has told another to stop has still to leave the roster and to drop its guard. -/
theorem starts_of_run (i : Instr) {c : Nat} (hj : .stop (.watchStart s u c) ∈ (i.run t w).2) :
    (i.run t w).2 = leaveRoster s ++ [.stop (.watchStart s u c)] := by
  have hp := pursues_of_run i hj (Option.some_ne_none u)
  cases hp with
  | told s r c a =>
    simp only [Instr.run, StopInstr.run] at hj ⊢
    split at hj
    · exfalso
      split at hj <;> simp [leaveRoster] at hj
    next ho => rw [if_neg ho]

theorem lower_of_leaveRoster {k : List Instr} (hj : ∀ s', j ≠ .guard (.lower s'))
    (hn : j ≠ .sync (.release (.roster s))) (h : leaveRoster s ++ [j] = top ++ j :: k) :
    .guard (.lower s) ∈ top := by
  simp only [leaveRoster, List.cons_append, List.nil_append, List.cons_eq_append_iff] at h
  rcases h with ⟨-, h⟩ | ⟨top, rfl, ⟨-, h⟩ | ⟨top, rfl, -⟩⟩
  · cases h
    exact absurd rfl hn
  · cases h
    exact absurd rfl (hj s)
  · exact List.mem_cons_of_mem _ List.mem_cons_self

theorem not_inUser_of_seeks (hw : Reachable n w) (hj : j ∈ w.codeOf t) (hs : j.seeks? ≠ none) :
    w.inUser t = false := by
  rw [Bool.eq_false_iff]
  intro hu
  obtain ⟨rest, h⟩ := head_user hu
  rcases head_of_seeks hw h hj hs with hi | hi
  · cases hi
  · exact hi rfl

/-- What the handler leaves to do lies above all that was there. -/
theorem split_of_handler {new old code : List Instr} (hn : new.all Instr.isNested = true)
    (hj : j.isNested = false) (h : new ++ old = top ++ j :: code) :
    ∃ mid, top = new ++ mid ∧ old = mid ++ j :: code := by
  rcases List.append_eq_append_iff.mp h with ⟨mid, hm, ho⟩ | ⟨mid, hm, ho⟩
  · exact ⟨mid, hm, ho⟩
  · cases mid with
    | nil => exact ⟨[], by rw [hm, List.append_nil, List.append_nil], ho.symm⟩
    | cons a mid =>
      cases ho
      rw [hm] at hn
      have ha := List.all_eq_true.mp hn j (List.mem_append_right _ List.mem_cons_self)
      exact absurd (hj.symm.trans ha) Bool.false_ne_true

theorem Pinned.of_append {mid : List Instr} {inside : Bool} (hm : .user ∉ mid)
    (h : Pinned inside w t r (mid ++ rest)) : Pinned inside w t r rest := by
  obtain ⟨hl, top, k, under, hc, ht, hk, hr, hu⟩ := h
  refine ⟨hl, top, k, under ++ mid, ?_, ht, hk, hr, ?_⟩
  · rw [hc, List.append_assoc]
  · intro hx
    rcases List.mem_append.mp hx with hx | hx
    · exact hu hx
    · exact hm hx

section Step

variable (o : Ordered n es) (hw : Alone n ((World.initial n).run es))
  (d : Unlet ((World.initial n).run es) 0)
include o hw d

theorem Ordered.asked_append (hj : j ∈ ((World.initial n).run (es ++ [e])).codeOf t)
    (hs : j.seeks? = some u) : Asked ((World.initial n).run (es ++ [e])) u := by
  rw [run_snoc] at hj ⊢
  rcases mem_step_of_seeks e hj (by rw [hs]; exact Option.some_ne_none u) with
    hj | ⟨i, rest, rfl, h, hp⟩
  · exact (o.asked hj hs).step hw d e
  · have hi : i ∈ ((World.initial n).run es).codeOf t := h ▸ List.mem_cons_self
    rcases hp.seeks with he | ⟨s, r, c, rfl, hr⟩
    · exact (o.asked hi (he.trans hs)).step hw d _
    · cases hr.symm.trans hs
      have hlt := lt_of_aims hw.lawful hi (r := u) rfl
      rw [step_of_code h rfl]
      exact Or.inl (isRequested_proceed_request hlt)

omit o d in
theorem MayWait.append (m : MayWait n es t u b) (hj : j ∈ ((World.initial n).run es).codeOf t)
    (hs : j.seeks? ≠ none) (hb : ((World.initial n).run es).bindingOf t = some b) (e : Event) :
    MayWait n (es ++ [e]) t u b := by
  rcases m with hp | v
  · exact Or.inl (hp.append e)
  · right
    rw [run_snoc]
    exact v.step hw.lawful hj hs hb e

omit d in
theorem Ordered.waits_append (hj : j ∈ ((World.initial n).run (es ++ [e])).codeOf t)
    (hx : j.watches? = some x)
    (hb : ((World.initial n).run (es ++ [e])).bindingOf t = some b) :
    MayWait n (es ++ [e]) t x.record b := by
  have hs : j.seeks? ≠ none := by
    rw [seeks_of_watches hx]
    exact Option.some_ne_none _
  rw [run_snoc] at hj hb
  rcases mem_step_of_seeks e hj hs with hj | ⟨i, rest, rfl, h, hp⟩
  · rw [bindingOf_step_of_seeks hw.lawful hj hs] at hb
    exact (o.waits hj hx hb).append hw hj hs hb e
  -- the wait has begun in this step, or another look of the same wait comes next
  · have hi : i ∈ ((World.initial n).run es).codeOf t := h ▸ List.mem_cons_self
    rcases hp.watches hx with ⟨c, rfl⟩ | ⟨y, hy, hr⟩
    · have his : (Instr.stop (.watchStart x.service x.record c)).seeks? ≠ none :=
        Option.some_ne_none _
      rw [bindingOf_step_of_seeks hw.lawful hi his] at hb
      have h' : ((World.initial n).run es).codeOf t =
          [] ++ .stop (.watchStart x.service x.record c) :: rest := h
      rcases o.starts h' hb with ⟨s, hl⟩ | m | hc
      · cases hl
      · exact m.append hw hi his hb _
      · exact absurd h hc.ne_head
    · have his : i.seeks? ≠ none := by
        rw [seeks_of_watches hy]
        exact Option.some_ne_none _
      rw [bindingOf_step_of_seeks hw.lawful hi his] at hb
      rw [← hr]
      exact (o.waits hi hy hb).append hw hi his hb _

/-- When a thread drops the guard under which it has told another to stop, either its level stays
raised, or its own request has come and it stops at once, or it has not come yet. -/
theorem Ordered.starts_lower {mid : List Instr} {c : Nat} {s' : ServiceId}
    (h : ((World.initial n).run es).codeOf t =
      .guard (.lower s') :: (mid ++ .stop (.watchStart s u c) :: rest))
    (hb : ((World.initial n).run es).bindingOf t = some b) :
    MayWait n (es ++ [.advance t]) t u b ∨
      Caught ((World.initial n).run (es ++ [.advance t])) t b
        (.stop (.watchStart s u c) :: rest) := by
  have hl := hw.lawful
  have k := hw.reachable.keeping
  have hm : .stop (.watchStart s u c) ∈ ((World.initial n).run es).codeOf t := by
    rw [h]
    exact List.mem_cons_of_mem _ (List.mem_append_right _ List.mem_cons_self)
  have hguard : .guard ∈ ((World.initial n).run es).kindsOf t := by
    obtain ⟨fs, hk, -⟩ := k.kinds_of_head h
    rw [hk]
    exact List.mem_cons_self
  have hstep : (World.initial n).run (es ++ [.advance t]) = ((World.initial n).run es).proceed t
      (.guard (.lower s')) (mid ++ .stop (.watchStart s u c) :: rest) := by
    rw [run_snoc]
    exact step_of_code h rfl
  by_cases hlv : ((World.initial n).run (es ++ [.advance t])).levelOf b = .noBlock
  · -- back at `noBlock` the thread is about to look for its own request
    have hmid : Instr.user ∉ mid := by
      have ht := tops_seeks.reachable hw.reachable t
      rw [h] at ht
      intro hx
      have hi := (List.pairwise_append.mp (List.pairwise_cons.mp ht).2).2.2 _ hx _ List.mem_cons_self rfl
      cases hi
    have hlow : Lowers ((World.initial n).run es) t b (.guard (.lower s')) := by
      rw [hstep] at hlv
      have hsober := hw.reachable.parkLoop.sober (h ▸ List.mem_cons_self)
      rcases lowers_of_proceed hsober (hw.guarded hb hguard) hlv with hx | ⟨l, hx⟩
      · exact hx
      · cases hx
    have hpin := (hlow.pinned h).of_append hmid
    rw [← hstep] at hpin
    cases hq : ((World.initial n).run (es ++ [.advance t])).isRequested b with
    | true => exact Or.inr ⟨hq, hpin⟩
    | false =>
      refine Or.inl (Or.inl ⟨es ++ [.advance t], List.prefix_rfl, ?_, hq⟩)
      rw [run_snoc]
      exact (o.asked hm rfl).step hw d _
  · refine Or.inl (Or.inr ⟨hlv, fun hg => ?_⟩)
    rw [hstep, guardOf_proceed_lower k h rfl] at hg
    cases hg

theorem Ordered.starts_append {c : Nat}
    (hc : ((World.initial n).run (es ++ [e])).codeOf t =
      top ++ .stop (.watchStart s u c) :: rest)
    (hb : ((World.initial n).run (es ++ [e])).bindingOf t = some b) :
    (∃ s, .guard (.lower s) ∈ top) ∨ MayWait n (es ++ [e]) t u b ∨
      Caught ((World.initial n).run (es ++ [e])) t b (.stop (.watchStart s u c) :: rest) := by
  have hl := hw.lawful
  -- as long as the watch is ahead, only what stands above it can change
  have keep {top' : List Instr}
      (hc' : ((World.initial n).run es).codeOf t = top' ++ .stop (.watchStart s u c) :: rest)
      (hlow : ∀ a, .guard (.lower a) ∈ top' → (∃ s, .guard (.lower s) ∈ top) ∨
        MayWait n (es ++ [e]) t u b ∨ Caught ((World.initial n).run (es ++ [e])) t b
          (.stop (.watchStart s u c) :: rest)) :
      (∃ s, .guard (.lower s) ∈ top) ∨ MayWait n (es ++ [e]) t u b ∨
        Caught ((World.initial n).run (es ++ [e])) t b (.stop (.watchStart s u c) :: rest) := by
    have hj : .stop (.watchStart s u c) ∈ ((World.initial n).run es).codeOf t :=
      hc' ▸ List.mem_append_right _ List.mem_cons_self
    have hs : (Instr.stop (.watchStart s u c)).seeks? ≠ none := Option.some_ne_none u
    rw [run_snoc, bindingOf_step_of_seeks hl hj hs] at hb
    rcases o.starts hc' hb with ⟨s', hs'⟩ | m | hx
    · exact hlow s' hs'
    · exact Or.inr (Or.inl (m.append hw hj hs hb e))
    · right; right
      rw [run_snoc]
      exact hx.step hw d e
  have hcode := hc
  rw [run_snoc] at hcode
  rcases ((World.initial n).run es).step_cases e with ⟨q, i, below, rfl, h, hu, he⟩ | v
  · rw [he] at hcode
    rcases codeOf_proceed_split h hcode with
      ⟨rfl, bot, hr, -⟩ | ⟨rfl, mid, rfl, rfl⟩ | ⟨-, hc'⟩ | ⟨b, r, -, hth⟩
    · -- the guard is still to be dropped
      refine Or.inl ⟨s, ?_⟩
      have hrun := starts_of_run (s := s) (u := u) (c := c) (t := t) i
        (hr ▸ List.mem_append_right _ List.mem_cons_self :
          _ ∈ ((World.initial n).run es).remainder t i below)
      exact lower_of_leaveRoster (fun _ => Instr.noConfusion) Instr.noConfusion (hrun.symm.trans hr)
    · have h' : ((World.initial n).run es).codeOf t =
          (i :: mid) ++ .stop (.watchStart s u c) :: rest := h
      refine keep h' fun s' hs' => ?_
      rcases List.mem_cons.mp hs' with rfl | hs'
      · have hj : .stop (.watchStart s u c) ∈ ((World.initial n).run es).codeOf t :=
          h ▸ List.mem_cons_of_mem _ (List.mem_append_right _ List.mem_cons_self)
        rw [run_snoc, bindingOf_step_of_seeks hl hj (Option.some_ne_none u)] at hb
        exact Or.inr (o.starts_lower hw d h hb)
      · exact Or.inl ⟨s', List.mem_append_right _ hs'⟩
    · exact keep hc' fun s' hs' => Or.inl ⟨s', hs'⟩
    · have hm : Instr.stop (.watchStart s u c) ∈ threadCode b r :=
        hth ▸ List.mem_append_right _ List.mem_cons_self
      simp [threadCode] at hm
  · have hs : (Instr.stop (.watchStart s u c)).seeks? ≠ none := Option.some_ne_none u
    have hj : .stop (.watchStart s u c) ∈ ((World.initial n).run es).codeOf t := by
      have hm : Instr.stop (.watchStart s u c) ∈ (((World.initial n).run es).step e).codeOf t :=
        hcode ▸ List.mem_append_right _ List.mem_cons_self
      rcases v.code t with hx | hx
      · exact hx ▸ hm
      · exact hx.mem_of_seeks hm hs
    rcases v.code_of_busy (not_inUser_of_seeks hw.reachable hj hs) with hx | ⟨-, hx⟩
    · exact keep (hx.symm.trans hcode) fun s' hs' => Or.inl ⟨s', hs'⟩
    · obtain ⟨mid, rfl, hc'⟩ := split_of_handler handler_nested rfl (hx.symm.trans hcode)
      exact keep hc' fun s' hs' => Or.inl ⟨s', List.mem_append_right _ hs'⟩

end Step

theorem Ordered.append (o : Ordered n es) (hw : Alone n ((World.initial n).run es))
    (d : Unlet ((World.initial n).run es) 0) (e : Event) : Ordered n (es ++ [e]) where
  asked := o.asked_append hw d
  waits := o.waits_append hw
  starts := o.starts_append hw d

/-- While one service is there and nobody is resumed, nobody is let go, and requests are raised in
order. -/
theorem unlet_and_ordered (es : List Event) (ha : (World.initial n).admits es = true)
    (h1 : ((World.initial n).run es).services.length ≤ 1) (hs : (World.initial n).StaysShut 0 es) :
    Unlet ((World.initial n).run es) 0 ∧ Ordered n es := by
  induction es using List.reverseRecOn with
  | nil => exact ⟨unlet_initial n 0, ordered_nil n⟩
  | append_singleton es e ih =>
    rw [admits_append, Bool.and_eq_true] at ha
    rw [run_snoc] at h1
    obtain ⟨hs, he, -⟩ := along_append.mp hs
    have h0 := (services_length_step ((World.initial n).run es) e).trans h1
    have hw : Alone n ((World.initial n).run es) := ⟨es, ha.1, rfl, h0⟩
    obtain ⟨d, o⟩ := ih ha.1 h0 hs
    refine ⟨?_, o.append hw d e⟩
    rw [run_snoc]
    exact d.step hw.lawful e he

/-- A request that has been raised is not taken back later in the run. -/
theorem Asked.run (a : Asked w r) (hw : Alone n w) (d : Unlet w 0) (ha : w.admits es = true)
    (h1 : (w.run es).services.length ≤ 1) (hs : w.StaysShut 0 es) : Asked (w.run es) r := by
  induction es generalizing w with
  | nil => exact a
  | cons e es ih =>
    simp only [admits, Bool.and_eq_true] at ha
    have h1' := (services_length_run (w.step e) es).trans h1
    exact ih (a.step hw d e) (hw.step ha.1 h1') (d.step hw.lawful e hs.1) ha.2 h1 hs.2

/-- A record that has to stop had not been asked only at moments that came before it was. -/
theorem Asked.length_lt {gs : List Event} (ha : (World.initial n).admits es = true)
    (h1 : ((World.initial n).run es).services.length ≤ 1) (hs : (World.initial n).StaysShut 0 es)
    (hp : ((World.initial n).run es).shouldPark r = true) (hfs : fs <+: es) (hgs : gs <+: es)
    (a : Asked ((World.initial n).run fs) r)
    (hn : ((World.initial n).run gs).isRequested r = false) : gs.length < fs.length := by
  by_contra hle
  -- what has been asked stays asked or leaves, and who has left does not have to stop
  obtain ⟨mid, rfl⟩ := List.prefix_of_prefix_length_le hfs hgs (Nat.le_of_not_lt hle)
  obtain ⟨last, rfl⟩ := hgs
  have hw : Lawful n ((World.initial n).run (fs ++ mid ++ last)) := ⟨_, ha, rfl⟩
  rw [admits_append, Bool.and_eq_true] at ha
  have hs := (along_append.mp hs).1
  rw [run_append] at h1 hw hp
  have h1 := (services_length_run _ last).trans h1
  have am : Asked ((World.initial n).run (fs ++ mid)) r := by
    have ham := ha.1
    rw [admits_append, Bool.and_eq_true] at ham
    have hs := along_append.mp hs
    rw [run_append] at h1 ⊢
    have h0 := (services_length_run _ mid).trans h1
    exact a.run ⟨fs, ham.1, rfl, h0⟩ (unlet_and_ordered fs ham.1 h0 hs.1).1 ham.2 h1 hs.2
  rcases am with hq | g
  · exact Bool.false_ne_true (hn.symm.trans hq)
  · have g := g.run ⟨fs ++ mid, ha.1, rfl⟩ ha.2
    exact Bool.false_ne_true ((hw.not_shouldPark g.outside).symm.trans hp)

/-! The theorem. -/

/-- Thread `t` goes round waiting for a thread of `S` to stop, and what it reads tells it to go on. -/
def SpinsFor (w : World) (S : Set ThreadId) (t : ThreadId) : Prop :=
  ∃ j ∈ w.codeOf t, ∃ x, j.watches? = some x ∧ x.lasts w = true ∧
    ∃ q ∈ S, w.ownerOf x.record = some q

/-- Who waits for a thread that waits itself had asked before it was asked in its turn. -/
theorem Ordered.before (o : Ordered n es) (hw : Alone n ((World.initial n).run es))
    {q : ThreadId} {y : Watch} (hl : x.lasts ((World.initial n).run es) = true)
    (hq : ((World.initial n).run es).ownerOf x.record = some q)
    (hj : j ∈ ((World.initial n).run es).codeOf q) (hy : j.watches? = some y) :
    Before n es y.record x.record := by
  have hs : j.seeks? ≠ none := by
    rw [seeks_of_watches hy]
    exact Option.some_ne_none _
  have hp := x.shouldPark_of_lasts hl
  obtain ⟨s, hm⟩ : ∃ s, x.record ∈ ((World.initial n).run es).members s := by
    by_contra hn
    rw [hw.lawful.not_shouldPark fun s hs => hn ⟨s, hs⟩] at hp
    cases hp
  -- whoever pursues is past its binding, so the record in question stands for it
  have hb := (bound_of_listed hw hw.lawful hm hq).resolve_right (not_bind_of_seeks hw.reachable hj hs)
  rcases o.waits hj hy hb with h | v
  · exact h
  · exact absurd (shouldPark_iff.mp hp).2 v.level

/-- As long as nobody is resumed, threads of one service that ask one another and themselves to stop,
in whatever order their steps come, never come to wait in a circle: there is no set of threads of which
each goes round waiting for another of the set and has reason to. -/
theorem suspending_one_another_does_not_deadlock (es : List Event)
    (ha : (World.initial n).admits es = true)
    (h1 : ((World.initial n).run es).services.length ≤ 1) (hs : (World.initial n).StaysShut 0 es)
    (S : Set ThreadId) (hS : S.Nonempty) :
    ¬∀ t ∈ S, SpinsFor ((World.initial n).run es) S t := by
  intro hall
  have hw : Alone n ((World.initial n).run es) := ⟨es, ha, rfl, h1⟩
  have o := (unlet_and_ordered es ha h1 hs).2
  -- the request of whoever is waited for was raised after that of whom it waits for itself
  have key (k : Nat) : ∀ fs, fs.length = k → fs <+: es → ∀ t ∈ S,
      ∀ j ∈ ((World.initial n).run es).codeOf t, ∀ x, j.watches? = some x →
        x.lasts ((World.initial n).run es) = true →
        (∃ q ∈ S, ((World.initial n).run es).ownerOf x.record = some q) →
        ¬Asked ((World.initial n).run fs) x.record := by
    induction k using Nat.strong_induction_on with
    | _ k ih =>
      rintro fs rfl hfs t - j hj x hx hl ⟨q, hq, ho⟩ a
      obtain ⟨i, hi, y, hy, hly, hqy⟩ := hall q hq
      obtain ⟨gs, hgs, a', hn⟩ := o.before hw hl ho hi hy
      have hlt := a.length_lt ha h1 hs (x.shouldPark_of_lasts hl) hfs hgs hn
      exact ih gs.length hlt gs rfl hgs q hq i hi y hy hly hqy a'
  obtain ⟨t, ht⟩ := hS
  obtain ⟨j, hj, x, hx, hl, hq⟩ := hall t ht
  have hr := (shouldPark_iff.mp (x.shouldPark_of_lasts hl)).1
  exact key es.length es rfl List.prefix_rfl t ht j hj x hx hl hq (Or.inl hr)

/-- Two threads ask one another to stop. -/
def askingOneAnother : List Event :=
  lateJoin ++ .invoke 1 (.suspend 0 1) :: .invoke 0 (.suspend 0 2) :: turns 0 13 ++ turns 1 10

theorem asking_one_another_does_not_deadlock :
    ((World.initial 2).run askingOneAnother).isRequested 0 = true ∧
      ((World.initial 2).run askingOneAnother).isRequested 1 = true ∧
      SpinsFor ((World.initial 2).run askingOneAnother) {0, 1} 0 ∧
      ¬∀ t ∈ ({0, 1} : Set ThreadId),
        SpinsFor ((World.initial 2).run askingOneAnother) {0, 1} t := by
  refine ⟨by decide +kernel, by decide +kernel, ?_, ?_⟩
  · exact ⟨.stop (.watchPhase ⟨0, 1, 0, 0, false⟩), by decide +kernel, _, rfl, by decide +kernel,
      1, Or.inr rfl, by decide +kernel⟩
  · exact suspending_one_another_does_not_deadlock askingOneAnother (by decide +kernel)
      (by decide +kernel) (by decide +kernel) {0, 1} ⟨0, Or.inl rfl⟩

end Standstill
