import Standstill.Proofs.Binding

/-!
Guards that are open. From one stretch of its own code to the next a thread works for one service, so
it closes a guard for the service in which it has opened it, while the same record stands for it.
-/
namespace Standstill

open World

variable {n : Nat} {w w' : World} {t t' : ThreadId} {s : ServiceId} {r : RecordId} {l p : Level}
  {i j : Instr} {code rest : List Instr} {e : Event} {fs : List Hold}

/-! What a step does to the scopes of a thread. -/

theorem GuardInstr.scopesOf_run_of_ne (i : GuardInstr) (ht : t' ≠ t) :
    (i.run t w).1.scopesOf t' = w.scopesOf t' := by
  have hopen (w' : World) (x : Scope) (hs : w'.scopesOf t' = w.scopesOf t') :
      (w'.openScope t x).scopesOf t' = w.scopesOf t' := by
    rw [← hs]
    simp only [scopesOf, openScope, ofThread_modThread, if_neg ht]
  have hclose (w' : World) (hs : w'.scopesOf t' = w.scopesOf t') :
      (w'.closeScope t).scopesOf t' = w.scopesOf t' := by
    rw [scopesOf_closeScope, if_neg ht, hs]
  cases i with
  | raise s l | enter s l =>
    simp only [GuardInstr.run]
    split <;> exact hopen _ _ rfl
  | lower s | leave =>
    simp only [GuardInstr.run]
    split <;> exact hclose _ rfl
  | mask s | unmask s =>
    simp only [GuardInstr.run, setMaskFor]
    split
    · simp only [scopesOf, World.setMask, ofThread_modThread, if_neg ht]
    · rfl
  | setMask b => simp only [GuardInstr.run, scopesOf, World.setMask, ofThread_modThread, if_neg ht]
  | setPhase b p => rfl
  | _ =>
    simp only [GuardInstr.run]
    split
    · simp only [scopesOf, fail, say, ofThread_modThread, if_neg ht]
    · rfl

theorem scopesOf_proceed : (w.proceed t i rest).scopesOf t' =
    (i.run t (w.setCode t rest)).1.scopesOf t' := ofThread_push (fun _ _ => rfl) _

theorem scopesOf_setCode : (w.setCode t rest).scopesOf t' = w.scopesOf t' :=
  ofThread_setCode fun _ _ => rfl

theorem scopesOf_proceed_of_ne (ht : t' ≠ t) :
    (w.proceed t i rest).scopesOf t' = w.scopesOf t' := by
  have hs : (i.run t (w.setCode t rest)).1.scopesOf t' = (w.setCode t rest).scopesOf t' := by
    by_cases hi : ∃ k, i = .guard k
    · obtain ⟨k, rfl⟩ := hi
      exact k.scopesOf_run_of_ne ht
    · exact scopesOf_run_of_not_guard i (fun k he => hi ⟨k, he⟩) t'
  rw [scopesOf_proceed, hs, scopesOf_setCode]

/-! The guard that a thread has open. -/

/-- The record of a guard, the level that the guard has given it and the one that it had before. -/
def Scope.guard? : Scope → Option (RecordId × Level × Level)
  | .guard (some r) level previous => some (r, level, previous)
  | _ => none

/-- The guard that thread `t` has open for a record. -/
def World.guardOf? (w : World) (t : ThreadId) : Option (RecordId × Level × Level) :=
  (w.scopesOf t).findSome? Scope.guard?

theorem guard_of_guard? {x : Scope} {g : RecordId × Level × Level} (h : x.guard? = some g) :
    x.hold = .guard := by
  cases x with
  | guard => rfl
  | phase => cases h

theorem guardOf_of_phases (h : ∀ k ∈ w.kindsOf t, k = .phase) : w.guardOf? t = none := by
  refine List.findSome?_eq_none_iff.mpr fun x hx => ?_
  have hk := h _ (List.mem_map_of_mem hx)
  cases hg : x.guard? with
  | none => rfl
  | some g =>
    rw [guard_of_guard? hg] at hk
    cases hk

theorem scopesOf_openScope (ht : t < w.threads.length) (x : Scope) :
    (w.openScope t x).scopesOf t = x :: w.scopesOf t := by
  simp only [scopesOf, openScope, ofThread_modThread, if_true]
  simp [ofThread, List.getElem?_eq_getElem ht]

theorem phases_of_bears (hb : i.Bears fs) (hf : i.isFree = false) : ∀ k ∈ fs, k = .phase := by
  have other (h : i.isFree = true ∨ ∀ k ∈ fs, k = .phase) : ∀ k ∈ fs, k = .phase := by
    refine h.resolve_left fun h => ?_
    rw [hf] at h
    cases h
  cases i with
  | user =>
    obtain rfl : fs = [] := hb
    exact fun k hk => absurd hk List.not_mem_nil
  | _ => exact other hb

/-- The scopes of a thread are those that the instruction at its head closes, and below them phases
alone, unless the instruction may be run anywhere. -/
theorem Keeping.kinds_of_head (k : Keeping w) (h : w.codeOf t = i :: rest) :
    ∃ fs, w.kindsOf t = (i.closes ++ fs).filterMap Hold.scope? ∧
      (i.isFree = false → ∀ k ∈ fs, k = .phase) := by
  obtain ⟨hs, hk⟩ := k.keeps t
  obtain ⟨fs, rfl, hb, _⟩ := h ▸ hk.code
  exact ⟨fs, hk.scopes, phases_of_bears hb⟩

theorem phases_filterMap (h : ∀ k ∈ fs, k = .phase) : ∀ k ∈ fs.filterMap Hold.scope?, k = .phase := by
  intro k hk
  obtain ⟨x, hx, he⟩ := List.mem_filterMap.mp hk
  obtain rfl := h x hx
  exact (Option.some.inj he).symm

/-- No guard is open where an instruction stands that bears none. -/
theorem Keeping.unguarded (k : Keeping w) (h : w.codeOf t = i :: rest) (hf : i.isFree = false)
    (hc : i.closes.filterMap Hold.scope? = []) : w.guardOf? t = none := by
  obtain ⟨fs, hk, hp⟩ := k.kinds_of_head h
  refine guardOf_of_phases ?_
  rw [hk, List.filterMap_append, hc]
  exact phases_filterMap (hp hf)

theorem Keeping.unguarded_of_user (k : Keeping w) (hu : w.inUser t = true) :
    w.guardOf? t = none := by
  obtain ⟨rest, hc⟩ := head_user hu
  exact k.unguarded hc rfl rfl

/-- A closing of a guard finds it on top. -/
theorem Keeping.guardOf_of_lower (k : Keeping w) (h : w.codeOf t = .guard (.lower s) :: rest) :
    ∃ x, (w.innermost? t = some x ∧ w.guardOf? t = x.guard?) ∧
      (w.scopesOf t).tail.findSome? Scope.guard? = none := by
  obtain ⟨fs, hk, hp⟩ := k.kinds_of_head h
  obtain ⟨x, xs, hx, _, hxs⟩ := List.map_eq_cons_iff.mp hk
  -- the scopes under the top are those of phases, since guards do not nest
  have hn : xs.findSome? Scope.guard? = none := by
    refine List.findSome?_eq_none_iff.mpr fun y hy => ?_
    have hh : y.hold ∈ fs.filterMap Hold.scope? := by
      have hm : y.hold ∈ xs.map Scope.hold := List.mem_map_of_mem hy
      rwa [hxs] at hm
    have hph := phases_filterMap (hp rfl) _ hh
    cases hg : y.guard? with
    | none => rfl
    | some g =>
      rw [guard_of_guard? hg] at hph
      cases hph
  refine ⟨x, ⟨?_, ?_⟩, ?_⟩
  · rw [innermost_eq, hx]
    rfl
  · rw [guardOf?, hx, List.findSome?_cons, hn]
    cases x.guard? <;> rfl
  · rw [hx]
    exact hn

section Proceed

variable (k : Keeping w) (h : w.codeOf t = i :: rest)
include h

omit h in
theorem lt_setCode (h : w.codeOf t = i :: rest) : t < (w.setCode t rest).threads.length := by
  rw [threads_length_setCode]
  exact lt_of_head h

theorem guardOf_proceed_raise (hi : i = .guard (.raise s l)) (hs : w.selfIn t s = some r) :
    (w.proceed t i rest).guardOf? t = some (r, l, w.levelOf r) := by
  subst hi
  have hs' : (w.setCode t rest).selfIn t s = some r := selfIn_setCode.trans hs
  have hsc : (w.setCode t rest).scopesOf t = w.scopesOf t := scopesOf_setCode
  have hopen : (w.proceed t (.guard (.raise s l)) rest).scopesOf t =
      .guard (some r) l (w.levelOf r) :: w.scopesOf t := by
    rw [scopesOf_proceed, ← hsc]
    simp only [Instr.run, GuardInstr.run, hs']
    exact scopesOf_openScope (lt_setCode h) _
  rw [guardOf?, hopen]
  rfl

/-- A guard around a thread for which no record stands does nothing. -/
theorem guardOf_proceed_raise_none (hi : i = .guard (.raise s l)) (hs : w.selfIn t s = none) :
    (w.proceed t i rest).guardOf? t = w.guardOf? t := by
  subst hi
  have hs' : (w.setCode t rest).selfIn t s = none := selfIn_setCode.trans hs
  have hsc : (w.setCode t rest).scopesOf t = w.scopesOf t := scopesOf_setCode
  have hopen : (w.proceed t (.guard (.raise s l)) rest).scopesOf t =
      .guard none l .noBlock :: w.scopesOf t := by
    rw [scopesOf_proceed, ← hsc]
    simp only [Instr.run, GuardInstr.run, hs']
    exact scopesOf_openScope (lt_setCode h) _
  rw [guardOf?, hopen]
  rfl

include k

theorem guardOf_proceed_lower (hi : i = .guard (.lower s)) :
    (w.proceed t i rest).guardOf? t = none := by
  subst hi
  obtain ⟨x, _, hn⟩ := k.guardOf_of_lower h
  have hsc : (w.setCode t rest).scopesOf t = w.scopesOf t := scopesOf_setCode
  have hclose : (w.proceed t (.guard (.lower s)) rest).scopesOf t = (w.scopesOf t).tail := by
    rw [scopesOf_proceed, ← hsc]
    simp only [Instr.run, GuardInstr.run]
    split <;> exact (scopesOf_closeScope _ t t).trans (if_pos rfl)
  rw [guardOf?, hclose, hn]

theorem guardOf_proceed (hr : ∀ s l, i ≠ .guard (.raise s l)) (hl : ∀ s, i ≠ .guard (.lower s)) :
    (w.proceed t i rest).guardOf? t = w.guardOf? t := by
  have hsc : (w.setCode t rest).scopesOf t = w.scopesOf t := scopesOf_setCode
  have same (hs : (i.run t (w.setCode t rest)).1.scopesOf t = (w.setCode t rest).scopesOf t) :
      (w.proceed t i rest).guardOf? t = w.guardOf? t := by
    rw [guardOf?, scopesOf_proceed, hs, scopesOf_setCode, guardOf?]
  by_cases hi : ∃ k, i = .guard k
  · obtain ⟨g, rfl⟩ := hi
    cases g with
    | raise s l => exact absurd rfl (hr s l)
    | lower s => exact absurd rfl (hl s)
    | enter s p =>
      have hopen : ∃ x : Scope, x.guard? = none ∧
          (w.proceed t (.guard (.enter s p)) rest).scopesOf t = x :: w.scopesOf t := by
        rw [scopesOf_proceed, ← hsc]
        simp only [Instr.run, GuardInstr.run]
        split
        · exact ⟨_, rfl, scopesOf_openScope (lt_setCode h) _⟩
        · exact ⟨_, rfl, scopesOf_openScope (lt_setCode h) _⟩
      obtain ⟨x, hx, hopen⟩ := hopen
      rw [guardOf?, hopen, List.findSome?_cons, hx, guardOf?]
    | leave =>
      have hclose : (w.proceed t (.guard .leave) rest).scopesOf t = (w.scopesOf t).tail := by
        rw [scopesOf_proceed, ← hsc]
        simp only [Instr.run, GuardInstr.run]
        split
        · exact (scopesOf_closeScope _ t t).trans (if_pos rfl)
        · exact (scopesOf_closeScope _ t t).trans (if_pos rfl)
      -- the scope on top is a noted phase, so no guard goes with it
      obtain ⟨fs, hk, _⟩ := k.kinds_of_head h
      obtain ⟨x, xs, hx, hph, _⟩ := List.map_eq_cons_iff.mp hk
      have hn : x.guard? = none := by
        cases hg : x.guard? with
        | none => rfl
        | some g =>
          rw [guard_of_guard? hg] at hph
          cases hph
      rw [guardOf?, hclose, guardOf?, hx, List.tail_cons, List.findSome?_cons, hn]
    | mask s | unmask s =>
      apply same
      simp only [Instr.run, GuardInstr.run, setMaskFor]
      split
      · simp [scopesOf, World.setMask, ofThread_modThread]
      · rfl
    | setMask b =>
      apply same
      simp [Instr.run, GuardInstr.run, scopesOf, World.setMask, ofThread_modThread]
    | setPhase b p => exact same rfl
    | _ =>
      apply same
      simp only [Instr.run, GuardInstr.run]
      split
      · simp [scopesOf, fail, say, ofThread_modThread]
      · rfl
  · exact same (scopesOf_run_of_not_guard i (fun g he => hi ⟨g, he⟩) t)

end Proceed

/-! One service at a time. -/

/-- What a thread has to run before it comes back to code of its own, or leaves, is for service `s`,
and so is the guard that it has open. -/
structure WorksFor (w : World) (t : ThreadId) (s : ServiceId) : Prop where
  code : ∀ j ∈ (w.codeOf t).takeWhile (!·.isGround), j.isFor s = true
  guard : ∀ {g}, w.guardOf? t = some g → w.selfIn t s = some g.1

theorem mem_takeWhile {q : Instr → Bool} (h : j ∈ code.takeWhile q) : j ∈ code :=
  (List.takeWhile_sublist q).subset h

/-- New code has to be run before the thread gets to what lay below it. -/
theorem takeWhile_append (h : ∀ j ∈ code, j.isGround = false) :
    (code ++ rest).takeWhile (!·.isGround) = code ++ rest.takeWhile (!·.isGround) :=
  List.takeWhile_append_of_pos fun j hj => by rw [h j hj]; rfl

theorem groundless_of_sequel (h : code.all Instr.isSequel = true) :
    ∀ j ∈ code, j.isGround = false := by
  intro j hj
  have hs := List.all_eq_true.mp h j hj
  simp only [Instr.isSequel, Bool.and_eq_true, Bool.not_eq_true'] at hs
  exact hs.1

section Ground

attribute [local simp] Instr.lets Instr.isNested Instr.isSequel Instr.isGround Instr.isJoin
  Instr.isOutset Instr.isAtGate Instr.isLocking Instr.isUnlocking Instr.isHalting Instr.isFreeing
  MemberInstr.lets StopInstr.lets

/-- Below the call that makes a service there is only the thread's own code and what follows it. -/
theorem ground_of_lets_establish {x : Settings} (h : j.lets (.member (.establish x)) = true) :
    j.isGround = true := by
  cases j with
  | member j => cases j <;> simp at h ⊢
  | stop j => cases j <;> simp at h
  | user => rfl
  | _ => simp at h

end Ground

/-- A binder finds no guard open. -/
theorem unguarded_of_binder (k : Keeping w) {m : MemberInstr}
    (h : w.codeOf t = .member m :: rest) (hb : m.isBinder = true) : w.guardOf? t = none := by
  refine k.unguarded h ?_ ?_ <;> cases m <;> first | rfl | cases hb

section Proceed

variable (hw : Reachable n w) (h : w.codeOf t = i :: rest) (hu : i.isReady w t = true)
include hw h

theorem WorksFor.guard_proceed (d : WorksFor w t s) (hi : i.isFor s = true)
    {g : RecordId × Level × Level} (hg : (w.proceed t i rest).guardOf? t = some g) :
    (w.proceed t i rest).selfIn t s = some g.1 := by
  -- the thread keeps its record, for under a guard or at its opening nothing is bound
  have old (hs : w.selfIn t s = some g.1) (hn : w.guardOf? t ≠ none ∨ ∃ l, i = .guard (.raise s l)) :
      (w.proceed t i rest).selfIn t s = some g.1 := by
    refine selfIn_proceed hs fun _ m he => ?_
    cases hm : m.isBinder
    · rfl
    · rcases hn with hn | ⟨l, hl⟩
      · exact absurd (unguarded_of_binder hw.keeping (he ▸ h) hm) hn
      · rw [he] at hl
        cases hl
  have kept (he : (w.proceed t i rest).guardOf? t = w.guardOf? t) :
      (w.proceed t i rest).selfIn t s = some g.1 := by
    rw [he] at hg
    exact old (d.guard hg) (Or.inl (by rw [hg]; exact Option.some_ne_none g))
  by_cases hr : ∃ s' l, i = .guard (.raise s' l)
  · obtain ⟨s', l, rfl⟩ := hr
    obtain rfl : s' = s := by simpa [Instr.isFor, Instr.service?, GuardInstr.service?] using hi
    cases hs : w.selfIn t s' with
    | none => exact kept (guardOf_proceed_raise_none h rfl hs)
    | some r =>
      rw [guardOf_proceed_raise h rfl hs] at hg
      obtain rfl := Option.some.inj hg
      exact old hs (Or.inr ⟨l, rfl⟩)
  · by_cases hl : ∃ s', i = .guard (.lower s')
    · obtain ⟨s', he⟩ := hl
      rw [guardOf_proceed_lower hw.keeping h he] at hg
      cases hg
    · exact kept (guardOf_proceed hw.keeping h (fun s' l he => hr ⟨s', l, he⟩)
        fun s' he => hl ⟨s', he⟩)

include hu

/-- A thread goes on with the service that it works for. -/
theorem WorksFor.proceed (d : WorksFor w t s) : ∃ s, WorksFor (w.proceed t i rest) t s := by
  have so := hw.sealed t
  have hcode := d.code
  have hne := ne_user_of_ready hu
  have hseq : ∀ j ∈ w.remainder t i rest, j.isGround = false :=
    groundless_of_sequel (run_sequel i hne)
  have hcode' : (w.proceed t i rest).codeOf t = w.remainder t i rest ++ rest := codeOf_proceed h
  rw [h] at so hcode
  cases hgr : i.isGround
  · rw [List.takeWhile_cons_of_pos (by rw [hgr]; rfl)] at hcode
    obtain ⟨hi, hrest⟩ := List.forall_mem_cons.mp hcode
    rcases run_isFor (w := w.setCode t rest) (t := t) i hi with hf | ⟨x, rfl⟩
    · refine ⟨s, ?_, d.guard_proceed hw h hi⟩
      rw [hcode', takeWhile_append hseq]
      intro j hj
      rcases List.mem_append.mp hj with hj | hj
      · exact List.all_eq_true.mp hf j hj
      · exact hrest j hj
    · -- a new service: there is nothing else left to do before the thread's own code
      refine ⟨w.services.length, ?_, fun hg => ?_⟩
      · rw [hcode', takeWhile_append hseq]
        intro j hj
        rcases List.mem_append.mp hj with hj | hj
        · simp only [remainder, Instr.run, MemberInstr.run, publishCode, locked, List.cons_append,
            List.nil_append, List.mem_cons, List.not_mem_nil, or_false] at hj
          rcases hj with rfl | rfl | rfl | rfl
          · rfl
          · exact beq_self_eq_true _
          · rfl
          · rfl
        · cases rest with
          | nil => cases hj
          | cons j' rest =>
            have hgr' := ground_of_lets_establish (so.lets List.mem_cons_self)
            rw [List.takeWhile_cons_of_neg (by rw [hgr']; decide)] at hj
            cases hj
      · rw [guardOf_proceed hw.keeping h (by simp) (by simp), hw.keeping.unguarded h rfl rfl] at hg
        cases hg
  · have he : ∃ s r, i = .member (.exitRaise s r) := by
      cases i with
      | user => exact absurd rfl hne
      | member m => cases m <;> first | exact ⟨_, _, rfl⟩ | cases hgr
      | _ => cases hgr
    obtain ⟨s', r, rfl⟩ := he
    obtain rfl := so.of_exitRaise
    refine ⟨s', ?_, fun hg => ?_⟩
    · rw [hcode', List.append_nil]
      intro j hj
      rcases run_isFor (s := s') (w := w.setCode t []) (t := t) (.member (.exitRaise s' r))
        (beq_self_eq_true _) with hf | ⟨x, hx⟩
      · exact List.all_eq_true.mp hf j (mem_takeWhile hj)
      · cases hx
    · rw [guardOf_proceed hw.keeping h (by simp) (by simp), hw.keeping.unguarded h rfl rfl] at hg
      cases hg

omit hw hu in
theorem WorksFor.proceed_of_ne (d : WorksFor w t' s) (ht : t' ≠ t)
    (hlt : t' < w.threads.length) : WorksFor (w.proceed t i rest) t' s where
  code := by
    rw [codeOf_proceed_of_ne h ht hlt]
    exact d.code
  guard hg := by
    rw [guardOf?, scopesOf_proceed_of_ne ht] at hg
    exact selfIn_proceed (d.guard hg) fun he => absurd he ht

omit hw hu in
/-- A new thread works for the service that has started it. -/
theorem worksFor_proceed_of_le (hl : w.threads.length ≤ t') :
    ∃ s, WorksFor (w.proceed t i rest) t' s := by
  have ht : t' ≠ t := Nat.ne_of_gt (Nat.lt_of_lt_of_le (lt_of_head h) hl)
  have hn : (w.proceed t i rest).scopesOf t' = [] := by
    rw [scopesOf_proceed_of_ne ht]
    exact ofThread_of_le _ _ hl
  have hg : (w.proceed t i rest).guardOf? t' = none := by
    rw [guardOf?, hn]
    rfl
  rcases thread_proceed_of_le h hl with hl | ⟨s, r, _, _, hx⟩
  · refine ⟨0, ?_, fun he => ?_⟩
    · rw [codeOf, ofThread_of_le _ _ hl]
      exact fun j hj => absurd hj List.not_mem_nil
    · rw [hg] at he
      cases he
  · refine ⟨s, fun j hj => ?_, fun he => ?_⟩
    · have hc : (w.proceed t i rest).codeOf t' = threadCode s r := by
        simp only [codeOf, ofThread, hx]
      rw [hc] at hj
      exact List.all_eq_true.mp (threadCode_isFor s r) j (mem_takeWhile hj)
    · rw [hg] at he
      cases he

end Proceed

theorem guardOf_undisturbed (u : Undisturbed w e w') : w'.guardOf? t = w.guardOf? t := by
  rw [guardOf?, u.scopes, guardOf?]

/-- Only a thread in its own code turns to another service. -/
theorem WorksFor.undisturbed (hw : Reachable n w) (u : Undisturbed w e w')
    (d : WorksFor w t s) : ∃ s, WorksFor w' t s := by
  have guard {g} (hg : w'.guardOf? t = some g) : w'.selfIn t s = some g.1 := by
    rw [guardOf_undisturbed u] at hg
    rw [u.selfIn]
    exact d.guard hg
  have free {s'} (hi : w.inUser t = true) {g} (hg : w'.guardOf? t = some g) :
      w'.selfIn t s' = some g.1 := by
    rw [guardOf_undisturbed u, hw.keeping.unguarded_of_user hi] at hg
    cases hg
  rcases u.code t with hc | hc
  · refine ⟨s, ?_, guard⟩
    rw [hc]
    exact d.code
  · generalize hcode : w'.codeOf t = code at hc
    cases hc with
    -- the handler works for no service, and what it is put on is as before
    | interrupt hi =>
      refine ⟨s, fun j hj => ?_, guard⟩
      have hseq : ∀ j ∈ w.handlerCode t ++ [Instr.guard (GuardInstr.setMask false)], j.isGround = false :=
        groundless_of_sequel (all_imp sequel_of_nested handler_nested)
      rw [hcode, takeWhile_append hseq] at hj
      rcases List.mem_append.mp hj with hj | hj
      · exact List.all_eq_true.mp (isFor_of_nested handler_nested) j hj
      · exact d.code j hj
    -- a thread in its own code has no guard open, so it is free to turn to the service of the call
    | invoke c hi =>
      obtain ⟨rest, hr⟩ := head_user hi
      refine ⟨c.service?.getD 0, fun j hj => ?_, free hi⟩
      rw [hcode, hr, takeWhile_append c.code_groundless] at hj
      have hs : c.service?.all (· == c.service?.getD 0) = true := by
        cases c.service? <;> simp
      rcases List.mem_append.mp hj with hj | hj
      · exact List.all_eq_true.mp (c.code_isFor hs) j hj
      · cases hj
    -- under the body of a thread there is only its way out, which is on one service
    | finish q hi =>
      obtain ⟨rest, hr⟩ := head_user hi
      have so := hw.sealed t
      rw [hr] at so
      rw [hr, List.tail_cons] at hcode
      cases rest with
      | nil =>
        refine ⟨0, fun j hj => ?_, free hi⟩
        rw [hcode] at hj
        cases hj
      | cons x rest =>
        obtain ⟨s', r, rfl⟩ := so.of_user List.mem_cons_self
        obtain rfl := so.tail.of_exitRaise
        refine ⟨s', fun j hj => ?_, free hi⟩
        rw [hcode] at hj
        rcases mem_epilogue (mem_takeWhile hj) with hx | ⟨b, c, rfl, hx⟩
        · rw [List.mem_singleton] at hx
          subst hx
          exact beq_self_eq_true _
        · cases List.mem_singleton.mp hx
          exact beq_self_eq_true _

theorem Reachable.worksFor (hw : Reachable n w) (t : ThreadId) : ∃ s, WorksFor w t s := by
  revert t
  refine hw.induct (P := fun w => ∀ t, ∃ s, WorksFor w t s) ?_ ?_
  · intro t
    refine ⟨0, fun j hj => ?_, fun hg => ?_⟩
    · rcases codeOf_initial n t with h | h <;> rw [h] at hj <;> cases hj
    · rw [guardOf?, scopesOf_initial] at hg
      cases hg
  · intro w e hw d t'
    rcases w.step_cases e with ⟨t, i, rest, _, h, hu, hs⟩ | u
    · rw [hs]
      obtain ⟨s, d'⟩ := d t'
      by_cases ht : t' = t
      · subst ht
        exact d'.proceed hw h hu
      · by_cases hlt : t' < w.threads.length
        · exact ⟨s, d'.proceed_of_ne h ht hlt⟩
        · exact worksFor_proceed_of_le h (Nat.le_of_not_lt hlt)
    · obtain ⟨s, d'⟩ := d t'
      exact d'.undisturbed hw u

/-- The guard that a thread closes stands for the thread in the service for which it closes it. -/
theorem selfIn_of_lower (hw : Reachable n w) (h : w.codeOf t = .guard (.lower s) :: rest)
    {g : RecordId × Level × Level} (hg : w.guardOf? t = some g) : w.selfIn t s = some g.1 := by
  obtain ⟨s', d⟩ := hw.worksFor t
  have hi : Instr.isFor s' (.guard (.lower s)) = true := by
    refine d.code _ ?_
    rw [h]
    exact List.mem_cons_self
  obtain rfl : s = s' := by simpa [Instr.isFor, Instr.service?, GuardInstr.service?] using hi
  exact d.guard hg

end Standstill
