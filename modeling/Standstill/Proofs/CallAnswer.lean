import Standstill.Proofs.PoolDoing

/-!
What a call on the pools answers. While a thread is in such a call, what it answers is set by
nothing but the instructions that the thread runs on pool objects.
-/
namespace Standstill

open World

/-- The instruction does not set what its thread answers, unless it is on a pool object, and it
leads to no other instruction that does. -/
def Instr.isMute : Instr → Bool
  | .sync _ | .park _ | .pool _ => true
  | .guard (.disable _) | .guard (.enable _) | .guard (.disableFast _)
  | .guard (.enableFast _) => false
  | .guard _ => true
  | _ => false

/-- Thread `t` makes a call, or its own code ends. -/
def Event.isBy (t : ThreadId) : Event → Bool
  | .invoke t' _ | .finish t' _ => t' == t
  | _ => false

variable {n : Nat} {w w' : World} {t t' : ThreadId} {i : Instr} {j : PoolInstr}
  {base code rest below : List Instr} {e : Event} {es : List Event}

theorem mute_of_nested (h : i.isNested = true) : i.isMute = true := by
  cases i with
  | guard i => cases i <;> first | rfl | cases h
  | sync | park | pool => rfl
  | _ => cases h

section Mute

attribute [local simp] Instr.isMute takeCode locked guarded sleeping stopIfDue

theorem GuardInstr.run_mute (i : GuardInstr) (h : (Instr.guard i).isMute = true) :
    (i.run t w).2.all Instr.isMute = true := by
  cases i <;> simp only [Instr.isMute] at h <;> simp only [GuardInstr.run] <;> repeat' split
  all_goals simp at h ⊢

theorem PoolInstr.run_mute (i : PoolInstr) : (i.run t w).2.all Instr.isMute = true := by
  cases i with
  | mutexFind s k use =>
    simp only [PoolInstr.run]
    split <;> cases use <;> simp [MutexUse.missing, MutexUse.found]
  | condFind s k use =>
    simp only [PoolInstr.run]
    split <;> cases use <;> simp [CondUse.missing, CondUse.found]
  | _ =>
    simp only [PoolInstr.run]
    repeat' split
    all_goals simp

theorem run_mute (h : i.isMute = true) : (i.run t w).2.all Instr.isMute = true := by
  cases i with
  | sync i => cases i <;> simp [Instr.run, SyncInstr.run]
  | guard i => exact i.run_mute h
  | park i => exact all_imp mute_of_nested (run_nested rfl)
  | pool i => exact i.run_mute
  | _ => cases h

/-- The calls on the pools are mute. -/
def Call.isPooled : Call → Bool
  | .mutex .. | .cond .. | .condWait .. => true
  | _ => false

theorem Call.code_mute (c : Call) (h : c.isPooled = true) :
    (c.code w t).all Instr.isMute = true := by
  cases c with
  | mutex s a c => cases a <;> cases c <;> simp [Call.code, MutexCall.code]
  | cond s a c => cases a <;> cases c <;> simp [Call.code, CondCall.code]
  | condWait s c m micros => simp [Call.code]
  | _ => cases h

end Mute

/-! Who sets what a thread answers. -/

section Outcome

attribute [local simp] World.setLevel World.setPhase World.setRequest World.openScope
  World.closeScope World.setMask World.setMaskFor World.fail World.answer World.say
  World.setBinding World.sendSignal World.signalOwner World.modStats World.addRow
  World.modCensus World.modRoster World.count World.setMutexSlots World.setCondSlots
  ofThread_modThread ofThread_addThread

theorem outcomeOf_eq : w.outcomeOf t = w.ofThread t .panicked (·.outcome) := rfl

theorem GuardInstr.outcomeOf_run (i : GuardInstr) (h : t' ≠ t ∨ (Instr.guard i).isMute = true) :
    (i.run t w).1.outcomeOf t' = w.outcomeOf t' := by
  cases i <;> simp only [GuardInstr.run, outcomeOf_eq] <;> repeat' split
  all_goals simp [Instr.isMute] at h ⊢
  all_goals first | (split <;> simp) | simp [h]

theorem ParkInstr.outcomeOf_run (i : ParkInstr) : (i.run t w).1.outcomeOf t' = w.outcomeOf t' :=
  i.keeps (·.outcomeOf t') (by simp [outcomeOf_eq]) (by simp [outcomeOf_eq]) (fun _ => rfl)
    (fun _ _ => rfl) fun _ => rfl

theorem PoolInstr.outcomeOf_run (i : PoolInstr) (h : t' ≠ t) :
    (i.run t w).1.outcomeOf t' = w.outcomeOf t' := by
  cases i with
  | mutexAllot s name | condAllot s name =>
    simp only [PoolInstr.run, outcomeOf_eq]
    split
    · simp [h]
    · simp [h]
      rfl
  | _ =>
    simp only [PoolInstr.run, outcomeOf_eq]
    repeat' split
    all_goals first | rfl | simp [h]

theorem StopInstr.outcomeOf_run (i : StopInstr) (h : t' ≠ t) :
    (i.run t w).1.outcomeOf t' = w.outcomeOf t' := by
  cases i with
  | scanRequest s d rs settled => cases rs <;> rfl
  | _ =>
    simp only [StopInstr.run, outcomeOf_eq] <;> repeat' split
    all_goals simp [h]
    all_goals repeat' split
    all_goals simp

theorem MemberInstr.outcomeOf_run (i : MemberInstr) (h : t' ≠ t) (hl : t' < w.threads.length) :
    (i.run t w).1.outcomeOf t' = w.outcomeOf t' := by
  cases i <;> simp only [MemberInstr.run, outcomeOf_eq] <;> repeat' split
  all_goals simp [h, Nat.ne_of_lt hl]

theorem ReadInstr.outcomeOf_run (i : ReadInstr) (h : t' ≠ t) :
    (i.run t w).1.outcomeOf t' = w.outcomeOf t' := by
  cases i <;> simp only [ReadInstr.run, ReadInstr.tell, ReadInstr.consult, outcomeOf_eq] <;>
    repeat' split
  all_goals simp [h]

end Outcome

theorem outcomeOf_run_of_ne (i : Instr) (h : t' ≠ t) (hl : t' < w.threads.length) :
    (i.run t w).1.outcomeOf t' = w.outcomeOf t' := by
  cases i with
  | user => rfl
  | sync i =>
    obtain ⟨_, _, he⟩ := i.run_fst (w := w) (t := t)
    rw [Instr.run, he]
    rfl
  | guard i => exact i.outcomeOf_run (Or.inl h)
  | park i => exact i.outcomeOf_run
  | stop i => exact i.outcomeOf_run h
  | pool i => exact i.outcomeOf_run h
  | member i => exact i.outcomeOf_run h hl
  | read i => exact i.outcomeOf_run h

theorem outcomeOf_run_of_mute (h : i.isMute = true) (hi : ∀ j, i ≠ .pool j) :
    (i.run t w).1.outcomeOf t' = w.outcomeOf t' := by
  cases i with
  | sync i =>
    obtain ⟨_, _, he⟩ := i.run_fst (w := w) (t := t)
    rw [Instr.run, he]
    rfl
  | guard i => exact i.outcomeOf_run (Or.inr h)
  | park i => exact i.outcomeOf_run
  | pool i => exact absurd rfl (hi i)
  | _ => cases h

theorem outcomeOf_setCode (code : List Instr) : (w.setCode t code).outcomeOf t' = w.outcomeOf t' :=
  ofThread_setCode fun _ _ => rfl

theorem outcomeOf_say {o : Outcome} (h : t < w.threads.length) : (w.say t o).outcomeOf t = o := by
  rw [outcomeOf_eq, say, ofThread_modThread, if_pos rfl, ofThread_const, if_pos h]

theorem outcomeOf_modStats (h : t < w.threads.length) (f : Stats → Stats) :
    ∃ x, (w.modStats t f).outcomeOf t = .value (.stats x) := by
  rw [outcomeOf_eq, modStats, ofThread_modThread, if_pos rfl]
  simp only [ofThread, List.getElem?_eq_getElem h]
  split <;> exact ⟨_, rfl⟩

theorem PoolInstr.outcomeOf_run_setCode (i : PoolInstr) (h : t < w.threads.length)
    (code : List Instr) :
    (i.run t (w.setCode t code)).1.outcomeOf t = (i.run t w).1.outcomeOf t := by
  have hm : (w.setCode t code).mutex = w.mutex := rfl
  have hc : (w.setCode t code).cond = w.cond := rfl
  have hms : (w.setCode t code).mutexSlots = w.mutexSlots := rfl
  have hcs : (w.setCode t code).condSlots = w.condSlots := rfl
  have ht : (w.setCode t code).clock = w.clock := rfl
  have hd : (w.setCode t code).isDue = w.isDue := rfl
  have hml : (w.setCode t code).mutexes = w.mutexes := rfl
  have hcl : (w.setCode t code).conds = w.conds := rfl
  have hl : t < (w.setCode t code).threads.length := by
    rw [threads_length_setCode]
    exact h
  cases i <;> simp only [PoolInstr.run, hm, hc, hms, hcs, ht, hd, hml, hcl] <;> repeat' split
  all_goals first
    | exact outcomeOf_setCode code
    | exact (outcomeOf_say hl).trans (outcomeOf_say h).symm

/-- An event that runs no instruction changes only what the thread answers that makes a call. -/
theorem outcomeOf_step_of_not_by (he : e.isBy t = false) (ha : ∀ t', e ≠ .advance t') :
    (w.step e).outcomeOf t = w.outcomeOf t := by
  cases e with
  | advance t' => exact absurd rfl (ha t')
  | interrupt t' =>
    simp only [World.step, World.interrupt]
    split
    · rw [outcomeOf_eq, ofThread_push fun _ _ => rfl, ofThread_modThread]
      simp [outcomeOf_eq]
    · rfl
  | invoke t' c =>
    have ht : t ≠ t' := by
      rintro rfl
      simp [Event.isBy] at he
    simp only [World.step, World.invoke]
    split
    · split
      · simp [outcomeOf_eq, fail, say, ofThread_modThread, ht]
      · rw [outcomeOf_eq, ofThread_push fun _ _ => rfl]
        simp [outcomeOf_eq, answer, say, ofThread_modThread, ht]
    · rfl
  | finish t' panicked =>
    simp only [World.step, World.finish]
    split
    · simp [outcomeOf_eq, ofThread_modThread]
    · rfl
  | stir q t' => rfl
  | tick | system => rfl

/-! A thread in a stretch of a call. -/

/-- Code of kind `c` leads to nothing else, and nor does what a handler does. -/
structure Stretch (c : Instr → Bool) : Prop where
  run : ∀ {w t i}, c i = true → (Instr.run t w i).2.all c = true
  nested : ∀ {i}, i.isNested = true → c i = true

section Step

variable {c : Instr → Bool} (st : Stretch c) (hc : w.codeOf t = top ++ i :: rest)
include st hc

theorem Stretch.advance (ht : top.all c = true) (q : ThreadId) :
    (∃ top', top'.all c = true ∧ (w.advance q).codeOf t = top' ++ i :: rest ∧
      ((w.advance q).outcomeOf t = w.outcomeOf t ∨
        ∃ k below, c k = true ∧ q = t ∧ w.codeOf t = k :: below ∧
          w.advance q = w.proceed t k below)) ∨
    q = t ∧ w.codeOf t = i :: rest ∧ i ≠ .user ∧ i.isReady w t = true ∧
      w.advance q = w.proceed t i rest := by
  have hl : t < w.threads.length := by
    apply lt_of_codeOf
    rw [hc]
    simp
  rcases w.advance_cases q with hs | ⟨j, below, h, hu, hs⟩
  · exact .inl ⟨top, ht, by rw [hs, hc], .inl (by rw [hs])⟩
  by_cases hq : t = q
  · subst hq
    -- with nothing above it the thread comes to its instruction, otherwise the stretch goes on
    cases top with
    | nil =>
      obtain ⟨rfl, rfl⟩ := List.cons.inj (h.symm.trans hc)
      exact .inr ⟨rfl, h, ne_user_of_ready hu, hu, hs⟩
    | cons k top =>
      obtain ⟨rfl, rfl⟩ := List.cons.inj (h.symm.trans hc)
      rw [List.all_cons, Bool.and_eq_true] at ht
      refine .inl ⟨w.remainder t j (top ++ i :: rest) ++ top, ?_, ?_, .inr ⟨j, _, ht.1, rfl, h, hs⟩⟩
      · rw [List.all_append, Bool.and_eq_true]
        exact ⟨st.run ht.1, ht.2⟩
      · rw [hs, codeOf_proceed h, List.append_assoc]
        rfl
  · have hl' : t < (w.setCode q below).threads.length := by
      rw [threads_length_setCode]
      exact hl
    refine .inl ⟨top, ht, ?_, .inl ?_⟩
    · rw [hs, codeOf_proceed_of_ne h hq hl, hc]
    · rw [hs, outcomeOf_proceed, outcomeOf_run_of_ne j hq hl', outcomeOf_setCode]

/-- One event, as a thread in a call sees it: what is left of the call stays below code of kind `c`,
or the thread runs the first instruction of it. -/
theorem Stretch.step (ht : top.all c = true) (he : e.isBy t = false) :
    (∃ top', top'.all c = true ∧ (w.step e).codeOf t = top' ++ i :: rest ∧
      ((w.step e).outcomeOf t = w.outcomeOf t ∨
        ∃ k below, c k = true ∧ e = .advance t ∧ w.codeOf t = k :: below ∧
          w.step e = w.proceed t k below)) ∨
    e = .advance t ∧ w.codeOf t = i :: rest ∧ i ≠ .user ∧ i.isReady w t = true ∧
      w.step e = w.proceed t i rest := by
  by_cases ha : ∃ q, e = .advance q
  · obtain ⟨q, rfl⟩ := ha
    rcases st.advance hc ht q with ⟨top', ht', hc', ho⟩ | ⟨hq, h⟩
    · exact .inl ⟨top', ht', hc',
        ho.imp_right fun ⟨k, below, hk, hq, h⟩ => ⟨k, below, hk, congrArg Event.advance hq, h⟩⟩
    · exact .inr ⟨congrArg Event.advance hq, h⟩
  have hout := outcomeOf_step_of_not_by (w := w) he fun q hq => ha ⟨q, hq⟩
  left
  rcases w.step_cases e with ⟨q, j, below, rfl, h, hu, hs⟩ | u
  · exact absurd ⟨q, rfl⟩ ha
  rcases u.code t with hx | hx
  · exact ⟨top, ht, hx.trans hc, .inl hout⟩
  generalize hcode : (w.step e).codeOf t = code at hx
  cases hx with
  | interrupt h =>
    -- the handler runs on top of all that is left of the call
    have hn : (w.handlerCode t ++ [Instr.guard (.setMask false)]).all c = true :=
      all_imp st.nested handler_nested
    refine ⟨w.handlerCode t ++ [.guard (.setMask false)] ++ top, ?_, ?_, .inl hout⟩
    · rw [List.all_append, Bool.and_eq_true]
      exact ⟨hn, ht⟩
    · rw [hc, List.append_assoc _ top]
  | invoke c h => simp [Event.isBy] at he
  | finish panicked h => simp [Event.isBy] at he

end Step

theorem stretch_mute : Stretch Instr.isMute where
  run := run_mute
  nested := mute_of_nested

/-! The thread in its call. -/

/-- Thread `t` is in a call on the pools that it has made from `base`. -/
def World.Calling (w : World) (t : ThreadId) (base : List Instr) : Prop :=
  ∃ top, w.codeOf t = top ++ base ∧ top.all Instr.isMute = true

theorem World.Calling.step (hc : w.Calling t (.user :: base)) (he : e.isBy t = false) :
    (w.step e).Calling t (.user :: base) := by
  obtain ⟨top, hc, hm⟩ := hc
  rcases stretch_mute.step hc hm he with ⟨top', hm', hc', -⟩ | ⟨-, -, hu, -⟩
  · exact ⟨top', hc', hm'⟩
  · exact absurd rfl hu

theorem World.Calling.lt (hc : w.Calling t (.user :: base)) : t < w.threads.length := by
  obtain ⟨top, hc, _⟩ := hc
  apply lt_of_codeOf
  rw [hc]
  simp

theorem outcomeOf_of_ran (h : t < w.threads.length) (hr : w.ran (.advance t) = some j) :
    (w.step (.advance t)).outcomeOf t = (j.run t w).1.outcomeOf t := by
  obtain ⟨t', rest, ht, hs⟩ := poolRun_of_ran hr
  obtain rfl := Event.advance.inj ht
  obtain ⟨below, hc⟩ := hs.head
  have hp : w.step (.advance t) = w.proceed t (.pool j) below := advance_of_code hc rfl
  rw [hp, outcomeOf_proceed, Instr.run, j.outcomeOf_run_setCode h]

/-- Only what the thread itself runs on a pool object sets what the call answers. -/
theorem World.Calling.outcome_step (hc : w.Calling t (.user :: base)) (he : e.isBy t = false)
    (hr : e = .advance t → w.ran e = none) : (w.step e).outcomeOf t = w.outcomeOf t := by
  obtain ⟨top, hc, hm⟩ := hc
  rcases stretch_mute.step hc hm he with ⟨-, -, -, ho | ⟨k, below, hk, rfl, h, hs⟩⟩ | ⟨-, -, hu, -⟩
  · exact ho
  · have hn : ∀ j, k ≠ .pool j := by
      rintro j rfl
      have hr := hr rfl
      rw [ran, head_eq, h] at hr
      cases hr
    rw [hs, outcomeOf_proceed, outcomeOf_run_of_mute hk hn, outcomeOf_setCode]
  · exact absurd rfl hu

/-- One event, as the thread in the call sees it: the thread runs something on a pool object, or
what it does and what it is going to answer stay as they are. -/
theorem World.Calling.step_doing (hc : w.Calling t (.user :: base)) (p : Pacing w)
    (he : e.isBy t = false) :
    (∃ j rest, e = .advance t ∧ PoolRun w t (.pool j) rest (w.step e) ∧ w.doing t = some j ∧
      (w.step e).doing t = firstPool (j.run t w).2 ∧
      (w.step e).outcomeOf t = (j.run t w).1.outcomeOf t) ∨
    (e = .advance t → w.ran e = none) ∧ (w.step e).doing t = w.doing t ∧
      (w.step e).outcomeOf t = w.outcomeOf t := by
  cases hr : w.ran e with
  | some j =>
    obtain ⟨t', rest, rfl, hs⟩ := poolRun_of_ran hr
    -- what other threads run on the pools is none of this thread's doing
    by_cases ht : t' = t
    · subst ht
      obtain ⟨hd, hd'⟩ := hs.doing_pool p
      exact Or.inl ⟨j, rest, rfl, hs, hd, hd', outcomeOf_of_ran hc.lt hr⟩
    · have hne (h : Event.advance t' = .advance t) : w.ran (.advance t') = none :=
        absurd (Event.advance.inj h) ht
      exact Or.inr ⟨hr ▸ hne, hs.doing_of_ne (Ne.symm ht), hc.outcome_step he hne⟩
  | none =>
    right
    refine ⟨fun _ => rfl, ?_, hc.outcome_step he fun _ => hr⟩
    rcases p.doing_of_not_ran hr t with hd | ⟨_, c, rfl, _⟩
    · exact hd
    · simp [Event.isBy] at he

/-- Thread `t` makes the call `c`, and comes back from it on the run `es`. -/
structure World.Returns (w : World) (t : ThreadId) (c : Call) (es : List Event) : Prop where
  user : w.inUser t = true
  busy : ∀ e ∈ es, e.isBy t = false
  back : ((w.step (.invoke t c)).run es).codeOf t = w.codeOf t

/-- A call that is not refused begins with its own code, and as if it would succeed. -/
theorem invoke_admitted {c : Call} (hu : w.inUser t = true) (hr : c.refusal? = none) :
    (w.step (.invoke t c)).codeOf t = c.code w t ++ w.codeOf t ∧
      (w.step (.invoke t c)).outcomeOf t = .value .unit := by
  have hs : w.step (.invoke t c) = (w.answer t .unit).push t (c.code w t) := by
    simp only [World.step, World.invoke, hu, if_true, hr]
  have hl : t < w.threads.length := by
    obtain ⟨rest, hcode⟩ := head_user hu
    apply lt_of_codeOf
    rw [hcode]
    simp
  constructor
  · have hl' : t < (w.answer t .unit).threads.length := by simpa [answer, say] using hl
    have ha : (w.answer t .unit).codeOf t = w.codeOf t := by
      simp [codeOf, answer, say, ofThread_modThread]
    rw [hs, codeOf_push hl', if_pos rfl, ha]
  · rw [hs, outcomeOf_eq, ofThread_push fun _ _ => rfl]
    exact outcomeOf_say hl

theorem invoke_pooled {c : Call} (hu : w.inUser t = true) (hc : c.isPooled = true) :
    (w.step (.invoke t c)).Calling t (w.codeOf t) ∧
      (w.step (.invoke t c)).outcomeOf t = .value .unit ∧
      (w.step (.invoke t c)).codeOf t = c.code w t ++ w.codeOf t := by
  have hr : c.refusal? = none := by
    cases c <;> first | rfl | cases hc
  obtain ⟨hcode, hout⟩ := invoke_admitted hu hr
  exact ⟨⟨_, hcode, c.code_mute hc⟩, hout, hcode⟩

/-- What holds at the beginning of a stretch of a call and is kept by each step holds at its end. -/
theorem World.Calling.run {P : World → Prop} {Q : World → Event → Prop} (h : Reachable n w)
    (hc : w.Calling t (.user :: base)) (hb : ∀ e ∈ es, e.isBy t = false) (hq : w.Along Q es)
    (hp : P w) (hs : ∀ w e, Reachable n w → w.Calling t (.user :: base) → e.isBy t = false →
      Q w e → P w → P (w.step e)) : P (w.run es) := by
  induction es generalizing w with
  | nil => exact hp
  | cons e es ih =>
    have he := hb e List.mem_cons_self
    exact ih (h.step e) (hc.step he) (fun e' he' => hb e' (List.mem_cons_of_mem _ he')) hq.2
      (hs w e h hc he hq.1 hp)

/-- A thread in code of its own is doing nothing on the pools. -/
theorem Pacing.doing_of_user (p : Pacing w) (h : w.codeOf t = .user :: base) :
    w.doing t = none := by
  have hg := p.grounded t
  rw [h] at hg
  have hp : w.poolCode t = [] := by
    rw [poolCode, h, List.filter_cons_of_neg (by simp [Instr.isPooled]), List.filter_eq_nil_iff]
    intro j hj
    simp [(List.pairwise_cons.mp hg).1 j hj rfl]
  rw [doing, hp]
  rfl

/-- A thread that has made a call is doing the first thing in it. -/
theorem doing_of_admitted {c : Call} (h : Reachable n w) (hu : w.inUser t = true)
    (hr : c.refusal? = none) : (w.step (.invoke t c)).doing t = firstPool (c.code w t) := by
  obtain ⟨base, hbase⟩ := head_user hu
  have hn : firstPool (w.codeOf t) = none := by
    rw [← firstPool_filter]
    exact h.pacing.doing_of_user hbase
  rw [doing, poolCode, firstPool_filter, (invoke_admitted hu hr).1, firstPool_append, hn,
    Option.or_none]

theorem doing_of_invoke {c : Call} (h : Reachable n w) (hu : w.inUser t = true)
    (hc : c.isPooled = true) : (w.step (.invoke t c)).doing t = firstPool (c.code w t) := by
  refine doing_of_admitted h hu ?_
  cases c <;> first | rfl | cases hc

/-- And when it is back it is doing nothing. -/
theorem World.Returns.doing_eq_none {c : Call} (hr : w.Returns t c es) (h : Reachable n w) :
    ((w.step (.invoke t c)).run es).doing t = none := by
  obtain ⟨base, hbase⟩ := head_user hr.user
  exact ((h.step _).run es).pacing.doing_of_user (hr.back.trans hbase)

/-- What a call begins with, and every step of it keeps, holds when the thread is back from it. -/
theorem World.Returns.induct {P : World → Prop} {Q : World → Event → Prop} {c : Call}
    (h : Reachable n w) (hr : w.Returns t c es) (hc : c.isPooled = true)
    (hq : (w.step (.invoke t c)).Along Q es)
    (h0 : ∀ w', w'.doing t = firstPool (c.code w t) → w'.outcomeOf t = .value .unit →
      w' = w.step (.invoke t c) → P w')
    (hs : ∀ w e base, Reachable n w → w.Calling t (.user :: base) → e.isBy t = false → Q w e →
      P w → P (w.step e)) :
    P ((w.step (.invoke t c)).run es) := by
  obtain ⟨base, hbase⟩ := head_user hr.user
  obtain ⟨hcall, hout, _⟩ := invoke_pooled hr.user hc
  rw [hbase] at hcall
  exact hcall.run (h.step _) hr.busy hq (h0 _ (doing_of_invoke h hr.user hc) hout rfl)
    fun w e hw hc he hq hp => hs w e base hw hc he hq hp

end Standstill
