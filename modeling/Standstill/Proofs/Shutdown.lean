import Standstill.Proofs.SpawnAnswer

/-!
Waiting for the threads of a service to end. A call that does so comes back with success only from a
moment at which the caller has the lock of the roster and reads a count of zero. Main statement: at
that moment all threads that were started before and are no daemons have run their last section, and
their records stand in no roster.
-/
namespace Standstill

open World

variable {n : Nat} {w w' : World} {t t' q : ThreadId} {s b : ServiceId} {r : RecordId} {i j : Instr}
  {top base rest : List Instr} {e : Event} {es fs : List Event} {o : SpawnOptions}

/-! Waiting for the threads of a service. -/

/-- How far the call has come that waits for the threads of service `s`. -/
inductive Awaiting (w : World) (t : ThreadId) (s : ServiceId) (base : List Instr) : Prop
  | begun (top : List Instr) (micros : Option Nat) (ht : top.all Instr.isSilent = true)
      (hc : w.codeOf t = top ++ .member (.awaitExit s micros) :: .user :: base)
      (ho : w.outcomeOf t = .value .unit)
  | pending (top : List Instr) (deadline : Option Nat) (ht : top.all Instr.isSilent = true)
      (hc : w.codeOf t = top ++ .member (.awaitExitCheck s deadline) :: .user :: base)
      (ho : w.outcomeOf t = .value .unit)
  | failed (top : List Instr) (ht : top.all Instr.isSilent = true)
      (hc : w.codeOf t = top ++ .user :: base) (ho : w.outcomeOf t = .fault .timeout)

theorem Awaiting.step (a : Awaiting w t s base) (he : e.isBy t = false) :
    Awaiting (w.step e) t s base ∨
      e = .advance t ∧ (w.census s).nonDaemon = 0 ∧ w.outcomeOf t = .value .unit ∧
        ∃ deadline, w.codeOf t = .member (.awaitExitCheck s deadline) :: .user :: base := by
  cases a with
  | begun top micros ht hc ho =>
    left
    rcases silent_step hc ht he with ⟨top', ht', hc', ho'⟩ | ⟨rfl, h, -, -, hs⟩
    · exact .begun top' micros ht' hc' (ho'.trans ho)
    · refine .pending [.guard (.raise s .blocking), .sync (.acquire (.roster s))]
        (micros.map (w.clock + ·)) rfl ?_ ?_
      · rw [hs, codeOf_proceed h]
        rfl
      · rw [hs, outcomeOf_proceed]
        exact (outcomeOf_setCode _).trans ho
  | pending top deadline ht hc ho =>
    rcases silent_step hc ht he with ⟨top', ht', hc', ho'⟩ | ⟨rfl, h, -, -, hs⟩
    · exact Or.inl (.pending top' deadline ht' hc' (ho'.trans ho))
    · -- the check: it finds nobody, or fails at the deadline, or waits once more
      by_cases hz : (w.census s).nonDaemon = 0
      · exact Or.inr ⟨rfl, hz, ho, deadline, h⟩
      · left
        have hz' : ((w.setCode t (.user :: base)).census s).nonDaemon ≠ 0 := hz
        have hl : t < (w.setCode t (.user :: base)).threads.length := by
          rw [threads_length_setCode]
          exact lt_of_head h
        cases hd : (w.setCode t (.user :: base)).isDue deadline with
        | true =>
          refine .failed (leaveRoster s) (silent_leaveRoster s) ?_ ?_
          · rw [hs, codeOf_proceed h, remainder]
            simp [Instr.run, MemberInstr.run, hz', hd]
          · rw [hs, outcomeOf_proceed]
            simp only [Instr.run, MemberInstr.run, hz', hd, if_false, if_true]
            exact outcomeOf_fail hl
        | false =>
          refine .pending [.sync (.wait (.roster s) (.roster s) deadline)] deadline rfl ?_ ?_
          · rw [hs, codeOf_proceed h, remainder]
            simp [Instr.run, MemberInstr.run, hz', hd]
          · rw [hs, outcomeOf_proceed]
            simp only [Instr.run, MemberInstr.run, hz', hd, if_false]
            exact (outcomeOf_setCode _).trans ho
  | failed top ht hc ho =>
    obtain ⟨top', ht', hc', ho'⟩ := silent_step_out hc ht he
    exact Or.inl (.failed top' ht' hc' (ho'.trans ho))

/-- A wait that succeeds has come by the check at a moment when the count was zero. -/
theorem Awaiting.run (a : Awaiting w t s base) (hb : ∀ e ∈ es, e.isBy t = false)
    (hc : (w.run es).codeOf t = .user :: base) (ho : (w.run es).outcomeOf t = .value .unit) :
    ∃ fs₁ fs₂, es = fs₁ ++ .advance t :: fs₂ ∧ ((w.run fs₁).census s).nonDaemon = 0 ∧
      ∃ deadline rest, (w.run fs₁).codeOf t = .member (.awaitExitCheck s deadline) :: rest := by
  induction es generalizing w with
  | nil =>
    cases a with
    | begun top _ _ hc' | pending top _ _ hc' =>
      have hlen := congrArg List.length (hc.symm.trans hc')
      simp at hlen
      omega
    | failed _ _ _ ho' => cases ho.symm.trans ho'
  | cons e es ih =>
    rcases a.step (hb e List.mem_cons_self) with a | ⟨rfl, hz, -, deadline, h⟩
    · obtain ⟨fs₁, fs₂, rfl, hz⟩ := ih a (fun e he => hb e (List.mem_cons_of_mem _ he)) hc ho
      exact ⟨e :: fs₁, fs₂, rfl, hz⟩
    · exact ⟨[], es, rfl, hz, deadline, _, h⟩

/-! Threads that have come to their end. -/

/-- Who runs its last section leaves nobody who could enter its record. -/
theorem gone_of_exitRemove (hw : Lawful n w) (h : w.codeOf t = .member (.exitRemove s r) :: rest) :
    Gone (w.proceed t (.member (.exitRemove s r)) rest) r := by
  have c := hw.reachable.custody
  have hm : .member (.exitRemove s r) ∈ w.codeOf t := h ▸ List.mem_cons_self
  have ho : w.ownerOf r = some t := ownerOf_of_removes hw h (s := s) rfl
  have hr := lt_of_ownerOf ho
  refine ⟨Nat.lt_of_lt_of_le hr World.records_length_proceed, not_mem_members_of_removes hw h rfl,
    fun hj hj' => ?_⟩
  rcases unlisted_of_proceed hw h rfl hj hj' with rfl | ⟨q, k, hk, hkr⟩
  · exact Nat.lt_irrefl _ hr
  · have own (hx : k.record? = some r) : k.isParting = true := by
      rw [c.eq_of_record hk hx ho] at hk
      exact List.all_eq_true.mp (hw.leaving.parting hm) k hk
    cases k with
    | member k =>
      cases k with
      | spawnNative b x =>
        cases hkr
        exact absurd (ho.symm.trans (c.borne hk).2.1) fun hx => by cases hx
      | publish b x | gateEnter b x =>
        cases hkr
        cases own rfl
      | _ => cases hkr
    | _ => cases hkr

theorem gone_of_hasEnded (ha : (World.initial n).admits es = true)
    (he : (World.initial n).hasEnded s r es = true) : Gone ((World.initial n).run es) r := by
  induction es using List.reverseRecOn with
  | nil => cases he
  | append_singleton es e ih =>
    rw [admits_append, Bool.and_eq_true] at ha
    have hw : Lawful n ((World.initial n).run es) := ⟨es, ha.1, rfl⟩
    rw [run_snoc]
    rcases runs_snoc_cases he with he | hi
    · exact (ih ha.1 he).step hw e
    · obtain ⟨t, rest, rfl, h⟩ := upNext_eq_some.mp hi
      rw [step_of_code h rfl]
      exact gone_of_exitRemove hw h

theorem daemonOf_run (hw : Lawful n w) (ha : w.admits es = true) (hr : r < w.records.length) :
    (w.run es).daemonOf r = w.daemonOf r :=
  (hw.run_induct (P := fun v => r < v.records.length ∧ v.daemonOf r = w.daemonOf r) ha ⟨hr, rfl⟩
    fun v e _ _ h => ⟨Nat.lt_of_lt_of_le h.1 (records_length_step v e),
      (daemonOf_step e h.1).trans h.2⟩).2

/-- While nobody serves, those that have come to serve have ended, unless they are daemons. -/
theorem hasEnded_of_serving_eq_zero (hz : (World.initial n).serving s es = 0)
    (hr : r < ((World.initial n).run es).records.length)
    (hd : ((World.initial n).run es).daemonOf r = false)
    (hp : (World.initial n).hasPassed s r es = true) : (World.initial n).hasEnded s r es = true := by
  have hn := List.countP_eq_zero.mp hz r (List.mem_range.mpr hr)
  simpa [isServing, hd, hp] using hn

/-- On the run `es` a call that starts a thread of service `s`, and no daemon, has come back with
handle `k`. -/
def HandedOut (n : Nat) (es : List Event) (s : ServiceId) (k : Handle) : Prop :=
  ∃ t o es₁ es₂, es₁ ++ .invoke t (.spawn s o) :: es₂ <+: es ∧ o.daemon = false ∧
    ((World.initial n).run es₁).Returns t (.spawn s o) es₂ ∧
    ((World.initial n).run (es₁ ++ .invoke t (.spawn s o) :: es₂)).outcomeOf t = .value (.handle k)

/-- The thread of a handle that has been given back has gone through the gate. -/
theorem HandedOut.passed {k : Handle} (h : HandedOut n es s k)
    (ha : (World.initial n).admits es = true) :
    ∃ r, k = r + 1 ∧ r < ((World.initial n).run es).records.length ∧
      ((World.initial n).run es).daemonOf r = false ∧ (World.initial n).hasPassed s r es = true := by
  obtain ⟨t, o, es₁, es₂, ⟨fs, rfl⟩, hd, hret, ho⟩ := h
  rw [admits_append, Bool.and_eq_true] at ha
  have hw : Lawful n ((World.initial n).run (es₁ ++ .invoke t (.spawn s o) :: es₂)) :=
    ⟨_, ha.1, rfl⟩
  obtain ⟨x, base, hback, hsp⟩ := spawning_of_returns ha.1 hret
  obtain ⟨r, rfl, hr, hp⟩ := hsp.hired hback ho
  have hlt := lt_of_homeOf hr.home
  refine ⟨r, rfl, ?_, ?_, ?_⟩
  · rw [run_append]
    exact hw.run_induct (P := fun v => r < v.records.length) ha.2 hlt
      fun v e _ _ h => Nat.lt_of_lt_of_le h (records_length_step v e)
  · rw [run_append, daemonOf_run hw ha.2 hlt, hr.daemon, hd]
  · rw [hasPassed, runs_append, ← hasPassed, hp, Bool.true_or]

/-- At the end of the run `es` thread `t` reads, in its section on the roster, a count of zero; all
that was started before without being a daemon is off the roster, and stays so. -/
structure ShutDown (n : Nat) (es : List Event) (t : ThreadId) (s : ServiceId) : Prop where
  checks : ∃ deadline rest,
    ((World.initial n).run es).codeOf t = .member (.awaitExitCheck s deadline) :: rest
  locked : (.roster s, t) ∈ ((World.initial n).run es).held
  counted : (((World.initial n).run es).census s).nonDaemon = 0
  nobody : (World.initial n).serving s es = 0
  parted : ∀ k fs, HandedOut n es s k → (World.initial n).admits (es ++ fs) = true →
    (((World.initial n).run (es ++ fs)).roster s).lookup k = none

theorem shutDown_of_zero (ha : (World.initial n).admits es = true)
    (hz : (((World.initial n).run es).census s).nonDaemon = 0) {d : Option Nat}
    (h : ((World.initial n).run es).codeOf t = .member (.awaitExitCheck s d) :: rest) :
    ShutDown n es t s := by
  have hw : Lawful n ((World.initial n).run es) := ⟨es, ha, rfl⟩
  have hn : (World.initial n).serving s es = 0 := (nonDaemon_eq_serving es ha s).symm.trans hz
  refine ⟨⟨d, rest, h⟩, hw.reachable.keeping.held_of_head h List.mem_cons_self, hz, hn, ?_⟩
  intro k fs hk hfs
  rw [admits_append, Bool.and_eq_true] at hfs
  obtain ⟨r, rfl, hr, hd, hp⟩ := hk.passed ha
  have g := (gone_of_hasEnded ha (hasEnded_of_serving_eq_zero hn hr hd hp)).run hw hfs.2
  rw [run_append]
  exact ((hw.run hfs.2).rostered.tagged s).lookup_eq_none (g.outside s)

/-- A service counts its threads that have gone through the gate, are no daemons and have not run
their last section; the count never goes below zero; and who waits for these threads and succeeds has
read a count of zero under the lock of the roster, when none of them was registered any more. -/
theorem await_exit_reads_an_exact_count (n : Nat) (es : List Event) (s : ServiceId)
    (ha : (World.initial n).admits es = true) :
    (((World.initial n).run es).census s).nonDaemon = (World.initial n).serving s es ∧
    (∀ t r es₁ es₂, es = es₁ ++ .advance t :: es₂ →
      ((World.initial n).run es₁).upNext (.advance t) = some (.member (.exitRemove s r)) →
      ((World.initial n).run es₁).daemonOf r = false →
      (((World.initial n).run (es₁ ++ [.advance t])).census s).nonDaemon + 1 =
        (((World.initial n).run es₁).census s).nonDaemon) ∧
    (∀ t micros es₁ es₂, es = es₁ ++ .invoke t (.awaitExit s micros) :: es₂ →
      ((World.initial n).run es₁).Returns t (.awaitExit s micros) es₂ →
      ((World.initial n).run es).outcomeOf t = .value .unit →
      ∃ fs₁ fs₂, es₂ = fs₁ ++ .advance t :: fs₂ ∧
        ShutDown n (es₁ ++ .invoke t (.awaitExit s micros) :: fs₁) t s) := by
  refine ⟨nonDaemon_eq_serving es ha s, ?_, ?_⟩
  · rintro t r es₁ es₂ rfl hx hd
    have ha' : (World.initial n).admits (es₁ ++ [.advance t]) = true := by
      rw [← List.singleton_append, ← List.append_assoc, admits_append, Bool.and_eq_true] at ha
      exact ha.1
    have ha₁ : (World.initial n).admits es₁ = true := by
      rw [admits_append, Bool.and_eq_true] at ha'
      exact ha'.1
    have hc := (staged es₁ ha₁).serving_exitRemove ⟨es₁, ha₁, rfl⟩ hx
    rw [nonDaemon_eq_serving _ ha', nonDaemon_eq_serving _ ha₁, hc, hd]
    rfl
  · rintro t micros es₁ es₂ rfl hret ho
    obtain ⟨base, hbase⟩ := head_user hret.user
    obtain ⟨hcode, hout⟩ := invoke_admitted (c := .awaitExit s micros) hret.user rfl
    have a : Awaiting (((World.initial n).run es₁).step (.invoke t (.awaitExit s micros))) t s base :=
      .begun [] micros rfl (by rw [hcode, hbase]; rfl) hout
    rw [run_append, run_cons] at ho
    -- the call has only one way back with success, a look that finds the count at zero
    obtain ⟨fs₁, fs₂, rfl, hz, d, rest, h⟩ := a.run hret.busy (hret.back.trans hbase) ho
    have hrun : (World.initial n).run (es₁ ++ .invoke t (.awaitExit s micros) :: fs₁) =
        (((World.initial n).run es₁).step (.invoke t (.awaitExit s micros))).run fs₁ := by
      rw [run_append, run_cons]
    have hadm : (World.initial n).admits (es₁ ++ .invoke t (.awaitExit s micros) :: fs₁) = true := by
      rw [← List.cons_append, ← List.append_assoc, admits_append, Bool.and_eq_true] at ha
      exact ha.1
    rw [← hrun] at hz h
    exact ⟨fs₁, fs₂, rfl, shutDown_of_zero hadm hz h⟩

/-- The main thread comes to wait, the thread that has been started ends, and the main thread goes on. -/
def awaitedEnd : List Event := turns 0 6 ++ .finish 1 false :: turns 1 7 ++ turns 0 7

theorem wait_comes_back_after_the_end :
    (World.initial 1).serving 0 spawned = 1 ∧
      ∃ fs₁ fs₂, awaitedEnd = fs₁ ++ .advance 0 :: fs₂ ∧
        ShutDown 1 (spawned ++ .invoke 0 (.awaitExit 0 none) :: fs₁) 0 0 ∧
        HandedOut 1 (spawned ++ .invoke 0 (.awaitExit 0 none) :: fs₁) 0 2 := by
  obtain ⟨-, -, hwait⟩ := await_exit_reads_an_exact_count 1
    (spawned ++ .invoke 0 (.awaitExit 0 none) :: awaitedEnd) 0 (by decide +kernel)
  have back : ((World.initial 1).run spawned).Returns 0 (.awaitExit 0 none) awaitedEnd :=
    ⟨by decide +kernel, by decide, by decide +kernel⟩
  obtain ⟨fs₁, fs₂, hes, hd⟩ := hwait 0 none spawned awaitedEnd rfl back (by decide +kernel)
  refine ⟨by decide +kernel, fs₁, fs₂, hes, hd, ?_⟩
  refine ⟨0, {}, .invoke 0 (.establish { mechanism := .safepoint }) :: turns 0 5,
    turns 0 8 ++ turns 1 17 ++ turns 0 7, ⟨.invoke 0 (.awaitExit 0 none) :: fs₁, ?_⟩, rfl,
    ⟨by decide +kernel, by decide, by decide +kernel⟩, by decide +kernel⟩
  simp [spawned]

end Standstill
