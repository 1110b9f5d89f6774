import Standstill.Proofs.CallStages
import Standstill.Proofs.Serving

/-!
What a call answers that starts a thread. The priority and the size of the stack are looked at before
anything is done; then the system is asked for the thread, under the name that the record keeps. Main
statement: which of the answers a call gives is a matter of its options and of what the system replies,
and of nothing else; the call panics if the stored name has a NUL in it. A call that comes back with a
handle has waited until the new thread has gone through the start gate.
-/
namespace Standstill

open World

/-- What the service itself has against the options. -/
def SpawnOptions.misfit? (o : SpawnOptions) : Option BadArgument :=
  if o.priority < minPriority ∨ maxPriority < o.priority then some .priority
  else if o.stackSize ≠ 0 ∧ o.stackSize < minStackSize then some .stackSize
  else none

/-- There is nothing in the options that speaks against a thread. -/
@[mk_iff]
structure SpawnOptions.Passes (o : SpawnOptions) : Prop where
  fits : o.misfit? = none
  named : isRefusedName (Label.clamp o.name) = false

/-- What a call answers that is to start a thread with options `o` and does not, with what the system
had to reply if the call came as far as that. -/
inductive SpawnOptions.Denied (o : SpawnOptions) : Option ThreadReply → Outcome → Prop
  | misfit (b : BadArgument) (h : o.misfit? = some b) : Denied o none (.fault (.badArgument b))
  | name (reply : ThreadReply) (h : o.misfit? = none)
      (hn : isRefusedName (Label.clamp o.name) = true) : Denied o (some reply) .panicked
  | scarce (e : SystemError) (live : Nat) (h : o.Passes) (he : e.isShortage = true) :
      Denied o (some (.refused e)) (.fault (.exhausted live))
  | failed (e : SystemError) (h : o.Passes) (he : e.isShortage = false) :
      Denied o (some (.refused e)) (.fault (.badArgument .nativeThread))

/-- Asks the system for a thread. -/
def Instr.asksForThread : Instr → Bool
  | .member (.spawnNative ..) => true
  | _ => false

/-- What the system has to reply at the event `e`, if that is when thread `t` comes to ask it for a
thread. -/
def World.replyAt? (w : World) (t : ThreadId) (e : Event) : Option ThreadReply :=
  if e = .advance t ∧ (w.upNext e).any Instr.asksForThread then some w.system.thread else none

/-- What the system has to reply on the run `es` when thread `t` first comes to ask it for a thread. -/
def World.threadReply? (w : World) (t : ThreadId) : List Event → Option ThreadReply
  | [] => none
  | e :: es => (w.replyAt? t e).or ((w.step e).threadReply? t es)

variable {n : Nat} {w w' : World} {t t' q : ThreadId} {s b : ServiceId} {r : RecordId} {i j : Instr}
  {top base rest : List Instr} {e : Event} {es fs : List Event} {o : SpawnOptions} {x : Settings}
  {a : Outcome} {reply : Option ThreadReply}

theorem SpawnOptions.Denied.ne_handle (h : o.Denied reply a) (k : Handle) :
    a ≠ .value (.handle k) := by
  cases h <;> exact fun hk => by cases hk

theorem replyAt_self (h : w.codeOf t = .member (.spawnNative s r) :: rest) :
    w.replyAt? t (.advance t) = some w.system.thread := by
  have hu : w.upNext (.advance t) = some (.member (.spawnNative s r)) :=
    upNext_eq_some.mpr ⟨t, rest, rfl, h⟩
  rw [replyAt?, hu]
  exact if_pos ⟨rfl, rfl⟩

theorem replyAt_eq_none (h : ∀ s r below, e = .advance t →
    w.codeOf t ≠ .member (.spawnNative s r) :: below) : w.replyAt? t e = none := by
  refine if_neg ?_
  rintro ⟨rfl, ha⟩
  obtain ⟨i, hi, hx⟩ := (Option.any_eq_true _ _).mp ha
  obtain ⟨_, rest, he, hc⟩ := upNext_eq_some.mp hi
  cases he
  cases i with
  | member k =>
    cases k with
    | spawnNative s r => exact h s r rest rfl hc
    | _ => cases hx
  | _ => cases hx

theorem not_asking (hc : w.codeOf t = top ++ i :: rest) (ht : top.all Instr.isSilent = true)
    (hi : i.asksForThread = false) (s : ServiceId) (r : RecordId) (below : List Instr) :
    w.codeOf t ≠ .member (.spawnNative s r) :: below := by
  intro h
  rcases head_cases hc ht h with h | ⟨rfl, -⟩
  · cases h
  · cases hi

theorem replyAt_of_silent (hc : w.codeOf t = top ++ i :: rest) (ht : top.all Instr.isSilent = true)
    (hi : i.asksForThread = false) : w.replyAt? t e = none :=
  replyAt_eq_none fun s r below _ => not_asking hc ht hi s r below

/-- A call that is to ask for a thread asks, or goes on without having asked. -/
theorem asking_step (hc : w.codeOf t = top ++ .member (.spawnNative s r) :: rest)
    (ht : top.all Instr.isSilent = true) (he : e.isBy t = false) :
    (∃ top', top'.all Instr.isSilent = true ∧
      (w.step e).codeOf t = top' ++ .member (.spawnNative s r) :: rest ∧
      (w.step e).outcomeOf t = w.outcomeOf t ∧
      ∀ b c below, e = .advance t → w.codeOf t ≠ .member (.spawnNative b c) :: below) ∨
    e = .advance t ∧ w.codeOf t = .member (.spawnNative s r) :: rest := by
  by_cases hx : e = .advance t ∧ ∃ b c below, w.codeOf t = .member (.spawnNative b c) :: below
  · obtain ⟨rfl, b, c, below, h⟩ := hx
    obtain ⟨hj, rfl⟩ := (head_cases hc ht h).resolve_left fun h => by cases h
    exact .inr ⟨rfl, hj ▸ h⟩
  · rcases silent_step hc ht he with ⟨top', ht', hc', ho⟩ | ⟨rfl, h, -⟩
    · exact .inl ⟨top', ht', hc', ho, fun b c below he h => hx ⟨he, b, c, below, h⟩⟩
    · exact absurd ⟨rfl, s, r, _, h⟩ hx

theorem threadReply_snoc : w.threadReply? t (es ++ [e]) =
    (w.threadReply? t es).or ((w.run es).replyAt? t e) := by
  induction es generalizing w with
  | nil => exact Option.or_none
  | cons d es ih => rw [List.cons_append, threadReply?, threadReply?, ih, run_cons, Option.or_assoc]

/-! A record that has just been made is known to nobody but its maker. -/

/-- Whoever writes the label of a record after looking it up has found it in a roster. -/
theorem entry_of_run_read {k : ReadInstr} (hj : .read k ∈ (i.run t w).2)
    (hk : (Instr.read k).labels? = some r) : ∃ s, ∃ y ∈ w.entriesOf s, y.2 = r := by
  cases i with
  | user => simp [Instr.run] at hj
  | sync i => cases i <;> simp [Instr.run, SyncInstr.run] at hj
  | guard i =>
    cases i <;> simp only [Instr.run, GuardInstr.run] at hj <;> repeat' split at hj
    all_goals simp [stopIfDue] at hj
  | park i => cases List.all_eq_true.mp (run_nested rfl) _ hj
  | stop i =>
    cases i <;> simp only [Instr.run, StopInstr.run, resumeAllCode, ringPark] at hj <;>
      repeat' split at hj
    all_goals simp [leaveRoster, locked, guarded] at hj
  | pool i => cases List.all_eq_true.mp i.run_mute _ hj
  | member i =>
    cases i <;> simp only [Instr.run, MemberInstr.run] at hj <;> repeat' split at hj
    all_goals simp [publishCode, refuseCode, leaveRoster, locked, guarded] at hj
  | read i =>
    cases i with
    -- only an inquiry goes on to write a label, after the look into the roster
    | find s h q =>
      simp only [Instr.run, ReadInstr.run] at hj
      split at hj
      · simp [leaveRoster] at hj
      · next y hy =>
        have hl := lookup_mem hy
        cases q <;> simp [leaveRoster, Inquiry.code, guarded, locked] at hj <;> subst hj <;>
          first | (cases hk; exact ⟨s, hl⟩) | cases hk
    | all s withNames =>
      simp only [Instr.run, ReadInstr.run, List.mem_flatMap] at hj
      obtain ⟨b, -, hj⟩ := hj
      split at hj <;> simp [locked] at hj <;> subst hj <;> cases hk
    | _ =>
      simp only [Instr.run, ReadInstr.run, ReadInstr.tell, ReadInstr.consult] at hj
      repeat' split at hj
      all_goals simp at hj

theorem Call.not_labels (c : Call) {k : ReadInstr} (hj : .read k ∈ c.code w t) :
    (Instr.read k).labels? = none := by
  have ho := c.opening_of_code hj
  cases k <;> first | rfl | cases ho

theorem Reachable.owned_of_labels (hw : Reachable n w) {k : ReadInstr} (hj : .read k ∈ w.codeOf t)
    (hk : (Instr.read k).labels? = some r) : w.ownerOf r ≠ none := by
  revert t r k
  refine hw.induct (P := fun w => ∀ {t r k}, .read k ∈ w.codeOf t →
    (Instr.read k).labels? = some r → w.ownerOf r ≠ none) ?_ ?_
  · intro t r k hj
    cases eq_user_of_initial hj
  · intro w e hw ih t' r k hj hk
    rcases w.step_cases e with ⟨t, i, rest, -, h, -, hs⟩ | u
    · rw [hs] at hj ⊢
      apply owned_proceed hw.custody h
      rcases mem_codeOf_proceed h hj with ⟨-, hj⟩ | ⟨-, hj⟩ | ⟨-, hj⟩ | ⟨s, b, -, -, hj, -⟩
      · obtain ⟨s, y, hy, rfl⟩ := entry_of_run_read hj hk
        exact hw.registered.rostered (s := s) hy
      · exact ih (h ▸ List.mem_cons_of_mem _ hj) hk
      · exact ih hj hk
      · simp [threadCode] at hj
    · rw [ownerOf_eq, u.ofRecord, ← ownerOf_eq]
      have old : .read k ∈ w.codeOf t' := by
        cases u.origin hj with
        | kept h => exact h
        | handler _ _ h => cases List.all_eq_true.mp handler_nested _ h
        | call c _ _ h =>
          rw [c.not_labels h] at hk
          cases hk
        | mourn s b h => cases h
      exact ih old hk

/-- A record that waits for its thread to be started stays as it was made. -/
theorem labelOf_step_of_spawnNative (hw : Reachable n w)
    (hj : .member (.spawnNative s r) ∈ w.codeOf t) (e : Event) :
    (w.step e).labelOf r = w.labelOf r := by
  obtain ⟨hr, hn, hown, -⟩ := hw.custody.borne hj
  rcases w.step_cases e with ⟨q, i, rest, -, h, -, hs⟩ | u
  · rw [hs]
    refine labelOf_run (w := w.setCode q rest) i hr fun hl => ?_
    have hi : i ∈ w.codeOf q := h ▸ List.mem_cons_self
    cases i with
    | member k =>
      cases k with
      | noteStarted b =>
        -- who notes that it has started owns its record
        rcases hw.custody.kept hi hl with ho | ho
        · cases hn.symm.trans ho
        · exact hown q ho
      | _ => cases hl
    | read k => exact hw.owned_of_labels hi hl hn
    | _ => cases hl
  · exact u.ofRecord

/-! Starting a thread. -/

/-- Record `r` is one that service `s` has made for a thread of its own; if it is marked as started,
its thread has gone through the gate. -/
structure Hired (n : Nat) (es : List Event) (s : ServiceId) (daemon : Bool) (r : RecordId) : Prop where
  home : ((World.initial n).run es).homeOf r = some s
  daemon : ((World.initial n).run es).daemonOf r = daemon
  passed : ((World.initial n).run es).startedOf r = true → (World.initial n).hasPassed s r es = true

theorem Hired.append {d : Bool} (g : Hired n es s d r) (o : Staged n es)
    (hw : Lawful n ((World.initial n).run es)) (e : Event) : Hired n (es ++ [e]) s d r where
  home := by
    rw [run_snoc]
    rcases ((World.initial n).run es).step_cases e with ⟨q, i, rest, -, h, -, hs⟩ | u
    · rw [hs]
      exact homeOf_proceed_of_some g.home
    · exact Eq.trans u.ofRecord g.home
  daemon := by
    rw [run_snoc, daemonOf_step e (lt_of_homeOf g.home), g.daemon]
  passed h1 := by
    cases h0 : ((World.initial n).run es).startedOf r with
    | true => exact hasPassed_append (g.passed h0)
    | false => exact o.hasPassed_of_started hw g.home h0 h1

/-- How far the call has come that starts a thread of service `s`, whose settings are `x`, and what the
system had to reply to it so far. -/
inductive Spawning (n : Nat) (es : List Event) (t : ThreadId) (s : ServiceId) (o : SpawnOptions)
    (x : Settings) (base : List Instr) : Option ThreadReply → Prop
  | begun (top : List Instr) (ht : top.all Instr.isSilent = true)
      (hc : ((World.initial n).run es).codeOf t = top ++ .member (.spawn s o) :: .user :: base)
      (ho : ((World.initial n).run es).outcomeOf t = .value .unit)
      (hx : ((World.initial n).run es).settingsOf s = some x) : Spawning n es t s o x base none
  | checked (top : List Instr) (ht : top.all Instr.isSilent = true)
      (hc : ((World.initial n).run es).codeOf t =
        top ++ .member (.spawnRecord s o (o.stackFor x)) :: .user :: base)
      (ho : ((World.initial n).run es).outcomeOf t = .value .unit) (hm : o.misfit? = none) :
      Spawning n es t s o x base none
  | made (top : List Instr) (r : RecordId) (h : Handle) (ht : top.all Instr.isSilent = true)
      (hc : ((World.initial n).run es).codeOf t =
        top ++ .member (.spawnNative s r) :: .user :: base)
      (ho : ((World.initial n).run es).outcomeOf t = .value .unit) (hr : Hired n es s o.daemon r)
      (hm : o.misfit? = none)
      (hl : ((World.initial n).run es).labelOf r =
        some (.create h s o.name o.priority (o.stackFor x) o.daemon)) : Spawning n es t s o x base none
  | waits (top : List Instr) (r : RecordId) (ht : top.all Instr.isSilent = true)
      (hc : ((World.initial n).run es).codeOf t = top ++ .member (.spawnWait s r) :: .user :: base)
      (ho : ((World.initial n).run es).outcomeOf t = .value (.handle (r + 1)))
      (hr : Hired n es s o.daemon r) (hg : o.Passes) : Spawning n es t s o x base (some .granted)
  | through (top : List Instr) (r : RecordId) (ht : top.all Instr.isSilent = true)
      (hc : ((World.initial n).run es).codeOf t = top ++ .user :: base)
      (ho : ((World.initial n).run es).outcomeOf t = .value (.handle (r + 1)))
      (hr : Hired n es s o.daemon r) (hp : (World.initial n).hasPassed s r es = true)
      (hg : o.Passes) : Spawning n es t s o x base (some .granted)
  | refusing (top below : List Instr) (ht : top.all Instr.isSilent = true)
      (hb : below.all Instr.isSilent = true)
      (hc : ((World.initial n).run es).codeOf t =
        top ++ .member (.noThread s) :: (below ++ .user :: base))
      (ho : ((World.initial n).run es).outcomeOf t = .value .unit) (e : SystemError)
      (hd : ∀ live, o.Denied (some (.refused e)) (.fault (.exhausted live))) :
      Spawning n es t s o x base (some (.refused e))
  | refused (top : List Instr) (ht : top.all Instr.isSilent = true)
      (hc : ((World.initial n).run es).codeOf t = top ++ .user :: base) (reply : Option ThreadReply)
      (hd : o.Denied reply (((World.initial n).run es).outcomeOf t)) :
      Spawning n es t s o x base reply

section Proceed

variable (ho : w.outcomeOf t = .value .unit)

theorem lt_setCode_of_head (h : w.codeOf t = i :: rest) : t < (w.setCode t rest).threads.length := by
  rw [threads_length_setCode]
  exact lt_of_head h

include ho

/-- The service looks at the options before it does anything. -/
theorem proceed_spawn (hx : w.settingsOf s = some x)
    (h : w.codeOf t = .member (.spawn s o) :: rest) :
    (w.proceed t (.member (.spawn s o)) rest).codeOf t =
        .member (.spawnRecord s o (o.stackFor x)) :: rest ∧
      (w.proceed t (.member (.spawn s o)) rest).outcomeOf t = .value .unit ∧ o.misfit? = none ∨
    (w.proceed t (.member (.spawn s o)) rest).codeOf t = rest ∧
      o.Denied none ((w.proceed t (.member (.spawn s o)) rest).outcomeOf t) := by
  have hl := lt_setCode_of_head h
  have hu : (w.setCode t rest).outcomeOf t = .value .unit := (outcomeOf_setCode rest).trans ho
  obtain ⟨v, hv, rfl⟩ := Option.map_eq_some_iff.mp hx
  have hv : (w.setCode t rest).services[s]? = some v := hv
  rw [codeOf_proceed h, remainder, outcomeOf_proceed]
  generalize w.setCode t rest = y at hl hu hv
  simp only [Instr.run, MemberInstr.run, hv]
  by_cases hp : o.priority < minPriority ∨ maxPriority < o.priority
  · right
    simp only [hp, if_true]
    rw [outcomeOf_fail hl]
    exact ⟨rfl, .misfit _ (by simp only [SpawnOptions.misfit?, hp, if_true])⟩
  simp only [hp, if_false]
  by_cases hz : o.stackSize = 0
  · left
    simp [SpawnOptions.stackFor, SpawnOptions.misfit?, hp, hz, hu]
  by_cases hs : o.stackSize < minStackSize
  · right
    simp only [hz, hs, if_true, if_false]
    rw [outcomeOf_fail hl]
    exact ⟨rfl, .misfit _ (by simp [SpawnOptions.misfit?, hp, hz, hs])⟩
  · left
    simp [SpawnOptions.stackFor, SpawnOptions.misfit?, hp, hz, hs, hu]

/-- The caller has its handle as soon as the new thread is there, and goes by the reply if there is
none. The system is not asked under a name that cannot be passed to it. -/
theorem proceed_spawnNative (hw : Reachable n w)
    (h : w.codeOf t = .member (.spawnNative s r) :: rest) {c : ThreadRecord}
    (hc : w.records[r]? = some c) :
    (w.proceed t (.member (.spawnNative s r)) rest).codeOf t =
        [.guard (.raise s .blocking), .sync (.acquire (.roster s))] ++
          .member (.spawnWait s r) :: rest ∧
      (w.proceed t (.member (.spawnNative s r)) rest).outcomeOf t = .value (.handle (r + 1)) ∧
      isRefusedName c.name = false ∧ w.system.thread = .granted ∨
    (w.proceed t (.member (.spawnNative s r)) rest).codeOf t = refuseCode s ++ rest ∧
      (w.proceed t (.member (.spawnNative s r)) rest).outcomeOf t = .value .unit ∧
      isRefusedName c.name = false ∧ (∃ e, w.system.thread = .refused e ∧ e.isShortage = true) ∨
    (w.proceed t (.member (.spawnNative s r)) rest).codeOf t = rest ∧
      (w.proceed t (.member (.spawnNative s r)) rest).outcomeOf t =
        .fault (.badArgument .nativeThread) ∧
      isRefusedName c.name = false ∧ (∃ e, w.system.thread = .refused e ∧ e.isShortage = false) ∨
    (w.proceed t (.member (.spawnNative s r)) rest).codeOf t = rest ∧
      (w.proceed t (.member (.spawnNative s r)) rest).outcomeOf t = .panicked ∧
      isRefusedName c.name = true := by
  have hl := lt_setCode_of_head h
  have hu : (w.setCode t rest).outcomeOf t = .value .unit := (outcomeOf_setCode rest).trans ho
  have hh : c.handle = r + 1 := hw.handle_eq hc
  have hc : (w.setCode t rest).records[r]? = some c := hc
  have hx : (w.setCode t rest).system = w.system := rfl
  rw [codeOf_proceed h, remainder, outcomeOf_proceed, ← hx]
  generalize w.setCode t rest = v at hl hu hc
  simp only [Instr.run, MemberInstr.run, hc, List.getElem?_eq_getElem hl]
  cases hn : isRefusedName c.name with
  | true => exact .inr (.inr (.inr ⟨rfl, outcomeOf_say hl, rfl⟩))
  | false =>
    simp only [Bool.false_eq_true, if_false]
    cases v.system.thread with
    | granted =>
      refine .inl ⟨rfl, ?_, trivial, rfl⟩
      rw [← hh, answer, outcomeOf_say]
      rw [addThread, List.length_append]
      exact Nat.lt_add_right _ hl
    | refused e =>
      cases he : e.isShortage with
      | true =>
        simp only [he, if_true]
        exact .inr (.inl ⟨trivial, hu, trivial, e, rfl, he⟩)
      | false =>
        simp only [he, Bool.false_eq_true, if_false]
        exact .inr (.inr (.inl ⟨rfl, outcomeOf_fail hl, trivial, e, rfl, he⟩))

end Proceed

theorem proceed_spawnWait (h : w.codeOf t = .member (.spawnWait s r) :: rest)
    (hr : r < w.records.length) :
    (w.proceed t (.member (.spawnWait s r)) rest).outcomeOf t = w.outcomeOf t ∧
      (w.startedOf r = true ∧
        (w.proceed t (.member (.spawnWait s r)) rest).codeOf t = leaveRoster s ++ rest ∨
      (w.proceed t (.member (.spawnWait s r)) rest).codeOf t =
        [.sync (.wait (.roster s) (.roster s) none)] ++ .member (.spawnWait s r) :: rest) := by
  have hs : w.startedOf r = w.records[r].started := by
    rw [startedOf, ofRecord, List.getElem?_eq_getElem hr]
  have hc : (w.setCode t rest).records[r]? = some w.records[r] := List.getElem?_eq_getElem hr
  have ho : (w.setCode t rest).outcomeOf t = w.outcomeOf t := outcomeOf_setCode rest
  rw [hs, codeOf_proceed h, remainder, outcomeOf_proceed, ← ho]
  generalize w.setCode t rest = v at hc
  simp only [Instr.run, MemberInstr.run, hc]
  refine ⟨trivial, ?_⟩
  cases w.records[r].started with
  | true => exact Or.inl ⟨rfl, rfl⟩
  | false => exact Or.inr rfl

theorem proceed_noThread (h : w.codeOf t = .member (.noThread s) :: rest) :
    (w.proceed t (.member (.noThread s)) rest).codeOf t = rest ∧
      ∃ live, (w.proceed t (.member (.noThread s)) rest).outcomeOf t = .fault (.exhausted live) := by
  have hl := lt_setCode_of_head h
  rw [codeOf_proceed h, remainder, outcomeOf_proceed]
  exact ⟨rfl, _, outcomeOf_fail hl⟩

/-- What has just been made has not started. -/
theorem hired_of_spawnRecord {k : Nat} (hs : ((World.initial n).run es).step e =
      ((World.initial n).run es).proceed t (.member (.spawnRecord s o k)) rest) :
    Hired n (es ++ [e]) s o.daemon ((World.initial n).run es).records.length where
  home := by
    rw [run_snoc, hs]
    exact ofRecord_new records_spawnRecord
  daemon := by
    rw [run_snoc, hs]
    exact ofRecord_new records_spawnRecord
  passed hx := by
    have hn : (((World.initial n).run es).proceed t (.member (.spawnRecord s o k)) rest).startedOf
        ((World.initial n).run es).records.length = false := ofRecord_new records_spawnRecord
    rw [run_snoc, hs, hn] at hx
    cases hx

theorem settingsOf_step (hx : w.settingsOf s = some x) (e : Event) :
    (w.step e).settingsOf s = some x := by
  have hs : s < w.services.length := by
    by_contra hn
    rw [settingsOf, List.getElem?_eq_none (Nat.le_of_not_lt hn)] at hx
    cases hx
  rcases w.step_cases e with ⟨q, i, rest, -, -, -, hs'⟩ | u
  · rw [hs']
    exact (settingsOf_run (w := w.setCode q rest) i hs).trans hx
  · exact (settingsOf_of_services_eq u.services).trans hx

/-- Asking for the thread is one step, which has the reply with it. -/
theorem Spawning.asks (hw : Lawful n ((World.initial n).run es))
    (h : ((World.initial n).run es).codeOf t = .member (.spawnNative s r) :: .user :: base)
    (ho : ((World.initial n).run es).outcomeOf t = .value .unit)
    (hr : Hired n (es ++ [.advance t]) s o.daemon r) (hm : o.misfit? = none) {k : Handle}
    (hl : ((World.initial n).run es).labelOf r =
      some (.create k s o.name o.priority (o.stackFor x) o.daemon)) :
    Spawning n (es ++ [.advance t]) t s o x base
      (some ((World.initial n).run es).system.thread) := by
  -- what the system looks at is what the record was made with
  obtain ⟨c, hrec⟩ : ∃ c, ((World.initial n).run es).records[r]? = some c := by
    cases hx : ((World.initial n).run es).records[r]? with
    | none =>
      rw [labelOf, ofRecord, hx] at hl
      cases hl
    | some c => exact ⟨c, rfl⟩
  have hname : c.name = Label.clamp o.name := by
    rw [labelOf, ofRecord, hrec] at hl
    exact congrArg ThreadRecord.name (Option.some.inj hl)
  have hp := proceed_spawnNative ho hw.reachable h hrec
  rw [← step_of_code h rfl, ← run_snoc, hname] at hp
  rcases hp with ⟨hc', ho', hn, hy⟩ | ⟨hc', ho', hn, e, hy, he⟩ | ⟨hc', ho', hn, e, hy, he⟩ |
    ⟨hc', ho', hn⟩
  · rw [hy]
    exact .waits _ r rfl hc' ho' hr ⟨hm, hn⟩
  · rw [hy]
    exact .refusing [.guard (.raise s .critical), .sync (.acquire (.roster s))] (leaveRoster s)
      rfl rfl hc' ho' e fun live => .scarce e live ⟨hm, hn⟩ he
  · rw [hy]
    refine .refused [] rfl hc' _ ?_
    rw [ho']
    exact .failed e ⟨hm, hn⟩ he
  · refine .refused [] rfl hc' _ ?_
    rw [ho']
    exact .name _ hm hn

theorem Spawning.append (a : Spawning n es t s o x base reply) (g : Staged n es)
    (hw : Lawful n ((World.initial n).run es)) (he : e.isBy t = false) :
    Spawning n (es ++ [e]) t s o x base (reply.or (((World.initial n).run es).replyAt? t e)) := by
  cases a with
  | begun top ht hc ho hx =>
    rw [replyAt_of_silent hc ht rfl, Option.or_none]
    rcases silent_step hc ht he with ⟨top', ht', hc', ho'⟩ | ⟨rfl, h, -, -, hs⟩
    · have hx' := settingsOf_step hx e
      rw [← run_snoc] at hc' ho' hx'
      exact .begun top' ht' hc' (ho'.trans ho) hx'
    · have hp := proceed_spawn ho hx h
      rw [← hs, ← run_snoc] at hp
      rcases hp with ⟨hc', ho', hm⟩ | ⟨hc', hd⟩
      · exact .checked [] rfl hc' ho' hm
      · exact .refused [] rfl hc' none hd
  | checked top ht hc ho hm =>
    rw [replyAt_of_silent hc ht rfl, Option.or_none]
    rcases silent_step hc ht he with ⟨top', ht', hc', ho'⟩ | ⟨rfl, h, -, -, hs⟩
    · rw [← run_snoc] at hc' ho'
      exact .checked top' ht' hc' (ho'.trans ho) hm
    · refine .made [] ((World.initial n).run es).records.length ((World.initial n).run es).nextHandle
        rfl ?_ ?_ (hired_of_spawnRecord hs) hm ?_
      · rw [run_snoc, hs, codeOf_proceed h]
        rfl
      · rw [run_snoc, hs, outcomeOf_proceed]
        exact (outcomeOf_setCode _).trans ho
      · rw [run_snoc, hs]
        exact ofRecord_new records_spawnRecord
  -- up to here the system has not been asked, and after its reply it is not asked again
  | made top r k ht hc ho hr hm hl =>
    have hr' := hr.append g hw e
    rcases asking_step hc ht he with ⟨top', ht', hc', ho', hn⟩ | ⟨rfl, h⟩
    · have hj : .member (.spawnNative s r) ∈ ((World.initial n).run es).codeOf t := by
        rw [hc]
        simp
      have hl' := labelOf_step_of_spawnNative hw.reachable hj e
      rw [← run_snoc] at hc' ho' hl'
      rw [replyAt_eq_none hn]
      exact .made top' r k ht' hc' (ho'.trans ho) hr' hm (hl'.trans hl)
    · rw [replyAt_self h]
      exact .asks hw h ho hr' hm hl
  | waits top r ht hc ho hr hg =>
    have hr' := hr.append g hw e
    rcases silent_step hc ht he with ⟨top', ht', hc', ho'⟩ | ⟨rfl, h, -, -, hs⟩
    · rw [← run_snoc] at hc' ho'
      exact .waits top' r ht' hc' (ho'.trans ho) hr' hg
    · obtain ⟨ho', hx⟩ := proceed_spawnWait h (lt_of_homeOf hr.home)
      rw [← hs, ← run_snoc] at ho' hx
      rcases hx with ⟨hst, hc'⟩ | hc'
      · exact .through _ r (silent_leaveRoster s) hc' (ho'.trans ho) hr'
          (hasPassed_append (hr.passed hst)) hg
      · exact .waits _ r rfl hc' (ho'.trans ho) hr' hg
  | through top r ht hc ho hr hp hg =>
    obtain ⟨top', ht', hc', ho'⟩ := silent_step_out hc ht he
    rw [← run_snoc] at hc' ho'
    exact .through top' r ht' hc' (ho'.trans ho) (hr.append g hw e) (hasPassed_append hp) hg
  | refusing top below ht hb hc ho x hd =>
    rcases silent_step hc ht he with ⟨top', ht', hc', ho'⟩ | ⟨rfl, h, -, -, hs⟩
    · rw [← run_snoc] at hc' ho'
      exact .refusing top' below ht' hb hc' (ho'.trans ho) x hd
    · obtain ⟨hc', live, ho'⟩ := proceed_noThread h
      rw [← hs, ← run_snoc] at hc' ho'
      refine .refused below hb hc' _ ?_
      rw [ho']
      exact hd live
  | refused top ht hc reply hd =>
    rw [replyAt_of_silent hc ht rfl, Option.or_none]
    obtain ⟨top', ht', hc', ho'⟩ := silent_step_out hc ht he
    rw [← run_snoc] at hc' ho'
    exact .refused top' ht' hc' reply (ho' ▸ hd)

theorem Spawning.run (a : Spawning n es t s o x base none) (hb : ∀ e ∈ fs, e.isBy t = false)
    (ha : (World.initial n).admits (es ++ fs) = true) :
    Spawning n (es ++ fs) t s o x base (((World.initial n).run es).threadReply? t fs) := by
  induction fs using List.reverseRecOn with
  | nil => rwa [List.append_nil]
  | append_singleton fs e ih =>
    rw [← List.append_assoc, admits_append, Bool.and_eq_true] at ha
    have a := ih (fun e he => hb e (List.mem_append_left _ he)) ha.1
    rw [← List.append_assoc, threadReply_snoc, ← run_append]
    exact a.append (staged _ ha.1) ⟨_, ha.1, rfl⟩ (hb e (by simp))

/-- A thread whose handle has been given back has gone through the gate. -/
theorem Spawning.hired {k : Handle} (a : Spawning n es t s o x base reply)
    (hc : ((World.initial n).run es).codeOf t = .user :: base)
    (ho : ((World.initial n).run es).outcomeOf t = .value (.handle k)) :
    ∃ r, k = r + 1 ∧ Hired n es s o.daemon r ∧ (World.initial n).hasPassed s r es = true := by
  cases a with
  | through top r _ _ ho' hr hp =>
    cases ho.symm.trans ho'
    exact ⟨r, rfl, hr, hp⟩
  | begun _ _ _ ho' | checked _ _ _ ho' | made _ _ _ _ _ ho' | refusing _ _ _ _ _ ho' =>
    cases ho.symm.trans ho'
  | waits top r _ hc' =>
    -- the call has not come back while it waits
    have hlen := congrArg List.length (hc.symm.trans hc')
    simp at hlen
    omega
  | refused _ _ _ _ hd => exact absurd ho (hd.ne_handle k)

/-- A call that has come back has been granted or denied. -/
theorem Spawning.answer (a : Spawning n es t s o x base reply)
    (hc : ((World.initial n).run es).codeOf t = .user :: base) :
    (∃ k, ((World.initial n).run es).outcomeOf t = .value (.handle k)) ∧ o.Passes ∧
        reply = some .granted ∨
      o.Denied reply (((World.initial n).run es).outcomeOf t) := by
  cases a with
  | begun _ _ hc' | checked _ _ hc' | made _ _ _ _ hc' | waits _ _ _ hc' | refusing _ _ _ _ hc' =>
    -- something of the call is left
    have hlen := congrArg List.length (hc.symm.trans hc')
    simp at hlen
    omega
  | through _ r _ _ ho _ _ hg => exact Or.inl ⟨⟨_, ho⟩, hg, rfl⟩
  | refused _ _ _ _ hd => exact Or.inr hd

theorem spawning_of_returns (ha : (World.initial n).admits (es ++ .invoke t (.spawn s o) :: fs) = true)
    (hret : ((World.initial n).run es).Returns t (.spawn s o) fs) :
    ∃ x base,
      ((World.initial n).run (es ++ .invoke t (.spawn s o) :: fs)).codeOf t = .user :: base ∧
      Spawning n (es ++ .invoke t (.spawn s o) :: fs) t s o x base
        ((((World.initial n).run es).step (.invoke t (.spawn s o))).threadReply? t fs) := by
  obtain ⟨base, hbase⟩ := head_user hret.user
  obtain ⟨hcode, hout⟩ := invoke_admitted (c := .spawn s o) hret.user rfl
  have hadm : (World.initial n).admits ((es ++ [.invoke t (.spawn s o)]) ++ fs) = true := by
    rwa [List.append_assoc]
  have hs : s < ((World.initial n).run es).services.length := by
    rw [admits_append, Bool.and_eq_true] at ha
    simpa [admits, Event.isPlaced, Call.service?] using (Bool.and_eq_true_iff.mp ha.2).1
  have hx : ((World.initial n).run es).settingsOf s =
      some (((World.initial n).run es).services[s]).settings := by
    rw [settingsOf, List.getElem?_eq_getElem hs]
    rfl
  refine ⟨(((World.initial n).run es).services[s]).settings, base, ?_, ?_⟩
  · rw [run_append, run_cons, hret.back, hbase]
  · have a : Spawning n (es ++ [.invoke t (.spawn s o)]) t s o
        (((World.initial n).run es).services[s]).settings base none := by
      refine .begun [] rfl ?_ ?_ ?_
      · rw [run_snoc, hcode, hbase]
        rfl
      · rw [run_snoc, hout]
      · rw [run_snoc]
        exact settingsOf_step hx _
    have a := a.run hret.busy hadm
    rwa [List.append_assoc, run_snoc] at a

/-- What a call answers that starts a thread depends on its options and on what the system replies.
The call gets so far as to ask the system exactly if the priority and the size of the stack are in
range, and answers a bad argument if they are not. Otherwise it panics exactly if the name, as it is
stored, has a NUL in it. Of the others, those get a handle that the system gives a thread; those answer
that there is no room for which it is short of something; and the rest answer that the thread could not
be created, which counts as a bad argument. -/
theorem spawn_answers_by_its_options (n : Nat) (es fs : List Event) (t : ThreadId) (s : ServiceId)
    (o : SpawnOptions)
    (ha : (World.initial n).admits (es ++ .invoke t (.spawn s o) :: fs) = true)
    (hret : ((World.initial n).run es).Returns t (.spawn s o) fs) :
    ∃ a reply, ((World.initial n).run (es ++ .invoke t (.spawn s o) :: fs)).outcomeOf t = a ∧
      (((World.initial n).run es).step (.invoke t (.spawn s o))).threadReply? t fs = reply ∧
      (reply.isSome = true ↔ o.misfit? = none) ∧
      (a = .panicked ↔ o.misfit? = none ∧ isRefusedName (Label.clamp o.name) = true) ∧
      (∀ b, a = .fault (.badArgument b) ↔ o.misfit? = some b ∨
        o.Passes ∧ b = .nativeThread ∧ ∃ e, reply = some (.refused e) ∧ e.isShortage = false) ∧
      ((∃ live, a = .fault (.exhausted live)) ↔
        o.Passes ∧ ∃ e, reply = some (.refused e) ∧ e.isShortage = true) ∧
      ((∃ k, a = .value (.handle k)) ↔ o.Passes ∧ reply = some .granted) := by
  obtain ⟨x, base, hback, hsp⟩ := spawning_of_returns ha hret
  refine ⟨_, _, rfl, rfl, ?_⟩
  have hans := hsp.answer hback
  generalize ((World.initial n).run (es ++ .invoke t (.spawn s o) :: fs)).outcomeOf t = a at hans
  generalize (((World.initial n).run es).step (.invoke t (.spawn s o))).threadReply? t fs = reply
    at hans
  -- options and reply decide between the answers, so each comes under its own condition alone
  rcases hans with ⟨⟨k, rfl⟩, hg, rfl⟩ | hd
  · simp [hg, hg.fits, hg.named]
  cases hd with
  | misfit b hm => simp [SpawnOptions.passes_iff, hm]
  | name reply hm hn => simp [SpawnOptions.passes_iff, hm, hn]
  | scarce e live hg he => simp [hg, hg.fits, hg.named, he]
  | failed e hg he =>
    have hb (b : BadArgument) : .nativeThread = b ↔ b = .nativeThread := eq_comm
    simp [hg, hg.fits, hg.named, he, hb]

/-- A service that stops its threads at safe points is set up. -/
def safepointMain : List Event := .invoke 0 (.establish { mechanism := .safepoint }) :: turns 0 5

/-- And from then on the system replies so to whoever asks it for a thread. -/
def replying (reply : ThreadReply) : List Event := safepointMain ++ [.system { thread := reply }]

/-- Nothing speaks against the options, and the call ends with each of the three replies: the new thread
has gone through the gate when its handle is given back, or the system is short of memory, or it gives
no thread for another reason. -/
theorem plain_thread_is_granted_or_refused :
    (∃ k, ((World.initial 1).run (replying .granted ++ .invoke 0 (.spawn 0 {}) ::
        (turns 0 8 ++ turns 1 17 ++ turns 0 7))).outcomeOf 0 = .value (.handle k)) ∧
      (∃ live, ((World.initial 1).run (replying (.refused .outOfMemory) ++
        .invoke 0 (.spawn 0 {}) :: turns 0 9)).outcomeOf 0 = .fault (.exhausted live)) ∧
      ((World.initial 1).run (replying (.refused .other) ++
        .invoke 0 (.spawn 0 {}) :: turns 0 3)).outcomeOf 0 = .fault (.badArgument .nativeThread) := by
  have hp : ({} : SpawnOptions).Passes := ⟨by decide, by decide +kernel⟩
  refine ⟨?granted, ?scarce, ?failed⟩
  case granted =>
    obtain ⟨a, reply, ha, hr, -, -, -, -, hg⟩ := spawn_answers_by_its_options 1 (replying .granted)
      (turns 0 8 ++ turns 1 17 ++ turns 0 7) 0 0 {} (by decide +kernel)
      ⟨by decide +kernel, by decide, by decide +kernel⟩
    have hy : reply = some .granted := hr.symm.trans (by decide +kernel)
    exact ha ▸ hg.mpr ⟨hp, hy⟩
  case scarce =>
    obtain ⟨a, reply, ha, hr, -, -, -, hs, -⟩ := spawn_answers_by_its_options 1
      (replying (.refused .outOfMemory)) (turns 0 9) 0 0 {} (by decide +kernel)
      ⟨by decide +kernel, by decide, by decide +kernel⟩
    have hy : reply = some (.refused .outOfMemory) := hr.symm.trans (by decide +kernel)
    exact ha ▸ hs.mpr ⟨hp, .outOfMemory, hy, rfl⟩
  case failed =>
    obtain ⟨a, reply, ha, hr, -, -, hf, -⟩ := spawn_answers_by_its_options 1
      (replying (.refused .other)) (turns 0 3) 0 0 {} (by decide +kernel)
      ⟨by decide +kernel, by decide, by decide +kernel⟩
    have hy : reply = some (.refused .other) := hr.symm.trans (by decide +kernel)
    exact ha.trans ((hf .nativeThread).mpr (.inr ⟨hp, rfl, .other, hy, rfl⟩))

/-- Nothing is wrong with the priority or the stack, but the name has a NUL in it. -/
theorem nul_in_name_panics :
    (World.initial 1).admits (safepointMain ++ .invoke 0 (.spawn 0 { name := "a\x00b" }) ::
        turns 0 3) = true ∧
      ((World.initial 1).run safepointMain).Returns 0 (.spawn 0 { name := "a\x00b" }) (turns 0 3) ∧
      ((World.initial 1).run (safepointMain ++ .invoke 0 (.spawn 0 { name := "a\x00b" }) ::
        turns 0 3)).outcomeOf 0 = .panicked :=
  ⟨by decide +kernel, ⟨by decide +kernel, by decide, by decide +kernel⟩, by decide +kernel⟩

end Standstill
