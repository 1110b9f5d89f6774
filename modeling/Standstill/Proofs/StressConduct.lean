import Standstill.Proofs.SmoothCalls
import Standstill.Proofs.StressCrew

/-!
The calls of the stress scenario's conductor. Of those that are about one worker each may find that
the worker is not there any more; the others, but for the start of a worker and for the wait at the end,
are not refused at all. When that wait comes back in time all workers are over.
-/
namespace Standstill.Stress

open World

/-- What the conductor goes on with: a thread that it meant to stop or let go may be gone. -/
def Control.isLenient : Control → Bool
  | .suspend .. | .resume _ => true
  | _ => false

/-- The conductor goes on when its call has had this outcome. -/
def Control.Suits : Control → Outcome → Prop
  | .stats, o => ∃ x, o = .value (.stats x)
  | .suspend .., o | .resume _, o => (∃ v, o = .value v) ∨ o = .fault .unknownHandle
  | _, o => ∃ v, o = .value v

/-- How far the conductor has come in a call after the run `es`, with so many workers hired. -/
inductive Engaged (settings : Settings) (es : List Event) (ws : List (Stage × Bool)) :
    Control → Prop
  | founding (top : List Instr) (ht : top.all Instr.isSilent = true)
      (hc : ((World.initial 1).run es).codeOf 0 = top ++ [.member (.establish settings), .user])
      (hf : ((World.initial 1).run es).fittings service = none)
      (hl : ((World.initial 1).run es).threads.length = ws.length + 1) :
      Engaged settings es ws .establish
  | hiring (handles : List Handle) (o : SpawnOptions) (hd : o.daemon = false)
      (reply : Option ThreadReply) (hs : Spawning 1 es 0 service o settings [] reply)
      (ho : ∀ k, ((World.initial 1).run es).outcomeOf 0 ≠ .value (.handle k))
      (hx : ((World.initial 1).run es).settingsOf service = some settings)
      (hl : ((World.initial 1).run es).threads.length = ws.length) :
      Engaged settings es ws (.start handles)
  | awaiting (budget : Nat) (ha : Awaiting ((World.initial 1).run es) 0 service [])
      (hx : ((World.initial 1).run es).settingsOf service = some settings)
      (hl : ((World.initial 1).run es).threads.length = ws.length + 1) :
      Engaged settings es ws (.awaitExit budget)
  | reading (top below : List Instr) (ht : top.all (Instr.isSmooth false) = true)
      (hb : below.all (Instr.isSmooth false) = true)
      (hc : ((World.initial 1).run es).codeOf 0 =
        top ++ .read (.statsCounters service) :: (below ++ [.user]))
      (hx : ((World.initial 1).run es).settingsOf service = some settings)
      (hl : ((World.initial 1).run es).threads.length = ws.length + 1) :
      Engaged settings es ws .stats
  | answering (c : Control) (top : List Instr) (ht : top.all (Instr.isSmooth c.isLenient) = true)
      (hc : ((World.initial 1).run es).codeOf 0 = top ++ [.user])
      (ho : c.Suits (((World.initial 1).run es).outcomeOf 0))
      (hx : ((World.initial 1).run es).settingsOf service = some settings)
      (hl : ((World.initial 1).run es).threads.length = ws.length + 1)
      (hover : ∀ budget, c = .awaitExit budget → Dismissed ((World.initial 1).run es) ws) :
      Engaged settings es ws c

variable {settings : Settings} {p : Plan} {w : World} {es : List Event} {ws : List (Stage × Bool)}
  {c : Control} {e : Event} {o o' : Outcome} {k : Nat} {x x' : Stage × Bool} {call : Call}

theorem Control.Suits.smoothly (h : c.Suits o) (hs : Smoothly c.isLenient o o') : c.Suits o' := by
  cases hs with
  | same => exact h
  | stats x => cases c <;> first | exact ⟨_, rfl⟩ | exact .inl ⟨_, rfl⟩
  | missing hl => cases c <;> first | exact .inr rfl | cases hl

/-- The event is not the conductor's own doing, and no worker leaves by it that is not over. -/
structure Aside (w : World) (ws : List (Stage × Bool)) (e : Event) : Prop where
  others : e.isBy 0 = false
  calls : ∀ t c, e = .invoke t c → c.isHiring = false
  duty : ∀ i x, ws[i]? = some x → x.1.isOver = false → OnDuty w (i + 1) → OnDuty (w.step e) (i + 1)

theorem aside_of_not_own (w : World) (ws : List (Stage × Bool)) (he : isOwn e = false) :
    Aside w ws e where
  others := isBy_of_not_own he 0
  calls := by
    rintro t c rfl
    cases he
  duty i _ _ _ hd := hd.step (isBy_of_not_own he (i + 1))

/-- There is a new thread only if the conductor is just about to start one. -/
theorem Crew.event (b : Crew w ws) (he : Aside w ws e)
    (h : ∀ s r rest, w.codeOf 0 ≠ .member (.spawnNative s r) :: rest) :
    (w.step e).threads.length = w.threads.length ∧ Crew (w.step e) ws := by
  have hl : (w.step e).threads.length = w.threads.length := by
    rcases threads_step_of_unhiring b.unhiring e with hl | ⟨s, r, rest, -, hc, -⟩
    · exact hl
    · exact absurd hc (h s r rest)
  exact ⟨hl, b.step (fun t c _ => he.calls t c) he.duty (.inl hl)⟩

/-- A worker is at another stage. -/
theorem Engaged.set (a : Engaged settings es ws c) (hi : ws[k]? = some x)
    (h : x.1.isOver = true → x'.1.isOver = true) : Engaged settings es (ws.set k x') c := by
  have hlen : (ws.set k x').length = ws.length := List.length_set
  cases a with
  | founding top ht hc hf hl => exact .founding top ht hc hf (hlen ▸ hl)
  | hiring handles o hd reply hs ho hx hl => exact .hiring handles o hd reply hs ho hx (hlen ▸ hl)
  | awaiting budget ha hx hl => exact .awaiting budget ha hx (hlen ▸ hl)
  | reading top below ht hb hc hx hl => exact .reading top below ht hb hc hx (hlen ▸ hl)
  | answering _ top ht hc ho hx hl hover =>
    exact .answering c top ht hc ho hx (hlen ▸ hl) fun budget hcb => (hover budget hcb).set hi h

/-! One event in a call. -/

theorem settingsOf_of_fittings {ms : Slots MutexRef} {cs : Slots CondRef}
    (h : w.fittings service = some (settings, ms, cs)) : w.settingsOf service = some settings := by
  obtain ⟨v, hv, hx⟩ := Option.map_eq_some_iff.mp h
  rw [settingsOf, hv]
  exact congrArg some (Prod.mk.inj hx).1

theorem proceed_establish (h : w.codeOf 0 = [.member (.establish settings), .user])
    (hf : w.fittings service = none) :
    (w.proceed 0 (.member (.establish settings)) [.user]).codeOf 0 =
        publishCode service w.records.length ++ [.user] ∧
      (∃ v, (w.proceed 0 (.member (.establish settings)) [.user]).outcomeOf 0 = .value v) ∧
      (w.proceed 0 (.member (.establish settings)) [.user]).settingsOf service = some settings := by
  have hs : service = (w.setCode 0 [.user]).services.length :=
    (Nat.le_zero.mp (fittings_eq_none.mp hf)).symm
  refine ⟨?_, ⟨.service service w.nextHandle, ?_⟩, ?_⟩
  · rw [codeOf_proceed h, hs]
    rfl
  · rw [outcomeOf_proceed, hs]
    refine outcomeOf_say ?_
    exact lt_setCode_of_head h
  · have hp : (w.proceed 0 (.member (.establish settings)) [.user]).fittings service =
        ((MemberInstr.establish settings).run 0 (w.setCode 0 [.user])).1.fittings service :=
      fittings_modThread _
    rw [fittings_establish, if_pos hs] at hp
    exact settingsOf_of_fittings hp

theorem proceed_statsCounters {below : List Instr}
    (h : w.codeOf 0 = .read (.statsCounters service) :: below)
    (hx : w.settingsOf service = some settings) :
    (w.proceed 0 (.read (.statsCounters service)) below).codeOf 0 = below ∧
      ∃ x, (w.proceed 0 (.read (.statsCounters service)) below).outcomeOf 0 = .value (.stats x) := by
  obtain ⟨v, hv, -⟩ := Option.map_eq_some_iff.mp hx
  have hv : (w.setCode 0 below).services[service]? = some v := hv
  have hl := lt_setCode_of_head h
  rw [codeOf_proceed h, remainder, outcomeOf_proceed]
  generalize w.setCode 0 below = y at hl hv
  simp only [Instr.run, ReadInstr.run, ReadInstr.consult, hv]
  exact ⟨rfl, outcomeOf_modStats hl _⟩

theorem proceed_awaitExitCheck {d : Option Nat} {below : List Instr}
    (h : w.codeOf 0 = .member (.awaitExitCheck service d) :: below)
    (hz : (w.census service).nonDaemon = 0) :
    (w.proceed 0 (.member (.awaitExitCheck service d)) below).codeOf 0 =
        leaveRoster service ++ below ∧
      (w.proceed 0 (.member (.awaitExitCheck service d)) below).outcomeOf 0 = w.outcomeOf 0 := by
  have hz : ((w.setCode 0 below).census service).nonDaemon = 0 := hz
  have ho : (w.setCode 0 below).outcomeOf 0 = w.outcomeOf 0 := outcomeOf_setCode below
  rw [codeOf_proceed h, remainder, outcomeOf_proceed, ← ho]
  generalize w.setCode 0 below = y at hz
  simp only [Instr.run, MemberInstr.run, hz, if_true]
  exact ⟨trivial, trivial⟩

/-- A new thread is a worker that the conductor has just been given. -/
theorem Engaged.recruits (a : Engaged settings es ws c) (b : Crew ((World.initial 1).run es) ws)
    (ha : (World.initial 1).admits es = true) (he : e.isBy 0 = false) :
    (((World.initial 1).run es).step e).threads.length =
        ((World.initial 1).run es).threads.length ∨
      (∃ handles, c = .start handles) ∧ ((World.initial 1).run es).threads.length = ws.length ∧
        ∃ r, Hires ((World.initial 1).run es) (((World.initial 1).run es).step e) 0 service false r
          [] := by
  rcases threads_step_of_unhiring b.unhiring e with hl | ⟨s, r, rest, -, h, hl', -⟩
  · exact .inl hl
  cases a with
  | hiring handles o hd reply hs ho hx hl =>
    rcases hs.step (staged es ha) ⟨es, ha, rfl⟩ he (fun q hq => b.unhiring q hq) ho with
      ⟨hl, -⟩ | ⟨r, hr⟩
    · exact .inl hl
    · exact .inr ⟨⟨handles, rfl⟩, hl, r, hd ▸ hr⟩
  | awaiting budget hwait =>
    cases hwait with
    | begun _ _ ht hc | pending _ _ ht hc | failed _ ht hc =>
      rcases head_cases hc ht h with h | ⟨h, -⟩ <;> cases h
  | founding top ht hc | reading top below ht hb hc | answering _ top ht hc =>
    rcases head_cases hc ht h with h | ⟨h, -⟩ <;> cases h

theorem Engaged.append (a : Engaged settings es ws c) (b : Crew ((World.initial 1).run es) ws)
    (ha : (World.initial 1).admits es = true) (he : Aside ((World.initial 1).run es) ws e) :
    Engaged settings (es ++ [e]) ws c ∧ Crew ((World.initial 1).run (es ++ [e])) ws := by
  have hby : e.isBy 0 = false := he.others
  -- a new thread is a worker, and there is one only if the conductor is about to hire
  have hnew := a.recruits b ha hby
  have b' : Crew (((World.initial 1).run es).step e) ws := by
    refine b.step (fun t c _ => he.calls t c) he.duty (hnew.imp_right ?_)
    rintro ⟨-, hl, r, hr⟩
    exact ⟨hr.length, Nat.le_of_eq hl, outset service r ++ [.member (.gateWait service r)], r, hr.new,
      hr.daemon⟩
  rw [← run_snoc] at b'
  refine ⟨?_, b'⟩
  cases a with
  | founding top ht hc hf hl =>
    have hl' := hnew.resolve_right (by rintro ⟨⟨_, h⟩, -⟩; cases h)
    rw [← run_snoc] at hl'
    by_cases hx : e = .advance 0 ∧ ∃ x rest,
        ((World.initial 1).run es).codeOf 0 = .member (.establish x) :: rest
    · obtain ⟨rfl, x, rest, h⟩ := hx
      obtain ⟨hj, rfl⟩ := (head_cases hc ht h).resolve_left fun h => by cases h
      cases hj
      obtain ⟨hc', ho', hx'⟩ := proceed_establish h hf
      rw [← step_of_code h rfl, ← run_snoc] at hc' ho' hx'
      exact .answering _ _ rfl hc' ho' hx' (hl'.trans hl) fun budget h => by cases h
    · have hf' : (((World.initial 1).run es).step e).fittings service = none := by
        refine fittings_step_of_none hf fun t x rest het h => ?_
        by_cases ht0 : t = 0
        · subst ht0
          exact hx ⟨het, x, rest, h⟩
        · have hu := b.unhiring t ht0
          rw [World.Unhiring, h] at hu
          cases hu
      rcases silent_step hc ht hby with ⟨top', ht', hc', -⟩ | ⟨rfl, h, -⟩
      · rw [← run_snoc] at hc' hf'
        exact .founding top' ht' hc' hf' (hl'.trans hl)
      · exact absurd ⟨rfl, settings, _, h⟩ hx
  | hiring handles o hd reply hs ho hx hl =>
    have hx' := settingsOf_step hx e
    rcases hs.step (staged es ha) ⟨es, ha, rfl⟩ hby (fun q hq => b.unhiring q hq) ho with
      ⟨hl', hs', ho'⟩ | ⟨r, hr⟩
    · rw [← run_snoc] at ho' hx' hl'
      exact .hiring handles o hd _ hs' ho' hx' (hl'.trans hl)
    · have hc' := hr.code
      have ho' := hr.outcome
      have hl' := hr.length
      rw [hl, ← run_snoc] at hl'
      rw [← run_snoc] at hc' ho' hx'
      refine .answering _ ([.guard (.raise service .blocking), .sync (.acquire (.roster service))] ++
        [.member (.spawnWait service r)]) rfl hc' ⟨_, ho'⟩ hx' hl' ?_
      exact fun budget h => by cases h
  | awaiting budget hwait hx hl =>
    have hkeep := hnew.resolve_right (by rintro ⟨⟨_, h⟩, -⟩; cases h)
    have hl' := hkeep
    have hx' := settingsOf_step hx e
    rw [← run_snoc] at hl' hx'
    rcases hwait.step hby with hwait' | ⟨rfl, hz, ho, d, h⟩
    · rw [← run_snoc] at hwait'
      exact .awaiting budget hwait' hx' (hl'.trans hl)
    · have hover := (b.dismissed rfl ha h hz (by omega)).step hkeep
      obtain ⟨hc', ho'⟩ := proceed_awaitExitCheck h hz
      rw [← step_of_code h rfl, ← run_snoc] at hc' ho'
      rw [← run_snoc] at hover
      exact .answering _ _ rfl hc' ⟨_, ho'.trans ho⟩ hx' (hl'.trans hl) fun _ _ => hover
  | reading top below ht hb hc hx hl =>
    have hl' := hnew.resolve_right (by rintro ⟨⟨_, h⟩, -⟩; cases h)
    have hx' := settingsOf_step hx e
    rw [← run_snoc] at hl' hx'
    rcases smooth_step hc ht hby with ⟨top', ht', hc', -⟩ | ⟨rfl, h, -, hs⟩
    · rw [← run_snoc] at hc'
      exact .reading top' below ht' hb hc' hx' (hl'.trans hl)
    · obtain ⟨hc', ho'⟩ := proceed_statsCounters h hx
      rw [← hs, ← run_snoc] at hc' ho'
      exact .answering _ below hb hc' ho' hx' (hl'.trans hl) fun budget h => by cases h
  | answering _ top ht hc ho hx hl hover =>
    have hl' := (b.event he fun s r rest h => by
      rcases head_cases hc ht h with h | ⟨h, -⟩ <;> cases h).1
    have hx' := settingsOf_step hx e
    have hover' (budget : Nat) (h : c = .awaitExit budget) := (hover budget h).step hl'
    rw [← run_snoc] at hl' hx' hover'
    rcases smooth_step hc ht hby with ⟨top', ht', hc', ho'⟩ | ⟨-, -, hu, -⟩
    · have hg := ho.smoothly ho'
      rw [← run_snoc] at hc' hg
      exact .answering c top' ht' hc' hg hx' (hl'.trans hl) hover'
    · exact absurd rfl hu

/-! The conductor makes a call, and comes back from it. -/

theorem engaged_of_call (hu : ((World.initial 1).run es).inUser 0 = true)
    (hcode : ((World.initial 1).run es).codeOf 0 = [.user])
    (hcall : c.call? settings p service = some call)
    (hl : ((World.initial 1).run es).threads.length = ws.length + 1)
    (hf : c = .establish → ((World.initial 1).run es).fittings service = none)
    (hx : c ≠ .establish → ((World.initial 1).run es).settingsOf service = some settings) :
    Engaged settings (es ++ [.invoke 0 call]) (c.roll ws) c := by
  obtain ⟨hc', ho'⟩ := invoke_admitted hu (c.call_idle (w := World.initial 1) (t := 0) hcall).1
  have hl' : (((World.initial 1).run es).step (.invoke 0 call)).threads.length = ws.length + 1 :=
    (undisturbed_invoke _ 0 call).length.trans hl
  have hx' (h : c ≠ .establish) := settingsOf_step (hx h) (.invoke 0 call)
  have hf' (h : c = .establish) :
      (((World.initial 1).run es).step (.invoke 0 call)).fittings service = none :=
    fittings_step_of_none (hf h) fun t x rest h => by cases h
  rw [hcode] at hc'
  rw [← run_snoc] at hc' ho' hl' hx' hf'
  -- most calls of the conductor are of one kind: they run through and answer
  have answers {top : List Instr} (h : ((World.initial 1).run (es ++ [.invoke 0 call])).codeOf 0 =
      top ++ [.user]) (ht : top.all (Instr.isSmooth c.isLenient) = true)
      (hs : c.Suits (.value .unit)) (hne : c ≠ .establish) (hroll : c.roll ws = ws)
      (hn : ∀ budget, c ≠ .awaitExit budget) :
      Engaged settings (es ++ [.invoke 0 call]) (c.roll ws) c := by
    rw [hroll]
    exact .answering c top ht h (ho' ▸ hs) (hx' hne) hl' fun budget h => absurd h (hn budget)
  cases c with
  | establish =>
    obtain rfl := Option.some.inj hcall
    exact .founding [] rfl hc' (hf' rfl) hl'
  | start handles =>
    obtain rfl := Option.some.inj hcall
    refine .hiring handles _ rfl none (.begun [] rfl hc' ho' (hx' nofun)) ?_ (hx' nofun) ?_
    · rw [ho']
      exact fun k h => by cases h
    · rw [Control.roll, List.length_append]
      exact hl'
  | letWork chosen | letOthersWork chosen | letRest | suspendAll | resumeAll =>
    obtain rfl := Option.some.inj hcall
    exact answers hc' rfl ⟨_, rfl⟩ nofun rfl nofun
  | suspend rest chosen =>
    cases rest with
    | nil => cases hcall
    | cons h rest =>
      obtain rfl := Option.some.inj hcall
      exact answers hc' rfl (.inl ⟨_, rfl⟩) nofun rfl nofun
  | resume rest =>
    cases rest with
    | nil => cases hcall
    | cons h rest =>
      obtain rfl := Option.some.inj hcall
      exact answers hc' rfl (.inl ⟨_, rfl⟩) nofun rfl nofun
  | awaitExit budget =>
    obtain rfl := Option.some.inj hcall
    exact .awaiting budget (.begun [] (some budget) rfl hc' ho') (hx' nofun) hl'
  | stats =>
    obtain rfl := Option.some.inj hcall
    -- the statistics are read section by section, each under the lock of its table
    refine .reading [.guard (.raise service .critical), .sync (.acquire (.roster service)),
      .read (.statsCensus service), .sync (.release (.roster service)),
      .sync (.acquire (.mutexTable service)), .read (.statsMutexes service),
      .sync (.release (.mutexTable service)), .sync (.acquire (.condTable service)),
      .read (.statsConds service), .sync (.release (.condTable service))]
      [.guard (.lower service)] rfl rfl hc' (hx' nofun) hl'
  | _ => cases hcall

/-- What the conductor knows when it is back from its call. -/
structure Returned (settings : Settings) (w : World) (ws : List (Stage × Bool)) (c : Control) :
    Prop where
  code : w.codeOf 0 = [.user]
  suits : c.Suits (w.outcomeOf 0)
  settings : w.settingsOf service = some settings
  length : w.threads.length = ws.length + 1
  ended : ∀ budget, c = .awaitExit budget → Dismissed w ws

/-- Only the start of a worker and the wait for all of them can have failed. -/
theorem Engaged.back (a : Engaged settings es ws c) (hu : ((World.initial 1).run es).inUser 0 = true) :
    Returned settings ((World.initial 1).run es) ws c ∨
      (∃ handles, c = .start handles) ∧
        (∀ k, ((World.initial 1).run es).outcomeOf 0 ≠ .value (.handle k)) ∨
      (∃ budget, c = .awaitExit budget) ∧
        ((World.initial 1).run es).outcomeOf 0 = .fault .timeout := by
  obtain ⟨base, h⟩ := head_user hu
  cases a with
  | founding top ht hc => rcases head_cases hc ht h with h | ⟨h, -⟩ <;> cases h
  | hiring handles o hd reply hs ho => exact .inr (.inl ⟨⟨handles, rfl⟩, ho⟩)
  | awaiting budget ha =>
    cases ha with
    | begun _ _ ht hc | pending _ _ ht hc => rcases head_cases hc ht h with h | ⟨h, -⟩ <;> cases h
    | failed _ ht hc ho => exact .inr (.inr ⟨⟨budget, rfl⟩, ho⟩)
  | reading top below ht hb hc => rcases head_cases hc ht h with h | ⟨h, -⟩ <;> cases h
  | answering _ top ht hc ho hx hl hover =>
    obtain ⟨-, rfl⟩ := (head_cases hc ht h).resolve_left fun h => by cases h
    exact .inl ⟨h, ho, hx, hl, hover⟩

end Standstill.Stress
