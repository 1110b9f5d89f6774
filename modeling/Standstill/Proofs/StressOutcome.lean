import Standstill.Proofs.StressConduct

/-!
What the stress scenario comes to. The conductor gets all the workers that it starts, none of them gives
anything back before all have asked for what they need, and all are gone in time. Then the result is a
matter of how many they are and of the two capacities alone, in whatever order things happen.
-/
namespace Standstill.Stress

open World

/-! The runs in question. -/

/-- The conductor was refused the worker that it meant to start, or has waited for the end in vain. -/
def State.isLetDown (x : State) (o : Outcome) : Bool :=
  match x.control, o with
  | .start _, .value (.handle _) => false
  | .start _, _ => true
  | .awaitExit _, o => o == .fault .timeout
  | _, _ => false

/-- All the workers are there and have asked for what they need. -/
def allHaveAsked (p : Plan) (y : World × State) : Bool :=
  y.2.workers.length == p.workers && (lots y.1 y.2.workers).all Lot.hasAsked

/-- The conductor does not come back from a call by which it was let down, and nobody gives anything back
before all have asked. -/
def isAsPlanned (p : Plan) (y : World × State) (mv : Move) : Bool :=
  !(mv == .turn 0 && y.1.inUser 0 && y.2.inCall && y.2.isLetDown (y.1.outcomeOf 0)) &&
    (!frees y.1 mv || allHaveAsked p y)

/-- All of the moves are as planned. -/
def goAsPlanned (settings : Settings) (p : Plan) (y : World × State) : List Move → Bool
  | [] => true
  | mv :: ms => isAsPlanned p y mv && goAsPlanned settings p (move settings p y mv) ms

/-- How many of the workers the two pools have no room for. -/
def crowdedOut (settings : Settings) (p : Plan) : Nat :=
  p.workers - min p.workers (min settings.condCapacity settings.mutexCapacity)

/-- What the scenario is to come to. -/
inductive IsDue (settings : Settings) (p : Plan) : Except ScenarioFault Report → Prop
  | well (stats : Stats) (h : p.workers ≤ min settings.condCapacity settings.mutexCapacity) :
    IsDue settings p (.ok (Control.reportOf settings p stats))
  | failed (h : ¬p.workers ≤ min settings.condCapacity settings.mutexCapacity) :
    IsDue settings p (.error (.finding (.workersFailed (crowdedOut settings p) p.workers)))

/-- The number of workers agrees with what the conductor is about. -/
def Control.Manned (p : Plan) (k : Nat) (inCall : Bool) : Control → Prop
  | .establish => k = 0
  | .start handles => handles.length < p.workers ∧ k = handles.length + if inCall then 1 else 0
  | _ => k = p.workers

/-- The conductor reads the figures only if nobody was refused anything, and comes to what is due. -/
def Control.OnCourse (settings : Settings) (p : Plan) : Control → Prop
  | .stats => p.workers ≤ min settings.condCapacity settings.mutexCapacity
  | .over r => IsDue settings p r
  | _ => True

/-- What the workers have in hand, and what stays behind, bears out the number of those refused. -/
structure Supply (settings : Settings) (p : Plan) (ls : List Lot) (lost : List Nat) : Prop where
  stock : Asking settings.condCapacity settings.mutexCapacity ls lost ∨
    Served p.workers settings.condCapacity settings.mutexCapacity ls
  lost : lost ≠ [] → .gone true ∈ ls

/-- The conductor has no call under way. -/
structure AtRest (w : World) (ws : List (Stage × Bool)) (c : Control) : Prop where
  code : ∃ top, top.all (Instr.isSmooth false) = true ∧ w.codeOf 0 = top ++ [.user]
  length : w.threads.length = ws.length + 1
  fresh : c = .establish → w.fittings service = none

/-- The conductor and the crew after the run `es`. -/
structure Conduct (settings : Settings) (es : List Event) (x : State) : Prop where
  admitted : (World.initial 1).admits es = true
  crew : Crew ((World.initial 1).run es) x.workers
  established : x.control ≠ .establish →
    ((World.initial 1).run es).settingsOf service = some settings
  engaged : x.inCall = true → Engaged settings es x.workers x.control
  atRest : x.inCall = false → AtRest ((World.initial 1).run es) x.workers x.control

/-- The scenario after the run `es`. -/
structure Scene (settings : Settings) (p : Plan) (es : List Event) (x : State) (lost : List Nat) :
    Prop where
  conduct : Conduct settings es x
  desk : Desk ((World.initial 1).run es) x.workers lost
  supply : Supply settings p (lots ((World.initial 1).run es) x.workers) lost
  manned : x.control.Manned p x.workers.length x.inCall
  failed : x.failed = x.workers.countP (·.1 == .over true)
  onCourse : x.control.OnCourse settings p

variable {settings : Settings} {p : Plan} {w : World} {x : State} {ws : List (Stage × Bool)}
  {es : List Event} {lost new : List Nat} {ls ls' : List Lot} {c : Control} {e : Event} {mv : Move}
  {o : Outcome} {call : Call} {stage : Stage} {i k : Nat} {u v : Stage × Bool}

theorem crowdedOut_eq_zero :
    crowdedOut settings p = 0 ↔ p.workers ≤ min settings.condCapacity settings.mutexCapacity := by
  unfold crowdedOut
  omega

/-! What the workers have in hand. -/

theorem hasRoom_of_settingsOf (hw : Reachable 1 w) (h : w.settingsOf service = some settings) :
    HasRoom w settings.condCapacity settings.mutexCapacity := by
  obtain ⟨v, hv, rfl⟩ := Option.map_eq_some_iff.mp h
  exact hasRoom_of_fittings hw (p := v.mutexes) (q := v.conds) (by rw [fittings, hv]; rfl)

namespace Supply

variable (a : Supply settings p ls lost)
include a

/-- All have asked, so it is settled how many were refused. -/
theorem served (ac : Account w ls lost)
    (hr : HasRoom w settings.condCapacity settings.mutexCapacity) (hn : ls.length = p.workers)
    (hask : ∀ l ∈ ls, l.hasAsked = true) :
    Served p.workers settings.condCapacity settings.mutexCapacity ls := by
  rcases a.stock with h | h
  · exact h.served hn hask (ac.condCount_le hr) (ac.mutexCount_le hr)
  · exact h

/-- One move. -/
theorem shift (ac : Account w ls lost)
    (hr : ls ≠ [] → HasRoom w settings.condCapacity settings.mutexCapacity)
    (h : Shift w ls mv ls' new) (hn : ls'.length ≤ p.workers)
    (hf : frees w mv = true → ls.length = p.workers ∧ ∀ l ∈ ls, l.hasAsked = true) :
    Supply settings p ls' (lost ++ new) := by
  refine ⟨?_, h.gone_of_lost a.lost⟩
  cases hfree : frees w mv with
  | false =>
    rcases a.stock with hs | hs
    · exact .inl (hs.shift ac hr h hfree)
    · exact .inr (hs.shift h hn)
  | true =>
    obtain ⟨hlen, hask⟩ := hf hfree
    refine .inr ?_
    by_cases hne : ls = []
    · subst hne
      cases h with
      | same =>
        refine ⟨hlen, hask, ?_⟩
        rw [← hlen]
        rfl
      | trade e j i l l' hran hi | back t i l hi => cases hi
      | hire => cases hfree
    · exact (a.served ac (hr hne) hlen hask).shift h hn

end Supply

/-- Who is over has failed if it was refused something. -/
theorem countP_refused (h : ws.all (·.1.isOver) = true) (w : World) :
    (lots w ws).countP Lot.isRefused = ws.countP (·.1 == .over true) := by
  have hlots : lots w ws = ws.map fun u => .gone (u.1 == .over true) := by
    apply List.ext_getElem?
    intro i
    rw [lots_getElem, List.getElem?_map]
    refine Option.map_congr fun u hu => ?_
    obtain ⟨stage, b⟩ := u
    have ho := List.all_eq_true.mp h _ (List.mem_of_getElem? hu)
    cases stage with
    | «over» failed => cases b <;> cases failed <;> rfl
    | _ => cases ho
  rw [hlots, List.countP_map]
  refine List.countP_congr fun u _ => ?_
  simp only [Function.comp]
  cases u.1 == Stage.over true <;> exact Iff.rfl

/-- The conductor looks over the work of the workers, who are all over. -/
theorem review_eq (a : Desk w ws lost) (b : Supply settings p (lots w ws) lost)
    (h : ws.all (·.1.isOver) = true) (hn : ws.length = p.workers)
    (hx : w.settingsOf service = some settings) :
    Control.review w p service (ws.countP (·.1 == .over true)) =
      if p.workers ≤ min settings.condCapacity settings.mutexCapacity then .stats
      else Control.fail (.finding (.workersFailed (crowdedOut settings p) p.workers)) := by
  have hlen : (lots w ws).length = p.workers := by rw [lots, List.length_mapIdx, hn]
  have hask : ∀ l ∈ lots w ws, l.hasAsked = true := by
    intro l hl
    obtain ⟨i, hi⟩ := List.getElem?_of_mem hl
    rw [lots_getElem] at hi
    obtain ⟨⟨stage, b⟩, hu, rfl⟩ := Option.map_eq_some_iff.mp hi
    obtain ⟨failed, hg⟩ := lot_of_over (List.all_eq_true.mp h _ (List.mem_of_getElem? hu)) w i b
    rw [hg]
    rfl
  have hs := b.served a.account (hasRoom_of_settingsOf a.reach hx) hlen hask
  have hcount : ws.countP (·.1 == .over true) = crowdedOut settings p :=
    (countP_refused h w).symm.trans hs.refused
  rw [hcount, Control.review]
  by_cases hfit : p.workers ≤ min settings.condCapacity settings.mutexCapacity
  · have hz := crowdedOut_eq_zero.mpr hfit
    -- nobody failed, so nothing stays behind
    have hlost : lost = [] := by
      by_contra hne
      have hpos := List.countP_pos_iff.mpr ⟨_, b.lost hne, (rfl : Lot.isRefused (.gone true) = true)⟩
      have hr := hs.refused
      rw [crowdedOut] at hz
      omega
    have hm : (w.mutexSlots service).inUse = 0 := by
      rw [← a.account.mutexCount_eq, mutexCount, filterMap_of_over (fun _ => rfl) h]
      rfl
    have hc : (w.condSlots service).inUse = 0 := by
      rw [← a.account.condCount_eq, condCount, filterMap_of_over (fun _ => rfl) h, hlost]
      rfl
    rw [if_neg (by omega), if_neg (by rw [hm, hc]; simp), if_pos hfit]
  · have hpos : 0 < crowdedOut settings p :=
      Nat.pos_of_ne_zero fun hz => hfit (crowdedOut_eq_zero.mp hz)
    rw [if_pos hpos, if_neg hfit]

/-! What is not the conductor's own doing. -/

theorem AtRest.step (a : AtRest w ws c) (b : Crew w ws) (he : Aside w ws e) :
    AtRest (w.step e) ws c ∧ Crew (w.step e) ws := by
  obtain ⟨top, ht, hc⟩ := a.code
  have quiet {j : Instr} {below : List Instr} (hj : j.isSmooth false = false) (hu : j ≠ .user) :
      w.codeOf 0 ≠ j :: below := by
    intro h
    rcases head_cases hc ht h with h | ⟨h, -⟩
    · rw [hj] at h
      cases h
    · exact hu h
  obtain ⟨hl, b'⟩ := b.event he fun s r rest => quiet rfl nofun
  refine ⟨⟨?_, hl.trans a.length, fun h => ?_⟩, b'⟩
  · rcases smooth_step hc ht he.others with ⟨top', ht', hc', -⟩ | ⟨-, -, hu, -⟩
    · exact ⟨top', ht', hc'⟩
    · exact absurd rfl hu
  · refine fittings_step_of_none (a.fresh h) fun t x rest _ hcode => ?_
    by_cases ht0 : t = 0
    · subst ht0
      exact quiet (j := .member (.establish x)) rfl nofun hcode
    · have hu := b.unhiring t ht0
      rw [World.Unhiring, hcode] at hu
      cases hu

namespace Conduct

variable (a : Conduct settings es x)
include a

theorem append (he : Aside ((World.initial 1).run es) x.workers e)
    (hp : e.isPlaced ((World.initial 1).run es) = true) : Conduct settings (es ++ [e]) x := by
  have ha : (World.initial 1).admits (es ++ [e]) = true := by
    simp [admits_append, a.admitted, admits, hp]
  have hx (h : x.control ≠ .establish) := settingsOf_step (a.established h) e
  rw [← run_snoc] at hx
  cases hin : x.inCall with
  | true =>
    obtain ⟨hg, b⟩ := (a.engaged hin).append a.crew a.admitted he
    refine ⟨ha, b, hx, fun _ => hg, fun h => ?_⟩
    rw [hin] at h
    cases h
  | false =>
    obtain ⟨hr, b⟩ := (a.atRest hin).step a.crew he
    rw [← run_snoc] at hr b
    refine ⟨ha, b, hx, fun h => ?_, fun _ => hr⟩
    rw [hin] at h
    cases h

/-- A worker is at another stage; who is over stays so. -/
theorem set (hi : x.workers[k]? = some u) (h : u.1.isOver = true → v.1.isOver = true) (f : Nat) :
    Conduct settings es { x with workers := x.workers.set k v, failed := f } where
  admitted := a.admitted
  crew := a.crew.set hi h
  established := a.established
  engaged hin := (a.engaged hin).set hi h
  atRest hin := by
    obtain ⟨hc, hl, hf⟩ := a.atRest hin
    exact ⟨hc, List.length_set.symm ▸ hl, hf⟩

end Conduct

/-! What a worker does. -/

theorem Stage.call_facts (h : stage.call? p service i = some call) :
    call.isHiring = false ∧ call.service? = some service ∧ call.refusal? = none ∧
      stage.isOver = false := by
  cases stage with
  | «over» => cases h
  | _ =>
    obtain rfl := Option.some.inj h
    exact ⟨rfl, rfl, rfl, rfl⟩

theorem aside_of_begin (hi : ws[i]? = some (stage, false)) (hc : stage.call? p service i = some call)
    (hu : w.inUser (i + 1) = true) : Aside w ws (.invoke (i + 1) call) where
  others := rfl
  calls := by
    intro t d he
    rw [← (Event.invoke.inj he).2]
    exact (Stage.call_facts hc).1
  duty k y hk ho hd := by
    by_cases hki : k = i
    · subst hki
      exact hd.invoke hu (Stage.call_facts hc).2.2.1
    · refine hd.step ?_
      simpa [Event.isBy] using Ne.symm hki

theorem isOver_of_no_call (h : stage.call? p service i = none) : stage.isOver = true := by
  cases stage with
  | «over» => rfl
  | _ => cases h

theorem aside_of_finish (hi : ws[i]? = some (stage, false)) (hc : stage.call? p service i = none) :
    Aside w ws (.finish (i + 1) false) where
  others := rfl
  calls := by
    intro t d he
    cases he
  duty k y hk ho hd := by
    by_cases hki : k = i
    · subst hki
      obtain rfl := Option.some.inj (hi.symm.trans hk)
      rw [isOver_of_no_call hc] at ho
      cases ho
    · refine hd.step ?_
      simpa [Event.isBy] using Ne.symm hki

/-- A worker that has a call under way is not over. -/
theorem Desk.not_over (a : Desk w ws lost) (hi : ws[i]? = some (stage, true)) :
    stage.isOver = false := by
  have hc := a.course hi
  generalize w.doing (i + 1) = d, w.outcomeOf (i + 1) = o, (lotOf w i (stage, true)).view w = v at hc
  cases hc <;> rfl

theorem countP_set_stage (hi : ws[i]? = some u) (hu : u.1.isOver = false) (v : Stage × Bool) :
    (ws.set i v).countP (·.1 == .over true) =
      if v.1 = .over true then ws.countP (·.1 == .over true) + 1
      else ws.countP (·.1 == .over true) := by
  obtain ⟨hl, rfl⟩ := List.getElem?_eq_some_iff.mp hi
  have hne : ws[i].1 ≠ .over true := by
    intro h
    rw [h] at hu
    cases hu
  simp only [List.countP_set hl, beq_iff_eq, hne, if_false, Nat.sub_zero]
  split <;> rfl

/-! What the conductor does. -/

theorem Control.Manned.le {inCall : Bool} (h : c.Manned p k inCall) : k ≤ p.workers := by
  cases c with
  | establish => exact Nat.le_trans (Nat.le_of_eq h) (Nat.zero_le _)
  | start handles =>
    obtain ⟨hlt, hk⟩ := h
    cases inCall
    · exact Nat.le_of_lt (hk ▸ hlt)
    · exact hk ▸ hlt
  | _ => exact Nat.le_of_eq h

/-- With the start of a worker there is one more. -/
theorem Control.Manned.calling (h : c.Manned p ws.length false)
    (hc : c.call? settings p service = some call) : c.Manned p (c.roll ws).length true := by
  cases c with
  | start handles =>
    refine ⟨h.1, ?_⟩
    rw [Control.roll, List.length_append, h.2]
    rfl
  | _ => exact h

theorem Control.service_of_call (hc : c.call? settings p service = some call) (hne : c ≠ .establish) :
    call.service? = some service := by
  cases c with
  | establish => exact absurd rfl hne
  | suspend rest chosen =>
    cases rest with
    | nil => cases hc
    | cons h rest =>
      obtain rfl := Option.some.inj hc
      rfl
  | resume rest =>
    cases rest with
    | nil => cases hc
    | cons h rest =>
      obtain rfl := Option.some.inj hc
      rfl
  | «over» => cases hc
  | _ =>
    obtain rfl := Option.some.inj hc
    rfl

theorem State.isLetDown_start {handles : List Handle} (hc : x.control = .start handles)
    (h : x.isLetDown o = false) : ∃ k, o = .value (.handle k) := by
  unfold State.isLetDown at h
  rw [hc] at h
  cases o with
  | value v =>
    cases v with
    | handle k => exact ⟨k, rfl⟩
    | _ => cases h
  | fault | panicked => cases h

theorem Control.starting_facts {handles : List Handle} (h : handles.length ≤ p.workers) :
    starting p handles ≠ .establish ∧ (starting p handles).Manned p handles.length false ∧
      (starting p handles).OnCourse settings p := by
  unfold starting
  split
  next hlt => exact ⟨nofun, ⟨hlt, rfl⟩, trivial⟩
  next hge => exact ⟨nofun, Nat.le_antisymm h (Nat.le_of_not_lt hge), trivial⟩

theorem Control.suspending_facts {rest chosen : List Handle} (h : k = p.workers) :
    suspending rest chosen ≠ .establish ∧ (suspending rest chosen).Manned p k false ∧
      (suspending rest chosen).OnCourse settings p := by
  cases rest <;> exact ⟨nofun, h, trivial⟩

theorem Control.resuming_facts {rest : List Handle} (h : k = p.workers) :
    resuming rest ≠ .establish ∧ (resuming rest).Manned p k false ∧
      (resuming rest).OnCourse settings p := by
  cases rest <;> exact ⟨nofun, h, trivial⟩

/-- The conductor goes on. When it looks over the work of the workers they are all over. -/
theorem Returned.next (r : Returned settings w ws c) (a : Desk w ws lost)
    (b : Supply settings p (lots w ws) lost) (hb : p.budget?.isSome = true)
    (hm : c.Manned p ws.length true) (hc : c.OnCourse settings p)
    (hh : ∀ handles, c = .start handles → ∃ k, w.outcomeOf 0 = .value (.handle k)) :
    let c' := c.next w settings p service (ws.countP (·.1 == .over true)) (w.outcomeOf 0)
    c' ≠ .establish ∧ c'.Manned p ws.length false ∧ c'.OnCourse settings p := by
  have ho := r.suits
  cases c with
  | establish =>
    obtain ⟨v, ho⟩ := ho
    have hn : ws.length = 0 := hm
    rw [ho, hn]
    exact Control.starting_facts (Nat.zero_le _)
  -- one more worker is hired, and the roll counts it already
  | start handles =>
    obtain ⟨k, ho⟩ := hh handles rfl
    obtain ⟨hlt, hn⟩ := hm
    rw [ho, hn]
    have hle : (k :: handles).length ≤ p.workers := hlt
    exact Control.starting_facts hle
  | letWork chosen =>
    obtain ⟨v, ho⟩ := ho
    rw [ho]
    exact Control.suspending_facts hm
  | suspend rest chosen =>
    rcases ho with ⟨v, ho⟩ | ho
    · rw [ho]
      exact Control.suspending_facts hm
    · rw [ho]
      exact Control.suspending_facts hm
  | letOthersWork chosen =>
    obtain ⟨v, ho⟩ := ho
    rw [ho]
    exact Control.resuming_facts hm
  | resume rest =>
    rcases ho with ⟨v, ho⟩ | ho
    · rw [ho]
      exact Control.resuming_facts hm
    · rw [ho]
      exact Control.resuming_facts hm
  | suspendAll | letRest =>
    obtain ⟨v, ho⟩ := ho
    rw [ho]
    exact ⟨nofun, hm, trivial⟩
  | resumeAll =>
    obtain ⟨v, ho⟩ := ho
    obtain ⟨n, hn⟩ := Option.isSome_iff_exists.mp hb
    rw [ho]
    simp only [Control.next, hn]
    exact ⟨nofun, hm, trivial⟩
  -- the wait for the exit came back, so everybody is over and the review counts every worker
  | awaitExit budget =>
    obtain ⟨v, ho⟩ := ho
    rw [ho]
    intro c'
    have hreview : c' = _ := review_eq a b (r.ended budget rfl).done hm r.settings
    rw [hreview]
    split
    next hfit => exact ⟨nofun, hm, hfit⟩
    next hfit => exact ⟨nofun, hm, .failed hfit⟩
  | stats =>
    obtain ⟨v, ho⟩ := ho
    rw [ho]
    exact ⟨nofun, hm, .well v hc⟩
  | «over» res =>
    obtain ⟨v, ho⟩ := ho
    rw [ho]
    exact ⟨nofun, hm, hc⟩

theorem Crew.roll (b : Crew w ws) (c : Control) : Crew w (c.roll ws) := by
  cases c with
  | start handles => exact b.append _
  | _ => exact b

/-- A call on the service is made only when it is there. -/
theorem isPlaced_invoke {t : ThreadId} (hx : w.settingsOf service = some settings)
    (hs : call.service? = some service) : (Event.invoke t call).isPlaced w = true := by
  obtain ⟨v, hv, -⟩ := Option.map_eq_some_iff.mp hx
  have hl := (List.getElem?_eq_some_iff.mp hv).1
  simpa [Event.isPlaced, hs] using hl

namespace Conduct

variable (a : Conduct settings es x) (hu : ((World.initial 1).run es).inUser 0 = true)
include a hu

/-- The conductor makes a call. -/
theorem calls (hin : x.inCall = false) (hc : x.control.call? settings p service = some call) :
    Conduct settings (es ++ [.invoke 0 call])
      { x with inCall := true, workers := x.control.roll x.workers } := by
  obtain ⟨⟨top, ht, hcode⟩, hl, hf⟩ := a.atRest hin
  obtain ⟨base, hbase⟩ := head_user hu
  have hidle : ((World.initial 1).run es).codeOf 0 = [.user] := by
    rcases head_cases hcode ht hbase with h | ⟨-, rfl⟩
    · cases h
    · exact hbase
  have hp : (Event.invoke 0 call).isPlaced ((World.initial 1).run es) = true := by
    by_cases he : x.control = .establish
    · rw [he] at hc
      obtain rfl := Option.some.inj hc
      rfl
    · exact isPlaced_invoke (a.established he) (Control.service_of_call hc he)
  have hb : Crew (((World.initial 1).run es).step (.invoke 0 call)) x.workers := by
    refine a.crew.step (fun t d ht he => absurd (Event.invoke.inj he).1.symm ht) (fun i y _ _ hd => ?_)
      (.inl (undisturbed_invoke _ 0 call).length)
    exact hd.step rfl
  rw [← run_snoc] at hb
  refine ⟨?_, hb.roll _, fun he => ?_, fun _ => ?_, nofun⟩
  · simp [admits_append, a.admitted, admits, hp]
  · have hx := settingsOf_step (a.established he) (.invoke 0 call)
    rwa [← run_snoc] at hx
  · exact engaged_of_call hu hidle hc hl hf a.established

/-- The conductor comes back from a call by which it was not let down. -/
theorem returned (hin : x.inCall = true)
    (hl : x.isLetDown (((World.initial 1).run es).outcomeOf 0) = false) :
    Returned settings ((World.initial 1).run es) x.workers x.control := by
  rcases (a.engaged hin).back hu with hr | ⟨⟨handles, hc⟩, ho⟩ | ⟨⟨budget, hc⟩, ho⟩
  · exact hr
  · obtain ⟨k, hk⟩ := State.isLetDown_start hc hl
    exact absurd hk (ho k)
  · unfold State.isLetDown at hl
    rw [hc, ho] at hl
    cases hl

end Conduct

theorem Conduct.goOn (a : Conduct settings es x)
    (r : Returned settings ((World.initial 1).run es) x.workers x.control) (hc : c ≠ .establish) :
    Conduct settings es { x with control := c, inCall := false } where
  admitted := a.admitted
  crew := a.crew
  established _ := r.settings
  engaged := nofun
  atRest _ := ⟨⟨[], rfl, r.code⟩, r.length, fun h => absurd h hc⟩

/-! One move. -/

section Planned

variable {y : World × State} (h : isAsPlanned p y mv = true)
include h

theorem frees_of_planned (hf : frees y.1 mv = true) :
    (lots y.1 y.2.workers).length = p.workers ∧
      ∀ l ∈ lots y.1 y.2.workers, l.hasAsked = true := by
  simp only [isAsPlanned, hf, allHaveAsked, Bool.and_eq_true, Bool.not_true, Bool.false_or,
    beq_iff_eq, List.all_eq_true] at h
  exact ⟨List.length_mapIdx.trans h.2.1, h.2.2⟩

theorem not_letDown_of_planned (hm : mv = .turn 0) (hu : y.1.inUser 0 = true)
    (hin : y.2.inCall = true) : y.2.isLetDown (y.1.outcomeOf 0) = false := by
  subst hm
  simp only [isAsPlanned, hu, hin, Bool.and_eq_true, Bool.not_eq_true', beq_self_eq_true,
    Bool.true_and] at h
  exact h.1

end Planned

namespace Scene

variable (a : Scene settings p es x lost)
include a

theorem established (hi : x.workers[i]? = some u) :
    ((World.initial 1).run es).settingsOf service = some settings := by
  refine a.conduct.established fun he => ?_
  have hm := a.manned
  rw [he] at hm
  rw [List.length_eq_zero_iff.mp hm] at hi
  cases hi

/-- What the workers have in hand is as it is to be if nothing else is wrong. -/
theorem next {es' : List Event} {x' : State}
    (h : isAsPlanned p ((World.initial 1).run es, x) mv = true)
    (hm : Moves ((World.initial 1).run es, x) lost mv ((World.initial 1).run es', x'))
    (conduct : Conduct settings es' x') (manned : x'.control.Manned p x'.workers.length x'.inCall)
    (failed : x'.failed = x'.workers.countP (·.1 == .over true))
    (onCourse : x'.control.OnCourse settings p) :
    Scene settings p es' x' (lost ++ forsaken ((World.initial 1).run es, x) mv) := by
  obtain ⟨hs, desk⟩ := hm
  refine ⟨conduct, desk, ?_, manned, failed, onCourse⟩
  refine a.supply.shift a.desk.account (fun hne => ?_) hs ?_ (frees_of_planned h)
  · obtain ⟨l, hl⟩ := List.exists_mem_of_ne_nil _ hne
    obtain ⟨i, hi⟩ := List.getElem?_of_mem hl
    rw [lots_getElem] at hi
    obtain ⟨u, hu, -⟩ := Option.map_eq_some_iff.mp hi
    exact hasRoom_of_settingsOf a.desk.reach (a.established hu)
  · rw [lots, List.length_mapIdx]
    exact manned.le

/-- A thread goes on with the script. -/
theorem turn {t : ThreadId} {z : World × State} (hb : p.budget?.isSome = true)
    (h : isAsPlanned p ((World.initial 1).run es, x) (.turn t) = true)
    (hu : ((World.initial 1).run es).inUser t = true)
    (ht : Turn settings p ((World.initial 1).run es) x t z)
    (hmv : Moves ((World.initial 1).run es, x) lost (.turn t) z) :
    ∃ es' x', z = ((World.initial 1).run es', x') ∧
      Scene settings p es' x' (lost ++ forsaken ((World.initial 1).run es, x) (.turn t)) := by
  have he (e : Event) : ((World.initial 1).run es).step e = (World.initial 1).run (es ++ [e]) :=
    (run_snoc _ _ _).symm
  cases ht with
  -- the conductor is answered and goes on to its next call
  | returned hin =>
    have hl := not_letDown_of_planned h rfl hu hin
    have r := a.conduct.returned hu hin hl
    obtain ⟨hne, hman, hon⟩ := r.next a.desk a.supply hb (hin ▸ a.manned) a.onCourse
      fun handles hc => State.isLetDown_start hc hl
    rw [← a.failed] at hne hman hon
    exact ⟨es, _, rfl, a.next h hmv (a.conduct.goOn r hne) hman a.failed hon⟩
  | call c hin hc =>
    have hroll : (x.control.roll x.workers).countP (·.1 == .over true) =
        x.workers.countP (·.1 == .over true) := by
      cases x.control with
      | start => simp [Control.roll]
      | _ => rfl
    have hm := Control.Manned.calling (hin ▸ a.manned) hc
    rw [he] at hmv ⊢
    exact ⟨_, _, rfl, a.next h hmv (a.conduct.calls hu hin hc) hm (a.failed.trans hroll.symm)
      a.onCourse⟩
  | done | nobody => exact ⟨es, x, rfl, a.next h hmv a.conduct a.manned a.failed a.onCourse⟩
  | back i stage hi =>
    have hover := a.desk.not_over hi
    refine ⟨es, _, rfl, a.next h hmv (a.conduct.set hi (fun ho => ?_) _) ?_ ?_ a.onCourse⟩
    · rw [hover] at ho
      cases ho
    · rw [List.length_set]
      exact a.manned
    · rw [countP_set_stage hi hover, ← a.failed]
  -- a worker that has a call to make is not over, so the count of the failed stays
  | begin i stage c hi hc =>
    obtain ⟨-, hserv, -, hover⟩ := Stage.call_facts hc
    have conduct := (a.conduct.append (aside_of_begin hi hc hu)
      (isPlaced_invoke (a.established hi) hserv)).set hi (v := (stage, true)) id x.failed
    rw [he] at hmv ⊢
    refine ⟨_, _, rfl, a.next h hmv conduct ?_ ?_ a.onCourse⟩
    · rw [List.length_set]
      exact a.manned
    · have hne : stage ≠ .over true := by
        rintro rfl
        cases hover
      rw [countP_set_stage hi hover, if_neg hne]
      exact a.failed
  | finish i stage hi hc =>
    have conduct := a.conduct.append (aside_of_finish hi hc) rfl
    rw [he] at hmv ⊢
    exact ⟨_, x, rfl, a.next h hmv conduct a.manned a.failed a.onCourse⟩

/-- One move as planned. -/
theorem move (hb : p.budget?.isSome = true)
    (h : isAsPlanned p ((World.initial 1).run es, x) mv = true) :
    ∃ es' x', Stress.move settings p ((World.initial 1).run es, x) mv =
        ((World.initial 1).run es', x') ∧
      Scene settings p es' x' (lost ++ forsaken ((World.initial 1).run es, x) mv) := by
  have hmv : Moves ((World.initial 1).run es, x) lost mv
      (Stress.move settings p ((World.initial 1).run es, x) mv) := Desk.move (y := (_, x)) a.desk mv
  rcases move_cases settings p ((World.initial 1).run es, x) mv with
    ⟨hm, -⟩ | ⟨e, rfl, he, hm⟩ | ⟨t, rfl, hu, ht⟩
  · rw [hm] at hmv
    exact ⟨es, x, hm, a.next h hmv a.conduct a.manned a.failed a.onCourse⟩
  · have hp : e.isPlaced ((World.initial 1).run es) = true := by
      cases e <;> first | rfl | cases he
    have conduct := a.conduct.append (aside_of_not_own _ _ he) hp
    rw [hm, ← run_snoc] at hmv
    exact ⟨es ++ [e], x, by rw [hm, run_snoc], a.next h hmv conduct a.manned a.failed a.onCourse⟩
  · exact a.turn hb h hu ht hmv

end Scene

theorem scene_initial : Scene settings p [] {} [] where
  conduct :=
    { admitted := rfl
      crew := crew_initial
      established := fun h => absurd rfl h
      engaged := nofun
      atRest := fun _ => ⟨⟨[], rfl, rfl⟩, rfl, fun _ => rfl⟩ }
  desk := desk_initial
  supply := ⟨.inl (asking_nil _ _), fun h => absurd rfl h⟩
  manned := rfl
  failed := rfl
  onCourse := trivial

theorem move_returned (hu : w.inUser 0 = true) (hin : x.inCall = true) :
    (Stress.move settings p (w, x) (.turn 0)).2.control =
      x.control.next w settings p service x.failed (w.outcomeOf 0) := by
  simp [Stress.move, own, hu, hin]

end Standstill.Stress
