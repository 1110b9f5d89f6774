import Standstill.Proofs.StatsCall
import Standstill.Proofs.StressLiberty

/-!
The end of the stress scenario. When the conductor has found the work of all the workers in order it
reads the figures. Then the workers are out of the way, and nobody stops the conductor; so it comes back
by itself, with a report.
-/
namespace Standstill.Stress

open World

variable {settings : Settings} {p : Plan} {w : World} {x : State} {es : List Event} {lost : List Nat}
  {c : Control} {e : Event} {mv : Move} {o : Outcome}

/-- The move is the conductor's. -/
def Move.isConductors : Move → Bool
  | .turn t | .event (.advance t) | .event (.interrupt t) => t == 0
  | _ => false

/-- The conductor reads the figures, and the threads of the workers are out of the way. -/
structure Closing (w : World) : Prop where
  reads : w.Reads 0 service
  out : ∀ t, t ≠ 0 → w.HasLeft service t

theorem threads_length_of_closing (a : Closing w) :
    (w.step e).threads.length = w.threads.length := by
  rcases threads_step w e with hl | ⟨q, s, r, rest, -, hc, -⟩
  · exact hl
  · by_cases hq : q = 0
    · subst hq
      obtain ⟨below, -, ⟨top, -, hi, -⟩ | ⟨-, hib⟩⟩ := a.reads.head hc nofun
      · cases hi
      · have hm := hib.subset List.mem_cons_self
        simp [Call.code, guarded, locked] at hm
    · have hout := a.out q hq
      rw [HasLeft, hc] at hout
      cases hout

/-- One event that is not the conductor's own doing. -/
theorem Closing.step (a : Closing w) (hw : Reachable 1 w) (f : Free w) (he : e.isBy 0 = false) :
    Closing (w.step e) where
  reads := a.reads.step hw (fun _ => f.unsought.unasked) he
  out t ht := (a.out t ht).step (.inr (threads_length_of_closing a))

/-- The conductor reads the figures after it has waited for the end of the workers. -/
theorem Control.eq_awaitExit_of_next {failed : Nat}
    (h : c.next w settings p service failed o = .stats) : ∃ budget, c = .awaitExit budget := by
  have starts {handles : List Handle} : starting p handles ≠ .stats := by
    intro h
    unfold starting at h
    split at h <;> cases h
  rcases c.next_cases w settings p service failed o with ⟨f, he⟩ | hl
  · rw [he] at h
    cases h
  rw [h] at hl
  generalize hc' : Control.stats = c' at hl
  cases hl with
  | reviewed budget => exact ⟨budget, rfl⟩
  | established | started => exact absurd hc'.symm starts
  | worked chosen | othersWorked chosen => cases chosen <;> cases hc'
  | suspended rest chosen | resumed rest =>
    generalize rest.tail = rest' at hc'
    cases rest' <;> cases hc'
  | _ => cases hc'

/-- The scenario after the run `es`, with all that the end of it depends on. -/
structure Finale (settings : Settings) (p : Plan) (es : List Event) (x : State) (lost : List Nat) :
    Prop where
  scene : Scene settings p es x lost
  liberty : Liberty ((World.initial 1).run es) x
  closing : x.control = .stats → Closing ((World.initial 1).run es)

namespace Finale

variable (a : Finale settings p es x lost)
include a

theorem closing_move (h : isAsPlanned p ((World.initial 1).run es, x) mv = true)
    (hc : (Stress.move settings p ((World.initial 1).run es, x) mv).2.control = .stats) :
    Closing (Stress.move settings p ((World.initial 1).run es, x) mv).1 := by
  have stays (e : Event) (he : e.isBy 0 = false) (hc : x.control = .stats) :
      Closing (((World.initial 1).run es).step e) :=
    (a.closing hc).step a.scene.desk.reach a.liberty.free he
  rcases move_cases settings p ((World.initial 1).run es, x) mv with
    ⟨hm, -⟩ | ⟨e, rfl, he, hm⟩ | ⟨t, rfl, hu, ht⟩
  · rw [hm] at hc ⊢
    exact a.closing hc
  · rw [hm] at hc ⊢
    exact stays e (isBy_of_not_own he 0) hc
  · generalize Stress.move settings p ((World.initial 1).run es, x) (.turn t) = z at hc ht
    cases ht with
    | returned hin =>
      have hl := not_letDown_of_planned h rfl hu hin
      have r := a.scene.conduct.returned hu hin hl
      obtain ⟨budget, hcb⟩ := Control.eq_awaitExit_of_next hc
      exact ⟨⟨[], [], r.code, rfl, List.nil_suffix⟩, (r.ended budget hcb).out⟩
    | call c hin hcall =>
      have hcs : x.control = .stats := hc
      rw [hcs] at hcall
      obtain rfl := Option.some.inj hcall
      have b := a.closing hcs
      exact ⟨b.reads.begin hu, fun t ht => (b.out t ht).step (.inr (threads_length_of_closing b))⟩
    | done | nobody => exact a.closing hc
    | back i stage hi => exact a.closing hc
    | begin i stage c hi hcall => exact stays (.invoke (i + 1) c) rfl hc
    | finish i stage hi hcall => exact stays (.finish (i + 1) false) rfl hc

/-- One move as planned. -/
theorem move (hb : p.budget?.isSome = true)
    (h : isAsPlanned p ((World.initial 1).run es, x) mv = true) :
    ∃ es' x' lost', Stress.move settings p ((World.initial 1).run es, x) mv =
        ((World.initial 1).run es', x') ∧ Finale settings p es' x' lost' := by
  obtain ⟨es', x', hm, b⟩ := a.scene.move hb h
  have hl := a.liberty.move (p := p) a.scene.conduct mv
  have hc := a.closing_move h
  rw [hm] at hl hc
  exact ⟨es', x', _, hm, b, hl, hc⟩

/-- While the conductor reads the figures everything that is its own is as planned. -/
theorem move_of_stats (mv : Move) (hb : p.budget?.isSome = true) (hc : x.control = .stats)
    (hf : frees ((World.initial 1).run es) mv = false) :
    isAsPlanned p ((World.initial 1).run es, x) mv = true ∧
      ∃ es' x' lost', Stress.move settings p ((World.initial 1).run es, x) mv =
        ((World.initial 1).run es', x') ∧ Finale settings p es' x' lost' := by
  have h : isAsPlanned p ((World.initial 1).run es, x) mv = true := by
    simp [isAsPlanned, State.isLetDown, hc, hf]
  exact ⟨h, a.move hb h⟩

end Finale

/-- The conductor gets from one state of the scenario to another by moves as planned, all its own. -/
def Attains (settings : Settings) (p : Plan) (y z : World × State) : Prop :=
  ∃ ms : List Move, ms.all Move.isConductors = true ∧ goAsPlanned settings p y ms = true ∧
    ms.foldl (Stress.move settings p) y = z

theorem Attains.cons {y z : World × State} (hm : mv.isConductors = true)
    (h : isAsPlanned p y mv = true) (hz : Attains settings p (Stress.move settings p y mv) z) :
    Attains settings p y z := by
  obtain ⟨ms, hms, hgo, rfl⟩ := hz
  refine ⟨mv :: ms, ?_, ?_, rfl⟩
  · rw [List.all_cons, hm, hms]
    rfl
  · rw [goAsPlanned, h, hgo]
    rfl

/-- The conductor comes back from its call, for it has less to do with each step. -/
theorem Finale.comes_back (a : Finale settings p es x lost) (hb : p.budget?.isSome = true)
    (hc : x.control = .stats) : ∃ es' lost', Finale settings p es' x lost' ∧
      ((World.initial 1).run es').inUser 0 = true ∧
      Attains settings p ((World.initial 1).run es, x) ((World.initial 1).run es', x) := by
  generalize hk : ((World.initial 1).run es).toDo 0 = k
  induction k using Nat.strongRecOn generalizing es lost with
  | ind k ih =>
    by_cases hu : ((World.initial 1).run es).inUser 0 = true
    · exact ⟨es, lost, a, hu, [], rfl, rfl, rfl⟩
    have b := a.closing hc
    have hw := a.scene.desk.reach
    have onward (e : Event) (he : isOwn e = false) (hm : (Move.event e).isConductors = true)
        (hf : frees ((World.initial 1).run es) (.event e) = false)
        (hl : (((World.initial 1).run es).step e).toDo 0 < ((World.initial 1).run es).toDo 0) :
        ∃ es' lost', Finale settings p es' x lost' ∧
          ((World.initial 1).run es').inUser 0 = true ∧
          Attains settings p ((World.initial 1).run es, x) ((World.initial 1).run es', x) := by
      obtain ⟨hp, es₁, x₁, lost₁, hmv, a₁⟩ := a.move_of_stats (.event e) hb hc hf
      have hstep : Stress.move settings p ((World.initial 1).run es, x) (.event e) =
          (((World.initial 1).run es).step e, x) := if_neg (by rw [he]; exact Bool.false_ne_true)
      obtain ⟨hes, rfl⟩ := Prod.mk.inj (hmv.symm.trans hstep)
      rw [← hes, hk] at hl
      obtain ⟨es', lost', a', hu', hlead⟩ := ih _ hl a₁ rfl
      exact ⟨es', lost', a', hu', .cons hm hp (hmv ▸ hlead)⟩
    rcases b.reads.goes_on hw (fun _ => a.liberty.free.unsought.unasked)
      (fun q hq l hl => hw.keeping.park_of_hasLeft (b.out q hq) hl) hu with hl | ⟨hr, hl⟩
    · exact onward (.interrupt 0) rfl rfl rfl hl
    · refine onward (.advance 0) rfl rfl ?_ hl
      rw [frees, hr]

theorem Attains.trans {y z u : World × State} (h : Attains settings p y z) (h' : Attains settings p z u) :
    Attains settings p y u := by
  obtain ⟨ms, hms, hgo, rfl⟩ := h
  induction ms generalizing y with
  | nil => exact h'
  | cons mv ms ih =>
    rw [List.all_cons, Bool.and_eq_true] at hms
    rw [goAsPlanned, Bool.and_eq_true] at hgo
    exact .cons hms.1 hgo.1 (ih hms.2 hgo.2 h')

/-- When the conductor has come back from the call it has the report. -/
theorem Finale.reports (a : Finale settings p es x lost) (hb : p.budget?.isSome = true)
    (hc : x.control = .stats) (hin : x.inCall = true) :
    ∃ z stats, Attains settings p ((World.initial 1).run es, x) z ∧
      z.2.control = .over (.ok (Control.reportOf settings p stats)) := by
  obtain ⟨es₁, lost₁, a₁, hu, hlead⟩ := a.comes_back hb hc
  have r := a₁.scene.conduct.returned hu hin (by unfold State.isLetDown; rw [hc])
  obtain ⟨v, hv⟩ : ∃ v, ((World.initial 1).run es₁).outcomeOf 0 = .value (.stats v) := by
    have ho := r.suits
    rwa [hc] at ho
  obtain ⟨hp, -⟩ := a₁.move_of_stats (.turn 0) hb hc rfl
  refine ⟨_, v, hlead.trans (.cons rfl hp ⟨[], rfl, rfl, rfl⟩), ?_⟩
  rw [List.foldl_nil, move_returned hu hin, hc, hv]
  rfl

/-- The conductor comes to the end by itself, with a report. -/
theorem Finale.comes_to_its_end (a : Finale settings p es x lost) (hb : p.budget?.isSome = true)
    (hc : x.control = .stats) : ∃ z stats, Attains settings p ((World.initial 1).run es, x) z ∧
      z.2.control = .over (.ok (Control.reportOf settings p stats)) := by
  cases hin : x.inCall with
  | true => exact a.reports hb hc hin
  | false =>
    -- the call is still to be made
    obtain ⟨es₁, lost₁, a₁, hu, hlead⟩ := a.comes_back hb hc
    obtain ⟨hp, es₂, x₂, lost₂, hm, a₂⟩ := a₁.move_of_stats (.turn 0) hb hc rfl
    have hturn : (Stress.move settings p ((World.initial 1).run es₁, x) (.turn 0)).2 =
        { x with inCall := true } := by
      simp [Stress.move, own, hu, hin, hc, Control.call?]
    have hx : x₂ = { x with inCall := true } := (congrArg Prod.snd hm).symm.trans hturn
    subst hx
    obtain ⟨z, stats, hlead', hz⟩ := a₂.reports hb hc rfl
    exact ⟨z, stats, hlead.trans (.cons rfl hp (hm ▸ hlead')), hz⟩

/-- Any number of moves as planned. -/
theorem Finale.moves {ms : List Move} (a : Finale settings p es x lost)
    (hb : p.budget?.isSome = true)
    (h : goAsPlanned settings p ((World.initial 1).run es, x) ms = true) :
    ∃ es' x' lost', ms.foldl (Stress.move settings p) ((World.initial 1).run es, x) =
        ((World.initial 1).run es', x') ∧ Finale settings p es' x' lost' := by
  induction ms generalizing es x lost with
  | nil => exact ⟨es, x, lost, rfl, a⟩
  | cons mv ms ih =>
    rw [goAsPlanned, Bool.and_eq_true] at h
    obtain ⟨es', x', lost', hm, a'⟩ := a.move hb h.1
    rw [List.foldl_cons, hm]
    exact ih a' (hm ▸ h.2)

theorem finale_after {ms : List Move} (hb : p.budget?.isSome = true)
    (h : goAsPlanned settings p (World.initial 1, {}) ms = true) :
    ∃ es x lost, after settings p ms = ((World.initial 1).run es, x) ∧
      Finale settings p es x lost := by
  have a : Finale settings p [] {} [] := ⟨scene_initial, liberty_initial, nofun⟩
  exact a.moves hb h

/-- All the workers have gone in time: the conductor has just come back from the wait for them, or is
reading the figures already. -/
def haveGoneInTime (y : World × State) : Bool :=
  match y.2.control with
  | .awaitExit _ => y.2.inCall && y.1.inUser 0 && !y.2.isLetDown (y.1.outcomeOf 0)
  | .stats => true
  | _ => false

/-- What the scenario comes to is due. -/
theorem Scene.due (a : Scene settings p es x lost) (ho : isOver x = true) :
    IsDue settings p x.result := by
  have hon := a.onCourse
  unfold isOver at ho
  unfold State.result
  cases hc : x.control with
  | «over» r =>
    rw [hc] at hon
    exact hon
  | _ =>
    rw [hc] at ho
    cases ho

/-- When all the workers have gone in time the conductor comes to the end by itself. -/
theorem Finale.ends (a : Finale settings p es x lost) (hb : p.budget?.isSome = true)
    (h : haveGoneInTime ((World.initial 1).run es, x) = true) :
    ∃ z, Attains settings p ((World.initial 1).run es, x) z ∧ isOver z.2 = true := by
  unfold haveGoneInTime at h
  split at h
  case h_2 hc =>
    obtain ⟨z, stats, hlead, hz⟩ := a.comes_to_its_end hb hc
    exact ⟨z, hlead, by rw [isOver, hz]⟩
  case h_3 => cases h
  case h_1 budget hc =>
  have hc : x.control = .awaitExit budget := hc
  simp only [Bool.and_eq_true, Bool.not_eq_true'] at h
  obtain ⟨⟨hin, hu⟩, hl⟩ := h
  have hp : isAsPlanned p ((World.initial 1).run es, x) (.turn 0) = true := by
    simp [isAsPlanned, hl, frees]
  -- the conductor looks over the work of the workers
  have r := a.scene.conduct.returned hu hin hl
  obtain ⟨v, hv⟩ : ∃ v, ((World.initial 1).run es).outcomeOf 0 = .value v := by
    have ho := r.suits
    rwa [hc] at ho
  have hm := a.scene.manned
  rw [hc] at hm
  have hnext : (Stress.move settings p ((World.initial 1).run es, x) (.turn 0)).2.control =
      if p.workers ≤ min settings.condCapacity settings.mutexCapacity then .stats
      else Control.fail (.finding (.workersFailed (crowdedOut settings p) p.workers)) := by
    rw [move_returned hu hin, hc, hv, a.scene.failed]
    exact review_eq a.scene.desk a.scene.supply (r.ended budget hc).done hm r.settings
  obtain ⟨es₁, x₁, lost₁, hmv, a₁⟩ := a.move hb hp
  by_cases hfit : p.workers ≤ min settings.condCapacity settings.mutexCapacity
  · rw [if_pos hfit, hmv] at hnext
    obtain ⟨z, stats, hlead, hz⟩ := a₁.comes_to_its_end hb hnext
    exact ⟨z, .cons rfl hp (hmv ▸ hlead), by rw [isOver, hz]⟩
  · rw [if_neg hfit] at hnext
    exact ⟨_, .cons rfl hp ⟨[], rfl, rfl, rfl⟩, by rw [List.foldl_nil, isOver, hnext]; rfl⟩

/-- Where all goes as planned, the scenario comes to its end well exactly if there is room for all the
workers; otherwise it reports how many there was no room for. When the workers have gone in time the
conductor can come to the end without anybody else. -/
theorem stress_fails_for_those_without_room (settings : Settings) (p : Plan) (ms : List Move)
    (hb : p.budget?.isSome = true) (h : goAsPlanned settings p (World.initial 1, {}) ms = true) :
    let y := after settings p ms
    let room := min settings.condCapacity settings.mutexCapacity
    let due (result : Except ScenarioFault Report) : Prop :=
      if p.workers ≤ room then ∃ stats, result = .ok (Control.reportOf settings p stats)
      else result = .error (.finding (.workersFailed (p.workers - min p.workers room) p.workers))
    (isOver y.2 = true → due y.2.result) ∧
    (haveGoneInTime y = true →
      ∃ ms', ms'.all Move.isConductors = true ∧ goAsPlanned settings p y ms' = true ∧
        isOver (after settings p (ms ++ ms')).2 = true ∧
        due (after settings p (ms ++ ms')).2.result) := by
  intro y room due
  have due_of {r : Except ScenarioFault Report} (hr : IsDue settings p r) : due r := by
    cases hr with
    | well stats hfit => exact (if_pos hfit).mpr ⟨stats, rfl⟩
    | failed hfit => exact (if_neg hfit).mpr rfl
  -- the scenario keeps the account through every run that goes as planned, and then the account
  -- decides
  obtain ⟨es, x, lost, hy, a⟩ := finale_after hb h
  have hy : y = ((World.initial 1).run es, x) := hy
  rw [hy]
  refine ⟨fun ho => due_of (a.scene.due ho), fun hc => ?_⟩
  obtain ⟨z, ⟨ms', hms, hgo, hz⟩, hover⟩ := a.ends hb hc
  obtain ⟨es', x', lost', hz', a'⟩ := a.moves hb hgo
  have hafter : after settings p (ms ++ ms') = z := by
    rw [after, List.foldl_append, ← hz, ← hy]
    rfl
  refine ⟨ms', hms, hgo, ?_⟩
  rw [hafter]
  obtain rfl : z = _ := hz.symm.trans hz'
  exact ⟨hover, due_of (a'.scene.due hover)⟩

/-- Two workers, the second of which asks while the first has its mutex, and the conductor until it has
waited for them. -/
def crowdedToTheWait : List Move := crowded ++ onward 1 20 ++ onward 2 20 ++ onward 0 84

def twoMutexes : Settings := { mutexCapacity := 2, condCapacity := 2 }

theorem one_mutex_is_one_too_few_for_two :
    (∃ ms, (after oneMutex twoWorkers (crowdedToTheWait ++ ms)).2.result =
      .error (.finding (.workersFailed 1 2))) ∧
    ∃ ms stats, (after twoMutexes twoWorkers (crowdedToTheWait ++ ms)).2.result =
      .ok (Control.reportOf twoMutexes twoWorkers stats) := by
  have h₁ : goAsPlanned oneMutex twoWorkers (World.initial 1, {}) crowdedToTheWait = true := by
    decide +kernel
  have h₂ : goAsPlanned twoMutexes twoWorkers (World.initial 1, {}) crowdedToTheWait = true := by
    decide +kernel
  obtain ⟨ms₁, -, -, -, hr₁⟩ := (stress_fails_for_those_without_room oneMutex twoWorkers
    crowdedToTheWait (by decide +kernel) h₁).2 (by decide +kernel)
  obtain ⟨ms₂, -, -, -, hr₂⟩ := (stress_fails_for_those_without_room twoMutexes twoWorkers
    crowdedToTheWait (by decide +kernel) h₂).2 (by decide +kernel)
  obtain ⟨stats, hr₂⟩ := (if_pos (by decide)).mp hr₂
  exact ⟨⟨ms₁, (if_neg (by decide)).mp hr₁⟩, ms₂, stats, hr₂⟩

end Standstill.Stress
