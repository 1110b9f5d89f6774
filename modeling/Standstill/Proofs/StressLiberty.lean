import Standstill.Proofs.StressOutcome
import Standstill.Proofs.Unsought

/-!
The conductor of the stress scenario is stopped by nobody. The workers stop no one; and the conductor
stops threads whose handles it has been given at their start, and then all the others.
-/
namespace Standstill.Stress

open World

variable {settings : Settings} {p : Plan} {w : World} {x : State} {es : List Event}
  {ws : List (Stage × Bool)} {lost : List Nat} {c : Control} {call : Call} {e : Event} {mv : Move}
  {o : Outcome} {stage : Stage} {t : ThreadId} {s : ServiceId} {i : Nat} {k : Handle}
  {rest : List Instr} {y : World × State}

/-! The calls. -/

theorem Stage.call_stopless (h : stage.call? p service i = some call) :
    (call.code w t).all (!·.isStop) = true := by
  cases stage with
  | «over» => cases h
  | poll c m left =>
    obtain rfl := Option.some.inj h
    simp only [Call.code]
    split <;> rfl
  | _ =>
    obtain rfl := Option.some.inj h
    rfl

theorem Control.call_tame (h : c.call? settings p service = some call) :
    (call.code w t).all Instr.isTame = true := by
  cases c with
  | suspend rest chosen | resume rest =>
    cases rest with
    | nil => cases h
    | cons k rest =>
      obtain rfl := Option.some.inj h
      rfl
  | «over» => cases h
  | _ =>
    obtain rfl := Option.some.inj h
    rfl

/-- The handles of the threads that the conductor is going to stop one by one. -/
def Control.marks : Control → List Handle
  | .start handles | .letWork handles | .suspend handles _ => handles
  | _ => []

theorem Control.mem_marks_of_call (h : c.call? settings p service = some (.suspend s k)) :
    k ∈ c.marks := by
  cases c with
  | suspend rest chosen =>
    cases rest with
    | nil => cases h
    | cons k rest =>
      cases h
      exact List.mem_cons_self
  | resume rest => cases rest <;> cases h
  | _ => cases h

theorem mem_of_mem_everySecond {α : Type} {a : α} {l : List α} (h : a ∈ everySecond l) : a ∈ l := by
  induction l using everySecond.induct with
  | case1 => exact h
  | case2 b => exact h
  | case3 b c l ih =>
    rcases List.mem_cons.mp h with rfl | h
    · exact List.mem_cons_self
    · exact List.mem_cons_of_mem _ (List.mem_cons_of_mem _ (ih h))

theorem Control.granted_cases (o : Outcome) (c : Control) :
    (∃ f, granted o c = fail f) ∨ granted o c = c := by
  unfold granted
  split
  · exact .inr rfl
  · exact .inl ⟨_, rfl⟩

theorem Control.tolerated_cases (o : Outcome) (c : Control) :
    (∃ f, tolerated o c = fail f) ∨ tolerated o c = c := by
  unfold tolerated
  split
  · exact .inr rfl
  · exact granted_cases o c

/-- What the conductor goes on to after a call that was answered `o`, as long as nothing fails. -/
inductive Control.Leads (settings : Settings) (p : Plan) : Control → Outcome → Control → Prop
  | established (o : Outcome) : Leads settings p .establish o (starting p [])
  | started (handles : List Handle) (k : Handle) :
    Leads settings p (.start handles) (.value (.handle k)) (starting p (k :: handles))
  | worked (chosen : List Handle) (o : Outcome) :
    Leads settings p (.letWork chosen) o (suspending chosen chosen)
  | suspended (rest chosen : List Handle) (o : Outcome) :
    Leads settings p (.suspend rest chosen) o (suspending rest.tail chosen)
  | othersWorked (chosen : List Handle) (o : Outcome) :
    Leads settings p (.letOthersWork chosen) o (resuming chosen)
  | resumed (rest : List Handle) (o : Outcome) :
    Leads settings p (.resume rest) o (resuming rest.tail)
  | allSuspended (o : Outcome) : Leads settings p .suspendAll o .letRest
  | rested (o : Outcome) : Leads settings p .letRest o .resumeAll
  | allResumed (budget : Nat) (o : Outcome) : Leads settings p .resumeAll o (.awaitExit budget)
  | reviewed (budget : Nat) (o : Outcome) : Leads settings p (.awaitExit budget) o .stats
  | reported (x : Stats) :
    Leads settings p .stats (.value (.stats x)) (.over (.ok (reportOf settings p x)))
  | ended (r : Except ScenarioFault Report) (o : Outcome) : Leads settings p (.over r) o (.over r)

theorem Control.next_cases (w : World) (settings : Settings) (p : Plan) (s : ServiceId) (failed : Nat)
    (c : Control) (o : Outcome) : (∃ f, c.next w settings p s failed o = fail f) ∨
      Leads settings p c o (c.next w settings p s failed o) := by
  have goesOn {c' : Control} (h : (∃ f, c' = fail f) ∨ Leads settings p c o c') :
      (∃ f, granted o c' = fail f) ∨ Leads settings p c o (granted o c') := by
    rcases granted_cases o c' with hf | he
    · exact .inl hf
    · rwa [he]
  have tolerates {c' : Control} (h : Leads settings p c o c') :
      (∃ f, tolerated o c' = fail f) ∨ Leads settings p c o (tolerated o c') := by
    rcases tolerated_cases o c' with hf | he
    · exact .inl hf
    · rw [he]
      exact .inr h
  have broken := goesOn (.inl ⟨.broken, rfl⟩)
  cases c with
  | establish => exact goesOn (.inr (.established o))
  | start handles =>
    cases o with
    | value v =>
      cases v with
      | handle k => exact .inr (.started handles k)
      | _ => exact broken
    | _ => exact broken
  | letWork chosen => exact goesOn (.inr (.worked chosen o))
  | suspend rest chosen => exact tolerates (.suspended rest chosen o)
  | letOthersWork chosen => exact goesOn (.inr (.othersWorked chosen o))
  | resume rest => exact tolerates (.resumed rest o)
  | suspendAll => exact goesOn (.inr (.allSuspended o))
  | letRest => exact goesOn (.inr (.rested o))
  | resumeAll =>
    refine goesOn ?_
    split
    · exact .inr (.allResumed _ o)
    · exact .inl ⟨_, rfl⟩
  | awaitExit budget =>
    refine goesOn ?_
    unfold review
    split
    · exact .inl ⟨_, rfl⟩
    split
    · exact .inl ⟨_, rfl⟩
    · exact .inr (.reviewed budget o)
  | stats =>
    cases o with
    | value v =>
      cases v with
      | stats x => exact .inr (.reported x)
      | _ => exact broken
    | _ => exact broken
  | «over» r => exact .inr (.ended r o)

/-- The conductor goes after nobody but those it has known of, and whom it has just started. -/
theorem Control.marks_next {failed : Nat} (h : k ∈ (c.next w settings p service failed o).marks) :
    k ∈ c.marks ∨ (∃ handles, c = .start handles) ∧ o = .value (.handle k) := by
  have started {handles : List Handle} (h : k ∈ (starting p handles).marks) : k ∈ handles := by
    unfold starting at h
    split at h
    · exact h
    · exact List.mem_reverse.mp (mem_of_mem_everySecond h)
  have suspends {l l' : List Handle} (h : k ∈ (suspending l l').marks) : k ∈ l := by
    cases l <;> exact h
  have resumes {l : List Handle} (h : k ∈ (resuming l).marks) : False := by
    cases l <;> cases h
  rcases c.next_cases w settings p service failed o with ⟨f, he⟩ | hl
  · rw [he] at h
    cases h
  generalize c.next w settings p service failed o = c' at h hl
  cases hl with
  | established => exact absurd (started h) List.not_mem_nil
  | started handles b =>
    rcases List.mem_cons.mp (started h) with rfl | h
    · exact .inr ⟨⟨handles, rfl⟩, rfl⟩
    · exact .inl h
  | worked chosen => exact .inl (suspends h)
  | suspended rest chosen => exact .inl (List.mem_of_mem_tail (suspends h))
  | othersWorked | resumed => exact (resumes h).elim
  | _ => cases h

/-! What keeps the conductor from being stopped. -/

/-- The handle is that of another's record. -/
def IsOthers (w : World) (k : Handle) : Prop := ∃ r, k = r + 1 ∧ w.IsForeign 0 r

theorem IsOthers.step (h : IsOthers w k) (ht : w.Tame 0) (e : Event) : IsOthers (w.step e) k :=
  h.imp fun _ h => ⟨h.1, h.2.step ht e⟩

/-- Nobody stops thread 0, which has one record as soon as there is a service. -/
structure Free (w : World) : Prop where
  unsought : Unsought w 0
  tame : w.Tame 0
  stopless : ∀ t, t ≠ 0 → w.Stopless t
  housed : w.fittings service ≠ none → Housed w 0
  bare : w.fittings service = none → ∀ r, w.ownerOf r ≠ some 0

theorem services_eq_nil (h : w.fittings service = none) : w.services = [] :=
  List.length_eq_zero_iff.mp (Nat.le_zero.mp (fittings_eq_none.mp h))

/-- One event. A worker makes no call that stops anybody, and thread 0 none that stops itself. -/
theorem Free.step (a : Free w) (hw : Lawful 1 w) (h0 : 0 < w.threads.length)
    (hx : ∀ t y rest, w.codeOf t = .member (.establish y) :: rest →
      t = 0 ∧ w.fittings service = none)
    (hcall : ∀ t c, e = .invoke t c → (t = 0 → (c.code w t).all Instr.isTame = true) ∧
      (t ≠ 0 → (c.code w t).all (!·.isStop) = true) ∧
      ∀ s k, c = .suspend s k → IsOthers w k) : Free (w.step e) where
  tame := a.tame.step h0 fun c he => (hcall 0 c he).1 rfl
  stopless t ht := (a.stopless t ht).step fun c he => (hcall t c he).2.1 ht
  unsought := by
    refine a.unsought.step a.tame hw ?_ fun t s k he => (hcall t _ he).2.2 s k rfl
    intro t s rest hc r hr
    -- only the conductor stops anybody at all
    have ht : t = 0 := by
      by_contra ht
      have hs := a.stopless t ht
      rw [World.Stopless, hc] at hs
      cases hs
    subst ht
    have hs := hw.founded.placed (hc ▸ List.mem_cons_self) (s := s) rfl
    refine (a.housed fun hn => ?_).foreign_of_others hw hc hr
    rw [services_eq_nil hn] at hs
    cases hs
  housed hf := by
    -- the service is founded in this step, or was there before
    by_cases h : w.fittings service = none
    · by_cases he : ∃ t y rest, e = .advance t ∧ w.codeOf t = .member (.establish y) :: rest
      · obtain ⟨t, y, rest, rfl, hc⟩ := he
        obtain rfl := (hx t y rest hc).1
        exact housed_of_establish a.tame (services_eq_nil h) (a.bare h) hc
      · exact absurd (fittings_step_of_none h fun t y rest het hc => he ⟨t, y, rest, het, hc⟩) hf
    · exact (a.housed h).step a.tame hw fun t y rest hc => h (hx t y rest hc).2
  bare hf r ho := by
    rcases a.tame.ownerOf_step ho with ho | ⟨-, y, rest, hc, hs⟩
    · refine a.bare (fittings_eq_none.mpr ?_) r ho
      exact Nat.le_trans (services_length_step w e) (fittings_eq_none.mp hf)
    · have hl := fittings_eq_none.mp hf
      rw [hs, services_length_establish] at hl
      cases hl

theorem free_initial : Free (World.initial 1) where
  unsought :=
    { unasked := fun {r} _ => isRequested_eq.trans (ofRecord_of_le _ _ (Nat.zero_le r))
      aimed := fun hj ha => by
        rw [eq_user_of_initial hj] at ha
        cases ha
      sought := fun hj => by cases eq_user_of_initial hj }
  tame := rfl
  stopless t _ := by
    unfold World.Stopless
    rcases codeOf_initial 1 t with hc | hc <;> rw [hc] <;> rfl
  housed h := absurd rfl h
  bare _ r h := absurd (lt_of_ownerOf h) (Nat.not_lt_zero r)

/-- Nobody stops the conductor, and what it is going to stop are others. -/
structure Liberty (w : World) (x : State) : Prop where
  free : Free w
  marks : ∀ k ∈ x.control.marks, IsOthers w k
  answer : x.inCall = true → ∀ handles k, x.control = .start handles →
    w.outcomeOf 0 = .value (.handle k) → IsOthers w k

/-! What the conductor's calls tell. -/

/-- Only the founder of the service is about to set one up, and then there is none. -/
theorem Engaged.fittings_of_head (a : Engaged settings es ws c) {y : Settings}
    (h : ((World.initial 1).run es).codeOf 0 = .member (.establish y) :: rest) :
    ((World.initial 1).run es).fittings service = none := by
  cases a with
  | founding top ht hc hf => exact hf
  | hiring handles o hd reply hs =>
    cases hs with
    | begun _ ht hc | checked _ ht hc | made _ _ _ ht hc | waits _ _ ht hc | through _ _ ht hc
    | refusing _ _ ht _ hc | refused _ ht hc =>
      rcases head_cases hc ht h with h | ⟨h, -⟩ <;> cases h
  | awaiting budget ha =>
    cases ha with
    | begun _ _ ht hc | pending _ _ ht hc | failed _ ht hc =>
      rcases head_cases hc ht h with h | ⟨h, -⟩ <;> cases h
  | reading top below ht hb hc | answering _ top ht hc =>
    rcases head_cases hc ht h with h | ⟨h, -⟩ <;> cases h

theorem Conduct.of_establish (a : Conduct settings es x) {y : Settings}
    (h : ((World.initial 1).run es).codeOf t = .member (.establish y) :: rest) :
    t = 0 ∧ ((World.initial 1).run es).fittings service = none := by
  have ht : t = 0 := by
    by_contra ht
    have hu := a.crew.unhiring t ht
    rw [World.Unhiring, h] at hu
    cases hu
  subst ht
  refine ⟨rfl, ?_⟩
  cases hin : x.inCall with
  | true => exact (a.engaged hin).fittings_of_head h
  | false =>
    obtain ⟨⟨top, ht, hc⟩, -⟩ := a.atRest hin
    rcases head_cases hc ht h with h | ⟨h, -⟩ <;> cases h

/-- A handle that the conductor is given is that of a worker which has just been started. -/
theorem Engaged.handle_step {handles : List Handle} (a : Engaged settings es ws (.start handles))
    (b : Crew ((World.initial 1).run es) ws) (ha : (World.initial 1).admits es = true)
    (he : e.isBy 0 = false)
    (hk : (((World.initial 1).run es).step e).outcomeOf 0 = .value (.handle k)) :
    ((World.initial 1).run es).outcomeOf 0 = .value (.handle k) ∨
      ∃ r, k = r + 1 ∧
        Hires ((World.initial 1).run es) (((World.initial 1).run es).step e) 0 service false r [] := by
  cases a with
  | hiring _ o hd reply hs ho =>
    rcases hs.step (staged es ha) ⟨es, ha, rfl⟩ he (fun q hq => b.unhiring q hq) ho with
      ⟨-, -, ho'⟩ | ⟨r, hr⟩
    · exact absurd hk (ho' k)
    · cases hr.outcome.symm.trans hk
      exact .inr ⟨r, rfl, hd ▸ hr⟩
  | answering _ top ht hc =>
    rcases smooth_step hc ht he with ⟨-, -, -, ho⟩ | ⟨-, -, hu, -⟩
    · rw [hk] at ho
      generalize ((World.initial 1).run es).outcomeOf 0 = o at ho
      cases ho
      exact .inl rfl
    · exact absurd rfl hu

/-- The record of a thread that has just been started is its own. -/
theorem isOthers_of_hires {w' : World} {r : RecordId} (hw : Reachable 1 w')
    (h : Hires w w' 0 service false r []) : IsOthers w' (r + 1) := by
  have hm : .member (.own r) ∈ w'.codeOf w.threads.length := by
    rw [h.new]
    exact List.mem_cons_self
  obtain ⟨hl, ho, -⟩ := hw.custody.pledged hm
  exact ⟨r, rfl, hl, by rw [ho]; exact nofun⟩

theorem Conduct.lawful (a : Conduct settings es x) : Lawful 1 ((World.initial 1).run es) :=
  ⟨es, a.admitted, rfl⟩

theorem threads_pos (es : List Event) : 0 < ((World.initial 1).run es).threads.length :=
  Nat.lt_of_lt_of_le Nat.zero_lt_one (threads_length_run (World.initial 1) es)

namespace Liberty

variable (a : Liberty ((World.initial 1).run es) x) (b : Conduct settings es x)
include a b

/-- One event that is not the conductor's own doing. -/
theorem append (he : e.isBy 0 = false)
    (hcall : ∀ t c, e = .invoke t c →
      (c.code ((World.initial 1).run es) t).all (!·.isStop) = true) :
    Liberty ((World.initial 1).run (es ++ [e])) x := by
  have hothers (k : Handle) (h : IsOthers ((World.initial 1).run es) k) :
      IsOthers ((World.initial 1).run (es ++ [e])) k := by
    rw [run_snoc]
    exact h.step a.free.tame e
  refine ⟨?_, fun k hk => hothers k (a.marks k hk), fun hin handles k hc hk => ?_⟩
  · rw [run_snoc]
    refine a.free.step b.lawful (threads_pos es) (fun t y rest h => b.of_establish h) ?_
    rintro t c rfl
    refine ⟨?_, fun _ => hcall t c rfl, ?_⟩
    · rintro rfl
      simp [Event.isBy] at he
    · rintro s k rfl
      cases hcall t _ rfl
  · have hg := b.engaged hin
    rw [hc] at hg
    rw [run_snoc] at hk
    rcases hg.handle_step b.crew b.admitted he hk with hk | ⟨r, rfl, hr⟩
    · exact hothers k (a.answer hin handles k hc hk)
    · rw [run_snoc]
      exact isOthers_of_hires (b.lawful.reachable.step e) hr

/-- The conductor makes a call. -/
theorem calls (hu : ((World.initial 1).run es).inUser 0 = true)
    (hc : x.control.call? settings p service = some call) :
    Liberty (((World.initial 1).run es).step (.invoke 0 call))
      { x with inCall := true, workers := x.control.roll x.workers } := by
  refine ⟨?_, fun k hk => (a.marks k hk).step a.free.tame _, fun _ handles k _ hk => ?_⟩
  · refine a.free.step b.lawful (threads_pos es) (fun t y rest h => b.of_establish h) ?_
    rintro t c he
    obtain ⟨rfl, rfl⟩ := Event.invoke.inj he
    refine ⟨fun _ => Control.call_tame hc, fun h => absurd rfl h, ?_⟩
    rintro s k rfl
    exact a.marks k (Control.mem_marks_of_call hc)
  · rw [(invoke_admitted hu (x.control.call_idle (w := World.initial 1) (t := 0) hc).1).2] at hk
    cases hk

omit b in
/-- The conductor goes on. -/
theorem returns {failed : Nat} (hin : x.inCall = true) :
    Liberty ((World.initial 1).run es) { x with
      control := x.control.next ((World.initial 1).run es) settings p service failed
        (((World.initial 1).run es).outcomeOf 0)
      inCall := false } := by
  refine ⟨a.free, fun k hk => ?_, nofun⟩
  rcases Control.marks_next hk with hk | ⟨⟨handles, hc⟩, hk⟩
  · exact a.marks k hk
  · exact a.answer hin handles k hc hk

end Liberty

/-- A worker is at another stage. -/
theorem Liberty.set (a : Liberty w x) (workers : List (Stage × Bool)) (failed : Nat) :
    Liberty w { x with workers, failed } := ⟨a.free, a.marks, a.answer⟩

/-- One move. -/
theorem Liberty.move (a : Liberty ((World.initial 1).run es) x) (b : Conduct settings es x) (mv : Move) :
    Liberty (Stress.move settings p ((World.initial 1).run es, x) mv).1
      (Stress.move settings p ((World.initial 1).run es, x) mv).2 := by
  have stays (e : Event) (he : e.isBy 0 = false) (hcall : ∀ t c, e = .invoke t c →
      (c.code ((World.initial 1).run es) t).all (!·.isStop) = true) :
      Liberty (((World.initial 1).run es).step e) x := by
    rw [← run_snoc]
    exact a.append b he hcall
  rcases move_cases settings p ((World.initial 1).run es, x) mv with
    ⟨hm, -⟩ | ⟨e, rfl, he, hm⟩ | ⟨t, rfl, hu, ht⟩
  · rw [hm]
    exact a
  · rw [hm]
    refine stays e (isBy_of_not_own he 0) ?_
    rintro t c rfl
    cases he
  · generalize Stress.move settings p ((World.initial 1).run es, x) (.turn t) = z at ht
    cases ht with
    | returned hin => exact a.returns hin
    | call c hin hc => exact a.calls b hu hc
    | done | nobody => exact a
    | back i stage hi => exact a.set _ _
    | begin i stage c hi hc =>
      refine (stays (.invoke (i + 1) c) rfl ?_).set _ _
      rintro t d he
      obtain ⟨rfl, rfl⟩ := Event.invoke.inj he
      exact Stage.call_stopless hc
    | finish i stage hi hc => exact stays (.finish (i + 1) false) rfl fun _ _ h => by cases h

theorem liberty_initial : Liberty (World.initial 1) {} :=
  ⟨free_initial, fun _ h => absurd h List.not_mem_nil, nofun⟩

end Standstill.Stress
