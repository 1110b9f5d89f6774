import Standstill.Proofs.StressDesk

/-!
The stress scenario in every order of events. A thread in code of its own goes on with the script, and
all else may happen at any time. Whatever happens, the slots in use are those that the workers have in
hand, and those of conditions whose workers gave up when they were refused a mutex.
-/
namespace Standstill.Stress

open World

/-- What can happen next. -/
inductive Move
  /-- Anything but what a thread does in code of its own. -/
  | event (e : Event)
  /-- A thread that is in code of its own goes on with the script. -/
  | turn (t : ThreadId)
  deriving DecidableEq

/-- What a thread does in code of its own. -/
def isOwn : Event → Bool
  | .invoke .. | .finish .. => true
  | _ => false

def move (settings : Settings) (p : Plan) (y : World × State) : Move → World × State
  | .event e => if isOwn e then y else (y.1.step e, y.2)
  | .turn t => if y.1.inUser t then (own settings p t y).getD y else y

/-- The scenario after the moves. -/
def after (settings : Settings) (p : Plan) (ms : List Move) : World × State :=
  ms.foldl (move settings p) (World.initial 1, {})

/-- The condition that stays behind when a worker comes back from a mutex that it was refused. -/
def forsaken (y : World × State) : Move → List Nat
  | .turn (i + 1) =>
    match y.2.workers[i]? with
    | some x => if y.1.inUser (i + 1) then (lotOf y.1 i x).lost else []
    | none => []
  | _ => []

/-- The conditions that stay behind while the scenario makes the moves. -/
def leftBehind (settings : Settings) (p : Plan) (y : World × State) : List Move → List Nat
  | [] => []
  | mv :: ms => forsaken y mv ++ leftBehind settings p (move settings p y mv) ms

/-- What a move does to what the workers have in hand, and what then stays behind. -/
inductive Shift (w : World) (ls : List Lot) : Move → List Lot → List Nat → Prop
  | same (mv) : Shift w ls mv ls []
  | trade (e j i l l') (hr : w.ran e = some j) (hi : ls[i]? = some l) (ht : Trade w j l l') :
      Shift w ls (.event e) (ls.set i l') []
  | back (t i l) (hi : ls[i]? = some l) : Shift w ls (.turn t) (ls.set i l.back) l.lost
  | hire : Shift w ls (.turn 0) (ls ++ [.poor]) []

variable {settings : Settings} {p : Plan} {y : World × State} {w : World} {ws : List (Stage × Bool)}
  {lost : List Nat} {i : Nat} {t : ThreadId} {e : Event} {mv : Move} {ms : List Move} {stage : Stage}
  {call : Call}

theorem Stage.lost_lot (stage : Stage) : stage.lot.lost = [] := by
  cases stage <;> rfl

/-- Of the pools the conducting thread makes no use. -/
theorem Control.call_idle {control : Control} {s : ServiceId}
    (h : control.call? settings p s = some call) :
    call.refusal? = none ∧ firstPool (call.code w t) = none := by
  cases control with
  | suspend rest chosen =>
    cases rest with
    | nil => cases h
    | cons h' rest =>
      obtain rfl := Option.some.inj h
      exact ⟨rfl, rfl⟩
  | resume rest =>
    cases rest with
    | nil => cases h
    | cons h' rest =>
      obtain rfl := Option.some.inj h
      exact ⟨rfl, rfl⟩
  | _ =>
    first
    | cases h; done
    | obtain rfl := Option.some.inj h
      exact ⟨rfl, rfl⟩

theorem isBy_of_not_own (h : isOwn e = false) (t : ThreadId) : e.isBy t = false := by
  cases e <;> first | rfl | cases h

theorem Desk.event (a : Desk w ws lost) (h : isOwn e = false) :
    Shift w (lots w ws) (.event e) (lots (w.step e) ws) [] ∧ Desk (w.step e) ws lost := by
  cases hr : w.ran e with
  | some j =>
    obtain ⟨i, l, l', hi, ht, hl, a'⟩ := a.run hr
    rw [hl]
    exact ⟨.trade e j i l l' hr hi ht, a'⟩
  | none =>
    have hd (t : ThreadId) : (w.step e).doing t = w.doing t := by
      rcases a.reach.pacing.doing_of_not_ran hr t with hd | ⟨-, c, rfl, -⟩
      · exact hd
      · cases h
    obtain ⟨hl, a'⟩ := a.keep hr hd fun i _ _ => isBy_of_not_own h (i + 1)
    rw [hl]
    exact ⟨.same _, a'⟩

/-- The conducting thread makes a call. -/
theorem Desk.conduct {control : Control} (a : Desk w ws lost)
    (hc : control.call? settings p service = some call) :
    lots (w.step (.invoke 0 call)) ws = lots w ws ∧ Desk (w.step (.invoke 0 call)) ws lost := by
  refine a.keep rfl (fun t => ?_) fun i stage _ => by simp [Event.isBy]
  rcases a.reach.pacing.doing_of_not_ran (e := .invoke 0 call) rfl t with hd | ⟨hn, c, he, -, hd⟩
  · exact hd
  · obtain ⟨rfl, rfl⟩ := Event.invoke.inj he
    rw [hd, hn]
    exact (Control.call_idle hc).2

/-- The outcome of a move, as the workers and the tables see it. -/
def Moves (y : World × State) (lost : List Nat) (mv : Move) (y' : World × State) : Prop :=
  Shift y.1 (lots y.1 y.2.workers) mv (lots y'.1 y'.2.workers) (forsaken y mv) ∧
    Desk y'.1 y'.2.workers (lost ++ forsaken y mv)

theorem Desk.moves_of_eq {z : World × State} (a : Desk z.1 z.2.workers lost)
    (hl : lots z.1 z.2.workers = lots y.1 y.2.workers) (hf : forsaken y mv = []) :
    Moves y lost mv z := by
  unfold Moves
  rw [hf, hl, List.append_nil]
  exact ⟨.same mv, a⟩

/-- The workers there are to be when the conductor makes the call. -/
def Control.roll (ws : List (Stage × Bool)) : Control → List (Stage × Bool)
  | .start _ => ws ++ [(.createCond, false)]
  | _ => ws

/-- A thread goes on with the script. -/
inductive Turn (settings : Settings) (p : Plan) (w : World) (x : State) :
    ThreadId → World × State → Prop
  | returned (hin : x.inCall = true) : Turn settings p w x 0
      (w, { x with
        control := x.control.next w settings p service x.failed (w.outcomeOf 0), inCall := false })
  | call (c : Call) (hin : x.inCall = false) (hc : x.control.call? settings p service = some c) :
      Turn settings p w x 0
        (w.step (.invoke 0 c), { x with inCall := true, workers := x.control.roll x.workers })
  | done (hin : x.inCall = false) (hc : x.control.call? settings p service = none) :
      Turn settings p w x 0 (w, x)
  | nobody (i : Nat) (hi : x.workers[i]? = none) : Turn settings p w x (i + 1) (w, x)
  | back (i : Nat) (stage : Stage) (hi : x.workers[i]? = some (stage, true)) : Turn settings p w x (i + 1)
      (w, { x with
        workers := x.workers.set i (stage.next p (w.outcomeOf (i + 1)), false)
        failed := if stage.next p (w.outcomeOf (i + 1)) = .over true then x.failed + 1
          else x.failed })
  | begin (i : Nat) (stage : Stage) (c : Call) (hi : x.workers[i]? = some (stage, false))
      (hc : stage.call? p service i = some c) : Turn settings p w x (i + 1)
      (w.step (.invoke (i + 1) c), { x with workers := x.workers.set i (stage, true) })
  | finish (i : Nat) (stage : Stage) (hi : x.workers[i]? = some (stage, false))
      (hc : stage.call? p service i = none) :
      Turn settings p w x (i + 1) (w.step (.finish (i + 1) false), x)

theorem turn (settings : Settings) (p : Plan) (y : World × State) (t : ThreadId) :
    Turn settings p y.1 y.2 t ((own settings p t y).getD y) := by
  obtain ⟨w, x⟩ := y
  cases t with
  | zero =>
    cases hin : x.inCall with
    | true =>
      simp only [own, hin, if_true]
      exact .returned hin
    | false =>
      cases hc : x.control.call? settings p service with
      | none =>
        simp only [own, hin, hc, Bool.false_eq_true, if_false]
        exact .done hin hc
      | some c =>
        simp only [own, hin, hc, Bool.false_eq_true, if_false]
        exact .call c hin hc
  | succ i =>
    rcases hi : x.workers[i]? with _ | ⟨stage, _ | _⟩
    · simp only [own, hi]
      exact .nobody i hi
    · cases hc : stage.call? p service i with
      | none =>
        simp only [own, hi, hc]
        exact .finish i stage hi hc
      | some c =>
        simp only [own, hi, hc]
        exact .begin i stage c hi hc
    · simp only [own, hi]
      exact .back i stage hi

theorem forsaken_of_busy (hu : y.1.inUser (i + 1) = true) {x : Stage × Bool}
    (hi : y.2.workers[i]? = some x) : forsaken y (.turn (i + 1)) = (lotOf y.1 i x).lost := by
  simp only [forsaken, hi, hu, if_true]

theorem Desk.turn (a : Desk y.1 y.2.workers lost) (hu : y.1.inUser t = true) {z : World × State}
    (h : Turn settings p y.1 y.2 t z) : Moves y lost (.turn t) z := by
  obtain ⟨w, x⟩ := y
  cases h with
  | returned | done => exact a.moves_of_eq rfl rfl
  | call c hin hc =>
    obtain ⟨hl, a'⟩ := a.conduct hc
    cases hr : x.control with
    | start handles =>
      obtain ⟨hh, a''⟩ := a'.hire
      refine ⟨?_, (List.append_nil lost).symm ▸ a''⟩
      have hl' : lots (w.step (.invoke 0 c)) (x.workers ++ [(.createCond, false)]) =
          lots w x.workers ++ [.poor] := by rw [hh, hl]
      exact hl' ▸ Shift.hire
    | _ => exact Desk.moves_of_eq a' hl rfl
  | nobody i hi =>
    refine a.moves_of_eq rfl ?_
    simp only [forsaken, hi]
  | back i stage hi =>
    obtain ⟨hl, a'⟩ := a.back p hi hu
    unfold Moves
    rw [forsaken_of_busy (y := (w, x)) hu hi]
    exact ⟨hl ▸ Shift.back _ i _ (lots_at w hi), a'⟩
  | begin i stage c hi hc =>
    obtain ⟨hl, a'⟩ := a.begin hi hc hu
    exact Desk.moves_of_eq a' hl ((forsaken_of_busy (y := (w, x)) hu hi).trans stage.lost_lot)
  | finish i stage hi hc =>
    -- who ends has no call under way
    have hd (t : ThreadId) : (w.step (.finish (i + 1) false)).doing t = w.doing t := by
      rcases a.reach.pacing.doing_of_not_ran (e := .finish (i + 1) false) rfl t with h | ⟨-, c, he, -⟩
      · exact h
      · cases he
    obtain ⟨hl, a'⟩ := a.keep (e := .finish (i + 1) false) rfl hd fun i' stage' hi' => by
      have hne : i' ≠ i := by
        rintro rfl
        rw [hi] at hi'
        cases hi'
      simpa [Event.isBy] using Ne.symm hne
    exact Desk.moves_of_eq a' hl ((forsaken_of_busy (y := (w, x)) hu hi).trans stage.lost_lot)

/-- Nothing happens, something happens by itself, or a thread goes on with the script. -/
theorem move_cases (settings : Settings) (p : Plan) (y : World × State) (mv : Move) :
    Stress.move settings p y mv = y ∧ forsaken y mv = [] ∨
      (∃ e, mv = .event e ∧ isOwn e = false ∧ Stress.move settings p y mv = (y.1.step e, y.2)) ∨
      ∃ t, mv = .turn t ∧ y.1.inUser t = true ∧
        Turn settings p y.1 y.2 t (Stress.move settings p y mv) := by
  cases mv with
  | event e =>
    cases h : isOwn e with
    | true => exact .inl ⟨if_pos h, rfl⟩
    | false => exact .inr (.inl ⟨e, rfl, h, if_neg (by rw [h]; exact Bool.false_ne_true)⟩)
  | turn t =>
    cases hu : y.1.inUser t with
    | true =>
      have hm : Stress.move settings p y (.turn t) = (own settings p t y).getD y := if_pos hu
      exact .inr (.inr ⟨t, rfl, hu, hm ▸ turn settings p y t⟩)
    | false =>
      refine .inl ⟨if_neg (by rw [hu]; exact Bool.false_ne_true), ?_⟩
      cases t with
      | zero => rfl
      | succ i =>
        simp only [forsaken, hu, Bool.false_eq_true, if_false]
        split <;> rfl

/-- One move. -/
theorem Desk.move (a : Desk y.1 y.2.workers lost) (mv : Move) :
    Moves y lost mv (move settings p y mv) := by
  rcases move_cases settings p y mv with ⟨hm, hf⟩ | ⟨e, rfl, he, hm⟩ | ⟨t, rfl, hu, ht⟩
  · rw [hm]
    exact a.moves_of_eq rfl hf
  · obtain ⟨hs, a'⟩ := a.event he
    rw [hm]
    exact ⟨hs, (List.append_nil lost).symm ▸ a'⟩
  · exact a.turn hu ht

/-- Any number of moves. -/
theorem Desk.moves (a : Desk y.1 y.2.workers lost) (ms : List Move) :
    Desk (ms.foldl (Stress.move settings p) y).1 (ms.foldl (Stress.move settings p) y).2.workers
      (lost ++ leftBehind settings p y ms) := by
  induction ms generalizing y lost with
  | nil =>
    rw [leftBehind, List.append_nil]
    exact a
  | cons mv ms ih =>
    rw [leftBehind, ← List.append_assoc]
    exact ih (a.move mv).2

theorem desk_after (settings : Settings) (p : Plan) (ms : List Move) :
    Desk (after settings p ms).1 (after settings p ms).2.workers
      (leftBehind settings p (World.initial 1, {}) ms) :=
  Desk.moves (y := (World.initial 1, {})) desk_initial ms

/-! The order in which the program plays the scenario is one of them. -/

/-- One state of the scenario leads to the other. -/
def Follows (settings : Settings) (p : Plan) (y y' : World × State) : Prop :=
  ∃ ms : List Move, y' = ms.foldl (Stress.move settings p) y

theorem Follows.refl : Follows settings p y y := ⟨[], rfl⟩

theorem Follows.trans {y₁ y₂ : World × State} (h : Follows settings p y y₁)
    (h' : Follows settings p y₁ y₂) : Follows settings p y y₂ := by
  obtain ⟨ms, rfl⟩ := h
  obtain ⟨ms', rfl⟩ := h'
  exact ⟨ms ++ ms', (List.foldl_append ..).symm⟩

theorem follows_event (y : World × State) (h : isOwn e = false) :
    Follows settings p y (y.1.step e, y.2) := by
  refine ⟨[.event e], ?_⟩
  simp [Stress.move, h]

section Schedule

open Schedule

theorem follows_move {y' : World × State} (h : move? (own settings p) t y = some y') :
    Follows settings p y y' := by
  unfold move? at h
  split at h
  · obtain rfl := Option.some.inj h
    exact follows_event (e := .interrupt t) y rfl
  split at h
  next hu =>
    refine ⟨[.turn t], ?_⟩
    simp [Stress.move, hu, h]
  next =>
    split at h
    · obtain rfl := Option.some.inj h
      exact follows_event (e := .advance t) y rfl
    · cases h

theorem follows_drainFor (n : Nat) (queue : List ThreadId) (y : World × State) :
    Follows settings p y (drainFor (own settings p) n queue y) := by
  induction n generalizing queue y with
  | zero =>
    rw [drainFor]
    exact .refl
  | succ n ih =>
    cases queue with
    | nil =>
      rw [drainFor]
      split
      · exact .refl
      · exact ih _ _
    | cons t queue =>
      rw [drainFor]
      split
      · exact ih _ _
      next y' hm => exact (follows_move hm).trans (ih _ _)

theorem follows_runUntil (n : Nat) (y : World × State) :
    Follows settings p y (runUntil (own settings p) isOver n y) := by
  induction n generalizing y with
  | zero => exact .refl
  | succ n ih =>
    have hd : Follows settings p y (drain (own settings p) [] y) := follows_drainFor _ _ _
    rw [runUntil]
    split
    · exact hd
    split
    · exact hd.trans ((follows_event (e := .tick _) _ rfl).trans (ih _))
    · exact hd

end Schedule

/-- What the scenario has come to. -/
def State.result (x : State) : Except ScenarioFault Report :=
  match x.control with
  | .over r => r
  | _ => .error .broken

theorem play_eq (settings : Settings) (p : Plan) : play settings p =
    (Schedule.runUntil (own settings p) isOver (rounds p) (World.initial 1, {})).2.result := by
  unfold play State.result
  generalize Schedule.runUntil (own settings p) isOver (rounds p) (World.initial 1, {}) = y
  rfl

/-- What is so after all moves is so when the program has played the scenario. -/
theorem play_follows (settings : Settings) (p : Plan) :
    ∃ ms : List Move, play settings p = (after settings p ms).2.result := by
  obtain ⟨ms, h⟩ : Follows settings p (World.initial 1, {})
      (Schedule.runUntil (own settings p) isOver (rounds p) (World.initial 1, {})) :=
    follows_runUntil _ _
  exact ⟨ms, (play_eq settings p).trans (congrArg (fun y : World × State => y.2.result) h)⟩

/-! What the workers leave behind. -/

def Stage.isOver : Stage → Bool
  | .over _ => true
  | _ => false

/-- At any time the slots in use are those that workers have in hand, and those left behind. -/
theorem slots_in_use (settings : Settings) (p : Plan) (ms : List Move) :
    let y := after settings p ms
    let ls := lots y.1 y.2.workers
    let left := leftBehind settings p (World.initial 1, {}) ms
    (y.1.mutexSlots service).inUse = (ls.filterMap Lot.mutex?).length ∧
      (y.1.condSlots service).inUse = (ls.filterMap Lot.cond?).length + left.length := by
  intro y ls left
  have a := (desk_after settings p ms).account
  refine ⟨a.mutexes.inUse a.mutexesSound, ?_⟩
  rw [a.conds.inUse a.condsSound, List.length_append]

theorem lot_of_over (ho : stage.isOver = true) (w : World) (i : Nat) (b : Bool) :
    ∃ failed, lotOf w i (stage, b) = .gone failed := by
  cases stage with
  | «over» failed => cases b <;> exact ⟨failed, rfl⟩
  | _ => cases ho

theorem filterMap_of_over {f : Lot → Option Nat} (hf : ∀ failed, f (.gone failed) = none)
    (h : ws.all (·.1.isOver) = true) : (lots w ws).filterMap f = [] := by
  rw [List.filterMap_eq_nil_iff]
  intro l hl
  obtain ⟨i, hi⟩ := List.getElem?_of_mem hl
  rw [lots_getElem] at hi
  obtain ⟨⟨stage, b⟩, hx, rfl⟩ := Option.map_eq_some_iff.mp hi
  obtain ⟨failed, hg⟩ := lot_of_over (List.all_eq_true.mp h _ (List.mem_of_getElem? hx)) w i b
  rw [hg, hf]

/-- When all workers are over no mutex is in a slot, and a condition is in one exactly if its worker was
refused a mutex. -/
theorem slots_stay_in_use_only_after_a_refused_mutex (settings : Settings) (p : Plan)
    (ms : List Move) (h : (after settings p ms).2.workers.all (·.1.isOver) = true) :
    let w := (after settings p ms).1
    let left := leftBehind settings p (World.initial 1, {}) ms
    (w.mutexSlots service).inUse = 0 ∧ (∀ m, w.mutexAt service m = none) ∧
      (w.condSlots service).inUse = left.length ∧
      ∀ c, (w.condAt service c).isSome = true ↔ c ∈ left := by
  intro w left
  have a := (desk_after settings p ms).account
  obtain ⟨hms, hcs, hm, hc⟩ := a
  -- workers that are over have nothing in hand, so what is in use is what they have left behind
  rw [filterMap_of_over (fun _ => rfl) h] at hm
  rw [filterMap_of_over (fun _ => rfl) h, List.nil_append] at hc
  refine ⟨hm.inUse hms, fun m => ?_, hc.inUse hcs, fun c => ?_⟩
  · have hn : ((w.mutexSlots service).cell? m).isSome = false := by
      rw [Bool.eq_false_iff]
      intro hs
      exact List.not_mem_nil ((hm.mem m).mpr hs)
    rw [mutexAt, Option.not_isSome_iff_eq_none.mp (Bool.eq_false_iff.mp hn)]
    rfl
  · rw [condAt, Option.isSome_map, ← hc.mem c]

/-- Thread `t` takes `n` turns, and runs as many instructions in between. -/
def onward (t : ThreadId) (n : Nat) : List Move :=
  (List.replicate n [Move.turn t, Move.event (.advance t)]).flatten

/-- Two workers and one mutex: the second worker asks for a mutex while the first has it. -/
def crowded : List Move :=
  onward 0 20 ++ onward 1 31 ++ onward 0 20 ++ onward 2 40 ++ onward 1 40

def oneMutex : Settings := { mutexCapacity := 1, condCapacity := 2 }

def twoWorkers : Plan := ⟨2, 0, 0⟩

theorem crowded_workers_are_over :
    (after oneMutex twoWorkers crowded).2.workers.all (·.1.isOver) = true ∧
      ((after oneMutex twoWorkers crowded).1.condSlots service).inUse =
        (leftBehind oneMutex twoWorkers (World.initial 1, {}) crowded).length := by
  have h : (after oneMutex twoWorkers crowded).2.workers.all (·.1.isOver) = true := by
    decide +kernel
  have hs := slots_stay_in_use_only_after_a_refused_mutex oneMutex twoWorkers crowded h
  exact ⟨h, hs.2.2.1⟩

/-- Both workers are over, and yet a condition is in its slot. -/
theorem refused_worker_leaves_its_condition :
    (after oneMutex twoWorkers crowded).2.workers = [(.over false, false), (.over true, false)] ∧
      ((after oneMutex twoWorkers crowded).1.condSlots service).inUse = 1 := by
  decide +kernel

end Standstill.Stress
