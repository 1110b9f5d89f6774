import Standstill.Proofs.CallStages
import Standstill.Proofs.LettingGo

/-!
A call that stops the world and is given up when its time has run out. The thread asks the others to
stop and closes the gate, looks whether they have stopped, and when it has run out of time lets
everybody go again. Main statement: once it is back, nobody is left behind that it has stopped, and the
roster is as before, but for those who have entered it or left it by themselves.
-/
namespace Standstill

open World

variable {n : Nat} {w w' : World} {t t' q : ThreadId} {s : ServiceId} {r : RecordId}
  {i j : Instr} {base top rest : List Instr} {e : Event} {es : List Event} {micros : Nat}

/-! The parts of the call. -/

namespace StopInstr

/-- The others are asked to stop, and the gate is closed. -/
def isAsking : StopInstr → Bool
  | .countSuspendAll _ | .haltOthers _ | .haltRequest .. | .haltLevel .. | .haltDeliver ..
  | .closeGate _ => true
  | _ => false

/-- The thread waits until the others have stopped. -/
def isSettling : StopInstr → Bool
  | .settleStart .. | .settle .. | .scan .. | .scanRequest .. | .scanLevel .. | .scanPhase ..
  | .verdict .. => true
  | _ => false

/-- The others are let go, and the gate is opened. -/
def isReleasing : StopInstr → Bool
  | .freeOthers _ | .freeClear .. | .freeLevel .. | .freeWake .. | .openGate _ => true
  | _ => false

end StopInstr

/-- The instruction is one of the part, or says nothing about the call. -/
def Instr.isOf (part : StopInstr → Bool) : Instr → Bool
  | .stop k => part k
  | i => i.isSilent

theorem isOf_of_silent {part : StopInstr → Bool} (h : i.isSilent = true) : i.isOf part = true := by
  cases i with
  | stop k => cases h
  | _ => exact h

theorem stretch_of {part : StopInstr → Bool}
    (h : ∀ w t k, part k = true → (StopInstr.run t w k).2.all (Instr.isOf part) = true) :
    Stretch (Instr.isOf part) where
  run {w t i} hi := by
    cases i with
    | stop k => exact h w t k hi
    | _ => exact all_imp isOf_of_silent (run_silent hi)
  nested hi := isOf_of_silent (silent_of_nested hi)

section Parts

attribute [local simp] Instr.isOf Instr.isSilent Instr.isMute leaveRoster locked ringPark
  resumeAllCode guarded

theorem stretch_asking : Stretch (Instr.isOf StopInstr.isAsking) := by
  refine stretch_of fun w t k hk => ?_
  cases k with
  | haltOthers s => simp [StopInstr.run, StopInstr.isAsking]
  | haltLevel s r =>
    simp only [StopInstr.run]
    split <;> rfl
  | countSuspendAll | haltRequest | haltDeliver | closeGate => rfl
  | _ => cases hk

theorem stretch_settling : Stretch (Instr.isOf StopInstr.isSettling) := by
  refine stretch_of fun w t k hk => ?_
  cases k with
  | scanRequest s d rs settled =>
    cases rs <;> simp only [StopInstr.run]
    · rfl
    · split <;> rfl
  | scanLevel | verdict =>
    simp only [StopInstr.run]
    repeat' split
    all_goals rfl
  | settleStart | settle | scan | scanPhase => rfl
  | _ => cases hk

theorem stretch_releasing : Stretch (Instr.isOf StopInstr.isReleasing) := by
  refine stretch_of fun w t k hk => ?_
  cases k with
  | freeOthers s => simp [StopInstr.run, StopInstr.isReleasing]
  | freeLevel s r =>
    simp only [StopInstr.run]
    split <;> rfl
  | freeWake s r =>
    simp only [StopInstr.run]
    split <;> rfl
  | freeClear | openGate => rfl
  | _ => cases hk

end Parts

/-! The call, part by part. -/

/-- Thread `t` is going to open the gate of service `s`. -/
def Opening (w : World) (t : ThreadId) (s : ServiceId) : Prop :=
  .stop (.freeOthers s) ∈ w.codeOf t ∨ .stop (.openGate s) ∈ w.codeOf t

theorem Opening.step (o : Opening w t s) (hw : Lawful n w) (e : Event) :
    Opening (w.step e) t s ∨ Freed (w.step e) t s := by
  rcases w.step_cases e with ⟨q, i, rest, rfl, h, -, hs⟩ | u
  · rw [hs]
    -- either part of it is left where it is by all steps but its own
    have keep {j : Instr} (hj : j ∈ w.codeOf t) (hi : ¬(t = q ∧ j = i)) : j ∈ (w.proceed q i rest).codeOf t :=
      mem_codeOf_proceed_of_mem h hj fun ht hx => hi ⟨ht, hx⟩
    rcases o with hj | hj
    · by_cases hi : t = q ∧ .stop (.freeOthers s) = i
      · obtain ⟨rfl, rfl⟩ := hi
        left
        right
        rw [codeOf_proceed h]
        simp [remainder, Instr.run, StopInstr.run]
      · exact .inl (.inl (keep hj hi))
    · by_cases hi : t = q ∧ .stop (.openGate s) = i
      · obtain ⟨rfl, rfl⟩ := hi
        exact .inr (freed_openGate hw h)
      · exact .inl (.inr (keep hj hi))
  · left
    rcases u.code t with hc | hc
    · exact o.imp (hc ▸ ·) (hc ▸ ·)
    · exact o.imp (hc.mem_of_mem · (by rintro ⟨⟩)) (hc.mem_of_mem · (by rintro ⟨⟩))

/-- How far thread `t` has come in a call from `base` that stops the threads of service `s`. -/
inductive Attempt (w : World) (t : ThreadId) (s : ServiceId) (base : List Instr) : Prop
  | asking (top : List Instr) (micros : Nat) (ht : top.all (Instr.isOf StopInstr.isAsking) = true)
    (hc : w.codeOf t = top ++ .stop (.settleStart s micros) :: .stop (.undoStop s) :: .user :: base)
  | settling (top : List Instr) (ht : top.all (Instr.isOf StopInstr.isSettling) = true)
    (hc : w.codeOf t = top ++ .stop (.undoStop s) :: .user :: base)
  | releasing (top : List Instr) (ht : top.all (Instr.isOf StopInstr.isReleasing) = true)
    (hc : w.codeOf t = top ++ .user :: base) (hf : Opening w t s ∨ Freed w t s)
  | granted (top : List Instr) (ht : top.all Instr.isSilent = true)
    (hc : w.codeOf t = top ++ .user :: base) (ho : ∀ f, w.outcomeOf t ≠ .fault f)

/-- What the thread comes to run next is of the part of the call that it is in, or ends it. -/
theorem isOf_of_upNext {part : StopInstr → Bool} (hc : w.codeOf t = top ++ j :: rest)
    (ht : top.all (Instr.isOf part) = true) (hi : w.upNext (.advance t) = some i) :
    i.isOf part = true ∨ i = j := by
  have hh : (w.codeOf t).head? = some i := hi
  rw [hc] at hh
  cases top with
  | nil => exact .inr (Option.some.inj hh).symm
  | cons k top =>
    obtain rfl : k = i := Option.some.inj hh
    rw [List.all_cons, Bool.and_eq_true] at ht
    exact .inl ht.1

theorem undoStop_of_fault {f : Fault} (h : w.outcomeOf t = .fault f) :
    (StopInstr.undoStop s).run t w = (w, resumeAllCode s) := by
  cases hx : w.threads[t]? with
  | none => simp [outcomeOf, hx] at h
  | some x =>
    have hf : x.outcome = .fault f := by simpa [outcomeOf, hx] using h
    cases x
    obtain rfl := hf
    simp only [StopInstr.run, hx]

theorem undoStop_of_not_fault (h : ∀ f, w.outcomeOf t ≠ .fault f) :
    (StopInstr.undoStop s).run t w = (w, []) := by
  simp only [StopInstr.run]
  split
  next f hx => exact absurd (by simp [outcomeOf, hx]) (h f)
  · rfl

/-- When it has come to the end of its wait, the thread lets everybody go if it has run out of time. -/
theorem attempt_undoStop (h : w.codeOf t = .stop (.undoStop s) :: .user :: base) :
    Attempt (w.proceed t (.stop (.undoStop s)) (.user :: base)) t s base := by
  have hcode := codeOf_proceed h
  have hsame : (w.setCode t (.user :: base)).outcomeOf t = w.outcomeOf t := outcomeOf_setCode _
  by_cases hf : ∃ f, w.outcomeOf t = .fault f
  · obtain ⟨f, hf⟩ := hf
    have hrun := undoStop_of_fault (s := s) (hsame.trans hf)
    have hr : w.remainder t (.stop (.undoStop s)) (.user :: base) = resumeAllCode s :=
      congrArg Prod.snd hrun
    rw [hr] at hcode
    refine .releasing _ rfl hcode (.inl (.inl ?_))
    rw [hcode]
    simp [resumeAllCode]
  · have hn (f : Fault) : w.outcomeOf t ≠ .fault f := fun hx => hf ⟨f, hx⟩
    have hrun := undoStop_of_not_fault (s := s) (hsame.symm ▸ hn)
    have hr : w.remainder t (.stop (.undoStop s)) (.user :: base) = [] := congrArg Prod.snd hrun
    rw [hr] at hcode
    refine .granted [] rfl hcode fun f => ?_
    rw [outcomeOf_proceed, Instr.run, hrun, hsame]
    exact hn f

/-- Other threads do not stop any thread of service `s` by the event. -/
def Event.leavesBe (t : ThreadId) (s : ServiceId) (w : World) (e : Event) : Bool :=
  e == .advance t || !(w.upNext e).any (·.isPressing s)

theorem Attempt.step (a : Attempt w t s base) (hw : Lawful n w) (he : e.isBy t = false)
    (hp : e.leavesBe t s w = true) : Attempt (w.step e) t s base := by
  cases a with
  | asking top micros ht hc =>
    rcases stretch_asking.step hc ht he with ⟨top', ht', hc', -⟩ | ⟨-, h, -, -, hs⟩
    · exact .asking top' micros ht' hc'
    · rw [hs]
      exact .settling _ rfl (codeOf_proceed h)
  | settling top ht hc =>
    rcases stretch_settling.step hc ht he with ⟨top', ht', hc', -⟩ | ⟨-, h, -, -, hs⟩
    · exact .settling top' ht' hc'
    · rw [hs]
      exact attempt_undoStop h
  | releasing top ht hc hf =>
    rcases stretch_releasing.step hc ht he with ⟨top', ht', hc', -⟩ | ⟨-, -, hu, -⟩
    · refine .releasing top' ht' hc' ?_
      rcases hf with ho | g
      · exact ho.step hw e
      · right
        -- the thread itself asks nobody to stop any more
        have own (hx : e = .advance t) (i : Instr) (hi : w.upNext e = some i) :
            i.isOf StopInstr.isReleasing = true ∨ i = .user :=
          isOf_of_upNext hc ht (hx ▸ hi)
        refine g.step hw e ?_ fun hx k hi => ?_
        · rw [Bool.eq_false_iff]
          intro hany
          obtain ⟨i, hi, hpi⟩ := (Option.any_eq_true _ _).mp hany
          have hx : e = .advance t := by simpa [Event.leavesBe, hany] using hp
          rcases own hx i hi with ho | rfl
          · cases i with
            | stop k => cases k <;> first | cases hpi | cases ho
            | _ => cases hpi
          · cases hpi
        · rcases own hx _ hi with ho | ho <;> cases ho
    · exact absurd rfl hu
  | granted top ht hc ho =>
    obtain ⟨top', ht', hc', hsame⟩ := silent_step_out hc ht he
    exact .granted top' ht' hc' fun f => hsame ▸ ho f

/-- Below code of a thread's own nothing is left to do but to leave. -/
theorem not_mem_of_user (hw : Reachable n w) (hc : w.codeOf t = .user :: base)
    (hj : j.lets .user = false) (hu : j ≠ .user) : j ∉ w.codeOf t := by
  intro hm
  have so := hw.sealed t
  rw [hc] at hm so
  rw [so.lets ((List.mem_cons.mp hm).resolve_left hu)] at hj
  cases hj

/-- A thread that comes back because it has run out of time has let everybody go. -/
theorem Attempt.freed (a : Attempt w t s base) (hw : Reachable n w)
    (hc : w.codeOf t = .user :: base) {f : Fault} (ho : w.outcomeOf t = .fault f) :
    Freed w t s := by
  -- a thread that is back has nothing of the call left above its own code
  have long {mid : List Instr} (h : w.codeOf t = mid ++ .user :: base) : mid = [] := by
    have hl := congrArg List.length (hc.symm.trans h)
    rw [List.length_append] at hl
    exact List.eq_nil_of_length_eq_zero (by omega)
  cases a with
  | asking top micros ht h =>
    have hx : w.codeOf t =
        (top ++ [.stop (.settleStart s micros), .stop (.undoStop s)]) ++ .user :: base := by
      simpa using h
    simpa using long hx
  | settling top ht h =>
    have hx : w.codeOf t = (top ++ [.stop (.undoStop s)]) ++ .user :: base := by simpa using h
    simpa using long hx
  | releasing top ht h hf =>
    refine hf.resolve_left ?_
    rintro (hj | hj)
    · exact not_mem_of_user hw hc rfl (by rintro ⟨⟩) hj
    · exact not_mem_of_user hw hc rfl (by rintro ⟨⟩) hj
  | granted top ht h hn => exact absurd ho (hn f)

/-! Who enters the roster meanwhile, and who leaves it. -/

/-- The roster of a service but for its start gate. -/
def Roster.roll (g : Roster) : Roster :=
  { g with census := { g.census with allSuspended := false } }

/-- The instruction enters record `r` into the roster of service `s`, counts it, or takes it out. -/
def Instr.moves? : Instr → Option (ServiceId × RecordId)
  | .member (.publish s r) | .member (.gateEnter s r) | .member (.gatePass s r)
  | .member (.detachRemove s r _) | .member (.exitRemove s r) => some (s, r)
  | _ => none

theorem record_of_moves (h : i.moves? = some (s, r)) : ∃ k, i = .member k ∧ k.record? = some r := by
  cases i with
  | member k => cases k <;> first | (cases h; exact ⟨_, rfl, rfl⟩) | cases h
  | _ => cases h

theorem RosterStep.roll_eq_or {g : Roster} (hs : RosterStep w s i g) :
    g.roll = (w.roster s).roll ∨ ∃ r, i.moves? = some (s, r) := by
  cases hs with
  | still | closeGate | openGate => exact .inl rfl
  | publish r | gateEnter r | gatePass r | detachRemove r | exitRemove r => exact .inr ⟨r, rfl⟩

/-- By the event a thread other than `t` joins service `s` or leaves it, on a record of its own, or
the roll stays as it is. -/
inductive RollStep (w : World) (t : ThreadId) (s : ServiceId) (e : Event) : Prop
  | still (h : ((w.step e).roster s).roll = (w.roster s).roll)
  | own (q : ThreadId) (r : RecordId) (i : Instr) (hq : q ≠ t) (he : e = .advance q)
    (hi : w.upNext e = some i) (hr : i.moves? = some (s, r)) (ho : w.ownerOf r = some q)
    (hs : RosterStep w s i ((w.step e).roster s))

/-- A thread that stops the world, or lets it go, neither joins a service nor leaves one. -/
theorem Attempt.not_member (a : Attempt w t s base) (hi : w.upNext (.advance t) = some i) :
    ∀ k, i ≠ .member k := by
  rintro k rfl
  cases a with
  | asking top micros ht hc => rcases isOf_of_upNext hc ht hi with h | h <;> cases h
  | settling top ht hc => rcases isOf_of_upNext hc ht hi with h | h <;> cases h
  | releasing top ht hc => rcases isOf_of_upNext hc ht hi with h | h <;> cases h
  | granted top ht hc =>
    have ht := all_imp (q := Instr.isOf fun _ => false) isOf_of_silent ht
    rcases isOf_of_upNext hc ht hi with h | h <;> cases h

theorem Attempt.rollStep (a : Attempt w t s base) (hw : Lawful n w) (e : Event) :
    RollStep w t s e := by
  rcases w.step_cases e with ⟨q, i, rest, rfl, h, hu, hs⟩ | u
  · have hi : w.upNext (.advance q) = some i := upNext_eq_some.mpr ⟨q, rest, rfl, h⟩
    have hg := hw.rostered.step hw h s
    rw [← hs] at hg
    -- a step on the roster is that of a member which joins or leaves, and that is never the caller
    rcases hg.roll_eq_or with he | ⟨r, hr⟩
    · exact .still he
    · obtain ⟨k, rfl, hk⟩ := record_of_moves hr
      refine .own q r _ ?_ rfl hi hr ?_ hg
      · rintro rfl
        exact a.not_member hi k rfl
      · exact hw.reachable.custody.ownerOf_of_head (hw.reachable.orderly q) h hk
          (by rintro ⟨⟩; cases hr)
  · exact .still (congrArg Roster.roll (roster_of_services_eq u.services))

/-- However the call goes, all that joins or leaves the service meanwhile does so by itself. -/
theorem Attempt.run (a : Attempt w t s base) (hw : Lawful n w) (ha : w.admits es = true)
    (hb : ∀ e ∈ es, e.isBy t = false) (hp : w.Along (fun w e => e.leavesBe t s w = true) es) :
    Attempt (w.run es) t s base ∧ w.Along (fun w e => RollStep w t s e) es := by
  induction es generalizing w with
  | nil => exact ⟨a, trivial⟩
  | cons e es ih =>
    simp only [admits, Bool.and_eq_true] at ha
    obtain ⟨he, hb⟩ := List.forall_mem_cons.mp hb
    obtain ⟨a', hl⟩ := ih (a.step hw he hp.1) (hw.step ha.1) ha.2 hb hp.2
    exact ⟨a', a.rollStep hw e, hl⟩

/-! Who sleeps. -/

theorem Asleep.inPark (ha : Asleep w q r) (d : Nodding w) : InParkOf w q r := by
  obtain ⟨j, hj, hl⟩ := ha.loops d
  obtain ⟨k, rfl, hk, hr⟩ := parksOn_iff.mp hl
  exact ⟨k, hj, hr, by rintro tests entry b rfl; cases hk⟩

theorem Asleep.not_user (ha : Asleep w q r) (d : Nodding w) : w.codeOf q ≠ .user :: base := by
  intro hu
  cases ha with
  | wait _ h =>
    obtain ⟨rest, hc⟩ := d.rests h
    cases hc.symm.trans hu
  | signal p rest h => cases h.symm.trans hu

/-- Nobody is held back: the gate is open and no request stands but that of `t`. -/
structure Thawed (w : World) (t : ThreadId) (s : ServiceId) : Prop where
  gate : (w.census s).allSuspended = false
  unasked : ∀ r ∈ w.members s, w.isRequested r = true → w.selfIn t s = some r

/-- Nobody is left behind: all who sleep in their park loop are going to be woken, and nobody sleeps at
the gate. -/
structure Roused (w : World) (s : ServiceId) : Prop where
  parked : ∀ q r, Asleep w q r → Waking w q r ∨ Ringing w q r
  gated : ∀ q r, ¬Dozes w s q (.member (.gateWait s r))

theorem Freed.thawed (g : Freed w t s) : Thawed w t s where
  gate := g.gate
  unasked _ hr hq := g.unasked hr hq

/-- In the only service there is, nobody has to sleep any more. -/
theorem Freed.roused (g : Freed w t s) (hw : Lawful n w) (hs : s < w.services.length)
    (h1 : w.services.length ≤ 1) (hc : w.codeOf t = .user :: base) : Roused w s where
  parked q r hz := by
    have ha := hw.alone h1
    refine (ha.owed_of_asleep hz).resolve_left fun hq => ?_
    have hp := hz.inPark ha.nodding
    obtain ⟨b, hm⟩ := hp.listed hw
    -- the sleeper is in the roster, and the only one there that may be asked is not asleep
    have hb : b < w.services.length := ha.uniform.homes (hw.rostered.homed hm)
    obtain rfl : b = s :=
      (Nat.lt_one_iff.mp (hb.trans_le h1)).trans (Nat.lt_one_iff.mp (hs.trans_le h1)).symm
    have hown := hw.reachable.custody.bound (selfIn_eq_some.mp (g.unasked hm hq)).1
    obtain rfl : t = q := Option.some.inj (hown.symm.trans (hp.owner hw.reachable))
    exact hz.not_user ha.nodding hc
  gated q r z := not_mem_of_user hw.reachable hc rfl (by rintro ⟨⟩) (g.called h1 z)

/-! The theorem. -/

/-- A thread that has stopped the world in vain leaves nobody stopped: when it comes back with a
timeout, and nobody else has stopped threads meanwhile, the gate is open and no request stands but the
caller's own, and where there is no other service nobody sleeps who is not going to be woken. Whatever
has changed in the roster has been changed by threads that have joined or left on their own. -/
theorem timed_out_stop_leaves_nobody_stopped (hw : Lawful n w)
    (hr : w.Returns t (.stopTheWorld s micros) es)
    (ha : w.admits (.invoke t (.stopTheWorld s micros) :: es) = true)
    (hp : (w.step (.invoke t (.stopTheWorld s micros))).Along
      (fun w e => e.leavesBe t s w = true) es)
    (ho : (w.run (.invoke t (.stopTheWorld s micros) :: es)).outcomeOf t = .fault .timeout) :
    Thawed (w.run (.invoke t (.stopTheWorld s micros) :: es)) t s ∧
      ((w.run (.invoke t (.stopTheWorld s micros) :: es)).services.length ≤ 1 →
        Roused (w.run (.invoke t (.stopTheWorld s micros) :: es)) s) ∧
      w.Along (fun w e => RollStep w t s e) (.invoke t (.stopTheWorld s micros) :: es) := by
  obtain ⟨base, hbase⟩ := head_user hr.user
  obtain ⟨hcode, -⟩ := invoke_admitted (c := .stopTheWorld s micros) hr.user rfl
  have hw' := hw.run ha
  simp only [admits, Bool.and_eq_true] at ha
  rw [hbase] at hcode
  -- the call is followed through its stages: it asks, it waits, and it is granted or lets everybody go
  have a : Attempt (w.step (.invoke t (.stopTheWorld s micros))) t s base :=
    .asking (suspendAllCode s) micros rfl hcode
  obtain ⟨a', hl⟩ := a.run (hw.step ha.1) ha.2 hr.busy hp
  have hback : (w.run (.invoke t (.stopTheWorld s micros) :: es)).codeOf t = .user :: base :=
    hr.back.trans hbase
  have hs : s < (w.run (.invoke t (.stopTheWorld s micros) :: es)).services.length := by
    have hx : s < w.services.length := by simpa [Event.isPlaced, Call.service?] using ha.1
    exact hx.trans_le (services_length_run _ _)
  have g := a'.freed hw'.reachable hback ho
  refine ⟨g.thawed, fun h1 => g.roused hw' hs h1 hback, ?_, hl⟩
  rcases w.step_cases (.invoke t (.stopTheWorld s micros)) with ⟨_, _, _, hx, -⟩ | u
  · cases hx
  · exact .still (congrArg Roster.roll (roster_of_services_eq u.services))

/-- Three threads have attached themselves, one of which is starting another. -/
def crowded : List Event :=
  .invoke 0 (.establish { mechanism := .signal }) :: turns 0 5 ++
    .invoke 1 (.attach 0 "calm") :: turns 1 5 ++ .invoke 2 (.attach 0 "busy") :: turns 2 5 ++
    .invoke 3 (.attach 0 "starter") :: turns 3 5 ++ .invoke 3 (.spawn 0 {}) :: turns 3 8

/-- The first thread parks, the second does not, and the new one comes to the gate. -/
def inVain : List Event :=
  turns 0 14 ++ .interrupt 1 :: turns 1 11 ++ turns 4 10 ++ turns 0 41

theorem busy_thread_calls_it_off :
    ((World.initial 4).run crowded).Returns 0 (.stopTheWorld 0 0) inVain ∧
      (((World.initial 4).run crowded).run (.invoke 0 (.stopTheWorld 0 0) :: inVain)).outcomeOf 0 =
        .fault .timeout ∧
      Thawed (((World.initial 4).run crowded).run (.invoke 0 (.stopTheWorld 0 0) :: inVain)) 0 0 ∧
      Roused (((World.initial 4).run crowded).run (.invoke 0 (.stopTheWorld 0 0) :: inVain)) 0 ∧
      ((World.initial 4).run crowded).Along (fun w e => RollStep w 0 0 e)
        (.invoke 0 (.stopTheWorld 0 0) :: inVain) := by
  have hw : Lawful 4 ((World.initial 4).run crowded) := ⟨crowded, by decide +kernel, rfl⟩
  have hr : ((World.initial 4).run crowded).Returns 0 (.stopTheWorld 0 0) inVain :=
    ⟨by decide +kernel, by decide +kernel, by decide +kernel⟩
  have ho : (((World.initial 4).run crowded).run
      (.invoke 0 (.stopTheWorld 0 0) :: inVain)).outcomeOf 0 = .fault .timeout := by
    decide +kernel
  obtain ⟨hthawed, hroused, hroll⟩ :=
    timed_out_stop_leaves_nobody_stopped hw hr (by decide +kernel) (by decide +kernel) ho
  exact ⟨hr, ho, hthawed, hroused (by decide +kernel), hroll⟩

end Standstill
