import Standstill.Proofs.ParkRound
import Standstill.Proofs.StartGate

/-!
One stay in the park loop, whatever happens around it. Others may raise and clear the request, change
the level and wake the thread; a stop signal may reach it while it sleeps. The record reads as suspended
from the mark on, and the thread leaves the loop where it finds that it need not stop; then the record
reads as it did at the entry, with one more epoch.
-/
namespace Standstill

open World ParkInstr

/-- How often the owner of the record has parked. -/
def World.epochOf (w : World) (r : RecordId) : Nat := w.ofRecord r 0 (·.epoch)

variable {n : Nat} {w w' w₀ : World} {t t' : ThreadId} {r : RecordId} {p : Parking} {k : ParkInstr}
  {i : Instr} {base top rest : List Instr} {sleep : Mechanism} {e : Nat} {q : Bool}

/-- Something has happened that leaves the code of the thread alone, and the phase and the epoch of
the record. The request, the level and all that the thread sleeps on may have changed. -/
structure Besides (t : ThreadId) (r : RecordId) (w w' : World) : Prop where
  code : w'.codeOf t = w.codeOf t
  binding : w'.bindingOf t = w.bindingOf t
  phase : w'.phaseOf r = w.phaseOf r
  epoch : w'.epochOf r = w.epochOf r
  size : w.records.length ≤ w'.records.length

/-- What can happen next, as thread `t` sees it in the park loop of record `r`. -/
inductive StayStep (t : ThreadId) (r : RecordId) (w : World) : World → Prop
  | own : StayStep t r w (w.step (.advance t))
  /-- The stop signal comes while the thread rests in the queue of its record. -/
  | signal (d : Option Nat) (rest : List Instr)
    (h : w.codeOf t = .sync (.resting (.park r) d) :: rest) : StayStep t r w (w.step (.interrupt t))
  /-- The thread no longer waits for the signal, and has not got it. -/
  | rouse (rest : List Instr) (h : w.codeOf t = .park .awaitSignal :: rest) :
    StayStep t r w (w.setCode t rest)
  | other (w' : World) (h : Besides t r w w') : StayStep t r w w'

/-- World `w` has come of `w₀` while thread `t` was above what it did before. -/
inductive Stay (t : ThreadId) (r : RecordId) (base : List Instr) (w₀ : World) : World → Prop
  | entry : Stay t r base w₀ w₀
  | next {w w' : World} (h : Stay t r base w₀ w) (hin : w.codeOf t ≠ base)
    (hs : StayStep t r w w') : Stay t r base w₀ w'

/-- The loop, one instruction after the other. -/
inductive LoopStage (p : Parking) : ParkInstr → Prop
  | save : LoopStage p (.save p.sleep p.record)
  | spill : LoopStage p (.spill p)
  | mark : LoopStage p (.mark p)
  | count : LoopStage p (.count p)
  | testRequest : LoopStage p (.testRequest p)
  | testLevel : LoopStage p (.testLevel p)
  | restore : LoopStage p (.restore p)

/-- The epoch has been counted. -/
def ParkInstr.isCounted : ParkInstr → Bool
  | .testRequest _ | .testLevel _ | .restore _ => true
  | _ => false

/-- The instruction belongs to a sleep in the loop, or to a handler that runs during it. -/
def Instr.isAsleep (r : RecordId) (i : Instr) : Bool := i.isDormant r || i == .guard (.setMask false)

/-- Thread `t` is in the loop, about to go on with `k`, once it has done what is on top of it. -/
structure Parks (w : World) (t : ThreadId) (p : Parking) (e : Nat) (base top : List Instr)
    (k : ParkInstr) : Prop where
  stage : LoopStage p k
  code : w.codeOf t = top ++ .park k :: base
  asleep : top.all (Instr.isAsleep p.record) = true
  waits : top ≠ [] → k = .testRequest p
  phase : w.phaseOf p.record = if k.isLoop then .suspended else p.previous
  epoch : w.epochOf p.record = if k.isCounted then e + 1 else e
  bound : ∀ b, w.bindingOf t = some b → b = p.record
  size : p.record < w.records.length

/-- Thread `t` has left the loop. -/
structure Left (w : World) (t : ThreadId) (p : Parking) (e : Nat) (base : List Instr) : Prop where
  code : w.codeOf t = base
  phase : w.phaseOf p.record = p.previous
  epoch : w.epochOf p.record = e + 1

/-! What the others do. -/

theorem Besides.parks (h : Besides t p.record w w') (g : Parks w t p e base top k) :
    Parks w' t p e base top k where
  stage := g.stage
  code := h.code.trans g.code
  asleep := g.asleep
  waits := g.waits
  phase := h.phase.trans g.phase
  epoch := h.epoch.trans g.epoch
  bound b hb := g.bound b (h.binding ▸ hb)
  size := Nat.lt_of_lt_of_le g.size h.size

/-- Whoever raises or clears the request does no more. -/
theorem besides_setRequest (q : Bool) : Besides t r w (w.setRequest r q) where
  code := rfl
  binding := rfl
  phase := by simp [phaseOf_eq, setRequest, ofRecord_modRecord]
  epoch := by simp [epochOf, setRequest, ofRecord_modRecord]
  size := by simp [setRequest]

theorem besides_sendSignal (t' : ThreadId) : Besides t r w (w.sendSignal t') where
  code := by simp [codeOf, sendSignal, ofThread_modThread]
  binding := by simp [bindingOf, sendSignal, ofThread_modThread]
  phase := rfl
  epoch := rfl
  size := Nat.le_refl _

section Others

attribute [local simp] World.setLevel World.setPhase World.setRequest World.fail World.answer World.say
  World.setBinding World.modCensus World.modRoster World.modStats World.addRow World.setMask
  World.signalOwner World.sendSignal ofRecord_modRecord ofRecord_addRecord

theorem ParkInstr.epochOf_run (i : ParkInstr) (h : i.record? ≠ some r) :
    (i.run t w).1.epochOf r = w.epochOf r := by
  cases i with
  | check tests entry b =>
    cases tests with
    | cons => rfl
    | nil =>
      rcases entry with _ | _ | _
      · rfl
      · simp only [ParkInstr.run]
        split <;> rfl
      · rfl
  | count p =>
    have hne : r ≠ p.record := fun hr => h (congrArg some hr.symm)
    simp [ParkInstr.run, epochOf, hne]
  | spill | mark | restore => simp [ParkInstr.run, epochOf]
  | _ => rfl

theorem MemberInstr.epochOf_run (i : MemberInstr) (hr : r < w.records.length) :
    (i.run t w).1.epochOf r = w.epochOf r := by
  simp only [epochOf]
  cases i <;> simp only [MemberInstr.run] <;> repeat' split
  all_goals simp [Nat.ne_of_lt hr]

theorem ReadInstr.epochOf_run (i : ReadInstr) : (i.run t w).1.epochOf r = w.epochOf r := by
  simp only [epochOf]
  cases i <;> simp only [ReadInstr.run, ReadInstr.tell, ReadInstr.consult] <;> repeat' split
  all_goals simp

/-- Only who parks on a record counts its epoch. -/
theorem epochOf_run_of_not_tends (i : Instr) (h : ¬Tends w t i r) (hr : r < w.records.length) :
    (i.run t w).1.epochOf r = w.epochOf r := by
  cases i with
  | user => rfl
  | sync i =>
    obtain ⟨_, _, he⟩ := i.run_fst (w := w) (t := t)
    rw [Instr.run, he]
    rfl
  | guard i => exact i.ofRecord_run (fun _ _ => rfl) fun _ _ => rfl
  | park i => exact i.epochOf_run fun hi => h (Or.inr (Or.inr hi))
  | stop i => exact i.ofRecord_run fun _ _ => rfl
  | pool i => exact i.ofRecord_run
  | member i => exact i.epochOf_run hr
  | read i => exact i.epochOf_run

/-- Whatever any other thread does, and whatever else happens to it, leaves a thread that parks and its
record alone. -/
theorem Reachable.besides {ev : Event} (h : Reachable n w) (hk : .park k ∈ w.codeOf t)
    (hr : k.record? = some r) (ha : ev ≠ .advance t) (hi : ev ≠ .interrupt t) :
    Besides t r w (w.step ev) := by
  have c := h.custody
  have hlt : r < w.records.length := lt_of_ownerOf (c.parked hk hr)
  rcases w.step_cases ev with ⟨t', i, rest, rfl, hc, -, hs⟩ | u
  · have ht : t ≠ t' := fun he => ha (he ▸ rfl)
    -- the record is the thread's own, so another thread does not tend to it
    have hn : ¬Tends w t' i r :=
      c.not_tends_of_mem (h.orderly t') hc hk (by exact hr) ht
    have htl : t < w.threads.length := lt_of_codeOf (List.ne_nil_of_mem hk)
    rw [hs]
    refine ⟨codeOf_proceed_of_ne hc ht htl, ?_, phaseOf_proceed_of_not_tends hn hlt, ?_,
      World.records_length_proceed⟩
    · rcases bindingOf_proceed w t' t i rest with hb | ⟨he, -⟩
      · exact hb
      · exact absurd he ht
    · exact epochOf_run_of_not_tends (w := w.setCode t' rest) i (mt tends_setCode.mp hn) hlt
  · refine ⟨?_, u.binding t, u.ofRecord, u.ofRecord, Nat.le_of_eq (by rw [u.records])⟩
    rcases u.code t with hcode | hcode
    · exact hcode
    · rcases hcode.interrupt_or_user with ⟨he, -⟩ | hu
      · exact absurd he hi
      -- in its own code the thread is in no loop
      · obtain ⟨rest, hc⟩ := head_user hu
        have ho : Orderly (.user :: rest) := hc ▸ h.orderly t
        rw [hc] at hk
        cases ho.calm rfl _ (List.mem_of_ne_of_mem Instr.noConfusion hk)

/-- Whatever happens in a run while the thread is in the loop is a step of the stay, where the signal
reaches the thread only while it rests. -/
theorem Reachable.stayStep {ev : Event} (h : Reachable n w) (hk : .park k ∈ w.codeOf t)
    (hr : k.record? = some r) (hi : ev = .interrupt t → w.canInterrupt t = true →
      ∃ d rest, w.codeOf t = .sync (.resting (.park r) d) :: rest) :
    StayStep t r w (w.step ev) := by
  by_cases ha : ev = .advance t
  · rw [ha]
    exact .own
  by_cases hs : ev = .interrupt t
  · subst hs
    cases hc : w.canInterrupt t with
    | true =>
      obtain ⟨d, rest, hcode⟩ := hi rfl hc
      exact .signal d rest hcode
    | false =>
      rw [World.step, World.interrupt, if_neg (by simp [hc])]
      exact .other w ⟨rfl, rfl, rfl, rfl, Nat.le_refl _⟩
  · exact .other _ (h.besides hk hr ha hs)

end Others

/-! What the thread does itself. -/

theorem run_asleep (h : i.isAsleep r = true) (hb : ∀ b, w.bindingOf t = some b → b = r)
    (hp : w.phaseOf r = .suspended) :
    (i.run t w).2.all (Instr.isAsleep r) = true ∧ (i.run t w).1.records = w.records := by
  rw [Instr.isAsleep, Bool.or_eq_true, beq_iff_eq] at h
  rcases h with h | rfl
  · obtain ⟨ha, hr⟩ := run_dormant h hb hp
    exact ⟨all_imp (fun hj => by rw [Instr.isAsleep, hj]; rfl) ha, hr⟩
  · exact ⟨rfl, rfl⟩

theorem not_binder_of_asleep (h : i.isAsleep r = true) : ∀ k, i ≠ .member k := by
  rintro k rfl
  cases h

/-- A step of the wait, or of a handler in it, changes no record. -/
theorem Parks.proceed_asleep (g : Parks w t p e base (i :: top) k) :
    (w.proceed t i (top ++ .park k :: base)).records = w.records ∧
      ∃ top', Parks (w.proceed t i (top ++ .park k :: base)) t p e base top' k := by
  have hk := g.waits (List.cons_ne_nil _ _)
  have ha := g.asleep
  rw [List.all_cons, Bool.and_eq_true] at ha
  have hs : w.phaseOf p.record = .suspended := g.phase.trans (by rw [hk]; rfl)
  have hbind : (w.setCode t (top ++ .park k :: base)).bindingOf t = w.bindingOf t :=
    ofThread_setCode fun _ _ => rfl
  obtain ⟨hr, hrec⟩ := run_asleep (w := w.setCode t (top ++ .park k :: base)) (t := t) ha.1
    (fun b hb => g.bound b (hbind ▸ hb)) hs
  have hrec' : (w.proceed t i (top ++ .park k :: base)).records = w.records := hrec
  refine ⟨hrec', w.remainder t i (top ++ .park k :: base) ++ top, g.stage, ?_, ?_, fun _ => hk, ?_, ?_,
    fun b hb => ?_, ?_⟩
  · have hc : w.codeOf t = i :: (top ++ .park k :: base) := g.code
    rw [codeOf_proceed hc, List.append_assoc]
  · rw [List.all_append, remainder, hr, ha.2]
    rfl
  · rw [← g.phase]
    simp only [phaseOf, hrec']
  · rw [← g.epoch]
    simp only [epochOf, ofRecord, hrec']
  · rw [bindingOf_proceed_of_not_binder fun k hk => absurd hk (not_binder_of_asleep ha.1 k)] at hb
    exact g.bound b hb
  · rw [hrec']
    exact g.size

section Elementary

variable {b : RecordId} {f : ThreadRecord → ThreadRecord}

theorem phaseOf_proceed_of_modRecord (h : ∀ w, (i.run t w).1 = w.modRecord b f)
    (hf : ∀ c, (f c).phase = c.phase) : (w.proceed t i rest).phaseOf r = w.phaseOf r := by
  have he : (w.proceed t i rest).phaseOf r = (i.run t (w.setCode t rest)).1.phaseOf r := rfl
  rw [he, h, phaseOf_eq, ofRecord_modRecord]
  simp only [hf, ite_self]
  rfl

theorem epochOf_proceed_of_modRecord (h : ∀ w, (i.run t w).1 = w.modRecord b f)
    (hf : ∀ c, (f c).epoch = c.epoch) : (w.proceed t i rest).epochOf r = w.epochOf r := by
  have he : (w.proceed t i rest).epochOf r = (i.run t (w.setCode t rest)).1.epochOf r := rfl
  rw [he, h, epochOf, ofRecord_modRecord]
  simp only [hf, ite_self]
  rfl

theorem epochOf_proceed_count (hr : p.record < w.records.length) :
    (w.proceed t (.park (.count p)) rest).epochOf p.record = w.epochOf p.record + 1 := by
  have he : (w.proceed t (.park (.count p)) rest).epochOf p.record =
      (w.modRecord p.record fun c => { c with epoch := c.epoch + 1 }).epochOf p.record := rfl
  rw [he]
  simp only [epochOf, ofRecord_modRecord, if_true]
  simp only [ofRecord, List.getElem?_eq_getElem hr]

end Elementary

/-- The loop goes on, or ends. -/
theorem Parks.proceed_stage (g : Parks w t p e base [] k) :
    Left (w.proceed t (.park k) base) t p e base ∧ k = .restore p ∨
      ∃ top' k', Parks (w.proceed t (.park k) base) t p e base top' k' ∧ k ≠ .restore p ∧
        (k' = .restore p → k = .testRequest p ∧ w.isRequested p.record = false ∨
          k = .testLevel p ∧ w.levelOf p.record ≠ .noBlock) := by
  have hcode := codeOf_proceed g.code
  -- every turn but the last leaves one more instruction of the loop, under a sleep or under nothing
  have go {top' : List Instr} {k' : ParkInstr} (hst : LoopStage p k')
      (hr : w.remainder t (.park k) base = top' ++ [.park k'])
      (ha : top'.all (Instr.isAsleep p.record) = true) (hw : top' ≠ [] → k' = .testRequest p)
      (hp : (w.proceed t (.park k) base).phaseOf p.record =
        if k'.isLoop then .suspended else p.previous)
      (he : (w.proceed t (.park k) base).epochOf p.record = if k'.isCounted then e + 1 else e) :
      Parks (w.proceed t (.park k) base) t p e base top' k' := by
    refine ⟨hst, ?_, ha, hw, hp, he, fun b hb => ?_, ?_⟩
    · rw [hcode, hr, List.append_assoc]
      rfl
    · rw [bindingOf_proceed_of_not_binder fun j hj => by cases hj] at hb
      exact g.bound b hb
    · exact Nat.lt_of_lt_of_le g.size World.records_length_proceed
  cases g.stage with
  | save =>
    have hr : w.remainder t (.park (.save p.sleep p.record)) base =
        [.park (.spill ⟨p.sleep, p.record, w.phaseOf p.record⟩)] := rfl
    rw [g.phase] at hr
    exact Or.inr ⟨[], _, go .spill hr rfl (fun h => absurd rfl h) g.phase g.epoch, by simp,
      fun h => by cases h⟩
  | spill =>
    have hp : (w.proceed t (.park (.spill p)) base).phaseOf p.record = w.phaseOf p.record :=
      phaseOf_proceed_of_modRecord (f := fun c => { c with stackTop := .parked }) (fun _ => rfl)
        fun _ => rfl
    have he : (w.proceed t (.park (.spill p)) base).epochOf p.record = w.epochOf p.record :=
      epochOf_proceed_of_modRecord (f := fun c => { c with stackTop := .parked }) (fun _ => rfl)
        fun _ => rfl
    exact Or.inr ⟨[], _, go .mark rfl rfl (fun h => absurd rfl h) (hp.trans g.phase)
      (he.trans g.epoch), by simp, fun h => by cases h⟩
  | mark =>
    have he : (w.proceed t (.park (.mark p)) base).epochOf p.record = w.epochOf p.record :=
      epochOf_proceed_of_modRecord (f := fun c => { c with phase := .suspended }) (fun _ => rfl)
        fun _ => rfl
    exact Or.inr ⟨[], _, go .count rfl rfl (fun h => absurd rfl h)
      (phaseOf_proceed_mark rfl g.size) (he.trans g.epoch), by simp, fun h => by cases h⟩
  | count =>
    have hp : (w.proceed t (.park (.count p)) base).phaseOf p.record = w.phaseOf p.record :=
      phaseOf_proceed_of_modRecord (f := fun c => { c with epoch := c.epoch + 1 }) (fun _ => rfl)
        fun _ => rfl
    exact Or.inr ⟨[], _, go .testRequest rfl rfl (fun h => absurd rfl h) (hp.trans g.phase)
      ((epochOf_proceed_count g.size).trans (congrArg (· + 1) g.epoch)), by simp,
      fun h => by cases h⟩
  -- with the request gone the loop ends, whatever the level
  | testRequest =>
    have hr : w.remainder t (.park (.testRequest p)) base =
        if w.isRequested p.record then [.park (.testLevel p)] else [.park (.restore p)] := rfl
    cases hq : w.isRequested p.record with
    | true =>
      rw [hq, if_pos rfl] at hr
      exact Or.inr ⟨[], _, go .testLevel hr rfl (fun h => absurd rfl h) g.phase g.epoch, by simp,
        fun h => by cases h⟩
    | false =>
      rw [hq, if_neg (by simp)] at hr
      exact Or.inr ⟨[], _, go .restore hr rfl (fun h => absurd rfl h) g.phase g.epoch, by simp,
        fun _ => Or.inl ⟨rfl, rfl⟩⟩
  | testLevel =>
    have hr : w.remainder t (.park (.testLevel p)) base =
        if w.levelOf p.record = .noBlock then p.sleepCode ++ [.park (.testRequest p)]
        else [.park (.restore p)] := rfl
    -- a thread that may be stopped sleeps and then looks at its request again
    by_cases hl : w.levelOf p.record = .noBlock
    · rw [if_pos hl] at hr
      refine Or.inr ⟨_, _, go .testRequest hr ?_ (fun _ => rfl) g.phase g.epoch, by simp,
        fun h => by cases h⟩
      rcases p with ⟨sleep, b, s⟩
      cases sleep <;> rfl
    · rw [if_neg hl] at hr
      exact Or.inr ⟨[], _, go .restore hr rfl (fun h => absurd rfl h) g.phase g.epoch, by simp,
        fun _ => Or.inr ⟨rfl, hl⟩⟩
  | restore =>
    have he : (w.proceed t (.park (.restore p)) base).epochOf p.record = w.epochOf p.record :=
      epochOf_proceed_of_modRecord (f := fun c => { c with phase := p.previous }) (fun _ => rfl)
        fun _ => rfl
    exact Or.inl ⟨⟨hcode, phaseOf_proceed_restore rfl g.size, he.trans g.epoch⟩, rfl⟩

/-! A stay. -/

/-- The stop signal comes while the thread rests. -/
theorem Parks.interrupt {d : Option Nat} (g : Parks w t p e base top k)
    (h : w.codeOf t = .sync (.resting (.park p.record) d) :: rest) :
    ∃ top', Parks (w.step (.interrupt t)) t p e base top' k := by
  have u := undisturbed_interrupt w t
  have hk : k = .testRequest p := by
    refine g.waits ?_
    rintro rfl
    rw [g.code] at h
    cases h
  have hphase : (w.step (.interrupt t)).phaseOf p.record = w.phaseOf p.record := u.ofRecord
  have hepoch : (w.step (.interrupt t)).epochOf p.record = w.epochOf p.record := u.ofRecord
  -- the handler comes on top of the wait, and all that is noted stays
  have keep {top' : List Instr} (hc : (w.step (.interrupt t)).codeOf t = top' ++ .park k :: base)
      (ha : top'.all (Instr.isAsleep p.record) = true) :
      Parks (w.step (.interrupt t)) t p e base top' k :=
    ⟨g.stage, hc, ha, fun _ => hk, hphase.trans g.phase, hepoch.trans g.epoch,
      fun b hb => g.bound b (u.binding t ▸ hb), u.records ▸ g.size⟩
  rcases u.code t with hc | hc
  · exact ⟨top, keep (hc.trans g.code) g.asleep⟩
  · generalize hcode : (w.interrupt t).codeOf t = code at hc
    cases hc with
    | interrupt hi =>
      refine ⟨w.handlerCode t ++ [.guard (.setMask false)] ++ top, keep ?_ ?_⟩
      · rw [World.step, hcode, g.code, List.append_assoc _ top]
      · have hh : (w.handlerCode t).all (Instr.isAsleep p.record) = true := by
          rw [handlerCode_eq]
          split
          · rfl
          next b hb =>
            obtain rfl := g.bound b hb
            simp [Instr.isAsleep, Instr.isDormant]
        rw [List.all_append, List.all_append, hh, g.asleep]
        rfl

/-- The thread wakes without the signal. -/
theorem Parks.rouse (g : Parks w t p e base top k) (h : w.codeOf t = .park .awaitSignal :: rest) :
    ∃ top', Parks (w.setCode t rest) t p e base top' k := by
  have ht := lt_of_head h
  -- the wait for the signal is never the instruction of the loop itself
  obtain ⟨top', rfl⟩ : ∃ top', top = .park .awaitSignal :: top' := by
    cases top with
    | nil =>
      have hk := (List.cons.inj (g.code.symm.trans h)).1
      have hs := g.stage
      rw [Instr.park.inj hk] at hs
      cases hs
    | cons j top' => exact ⟨top', by rw [(List.cons.inj (g.code.symm.trans h)).1]⟩
  have hr : rest = top' ++ .park k :: base := (List.cons.inj (h.symm.trans g.code)).2
  have ha := g.asleep
  rw [List.all_cons, Bool.and_eq_true] at ha
  have hb : (w.setCode t rest).bindingOf t = w.bindingOf t := ofThread_setCode fun _ _ => rfl
  refine ⟨top', g.stage, ?_, ha.2, fun _ => g.waits (List.cons_ne_nil _ _), g.phase, g.epoch,
    fun b hx => g.bound b (hb ▸ hx), g.size⟩
  rw [codeOf_setCode ht, if_pos rfl, hr]

theorem Parks.code_ne (g : Parks w t p e base top k) : w.codeOf t ≠ base := by
  intro h
  have hl := congrArg List.length (g.code.symm.trans h)
  simp at hl
  omega

/-- What is on top of the loop, and its next instruction, can be told from the code. -/
theorem code_inj {top' : List Instr} {k' : ParkInstr}
    (h : top ++ .park k :: base = top' ++ .park k' :: base) : top = top' ∧ k = k' := by
  have he : top ++ [.park k] ++ base = top' ++ [.park k'] ++ base := by simpa using h
  obtain ⟨ht, hk⟩ := List.append_inj' (List.append_cancel_right he) rfl
  exact ⟨ht, Instr.park.inj (List.cons.inj hk).1⟩

/-- The thread finds that it need not stop: the request is gone, or its level is raised. -/
def Frees (w : World) (p : Parking) (k : ParkInstr) : Prop :=
  k = .testRequest p ∧ w.isRequested p.record = false ∨
    k = .testLevel p ∧ w.levelOf p.record ≠ .noBlock

/-- One step in the loop. The thread leaves it only by way of a look at which it finds that it need
not stop. -/
theorem Parks.step (g : Parks w t p e base top k) (h : StayStep t p.record w w') :
    Left w' t p e base ∧ k = .restore p ∨ ∃ top' k', Parks w' t p e base top' k' ∧
      (k' = .restore p → k = .restore p ∨ top = [] ∧ Frees w p k) := by
  cases h with
  | own =>
    rcases w.advance_cases t with hs | ⟨i, rest, hc, -, hs⟩
    · rw [World.step, hs]
      exact Or.inr ⟨top, k, g, Or.inl⟩
    · rw [World.step, hs]
      cases top with
      -- nothing is left above the loop, so the loop makes its next step
      | nil =>
        obtain ⟨rfl, rfl⟩ := List.cons.inj (hc.symm.trans g.code)
        rcases g.proceed_stage with hl | ⟨top', k', g', -, hk⟩
        · exact Or.inl hl
        · exact Or.inr ⟨top', k', g', fun h => Or.inr ⟨rfl, hk h⟩⟩
      | cons j top =>
        obtain ⟨rfl, hr⟩ := List.cons.inj (hc.symm.trans g.code)
        obtain ⟨-, top', g'⟩ := g.proceed_asleep
        have hr' : rest = top ++ .park k :: base := hr
        rw [hr']
        exact Or.inr ⟨top', k, g', Or.inl⟩
  | signal d rest h =>
    obtain ⟨top', g'⟩ := g.interrupt h
    exact Or.inr ⟨top', k, g', Or.inl⟩
  | rouse rest h =>
    obtain ⟨top', g'⟩ := g.rouse h
    exact Or.inr ⟨top', k, g', Or.inl⟩
  | other w' h => exact Or.inr ⟨top, k, h.parks g, Or.inl⟩

/-- The whole stay, step by step. -/
theorem Stay.parks_or_left (hs : Stay t p.record base w₀ w) (g : Parks w₀ t p e base top k) :
    (∃ top k, Parks w t p e base top k) ∨ Left w t p e base := by
  induction hs with
  | entry => exact Or.inl ⟨top, k, g⟩
  | next _ hin hs ih =>
    rcases ih with ⟨top, k, g⟩ | l
    · rcases g.step hs with ⟨l, -⟩ | ⟨top', k', g', -⟩
      · exact Or.inr l
      · exact Or.inl ⟨top', k', g'⟩
    · exact absurd l.code hin

/-- From the mark to the return the record reads as suspended, whatever the others do. What the thread
does while it sleeps, in a handler or not, changes no record. It leaves the loop where it finds the
request gone or its level raised, and nowhere else; and when it is back at what it did before, the
record reads as it did at the entry, with one more epoch. -/
theorem park_loop_brings_the_phase_back
    (h : w₀.codeOf t = .park (.save sleep r) :: base) (hr : r < w₀.records.length)
    (hb : ∀ b, w₀.bindingOf t = some b → b = r) (hs : Stay t r base w₀ w) :
    (w.codeOf t = base → w.phaseOf r = w₀.phaseOf r ∧ w.epochOf r = w₀.epochOf r + 1) ∧
    (w.codeOf t ≠ base → ∃ top k, w.codeOf t = top ++ .park k :: base ∧
      LoopStage ⟨sleep, r, w₀.phaseOf r⟩ k ∧ (k.isLoop = true → w.phaseOf r = .suspended) ∧
      (top ≠ [] → (w.step (.advance t)).records = w.records ∧
        (w.step (.interrupt t)).records = w.records) ∧
      ∀ w', StayStep t r w w' →
        (w'.codeOf t = base → k = .restore ⟨sleep, r, w₀.phaseOf r⟩) ∧
        (w'.codeOf t = .park (.restore ⟨sleep, r, w₀.phaseOf r⟩) :: base →
          k = .restore ⟨sleep, r, w₀.phaseOf r⟩ ∨ top = [] ∧ Frees w ⟨sleep, r, w₀.phaseOf r⟩ k)) := by
  have g₀ : Parks w₀ t ⟨sleep, r, w₀.phaseOf r⟩ (w₀.epochOf r) base [] (.save sleep r) :=
    ⟨.save, h, rfl, fun h => absurd rfl h, rfl, rfl, hb, hr⟩
  generalize hp : (⟨sleep, r, w₀.phaseOf r⟩ : Parking) = p at g₀ ⊢
  obtain rfl : p.record = r := hp ▸ rfl
  have hprev : p.previous = w₀.phaseOf p.record := hp ▸ rfl
  -- the thread is at some stage of the loop, or it has left it and the stay is over
  rcases Stay.parks_or_left hs g₀ with ⟨top, k, g⟩ | l
  · refine ⟨fun hc => absurd hc g.code_ne, fun _ => ⟨top, k, g.code, g.stage,
      fun hk => g.phase.trans (if_pos hk), fun ht => ⟨?_, (undisturbed_interrupt w t).records⟩,
      fun w' hs' => ⟨fun hc => ?_, fun hc => ?_⟩⟩⟩
    · cases top with
      | nil => exact absurd rfl ht
      | cons i top =>
        have hc : w.codeOf t = i :: (top ++ .park k :: base) := g.code
        rcases w.advance_cases t with hs' | ⟨j, rest, hc', -, hs'⟩
        · rw [World.step, hs']
        · obtain ⟨rfl, rfl⟩ := List.cons.inj (hc.symm.trans hc')
          rw [World.step, hs']
          exact g.proceed_asleep.1
    · rcases g.step hs' with ⟨-, hk⟩ | ⟨top', k', g', -⟩
      · exact hk
      · exact absurd hc g'.code_ne
    · rcases g.step hs' with ⟨l, hk⟩ | ⟨top', k', g', hk⟩
      · exact Or.inl hk
      · have hc' : top' ++ .park k' :: base = [] ++ .park (.restore p) :: base :=
          g'.code.symm.trans hc
        exact hk (code_inj hc').2
  · exact ⟨fun _ => ⟨l.phase.trans hprev, l.epoch⟩, fun hc => absurd l.code hc⟩

/-- A thread that parks at a stop signal, with the request raised. -/
def summoned : World where
  threads := [{ code := [.park (.save .signal 0), .user], binding := some 0, masked := true }]
  records := [{ ThreadRecord.create 1 0 "main" 5 0 false with requested := true }]

/-- It goes to sleep; the request is cleared, and the signal that wakes it is sent. -/
theorem summoned_thread_is_let_go :
    ∃ w, Stay 0 0 [.user] summoned w ∧ w.codeOf 0 = [.user] ∧
      w.phaseOf 0 = summoned.phaseOf 0 ∧ w.epochOf 0 = summoned.epochOf 0 + 1 := by
  have own {w : World} (h : Stay 0 0 [.user] summoned w) (hin : w.codeOf 0 ≠ [.user]) :
      Stay 0 0 [.user] summoned (w.step (.advance 0)) := .next h hin .own
  have hs := own (own (own (own (own (own .entry (by decide)) (by decide)) (by decide)) (by decide))
    (by decide)) (by decide)
  have hs := Stay.next hs (by decide) (.other _ (besides_setRequest false))
  have hs := Stay.next hs (by decide) (.other _ (besides_sendSignal 0))
  have hs := own (own (own (own hs (by decide)) (by decide)) (by decide)) (by decide)
  exact ⟨_, hs, by decide,
    (park_loop_brings_the_phase_back rfl (by decide) (by decide) hs).1 (by decide)⟩

end Standstill
