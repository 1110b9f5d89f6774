import Standstill.Proofs.CallStages
import Standstill.Proofs.Noticed
import Standstill.Proofs.OpenGuards

/-!
How a parked thread sleeps. A thread that lowers its level or comes to a safe point enters the park loop
of a record in the record's own service, and sleeps there as that service stops its threads. The handler
of the stop signal enters the loop of whatever record stands for the thread, and always sleeps until a
signal comes. Main statement: a thread sleeps by the primitive of the service that its record belongs
to, unless a service that stops threads by signal has sent it into the loop of a record of another; and
a resume by the record's service wakes whoever sleeps by its primitive.
-/
namespace Standstill

open World

variable {n : Nat} {w w' : World} {t t' q : ThreadId} {s : ServiceId} {r : RecordId} {i j : Instr}
  {m : Mechanism} {code rest base top : List Instr} {e : Event} {es : List Event}

/-! Whoever stops or wakes a record does so for the service that the record belongs to. -/

theorem addressee_of_run (i : Instr) (hj : j ∈ (i.run t w).2) (hs : j.addressee? = some (s, r)) :
    i.addressee? = some (s, r) ∨ r ∈ w.members s := by
  obtain ⟨k, rfl⟩ : ∃ k, j = .stop k := by
    cases j with
    | stop k => exact ⟨k, rfl⟩
    | _ => cases hs
  obtain ⟨m, rfl⟩ := isStop_of_run i hj
  cases m.leads_of_run hj with
  | readEpoch b h x hx | resumeClear b h x hx =>
    cases hs
    obtain ⟨y, hy, rfl⟩ := lookup_mem hx
    exact Or.inr (List.mem_map_of_mem hy)
  | haltRequest b x hx | freeClear b x hx =>
    cases hs
    exact Or.inr (List.mem_filter.mp hx).1
  | _ => first | exact Or.inl hs | cases hs

theorem Call.code_unaddressed (c : Call) : ∀ j ∈ c.code w t, j.addressee? = none := by
  intro j hj
  cases j with
  | stop k => cases k <;> first | rfl | cases c.stop_of_code hj
  | _ => rfl

theorem World.Takes.mem_of_addressee (h : Takes w t e code) (hj : j ∈ code)
    (hs : j.addressee? ≠ none) : j ∈ w.codeOf t := by
  obtain ⟨new, old, rfl, ho, hnew⟩ := h.split
  refine (List.mem_append.mp hj).elim (fun hj => absurd ?_ hs) fun hj => ho.subset hj
  rcases hnew with ⟨hn, -⟩ | ⟨-, hn⟩
  · -- a handler stops nobody else
    have hk := List.all_eq_true.mp hn j hj
    cases j with
    | stop k => cases hk
    | _ => rfl
  · rcases hn j hj with ⟨c, -, hc⟩ | ⟨b, x, rfl⟩
    · exact c.code_unaddressed j hc
    · rfl

theorem Lawful.homeOf_addressee (hw : Lawful n w) (hj : j ∈ w.codeOf t)
    (hs : j.addressee? = some (s, r)) : w.homeOf r = some s := by
  revert t j s r
  refine hw.induct (P := fun w => ∀ {t j s r}, j ∈ w.codeOf t → j.addressee? = some (s, r) →
    w.homeOf r = some s) ?_ ?_
  · intro t j s r hj hs
    rw [eq_user_of_initial hj] at hs
    cases hs
  · intro w e hw _ d t j s r hj hs
    rcases w.step_cases e with ⟨q, i, rest, -, h, -, he⟩ | u
    · rw [he] at hj ⊢
      apply homeOf_proceed_of_some
      rcases mem_codeOf_proceed h hj with ⟨rfl, hk⟩ | ⟨rfl, hk⟩ | ⟨-, hk⟩ | ⟨b, x, -, -, hk, -⟩
      -- the record was looked up in a roster, or handed on by the instruction before
      · rcases addressee_of_run i hk hs with hi | hr
        · exact d (h ▸ List.mem_cons_self) hi
        · exact hw.rostered.homed hr
      · exact d (h ▸ List.mem_cons_of_mem i hk) hs
      · exact d hk hs
      · cases (threadCode_none rfl hk).symm.trans hs
    · have hh : (w.step e).homeOf r = w.homeOf r := u.ofRecord
      rw [hh]
      rcases u.code t with hc | hc
      · exact d (hc ▸ hj) hs
      · exact d (hc.mem_of_addressee hj fun hn => by rw [hn] at hs; cases hs) hs

/-! The primitive that new code of a park loop sleeps by. -/

/-- A thread that lowers its level goes to the park loop of the record of the guard that it closes, or of
that which stands for it in the service. -/
theorem GuardInstr.enters_of_run (i : GuardInstr) (hj : j ∈ (i.run t w).2)
    (hr : j.parkRecord? = some r) (hm : j.how? = some m) :
    ∃ s, m = w.mechanism s ∧ (w.selfIn t s = some r ∨
      i = .lower s ∧ ∃ level previous, w.innermost? t = some (.guard (some r) level previous)) := by
  cases i with
  -- the guard that is closed says which record is meant
  | lower s =>
    simp only [GuardInstr.run] at hj
    split at hj
    next b level previous hx =>
      rcases List.mem_cons.mp hj with rfl | hj
      · cases hr
        exact ⟨s, (Option.some.inj hm).symm, Or.inr ⟨rfl, level, previous, hx⟩⟩
      · split at hj <;> simp at hj
        subst hj
        cases hr
    next => cases hj
  | enable s =>
    simp only [GuardInstr.run] at hj
    split at hj
    next => cases hj
    next b hs =>
      rcases List.mem_cons.mp hj with rfl | hj
      · cases hr
        exact ⟨s, (Option.some.inj hm).symm, Or.inl hs⟩
      · split at hj <;> simp at hj
        subst hj
        cases hr
  | enableFast s =>
    simp only [GuardInstr.run] at hj
    split at hj
    next => cases hj
    next b hs =>
      obtain rfl := List.mem_singleton.mp hj
      cases hr
      exact ⟨s, (Option.some.inj hm).symm, Or.inl hs⟩
  | mask | unmask | setMask | setPhase => cases hj
  | _ =>
    simp only [GuardInstr.run] at hj
    repeat' split at hj
    all_goals simp at hj
    all_goals
      subst hj
      cases hr

theorem ParkInstr.parkRecord_of_run (i : ParkInstr) (hi : i ≠ .awaitSignal)
    (hj : j ∈ (i.run t w).2) (hr : j.parkRecord? = some r) : i.record? = some r := by
  by_contra hn
  have ha := List.all_eq_true.mp (i.run_avoids_of_record (w := w) (t := t) hn hi) j hj
  rw [Instr.avoids, record_of_parkRecord hr, bne_self_eq_false] at ha
  cases ha

/-! How a thread has come into a park loop. -/

/-- Thread `t` has a record with a service that stops threads by signal. -/
def Summoned (w : World) (t : ThreadId) : Prop :=
  ∃ r s, w.ownerOf r = some t ∧ w.homeOf r = some s ∧ w.mechanism s = .signal

/-- Thread `t` sleeps by `m` in the park loop of record `r` if the record's service stops threads so,
or if some other service may have sent it there by signal. -/
def Accords (w : World) (t : ThreadId) (r : RecordId) (m : Mechanism) : Prop :=
  (∃ s, w.homeOf r = some s ∧ w.mechanism s = m) ∨ m = .signal ∧ Summoned w t

/-- Why a thread is where it sleeps, or is going to. -/
structure Accordant (w : World) : Prop where
  sent : ∀ {t}, w.isPending t = true → Summoned w t
  parks : ∀ {t j r m}, j ∈ w.codeOf t → j.parkRecord? = some r → j.how? = some m → Accords w t r m

theorem accordant_initial (n : Nat) : Accordant (World.initial n) where
  sent {t} ht := by
    by_cases hl : t < n
    · simp [isPending, ofThread, initial, hl] at ht
    · rw [isPending, ofThread_of_le _ _ (by simpa [initial] using hl)] at ht
      cases ht
  parks {t j r m} hj hr _ := by
    rw [eq_user_of_initial hj] at hr
    cases hr

section Proceed

variable (hw : Lawful n w) (h : w.codeOf t = i :: rest)
include hw

theorem mechanism_proceed_of_home (hs : w.homeOf r = some s) :
    (w.proceed t i rest).mechanism s = w.mechanism s :=
  mechanism_proceed (hw.founded.homes hs)

include h

theorem Summoned.proceed (g : Summoned w t') : Summoned (w.proceed t i rest) t' := by
  obtain ⟨r, s, ho, hs, hm⟩ := g
  exact ⟨r, s, hw.reachable.custody.ownerOf_proceed h ho, homeOf_proceed_of_some hs,
    (mechanism_proceed_of_home hw hs).trans hm⟩

theorem Accords.proceed (g : Accords w t' r m) : Accords (w.proceed t i rest) t' r m := by
  rcases g with ⟨s, hs, hm⟩ | ⟨rfl, g⟩
  · exact Or.inl ⟨s, homeOf_proceed_of_some hs, (mechanism_proceed_of_home hw hs).trans hm⟩
  · exact Or.inr ⟨rfl, g.proceed hw h⟩

omit hw h in
theorem isPending_of_ready (hu : (Instr.park .awaitSignal).isReady w t = true) :
    w.isPending t = true := by
  simp only [Instr.isReady, ParkInstr.isReady] at hu
  cases hx : w.threads[t]? with
  | none =>
    rw [hx] at hu
    cases hu
  | some x =>
    rw [hx] at hu
    rw [isPending, ofThread, hx]
    exact hu

variable (d : Accordant w) (hu : i.isReady w t = true)
include d hu

theorem Accordant.sent_proceed (hp : (w.proceed t i rest).isPending t' = true) :
    Summoned (w.proceed t i rest) t' := by
  apply Summoned.proceed hw h
  rw [isPending_proceed] at hp
  rcases isPending_run (w := w.setCode t rest) i t t' with he | ⟨rfl, rfl⟩ | ⟨-, s, r, hs, ho, hm⟩
  · rw [he, isPending_setCode] at hp
    exact d.sent hp
  · -- whoever waits for a signal goes on when one is pending
    exact d.sent (isPending_of_ready hu)
  · exact ⟨r, s, ho, hw.homeOf_addressee (h ▸ List.mem_cons_self) hs, hm⟩

/-- New code of the park loop is for the record and the service that it was for, or for those for which
the thread lowers its level, or it is that of a handler. -/
theorem Accordant.parks_remainder (hj : j ∈ w.remainder t i rest) (hr : j.parkRecord? = some r)
    (hm : j.how? = some m) : Accords w t r m := by
  have hi : i ∈ w.codeOf t := h ▸ List.mem_cons_self
  have plain (hp : (w.remainder t i rest).all Instr.isPlain = true) : False := by
    rw [how_of_plain hp j hj] at hm
    cases hm
  cases i with
  | user => cases hu
  | sync k =>
    cases k with
    | wait x l deadline =>
      simp only [remainder, Instr.run, SyncInstr.run, List.mem_cons, List.not_mem_nil, or_false] at hj
      rcases hj with rfl | rfl
      · cases x <;> exact d.parks hi hr hm
      · cases hr
    | doze k =>
      obtain rfl := List.mem_singleton.mp hj
      cases hr
    | _ => cases hj
  | guard g =>
    obtain ⟨s, rfl, hs | ⟨rfl, level, previous, hx⟩⟩ := g.enters_of_run hj hr hm
    · rw [selfIn_setCode] at hs
      exact Or.inl ⟨s, (selfIn_eq_some.mp hs).2, rfl⟩
    · -- the guard has been opened on the record in the same service
      rw [innermost_eq, scopesOf_setCode, ← innermost_eq] at hx
      obtain ⟨x, ⟨hx', hg⟩, -⟩ := hw.reachable.keeping.guardOf_of_lower h
      obtain rfl := Option.some.inj (hx'.symm.trans hx)
      have hs := selfIn_of_lower hw.reachable h (g := (r, level, previous)) hg
      exact Or.inl ⟨s, (selfIn_eq_some.mp hs).2, rfl⟩
  | park k =>
    by_cases hk : k = .awaitSignal
    · subst hk
      obtain rfl : m = .signal := Option.some.inj (hm.symm.trans (handlerCode_how hj))
      exact Or.inr ⟨rfl, d.sent (isPending_of_ready hu)⟩
    · exact d.parks hi (k.parkRecord_of_run hk hj hr) (congrArg some (k.run_how hj hm))
  | stop k => exact (plain k.run_plain).elim
  | pool k => exact (plain k.run_plain).elim
  | member k =>
    have hn := List.all_eq_true.mp (k.run_unparked (w := w.setCode t rest) (t := t)) j hj
    rw [hr] at hn
    cases hn
  | read k => exact (plain k.run_plain).elim

theorem Accordant.parks_proceed (hj : j ∈ (w.proceed t i rest).codeOf t')
    (hr : j.parkRecord? = some r) (hm : j.how? = some m) : Accords (w.proceed t i rest) t' r m := by
  apply Accords.proceed hw h
  rcases mem_codeOf_proceed h hj with ⟨rfl, hk⟩ | ⟨rfl, hk⟩ | ⟨-, hk⟩ | ⟨b, x, -, -, hk, -⟩
  · exact d.parks_remainder hw h hu hk hr hm
  · exact d.parks (h ▸ List.mem_cons_of_mem i hk) hr hm
  · exact d.parks hk hr hm
  · cases (threadCode_none rfl hk).symm.trans hr

theorem Accordant.proceed : Accordant (w.proceed t i rest) where
  sent := d.sent_proceed hw h hu
  parks := d.parks_proceed hw h hu

end Proceed

theorem Summoned.undisturbed (g : Summoned w t) (u : Undisturbed w e w') : Summoned w' t := by
  obtain ⟨r, s, ho, hs, hm⟩ := g
  have ho' : w'.ownerOf r = w.ownerOf r := u.ofRecord
  have hs' : w'.homeOf r = w.homeOf r := u.ofRecord
  exact ⟨r, s, ho'.trans ho, hs'.trans hs, (mechanism_of_services_eq u.services).trans hm⟩

theorem Accords.undisturbed (g : Accords w t r m) (u : Undisturbed w e w') : Accords w' t r m := by
  have hs' : w'.homeOf r = w.homeOf r := u.ofRecord
  rcases g with ⟨s, hs, hm⟩ | ⟨rfl, g⟩
  · exact Or.inl ⟨s, hs'.trans hs, (mechanism_of_services_eq u.services).trans hm⟩
  · exact Or.inr ⟨rfl, g.undisturbed u⟩

theorem Accordant.undisturbed (d : Accordant w) (u : Undisturbed w e w') : Accordant w' where
  sent {t} hp := by
    refine Summoned.undisturbed (d.sent ?_) u
    rcases u.signals t with ⟨hs, -⟩ | ⟨hi, -⟩
    · exact hs.symm.trans hp
    · exact (canInterrupt_iff.mp hi).1
  parks {t j r m} hj hr hm := by
    refine Accords.undisturbed ?_ u
    cases u.origin hj with
    | kept h => exact d.parks h hr hm
    -- the handler runs because a signal has come, and it parks in that way
    | handler hi _ h =>
      rcases List.mem_append.mp h with h | h
      · obtain rfl : m = .signal := Option.some.inj (hm.symm.trans (handlerCode_how h))
        exact Or.inr ⟨rfl, d.sent (canInterrupt_iff.mp hi).1⟩
      · rw [List.mem_singleton.mp h] at hr
        cases hr
    -- of the calls only the safe point looks at the request, in the way of its service
    | call c _ _ h =>
      rcases c.code_plain (w := w) (t := t) with hp | ⟨s, b, -, hs, he⟩
      · rw [how_of_plain hp j h] at hm
        cases hm
      · rw [he] at h
        obtain rfl := List.mem_singleton.mp h
        cases hr
        exact Or.inl ⟨s, (selfIn_eq_some.mp hs).2, Option.some.inj hm⟩
    | mourn s b h =>
      subst h
      cases hr

theorem Lawful.accordant (hw : Lawful n w) : Accordant w := by
  refine hw.induct (accordant_initial n) ?_
  intro w e hw _ d
  rcases w.step_cases e with ⟨t, i, rest, -, h, hu, hs⟩ | u
  · rw [hs]
    exact d.proceed hw h hu
  · exact d.undisturbed u

/-! What a thread does when it has slept. -/

/-- What holds of no code, of code that is put on top where it stands on no brink, and of what code
becomes when it is run, holds of the code of all threads. -/
theorem Reachable.codeOf_of_awake {P : List Instr → Prop} (hw : Reachable n w) (hnil : P [])
    (happ : ∀ {code rest}, code.all Instr.isAwake = true → P rest → P (code ++ rest))
    (htail : ∀ {i rest}, P (i :: rest) → P rest)
    (hrun : ∀ w t i rest, P (i :: rest) → P ((Instr.run t w i).2 ++ rest)) (t : ThreadId) :
    P (w.codeOf t) := by
  have whole {code : List Instr} (hc : code.all Instr.isAwake = true) : P code := by
    rw [← List.append_nil code]
    exact happ hc hnil
  revert t
  refine hw.induct (P := fun w => ∀ t, P (w.codeOf t)) ?_ ?_
  · intro t
    rcases codeOf_initial n t with hc | hc <;> rw [hc] <;> exact whole rfl
  · intro w e _ d t
    -- a step runs an instruction or puts code on top that is awake
    rcases w.step_cases e with ⟨q, i, rest, -, h, -, hs⟩ | u
    · have hq := d q
      rw [h] at hq
      rw [hs]
      exact codeOf_proceed_cases h (hrun _ _ _ _ hq) (d t) hnil fun s r => whole rfl
    rcases u.code t with hc | hc
    · rw [hc]
      exact d t
    generalize (w.step e).codeOf t = code at hc
    cases hc with
    | interrupt hi =>
      refine happ ?_ (d t)
      rw [List.all_append, handlerCode_awake]
      rfl
    | invoke c hu => exact happ c.code_awake (d t)
    | finish p hu =>
      have ht : P (w.codeOf t).tail := by
        obtain ⟨rest, hc⟩ := head_user hu
        have hd := d t
        rw [hc] at hd ⊢
        exact htail hd
      unfold epilogue
      split
      next s r rest he =>
        rw [he] at ht
        exact happ (by split <;> rfl) ht
      next => exact ht

theorem Reachable.tucked (hw : Reachable n w) (t : ThreadId) : Tucked (w.codeOf t) :=
  hw.codeOf_of_awake trivial (fun hc h => h.append_of_awake hc) And.right
    (fun _ _ _ _ h => h.run) t

/-- After a wait for a signal the thread looks at the request again, in a loop that sleeps by signal. -/
def Heeding : List Instr → Prop
  | [] => True
  | i :: rest => (i = .park .awaitSignal →
      ∃ p code, rest = .park (.testRequest p) :: code ∧ p.sleep = .signal) ∧ Heeding rest

theorem Heeding.append (h : Heeding rest) (hc : ∀ j ∈ code, j.isBrink = false) :
    Heeding (code ++ rest) := by
  induction code with
  | nil => exact h
  | cons i code ih =>
    refine ⟨fun hi => ?_, ih fun j hj => hc j (List.mem_cons_of_mem i hj)⟩
    have hb := hc i List.mem_cons_self
    rw [hi] at hb
    cases hb

theorem Heeding.run (h : Heeding (i :: rest)) : Heeding ((i.run t w).2 ++ rest) := by
  rcases run_nods (w := w) (t := t) i with hn | hn
  · exact h.2.append hn
  · generalize (i.run t w).2 = new at hn
    cases hn with
    | await p hp => exact ⟨fun _ => ⟨p, rest, rfl, hp⟩, (fun hx => by cases hx), h.2⟩
    | look | relook | wait => exact ⟨(fun hx => by cases hx), h.2⟩

theorem Reachable.heeding (hw : Reachable n w) (t : ThreadId) : Heeding (w.codeOf t) :=
  hw.codeOf_of_awake trivial
    (fun hc h => h.append fun j hj => not_brink_of_awake (List.all_eq_true.mp hc j hj)) And.right
    (fun _ _ _ _ h => h.run) t

/-! Threads that sleep. -/

/-- Thread `t` sleeps in the park loop of record `r`: until it is woken under the park lock, or until a
signal comes, and none has been sent to it. -/
inductive Sleeps (w : World) (t : ThreadId) (r : RecordId) : Mechanism → Prop
  | lock (deadline : Option Nat) (rest : List Instr)
    (h : w.codeOf t = .sync (.resting (.park r) deadline) :: rest)
    (ha : (.park r, t) ∈ w.asleep) : Sleeps w t r .safepoint
  | signal (p : Parking) (rest : List Instr)
    (h : w.codeOf t = .park .awaitSignal :: .park (.testRequest p) :: rest) (hr : p.record = r)
    (hp : w.isPending t = false) : Sleeps w t r .signal

theorem Sleeps.accords (g : Sleeps w t r m) (hw : Lawful n w) : Accords w t r m := by
  cases g with
  | lock deadline rest h ha => exact hw.accordant.parks (h ▸ List.mem_cons_self) rfl rfl
  | signal p rest h hr hp =>
    have hh := hw.reachable.heeding t
    rw [h] at hh
    obtain ⟨p', code, he, hs⟩ := hh.1 rfl
    obtain ⟨rfl, -⟩ : p = p' ∧ rest = code := by simpa using he
    refine hw.accordant.parks (j := .park (.testRequest p)) (h ▸ by simp) (congrArg some hr) ?_
    exact congrArg some hs

theorem sleeps_of_awaitSignal (hw : Reachable n w) (h : (w.codeOf t).head? = some (.park .awaitSignal))
    (hp : w.isPending t = false) : ∃ r, Sleeps w t r .signal := by
  obtain ⟨rest, hc⟩ := List.head?_eq_some_iff.mp h
  have hh := hw.heeding t
  rw [hc] at hh
  obtain ⟨p, code, rfl, -⟩ := hh.1 rfl
  exact ⟨p.record, .signal p code hc rfl hp⟩

theorem Sleeps.committed (g : Sleeps w t r m) (hw : Reachable n w) :
    ∃ j ∈ w.codeOf t, j.parksOn ParkInstr.isCommitted r = true := by
  cases g with
  | lock deadline rest h ha =>
    have hk := hw.tucked t
    rw [h] at hk ⊢
    obtain ⟨p, hp, hm⟩ := hk.1 r rfl
    exact ⟨_, List.mem_cons_of_mem _ hm, parksOn_iff.mpr ⟨.testRequest p, rfl, rfl, congrArg some hp⟩⟩
  | signal p rest h hr hp =>
    rw [h]
    exact ⟨.park (.testRequest p), by simp, parksOn_iff.mpr ⟨_, rfl, rfl, congrArg some hr⟩⟩

theorem Sleeps.owner (g : Sleeps w t r m) (hw : Reachable n w) : w.ownerOf r = some t := by
  obtain ⟨j, hj, hc⟩ := g.committed hw
  exact hw.custody.parked hj (parkRecord_of_parksOn hc)

theorem Sleeps.level (g : Sleeps w t r m) (hw : Reachable n w) : w.levelOf r = .noBlock := by
  obtain ⟨j, hj, hc⟩ := g.committed hw
  exact hw.parkLoop.level hj hc

theorem Sleeps.ne_of_stop {k : StopInstr} (g : Sleeps w t r m) (h : w.codeOf q = .stop k :: rest) :
    q ≠ t := by
  rintro rfl
  cases g with
  | lock deadline rest h' ha => cases h.symm.trans h'
  | signal p rest h' hr hp => cases h.symm.trans h'

/-! A resume, stage by stage. -/

/-- What a resume of record `r` does one after the other under the lock of the roster. -/
def StopInstr.resumes (s : ServiceId) (r : RecordId) : StopInstr → Bool
  | .resumeFind b h => b == s && h == r + 1
  | .resumeClear b c | .resumeLevel b c | .resumeWake b c => b == s && c == r
  | _ => false

/-- How far thread `q` has come in a call that resumes record `r` of service `s`. -/
inductive Resuming (w : World) (q : ThreadId) (s : ServiceId) (r : RecordId) (base : List Instr) : Prop
  | begun (top : List Instr) (ht : top.all Instr.isSilent = true)
    (hc : w.codeOf q = top ++ .stop (.countResume s) :: .guard (.raise s .critical) ::
      .sync (.acquire (.roster s)) :: .stop (.resumeFind s (r + 1)) :: .user :: base)
  | next (top : List Instr) (k : StopInstr) (ht : top.all Instr.isSilent = true)
    (hk : k.resumes s r = true) (hc : w.codeOf q = top ++ .stop k :: .user :: base)
  | rings (top rest : List Instr) (ht : top.all Instr.isSilent = true)
    (hm : w.mechanism s = .safepoint)
    (hc : w.codeOf q = top ++ .sync (.notifyAll (.park r)) :: rest)
  | ended (top : List Instr) (ht : top.all Instr.isSilent = true)
    (hc : w.codeOf q = top ++ .user :: base)

theorem lookup_eq_self (hw : Lawful n w) {x : RecordId} (hx : (w.roster s).lookup (r + 1) = some x) :
    x = r := by
  have hg := hw.rostered.tagged s
  by_cases hr : r ∈ (w.roster s).records
  · exact Option.some.inj (hx.symm.trans (hg.lookup_isSome.mpr hr))
  · cases hx.symm.trans (hg.lookup_eq_none hr)

section Proceed

variable (hw : Lawful n w) {k : StopInstr} (hk : k.resumes s r = true)
  (h : w.codeOf q = .stop k :: .user :: base) (hz : Sleeps w t r (w.mechanism s))
include hw hk h hz

/-- As long as the owner sleeps, a resume goes on to wake it, unless it does not find the record. -/
theorem resuming_proceed : Resuming (w.proceed q (.stop k) (.user :: base)) q s r base ∨
    ¬Sleeps (w.proceed q (.stop k) (.user :: base)) t r (w.mechanism s) := by
  have hcode := codeOf_proceed h
  have hown := hz.owner hw.reachable
  have hne := hz.ne_of_stop h
  cases k with
  | resumeFind b x =>
    obtain ⟨rfl, rfl⟩ : b = s ∧ x = r + 1 := by simpa [StopInstr.resumes] using hk
    left
    have hl : ((w.setCode q (.user :: base)).roster b).lookup (r + 1) =
        (w.roster b).lookup (r + 1) := rfl
    cases hx : (w.roster b).lookup (r + 1) with
    | none =>
      refine .ended (leaveRoster b) (silent_leaveRoster b) ?_
      rw [hcode, remainder]
      simp [Instr.run, StopInstr.run, hl, hx]
    | some y =>
      obtain rfl := lookup_eq_self hw hx
      refine .next [] (.resumeClear b y) rfl (by simp [StopInstr.resumes]) ?_
      rw [hcode, remainder]
      simp [Instr.run, StopInstr.run, hl, hx]
  | resumeClear b x =>
    obtain ⟨rfl, rfl⟩ : b = s ∧ x = r := by simpa [StopInstr.resumes] using hk
    exact Or.inl (.next [] (.resumeLevel b x) rfl hk hcode)
  | resumeLevel b x =>
    obtain ⟨rfl, rfl⟩ : b = s ∧ x = r := by simpa [StopInstr.resumes] using hk
    -- who sleeps is at `noBlock`, so the resume does not pass it by
    rw [remainder_resumeLevel q b _ (hz.level hw.reachable)] at hcode
    exact Or.inl (.next [] (.resumeWake b x) rfl hk hcode)
  | resumeWake b x =>
    obtain ⟨rfl, rfl⟩ : b = s ∧ x = r := by simpa [StopInstr.resumes] using hk
    have ho : (w.setCode q (.user :: base)).ownerOf x = some t := hown
    have hout : (w.setCode q (.user :: base)).isOutOfReach b x = false := by simp [isOutOfReach, ho]
    have hmech : (w.setCode q (.user :: base)).mechanism b = w.mechanism b := rfl
    rcases woken_of_wake h hne (Or.inl rfl) hown (hw.bound.manned hown) with ⟨hm, hp⟩ | ⟨hm, -⟩
    · -- the signal is pending at once; the bell is rung by what is left to do
      right
      rw [hm]
      rintro ⟨⟩
      next _ _ _ hn => cases hn.symm.trans hp
    · left
      refine .rings [.sync (.acquire (.park x))]
        (.sync (.release (.park x)) :: (leaveRoster b ++ [.stop (.resumePhase x)]) ++ .user :: base)
        rfl ((mechanism_proceed ?_).trans hm) ?_
      · exact hw.founded.placed (h ▸ List.mem_cons_self) rfl
      · rw [hcode, remainder]
        simp [Instr.run, StopInstr.run, hout, hmech, hm, ringPark, locked]
  | _ => cases hk

end Proceed

theorem Resuming.step (a : Resuming w q s r base) (hw : Lawful n w) (hs : s < w.services.length)
    (he : e.isBy q = false) (hz : Sleeps w t r (w.mechanism s)) :
    Resuming (w.step e) q s r base ∨ ¬Sleeps (w.step e) t r (w.mechanism s) := by
  cases a with
  | begun top ht hc =>
    left
    rcases silent_step hc ht he with ⟨top', ht', hc', -⟩ | ⟨-, h, -, -, hstep⟩
    · exact .begun top' ht' hc'
    · refine .next [.guard (.raise s .critical), .sync (.acquire (.roster s))]
        (.resumeFind s (r + 1)) rfl (by simp [StopInstr.resumes]) ?_
      rw [hstep, codeOf_proceed h]
      rfl
  | next top k ht hk hc =>
    rcases silent_step hc ht he with ⟨top', ht', hc', -⟩ | ⟨-, h, -, -, hstep⟩
    · exact Or.inl (.next top' k ht' hk hc')
    · rw [hstep]
      exact resuming_proceed hw hk h hz
  | rings top rest ht hm hc =>
    rcases silent_step hc ht he with ⟨top', ht', hc', -⟩ | ⟨-, h, -, -, hstep⟩
    · exact Or.inl (.rings top' rest ht' ((mechanism_of_step e hs).trans hm) hc')
    · -- the bell wakes all that sleep under the park lock
      right
      rw [hm, hstep]
      rintro ⟨⟩
      next _ _ _ ha =>
        have hf : (.park r, t) ∈ w.asleep.filter (·.1 != .park r) := ha
        simp at hf
  | ended top ht hc =>
    obtain ⟨top', ht', hc', -⟩ := silent_step_out hc ht he
    exact Or.inl (.ended top' ht' hc')

/-- A resume that waits for the thread to go on has woken it. -/
theorem Resuming.ne_head (a : Resuming w q s r base) {x : RecordId} :
    (w.codeOf q).head? ≠ some (.stop (.resumePhase x)) := by
  intro hx
  -- the code above is silent, so the look at the phase would have to be the next part of the call
  have head {top rest : List Instr} {i : Instr} (ht : top.all Instr.isSilent = true)
      (hc : w.codeOf q = top ++ i :: rest) : i = .stop (.resumePhase x) := by
    rw [hc] at hx
    cases top with
    | nil => exact Option.some.inj hx
    | cons j top =>
      obtain rfl : j = .stop (.resumePhase x) := Option.some.inj hx
      cases ht
  cases a with
  | begun top ht hc => cases head ht hc
  | next top k ht hk hc =>
    cases head ht hc
    cases hk
  | rings top rest ht hm hc => cases head ht hc
  | ended top ht hc => cases head ht hc

theorem Resuming.run (a : Resuming w q s r base) (hw : Lawful n w) (hs : s < w.services.length)
    (ha : w.admits es = true) (hb : ∀ e ∈ es, e.isBy q = false)
    (hx : ((w.run es).codeOf q).head? = some (.stop (.resumePhase r))) (t : ThreadId) :
    ∃ fs₁ fs₂, es = fs₁ ++ fs₂ ∧ ¬Sleeps (w.run fs₁) t r (w.mechanism s) := by
  induction es generalizing w with
  | nil => exact absurd hx a.ne_head
  | cons e es ih =>
    -- either the thread is awake already or the resume goes on to wake it
    by_cases hz : Sleeps w t r (w.mechanism s)
    · simp only [admits, Bool.and_eq_true] at ha
      rcases a.step hw hs (hb e List.mem_cons_self) hz with a | hn
      · obtain ⟨fs₁, fs₂, rfl, hn⟩ := ih a (hw.step ha.1)
          (Nat.lt_of_lt_of_le hs (services_length_step w e)) ha.2
          (fun e' he' => hb e' (List.mem_cons_of_mem e he')) hx
        rw [mechanism_of_step e hs] at hn
        exact ⟨e :: fs₁, fs₂, rfl, hn⟩
      · exact ⟨[e], es, rfl, hn⟩
    · exact ⟨[], e :: es, rfl, hz⟩

/-! The theorem. -/

/-- A thread in a park loop sleeps by the primitive of the service that its record belongs to, or until
a signal comes although that service stops threads at safe points, and then it has a record with
another service, which stops threads by signal. A resume by the record's own service that has come to
wait for the thread has woken it if it slept by the service's primitive. -/
theorem resume_wakes_by_the_primitive_of_the_service (n : Nat) (es : List Event)
    (ha : (World.initial n).admits es = true) :
    (∀ t r m, (Sleeps ((World.initial n).run es) t r m ∨
        ∃ j ∈ ((World.initial n).run es).codeOf t, j.parkRecord? = some r ∧ j.how? = some m) →
      ∃ s, ((World.initial n).run es).homeOf r = some s ∧
        (((World.initial n).run es).mechanism s = m ∨
          ((World.initial n).run es).mechanism s = .safepoint ∧ m = .signal ∧
            Summoned ((World.initial n).run es) t)) ∧
    (∀ t, (((World.initial n).run es).codeOf t).head? = some (.park .awaitSignal) →
      ((World.initial n).run es).isPending t = false →
      ∃ r, Sleeps ((World.initial n).run es) t r .signal) ∧
    (∀ q s r es₁ es₂, es = es₁ ++ .invoke q (.resume s (r + 1)) :: es₂ →
      ((World.initial n).run es₁).inUser q = true → (∀ e ∈ es₂, e.isBy q = false) →
      (((World.initial n).run es).codeOf q).head? = some (.stop (.resumePhase r)) →
      ∀ t, ∃ fs₁ fs₂, es₂ = fs₁ ++ fs₂ ∧
        ¬Sleeps ((World.initial n).run (es₁ ++ .invoke q (.resume s (r + 1)) :: fs₁)) t r
          (((World.initial n).run es).mechanism s)) := by
  have hw : Lawful n ((World.initial n).run es) := ⟨es, ha, rfl⟩
  refine ⟨fun t r m hz => ?_, fun t => sleeps_of_awaitSignal hw.reachable, ?_⟩
  · have hacc : ((World.initial n).run es).ownerOf r = some t ∧
        Accords ((World.initial n).run es) t r m := by
      rcases hz with hz | ⟨j, hj, hr, hm⟩
      · exact ⟨hz.owner hw.reachable, hz.accords hw⟩
      · exact ⟨hw.reachable.custody.parked hj hr, hw.accordant.parks hj hr hm⟩
    obtain ⟨hown, ⟨s, hs, hm⟩ | ⟨rfl, hsum⟩⟩ := hacc
    · exact ⟨s, hs, Or.inl hm⟩
    · obtain ⟨s, hs⟩ := Option.isSome_iff_exists.mp (homeOf_isSome.mpr (lt_of_ownerOf hown))
      refine ⟨s, hs, ?_⟩
      cases hm : ((World.initial n).run es).mechanism s with
      | signal => exact Or.inl rfl
      | safepoint => exact Or.inr ⟨rfl, rfl, hsum⟩
  · rintro q s r es₁ es₂ rfl hu hb hx t
    rw [admits_append, admits, Bool.and_eq_true, Bool.and_eq_true] at ha
    obtain ⟨ha₁, hplaced, ha₂⟩ := ha
    have hw₁ : Lawful n ((World.initial n).run es₁) := ⟨es₁, ha₁, rfl⟩
    have hs : s < ((World.initial n).run es₁).services.length := by
      simpa [Event.isPlaced, Call.service?] using hplaced
    obtain ⟨base, hbase⟩ := head_user hu
    have a : Resuming (((World.initial n).run es₁).step (.invoke q (.resume s (r + 1)))) q s r base := by
      refine .begun [] rfl ?_
      rw [(invoke_admitted hu rfl).1, hbase]
      rfl
    have hs' := Nat.lt_of_lt_of_le hs (services_length_step _ (.invoke q (.resume s (r + 1))))
    rw [run_append, run_cons] at hx ⊢
    -- the call rings before it waits for the phase, and whoever sleeps then is woken
    obtain ⟨fs₁, fs₂, rfl, hn⟩ := a.run (hw₁.step hplaced) hs' ha₂ hb hx t
    refine ⟨fs₁, fs₂, rfl, ?_⟩
    rw [run_append, run_cons, mechanism_of_steps _ hs']
    exact hn

/-- The second thread has been asked to stop, has come to a safe point and sleeps there. -/
def asleepAtSafePoint : List Event :=
  .invoke 0 (.establish { mechanism := .safepoint }) :: turns 0 5 ++
    .invoke 1 (.attach 0 "sleeper") :: turns 1 5 ++ .invoke 0 (.suspend 0 2) :: turns 0 9 ++
    .invoke 1 (.safePoint 0) :: turns 1 14 ++ turns 0 5

theorem resume_wakes_whoever_sleeps_at_safe_point :
    Sleeps ((World.initial 2).run asleepAtSafePoint) 1 1 .safepoint ∧
      ∃ fs₁ fs₂, turns 0 13 = fs₁ ++ fs₂ ∧
        ¬Sleeps ((World.initial 2).run (asleepAtSafePoint ++ .invoke 0 (.resume 0 2) :: fs₁)) 1 1
          .safepoint := by
  have hm : ((World.initial 2).run (asleepAtSafePoint ++ .invoke 0 (.resume 0 2) :: turns 0 13)).mechanism
      0 = .safepoint := by
    decide +kernel
  refine ⟨.lock none [.sync (.acquire (.park 1)), .sync (.release (.park 1)), .park (.testRequest
    { sleep := .safepoint, record := 1, previous := .running }), .user] (by decide +kernel)
    (by decide +kernel), hm ▸ ?_⟩
  exact (resume_wakes_by_the_primitive_of_the_service 2
    (asleepAtSafePoint ++ .invoke 0 (.resume 0 2) :: turns 0 13) (by decide +kernel)).2.2 0 0 1
    asleepAtSafePoint (turns 0 13) rfl (by decide +kernel) (by decide +kernel) (by decide +kernel) 1

/-- The second thread has a record with each of two services. The one that stops threads at safe points
asks it to stop, and before it comes to a safe point the other sends it the signal; the handler parks
it. Then the first service resumes it. -/
def resumedInVain : List Event :=
  .invoke 0 (.establish { mechanism := .signal }) :: turns 0 5 ++
    .invoke 2 (.establish { mechanism := .safepoint }) :: turns 2 5 ++
    .invoke 1 (.attach 0 "first") :: turns 1 5 ++ .invoke 1 (.attach 1 "second") :: turns 1 5 ++
    .invoke 2 (.suspend 1 4) :: turns 2 9 ++ .invoke 0 (.suspend 0 3) :: turns 0 9 ++
    .interrupt 1 :: turns 1 10 ++ turns 2 5 ++ .invoke 2 (.resume 1 4) :: turns 2 13

/-- The thread sleeps on until a signal comes, in the loop of a record whose service sends none. Its
request is withdrawn, and the resume waits for it to go on. -/
theorem resumed_in_vain_sleeps_on :
    (World.initial 3).admits resumedInVain = true ∧
      Sleeps ((World.initial 3).run resumedInVain) 1 3 .signal ∧
      ((World.initial 3).run resumedInVain).homeOf 3 = some 1 ∧
      ((World.initial 3).run resumedInVain).mechanism 1 = .safepoint ∧
      ((World.initial 3).run resumedInVain).isRequested 3 = false ∧
      (((World.initial 3).run resumedInVain).codeOf 2).head? = some (.stop (.resumePhase 3)) := by
  refine ⟨by decide +kernel, ?_, by decide +kernel⟩
  exact .signal { sleep := .signal, record := 3, previous := .running }
    [.guard (.setMask false), .user] (by decide +kernel) rfl (by decide +kernel)

end Standstill
