import Standstill.Proofs.RosterWaits
import Standstill.Proofs.Noticed
import Standstill.Proofs.Headcount
import Standstill.Proofs.MemberLevels

/-!
The start gate. A thread that a service starts raises its level, enters its record and waits until
the gate is open. All the while the record keeps the level and the phase that it has come with, no
code of the thread's own is run, and the thread that has started it does not go on.
-/
namespace Standstill

open World

variable {n : Nat} {w w' : World} {t t' q : ThreadId} {s b : ServiceId} {r : RecordId} {k : Nat}
  {i j : Instr} {rest : List Instr} {e : Event} {es : List Event}

/-! On the way to the gate. -/

/-- What the thread of record `r` does before it waits at the gate. -/
def outset (s : ServiceId) (r : RecordId) : List Instr :=
  [.member (.own r), .member (.bind r), .member (.capture r), .guard (.setPhase r .started),
   .guard (.raise s .blocking), .sync (.acquire (.roster s)), .member (.gateEnter s r)]

/-- What it does at the gate and after it: its own code, and its departure. -/
def beyondGate (s : ServiceId) (r : RecordId) : List Instr :=
  [.member (.gateWait s r), .user, .member (.exitRaise s r)]

theorem threadCode_eq : threadCode s r = outset s r ++ beyondGate s r := rfl

/-- The instruction may come in between: it is a handler's, or belongs to a guard or to a wait. -/
def Instr.isWayside (i : Instr) : Bool :=
  i.isNested ||
    match i with
    | .guard (.mask _) | .sync (.acquire (.roster _)) => true
    | .sync (.wait (.roster _) (.roster _) _) | .sync (.resting (.roster _) _) => true
    | _ => false

/-- The thread of record `r` has done the first `k` things on its way to the gate. -/
structure OnWay (w : World) (t : ThreadId) (s : ServiceId) (r : RecordId) (k : Nat) : Prop where
  code : ∃ top, w.codeOf t = top ++ ((outset s r).drop k ++ beyondGate s r) ∧
    ∀ j ∈ top, j.isWayside = true
  binding : w.bindingOf t = if k < 2 then none else some r
  phase : 4 ≤ k → w.phaseOf r = .started
  level : 5 ≤ k → w.levelOf r = .blocking
  /-- As long as the level is not raised, a handler will find that there is no request. -/
  quiet : k < 5 → ∀ x, .park x ∈ w.codeOf t →
    ∃ tests, x = .check tests .handler r ∧ .request ∈ tests

section Wayside

theorem wayside_of_nested (h : i.isNested = true) : i.isWayside = true := by
  simp [Instr.isWayside, h]

theorem run_wayside (h : i.isWayside = true) : ∀ j ∈ (i.run t w).2, j.isWayside = true := by
  intro j hj
  by_cases hn : i.isNested = true
  · exact wayside_of_nested (List.all_eq_true.mp (run_nested hn) j hj)
  · simp only [Instr.isWayside, hn, Bool.false_or] at h
    split at h
    · cases hj
    · cases hj
    · simp only [Instr.run, SyncInstr.run, List.mem_cons, List.not_mem_nil, or_false] at hj
      rcases hj with rfl | rfl <;> rfl
    · cases hj
    · cases h

theorem not_user_of_wayside (h : i.isWayside = true) : i ≠ .user := by
  rintro rfl
  cases h

theorem steady_of_wayside (h : i.isWayside = true) : i.isSteady = true := by
  cases i with
  | user => cases h
  | guard g => cases g <;> first | rfl | cases h
  | member m => cases h
  | _ => rfl

theorem run_outset (h : i ∈ outset s r) : ∀ j ∈ (i.run t w).2, j.isWayside = true := by
  simp only [outset, List.mem_cons, List.not_mem_nil, or_false] at h
  rcases h with rfl | rfl | rfl | rfl | rfl | rfl | rfl <;>
    simp only [Instr.run, MemberInstr.run, GuardInstr.run, SyncInstr.run, List.not_mem_nil,
      false_implies, implies_true]
  · split
    · simp
    · split <;> simp [Instr.isWayside]
  · split <;> simp

end Wayside

/-! A step leaves what another thread looks after as it is. -/

section Apart

variable (c : Custody w) (ho : Orderly (w.codeOf t)) (h : w.codeOf t = i :: rest)
include c ho h

theorem Custody.not_tends_of_mem (hj : j ∈ w.codeOf t') (hr : j.record? = some r) (ht : t' ≠ t) :
    ¬Tends w t i r := by
  rcases c.kept hj hr with hk | hk
  · exact c.not_tends ho h hk ht
  · obtain ⟨-, hn, honly⟩ := c.pledged hk
    intro hx
    rcases c.tends ho h hx with hx | rfl
    · rw [hn] at hx
      cases hx
    · exact ht (honly t (h ▸ List.mem_cons_self)).symm

omit c ho h in
theorem phaseOf_proceed_of_not_sets (hi : ∀ p, ¬SetsPhase w t r i p) :
    (w.proceed t i rest).phaseOf r = w.phaseOf r :=
  (phaseOf_proceed w t i rest r).resolve_right (hi _)

omit c ho h in
/-- A phase is set by the thread that looks after the record, or the record is made with it. -/
theorem tends_of_setsPhase {p : Phase} (hs : SetsPhase w t r i p) :
    Tends w t i r ∨ r = w.records.length ∧ ∃ k, i = .member k := by
  cases hs with
  | set => exact .inl (.inr (.inr rfl))
  | leave _ hi =>
    rw [innermost_eq] at hi
    exact .inl (.inr (.inl ⟨_, List.mem_of_mem_head? hi, rfl⟩))
  | mark p hp => exact .inl (.inr (.inr (congrArg some hp)))
  | restore p hp => exact .inl (.inr (.inr (congrArg some hp)))
  | create k hn => exact .inr ⟨hn, k, rfl⟩

omit c ho h in
theorem phaseOf_proceed_of_not_tends (hx : ¬Tends w t i r) (hr : r < w.records.length) :
    (w.proceed t i rest).phaseOf r = w.phaseOf r := by
  refine phaseOf_proceed_of_not_sets fun p hs => ?_
  rcases tends_of_setsPhase hs with h | ⟨rfl, -⟩
  · exact hx h
  · exact Nat.lt_irrefl _ hr

end Apart

theorem phaseOf_proceed_setPhase {p : Phase} (hr : r < w.records.length) :
    (w.proceed t (.guard (.setPhase r p)) rest).phaseOf r = p := by
  have hl : (w.proceed t (.guard (.setPhase r p)) rest).phaseOf r =
      ((w.setCode t rest).setPhase r p).phaseOf r := rfl
  rw [hl]
  simp only [phaseOf_eq, World.setPhase, ofRecord_modRecord, ofRecord_const, if_true]
  exact if_pos hr

namespace OnWay

variable (g : OnWay w t s r k)
include g

theorem mem_gateWait : .member (.gateWait s r) ∈ w.codeOf t := by
  obtain ⟨top, hc, -⟩ := g.code
  simp [hc, beyondGate]

theorem mem_gateEnter (hk : k < 7) : .member (.gateEnter s r) ∈ w.codeOf t := by
  obtain ⟨top, hc, -⟩ := g.code
  rw [hc]
  have hd : .member (.gateEnter s r) ∈ (outset s r).drop k := by
    interval_cases k <;> simp [outset]
  simp [hd]

theorem inUser : w.inUser t = false := by
  refine Bool.eq_false_iff.mpr fun hu => ?_
  obtain ⟨code, hh⟩ := head_user hu
  obtain ⟨top, hc, ht⟩ := g.code
  have hbelow : ((outset s r).drop k ++ beyondGate s r).head? ≠ some .user := by
    cases hd : (outset s r).drop k with
    | nil => simp [beyondGate]
    | cons i rest =>
      have hi : i ∈ outset s r := List.mem_of_mem_drop (hd ▸ List.mem_cons_self)
      simp only [List.cons_append, List.head?_cons, ne_eq, Option.some.injEq]
      rintro rfl
      simp [outset] at hi
  rw [hh] at hc
  cases top with
  | nil => exact hbelow (by rw [List.nil_append] at hc; rw [← hc]; rfl)
  | cons i top =>
    obtain ⟨rfl, -⟩ := List.cons.inj hc
    cases ht _ List.mem_cons_self

/-- Nobody else has anything to do with the record. -/
theorem proceed_of_ne (c : Custody w) (ho : Orderly (w.codeOf q)) (h : w.codeOf q = i :: rest)
    (ht : t ≠ q) : OnWay (w.proceed q i rest) t s r k := by
  have hm := g.mem_gateWait
  have hx := c.not_tends_of_mem ho h hm (r := r) rfl ht
  have hcode : (w.proceed q i rest).codeOf t = w.codeOf t :=
    codeOf_proceed_of_ne h ht (lt_of_codeOf (List.ne_nil_of_mem hm))
  constructor
  case code => rw [hcode]; exact g.code
  case binding => rw [bindingOf_proceed_of_ne ht, g.binding]
  case phase =>
    intro hk
    rw [phaseOf_proceed_of_not_tends hx (lt_of_record c hm rfl), g.phase hk]
  case level =>
    intro hk
    rw [levelOf_proceed_of_not_tends hx, g.level hk]
  case quiet => rw [hcode]; exact g.quiet

/-- Nothing on the wayside sets the phase: to park, the thread would have had to find its level at
`noBlock` and its request standing. -/
theorem not_setsPhase (hw : Lawful n w) (hmem : i ∈ w.codeOf t) (hi : i.isWayside = true)
    (p : Phase) : ¬SetsPhase w t r i p := by
  have park (x : ParkInstr) (hx : i = .park x) (hcom : x.isCommitted = true)
      (hrec : x.record? = some r) (hck : ∀ tests, x ≠ .check tests .handler r) : False := by
    subst hx
    by_cases h5 : 5 ≤ k
    · have hl := hw.reachable.parkLoop.level hmem (parksOn_iff.mpr ⟨x, rfl, hcom, hrec⟩)
      rw [g.level h5] at hl
      cases hl
    · obtain ⟨tests, hx, -⟩ := g.quiet (Nat.lt_of_not_le h5) x hmem
      exact hck tests hx
  intro hs
  cases hs with
  | set | leave | create => cases hi
  | mark p hp => exact park _ rfl rfl (congrArg some hp) nofun
  | restore p hp => exact park _ rfl rfl (congrArg some hp) nofun

/-- Nobody asks for a record that is still to be entered, so the handler does not get further. -/
theorem quiet_remainder (hw : Lawful n w) (hmem : i ∈ w.codeOf t) (hi : i.isWayside = true)
    (hk : k < 5) {x : ParkInstr} (hx : .park x ∈ w.remainder t i rest) :
    ∃ tests, x = .check tests .handler r ∧ .request ∈ tests := by
  rcases remainder_park hx with ⟨x', rfl, hlead⟩ | ⟨b, m, c, rfl, hb, -⟩ | ⟨b, m, c, rfl, -, -⟩
  · obtain ⟨tests, rfl, htests⟩ := g.quiet hk x' hmem
    cases hlead with
    | pass y tests _ _ hp =>
      refine ⟨tests, rfl, ?_⟩
      rcases List.mem_cons.mp htests with rfl | htests
      · have hq := hw.unlisted.unasked (g.mem_gateEnter (by omega)) (r := r) rfl
        rw [passes, hq] at hp
        cases hp
      · exact htests
    | save => cases htests
  · cases b <;> first | (cases hb; done) | cases hi
  · cases hi

/-- A step on the wayside brings the thread no further. -/
theorem proceed_wayside (hw : Lawful n w) (h : w.codeOf t = i :: rest) (hi : i.isWayside = true)
    (hc : ∃ top, rest = top ++ ((outset s r).drop k ++ beyondGate s r) ∧
      ∀ j ∈ top, j.isWayside = true) : OnWay (w.proceed t i rest) t s r k := by
  have hmem : i ∈ w.codeOf t := h ▸ List.mem_cons_self
  constructor
  case code =>
    obtain ⟨top, rfl, ht⟩ := hc
    refine ⟨w.remainder t i _ ++ top, by rw [codeOf_proceed h, List.append_assoc], fun j hj => ?_⟩
    rcases List.mem_append.mp hj with hj | hj
    · exact run_wayside hi j hj
    · exact ht j hj
  case binding =>
    rw [bindingOf_proceed_of_not_binder, g.binding]
    rintro m rfl
    cases hi
  case phase =>
    intro hk
    rw [phaseOf_proceed_of_not_sets (g.not_setsPhase hw hmem hi), g.phase hk]
  case level =>
    intro hk
    rw [levelOf_proceed_of_steady (steady_of_wayside hi), g.level hk]
  case quiet =>
    intro hk x hx
    rw [codeOf_proceed h] at hx
    rcases List.mem_append.mp hx with hx | hx
    · exact g.quiet_remainder hw hmem hi hk hx
    · exact g.quiet hk x (h ▸ List.mem_cons_of_mem _ hx)

/-- The next thing is done. -/
theorem proceed_outset (hw : Lawful n w) (h : w.codeOf t = i :: rest) (hi : i ∈ outset s r)
    (hc : i :: rest = (outset s r).drop k ++ beyondGate s r) (hk : k < 7) :
    OnWay (w.proceed t i rest) t s r (k + 1) := by
  have hr : r < w.records.length := lt_of_record hw.reachable.custody g.mem_gateWait rfl
  have hnest : i.isNested = false := by
    simp only [outset, List.mem_cons, List.not_mem_nil, or_false] at hi
    rcases hi with rfl | rfl | rfl | rfl | rfl | rfl | rfl <;> rfl
  have hd := List.drop_eq_getElem_cons (l := outset s r) hk
  rw [hd, List.cons_append] at hc
  obtain ⟨hik, hrest⟩ := List.cons.inj hc
  constructor
  case code =>
    refine ⟨w.remainder t i rest, ?_, run_outset hi⟩
    rw [codeOf_proceed h, hrest]
  -- the second instruction of the outset binds the thread, and no other does
  case binding =>
    by_cases h1 : k = 1
    · subst h1
      obtain rfl : i = .member (.bind r) := hik
      exact bindingOf_proceed_bind (lt_of_head h)
    · rw [bindingOf_proceed_of_not_binder, g.binding]
      · exact if_congr (by omega) rfl rfl
      · interval_cases k <;> rintro m rfl <;> first | exact absurd rfl h1 | cases hik <;> rfl
  case phase =>
    intro h4
    by_cases h3 : k = 3
    · subst h3
      obtain rfl : i = .guard (.setPhase r .started) := hik
      exact phaseOf_proceed_setPhase hr
    · rw [phaseOf_proceed_of_not_sets fun p hs => ?_, g.phase (by omega)]
      cases hs with
      | create _ hn => exact absurd hr (hn ▸ Nat.lt_irrefl _)
      | _ => interval_cases k <;> first | exact h3 rfl | cases hik
  -- the fifth raises the level; what comes before and after it keeps the level steady
  case level =>
    intro h5
    by_cases h4 : k = 4
    · subst h4
      obtain rfl : i = .guard (.raise s .blocking) := hik
      have hhome := hw.rostered.sited g.mem_gateWait rfl
      exact levelOf_proceed_raise hr (selfIn_eq_some.mpr ⟨g.binding, hhome⟩)
    · have h5 : 5 ≤ k := by omega
      have hsteady : i.isSteady = true := by
        interval_cases k <;> exact hik ▸ rfl
      rw [levelOf_proceed_of_steady hsteady, g.level h5]
  -- nothing of the outset parks, and what is under it is not nested
  case quiet =>
    intro h5 x hx
    rw [codeOf_proceed h] at hx
    rcases List.mem_append.mp hx with hx | hx
    · rcases remainder_park hx with ⟨x', rfl, -⟩ | ⟨b, m, c, rfl, hb, -⟩ | ⟨b, m, c, rfl, -, -⟩
      · cases hnest
      · cases b <;> first | (cases hb; done) | simp [outset] at hi
      · simp [outset] at hi
    · exact absurd hx (not_mem_rest (hw.reachable.orderly t) h rfl hnest)

/-- At the gate the thread waits as long as the gate is closed. -/
theorem proceed_gateWait (hw : Lawful n w) (h : w.codeOf t = .member (.gateWait s r) :: rest)
    (hr : rest = [.user, .member (.exitRaise s r)]) (hk : 7 ≤ k) :
    OnWay (w.proceed t (.member (.gateWait s r)) rest) t s r k ∨
      .member (.gateWait s r) ∉ (w.proceed t (.member (.gateWait s r)) rest).codeOf t := by
  have hrun : w.remainder t (.member (.gateWait s r)) rest =
      ((MemberInstr.gateWait s r).run t w).2 := rfl
  cases ha : (w.census s).allSuspended
  · right
    intro hj
    rw [codeOf_proceed h, hrun, hr] at hj
    simp [MemberInstr.run, ha] at hj
  · left
    have hlt : r < w.records.length := lt_of_record hw.reachable.custody g.mem_gateWait rfl
    constructor
    case code =>
      refine ⟨[.sync (.wait (.roster s) (.roster s) none)], ?_, by simp [Instr.isWayside]⟩
      rw [codeOf_proceed h, hrun, hr, List.drop_of_length_le hk]
      simp [MemberInstr.run, ha, beyondGate]
    case binding =>
      rw [bindingOf_proceed_of_not_binder, g.binding]
      rintro m ⟨⟩
      rfl
    case phase =>
      intro h4
      rw [phaseOf_proceed_of_not_sets fun p hs => ?_, g.phase h4]
      cases hs with
      | create _ hn => exact absurd hlt (hn ▸ Nat.lt_irrefl _)
    case level =>
      intro h5
      rw [levelOf_proceed_of_steady rfl, g.level h5]
    case quiet => exact fun h5 => absurd hk (by omega)

/-- A thread on its way to the gate stays so until it goes through. -/
theorem proceed (hw : Lawful n w) (h : w.codeOf t = i :: rest) :
    (∃ k, OnWay (w.proceed t i rest) t s r k) ∨
      .member (.gateWait s r) ∉ (w.proceed t i rest).codeOf t := by
  obtain ⟨top, hc, ht⟩ := g.code
  have hc' := h.symm.trans hc
  cases top with
  | cons x top =>
    obtain ⟨rfl, hrest⟩ := List.cons.inj hc'
    obtain ⟨hi, ht⟩ := List.forall_mem_cons.mp ht
    exact .inl ⟨k, g.proceed_wayside hw h hi ⟨top, hrest, ht⟩⟩
  | nil =>
    by_cases hk : k < 7
    · have hd := List.drop_eq_getElem_cons (l := outset s r) hk
      have hi : i = (outset s r)[k] := by
        rw [List.nil_append, hd] at hc'
        exact (List.cons.inj hc').1
      exact .inl ⟨k + 1, g.proceed_outset hw h (hi ▸ List.getElem_mem hk) hc' hk⟩
    · have hk := Nat.le_of_not_lt hk
      rw [List.nil_append, List.drop_of_length_le hk] at hc'
      obtain ⟨rfl, hrest⟩ := List.cons.inj hc'
      exact (g.proceed_gateWait hw h hrest hk).imp_left fun g => ⟨k, g⟩

end OnWay

theorem OnWay.undisturbed (g : OnWay w t s r k) (u : Undisturbed w e w') :
    OnWay w' t s r k := by
  have hphase : w'.phaseOf r = w.phaseOf r := u.ofRecord
  have hlevel : w'.levelOf r = w.levelOf r := u.ofRecord
  have hcode := u.code_of_busy g.inUser
  refine ⟨?_, by rw [u.binding, g.binding], fun h => hphase.trans (g.phase h),
    fun h => hlevel.trans (g.level h), fun h5 x hx => ?_⟩
  · obtain ⟨top, hc, ht⟩ := g.code
    rcases hcode with hs | ⟨-, hs⟩
    · exact ⟨top, hs.trans hc, ht⟩
    · refine ⟨w.handlerCode t ++ [.guard (.setMask false)] ++ top, ?_, fun j hj => ?_⟩
      · rw [hs, hc, List.append_assoc _ top]
      · rcases List.mem_append.mp hj with hj | hj
        · exact wayside_of_nested (List.all_eq_true.mp handler_nested j hj)
        · exact ht j hj
  · rcases hcode with hs | ⟨-, hs⟩ <;> rw [hs] at hx
    · exact g.quiet h5 x hx
    · rcases List.mem_append.mp hx with hx | hx
      · rcases List.mem_append.mp hx with hx | hx
        · -- the handler asks for the record that stands for the thread
          rw [handlerCode_eq, g.binding] at hx
          split at hx
          · cases hx
          next b hb =>
            split at hb
            · cases hb
            · obtain rfl := Option.some.inj hb
              simp only [List.mem_singleton, Instr.park.injEq] at hx
              exact ⟨_, hx, by simp⟩
        · simp at hx
      · exact g.quiet h5 x hx

/-- A thread that is started is at the beginning of its way. -/
theorem onWay_spawnNative (h : w.codeOf t = .member (.spawnNative s r) :: rest)
    (hc : (w.proceed t (.member (.spawnNative s r)) rest).codeOf w.threads.length =
      threadCode s r) :
    OnWay (w.proceed t (.member (.spawnNative s r)) rest) w.threads.length s r 0 := by
  have hb : (w.proceed t (.member (.spawnNative s r)) rest).bindingOf w.threads.length = none := by
    rcases thread_proceed_of_le h (Nat.le_refl _) with hl | ⟨_, _, -, -, hx⟩
    · rw [bindingOf, ofThread_of_le _ _ hl]
    · rw [bindingOf, ofThread, hx]
  refine ⟨⟨[], hc.trans threadCode_eq, by simp⟩, hb, by simp, by simp, fun _ x hx => ?_⟩
  rw [hc] at hx
  simp [threadCode] at hx

/-- Every thread that has still to go through the gate is on its way there. -/
theorem Lawful.onWay (hw : Lawful n w) (hj : .member (.gateWait s r) ∈ w.codeOf t) :
    ∃ k, OnWay w t s r k := by
  revert t s r
  refine hw.induct (P := fun w => ∀ {s r t}, .member (.gateWait s r) ∈ w.codeOf t →
    ∃ k, OnWay w t s r k) ?_ ?_
  · intro s r t hj
    rcases codeOf_initial n t with hc | hc <;> rw [hc] at hj <;> simp at hj
  intro w e hw _ ih s r t hj
  rcases w.step_cases e with ⟨q, i, rest, -, hc, hr, hs⟩ | u
  · rw [hs] at hj ⊢
    have old (hj' : .member (.gateWait s r) ∈ w.codeOf t) :
        ∃ k, OnWay (w.proceed q i rest) t s r k := by
      obtain ⟨k, g⟩ := ih hj'
      by_cases ht : t = q
      · subst ht
        exact (g.proceed hw hc).resolve_right (absurd hj)
      · exact ⟨k, g.proceed_of_ne hw.reachable.custody (hw.reachable.orderly q) hc ht⟩
    rcases marked_cases (hw.reachable.sealed q) hc hr hj rfl with
      ⟨rfl, hb⟩ | ⟨hj', -⟩ | ⟨b, c, rfl, rfl, hj', hcode⟩
    · cases hb with
      | gateWait => exact old (hc ▸ List.mem_cons_self)
    · exact old hj'
    · have hbc : s = b ∧ r = c := by simpa [threadCode] using hj'
      obtain ⟨rfl, rfl⟩ := hbc
      exact ⟨0, onWay_spawnNative hc hcode⟩
  · obtain ⟨k, g⟩ := ih ((u.mem_iff (lasting_of_marked rfl)).mp hj)
    exact ⟨k, g.undisturbed u⟩

/-! The thread that has started another. -/

/-- A thread that starts another waits for it. -/
theorem spawnWait_of_spawnNative
    (hc : (w.proceed t (.member (.spawnNative s r)) rest).codeOf w.threads.length ≠ []) :
    .member (.spawnWait s r) ∈ w.remainder t (.member (.spawnNative s r)) rest := by
  have hlen := lt_of_codeOf hc
  have hw : w.threads.length = (w.setCode t rest).threads.length :=
    (threads_length_setCode rest).symm
  have hp : (w.proceed t (.member (.spawnNative s r)) rest).threads.length =
      ((MemberInstr.spawnNative s r).run t (w.setCode t rest)).1.threads.length :=
    (modThread_fields _).1
  rw [hp, hw] at hlen
  simp only [remainder, Instr.run]
  revert hlen
  simp only [MemberInstr.run]
  repeat' split
  all_goals simp [World.fail, World.say]

/-- As long as a record has not started, whoever waits for it goes on waiting. -/
theorem spawnWait_remainder (hr : r < w.records.length) (hs : w.startedOf r = false) :
    .member (.spawnWait s r) ∈ w.remainder t (.member (.spawnWait s r)) rest := by
  obtain ⟨c, hc⟩ : ∃ c, w.records[r]? = some c := ⟨_, List.getElem?_eq_getElem hr⟩
  have hc' : (w.setCode t rest).records[r]? = some c := hc
  have hn : c.started = false := by simpa [startedOf, ofRecord, hc] using hs
  simp [remainder, Instr.run, MemberInstr.run, hc', hn]

/-- A thread on its way to the gate has been started by one that still waits for it. -/
theorem Lawful.spawnWait (hw : Lawful n w) (hj : .member (.gateWait s r) ∈ w.codeOf t) :
    ∃ q, .member (.spawnWait s r) ∈ w.codeOf q := by
  revert t s r
  refine hw.induct (P := fun w => ∀ {s r t}, .member (.gateWait s r) ∈ w.codeOf t →
    ∃ q, .member (.spawnWait s r) ∈ w.codeOf q) ?_ ?_
  · intro s r t hj
    rcases codeOf_initial n t with hc | hc <;> rw [hc] at hj <;> simp at hj
  intro w e hw _ ih s r t hj
  rcases w.step_cases e with ⟨p, i, rest, -, hc, hr, hs⟩ | u
  · rw [hs] at hj ⊢
    -- who waits for the start goes on waiting until it is noted, and here it is not
    have old (hold : .member (.gateWait s r) ∈ w.codeOf t) :
        ∃ q, .member (.spawnWait s r) ∈ (w.proceed p i rest).codeOf q := by
      obtain ⟨q, hq⟩ := ih hold
      by_cases hx : q = p → .member (.spawnWait s r) ≠ i
      · exact ⟨q, mem_codeOf_proceed_of_mem hc hq hx⟩
      · obtain ⟨rfl, hi⟩ := Classical.not_imp.mp hx
        obtain rfl := Classical.not_not.mp hi
        refine ⟨q, ?_⟩
        rw [codeOf_proceed hc]
        have hn := hw.enrolled.unstarted hold (r := r) rfl
        exact List.mem_append_left _
          (spawnWait_remainder (lt_of_record hw.reachable.custody hold rfl) hn)
    rcases marked_cases (hw.reachable.sealed p) hc hr hj rfl with
      ⟨rfl, hb⟩ | ⟨hj', -⟩ | ⟨b, c, rfl, rfl, hj', hcode⟩
    · cases hb with
      | gateWait => exact old (hc ▸ List.mem_cons_self)
    · exact old hj'
    -- the thread has just been started, so its starter is about to wait for it
    · have hbc : s = b ∧ r = c := by simpa [threadCode] using hj'
      obtain ⟨rfl, rfl⟩ := hbc
      refine ⟨p, ?_⟩
      rw [codeOf_proceed hc]
      exact List.mem_append_left _ (spawnWait_of_spawnNative (by rw [hcode]; simp [threadCode]))
  · obtain ⟨q, hq⟩ := ih ((u.mem_iff (lasting_of_marked rfl)).mp hj)
    refine ⟨q, ?_⟩
    rcases u.code q with hs | hs
    · exact hs ▸ hq
    · exact hs.mem_of_mem hq (by simp)

/-- A thread that waits for another to start is not in code of its own. -/
theorem Reachable.inUser_of_spawnWait (hw : Reachable n w)
    (hj : .member (.spawnWait s r) ∈ w.codeOf t) : w.inUser t = false := by
  refine Bool.eq_false_iff.mpr fun hu => ?_
  obtain ⟨rest, hc⟩ := head_user hu
  have so := hw.sealed t
  rw [hc] at hj so
  rcases List.mem_cons.mp hj with hj | hj
  · cases hj
  · obtain ⟨b, c, hx⟩ := eq_exitRaise_of_lets (so.lets hj)
    cases hx

/-! Who goes through the gate, and is counted there. -/

/-- Some count of the threads that have started is greater in `d`. -/
def Census.grows (c d : Census) : Prop :=
  c.live < d.live ∨ c.totalStarted < d.totalStarted ∨ c.nonDaemon < d.nonDaemon

/-- The thread of record `r` is counted as one that has started. -/
def Instr.countsIn (s : ServiceId) (r : RecordId) (i : Instr) : Prop :=
  i = .member (.publish s r) ∨ i = .member (.gatePass s r)

section Census

variable {g : Roster} (hs : RosterStep w s i g)
include hs

theorem RosterStep.closes (hn : (w.census s).allSuspended = false)
    (hy : g.census.allSuspended = true) : i = .stop (.closeGate s) := by
  have same (h : g.census.allSuspended = (w.census s).allSuspended) :
      i = .stop (.closeGate s) := by
    rw [h, hn] at hy
    cases hy
  cases hs with
  | closeGate => rfl
  | openGate => cases hy
  | still | publish | gateEnter => exact same rfl
  | gatePass r daemon => exact same (by cases daemon <;> rfl)
  | detachRemove r l => exact same (by split <;> rfl)
  | exitRemove r daemon => exact same (by cases daemon <;> rfl)

theorem RosterStep.countsIn (h : (w.census s).grows g.census) : ∃ r, i.countsIn s r := by
  have never (hl : g.census.live ≤ (w.census s).live)
      (ht : g.census.totalStarted ≤ (w.census s).totalStarted)
      (hd : g.census.nonDaemon ≤ (w.census s).nonDaemon) : ∃ r, i.countsIn s r := by
    rcases h with h | h | h <;> omega
  cases hs with
  | publish r => exact ⟨r, .inl rfl⟩
  | gatePass r daemon => exact ⟨r, .inr rfl⟩
  | still | gateEnter | closeGate | openGate =>
    exact never (Nat.le_refl _) (Nat.le_refl _) (Nat.le_refl _)
  | detachRemove r l =>
    refine never ?_ ?_ ?_ <;> split <;> first | exact Nat.le_refl _ | exact Nat.sub_le ..
  | exitRemove r daemon =>
    refine never ?_ ?_ ?_ <;> cases daemon <;> first | exact Nat.le_refl _ | exact Nat.sub_le ..

end Census

/-- A thread goes through the gate while it is open. -/
theorem Lawful.gate_open (hw : Lawful n w) (hj : .member (.noteStarted r) ∈ w.codeOf t)
    (hs : w.homeOf r = some s) : (w.census s).allSuspended = false := by
  revert t r s
  refine hw.induct (P := fun w => ∀ {r t s}, .member (.noteStarted r) ∈ w.codeOf t →
    w.homeOf r = some s → (w.census s).allSuspended = false) ?_ ?_
  · intro r t s hj _
    rcases codeOf_initial n t with hc | hc <;> rw [hc] at hj <;> simp at hj
  intro w e hw _ ih r t s hj hs
  rcases w.step_cases e with ⟨q, i, rest, -, hc, hr, he⟩ | u
  · rw [he] at hj hs ⊢
    have hstep := hw.rostered.step hw hc s
    have stays (hn : (w.census s).allSuspended = false) :
        ((w.proceed q i rest).census s).allSuspended = false := by
      refine Bool.eq_false_iff.mpr fun hy => ?_
      obtain rfl := hstep.closes hn hy
      exact (shut_closeGate hw hc).passed hj hs
    rcases marked_cases (hw.reachable.sealed q) hc hr hj rfl with
      ⟨rfl, hb⟩ | ⟨hj', -⟩ | ⟨_, _, -, -, hj', -⟩
    · cases hb with
      | noteStarted b _ ha =>
        have hmem : .member (.gateWait b r) ∈ w.codeOf t := hc ▸ List.mem_cons_self
        have hb := hw.rostered.sited hmem rfl
        rw [homeOf_proceed (lt_of_record hw.reachable.custody hmem rfl), hb] at hs
        obtain rfl := Option.some.inj hs
        exact stays ha
    · rw [homeOf_proceed (lt_of_record hw.reachable.custody hj' rfl)] at hs
      exact stays (ih hj' hs)
    · simp [threadCode] at hj'
  · rw [census, roster_of_services_eq u.services]
    exact ih ((u.mem_iff (lasting_of_marked rfl)).mp hj) (u.ofRecord.symm.trans hs)

/-- Record `r` has started, or its thread has gone through the gate and is about to note so. -/
def Passed (w : World) (r : RecordId) : Prop :=
  w.startedOf r = true ∨ ∃ t, .member (.noteStarted r) ∈ w.codeOf t

theorem Passed.step (p : Passed w r) (c : Custody w) (e : Event) : Passed (w.step e) r := by
  rcases w.step_cases e with ⟨q, i, rest, -, hc, -, hs⟩ | u
  · rw [hs]
    rcases p with hr | ⟨t, hj⟩
    · exact .inl (startedOf_proceed_of_started hr)
    · by_cases hx : t = q → .member (.noteStarted r) ≠ i
      · exact .inr ⟨t, mem_codeOf_proceed_of_mem hc hj hx⟩
      · obtain ⟨rfl, hi⟩ := Classical.not_imp.mp hx
        obtain rfl := Classical.not_not.mp hi
        exact .inl (startedOf_proceed_noteStarted (lt_of_record c hj rfl))
  · rcases p with hr | ⟨t, hj⟩
    · exact .inl (u.ofRecord.trans hr)
    · exact .inr ⟨t, (u.mem_iff (lasting_of_marked rfl)).mpr hj⟩

theorem Passed.run (p : Passed w r) (hw : Reachable n w) (es : List Event) :
    Passed (w.run es) r := by
  induction es generalizing w with
  | nil => exact p
  | cons e es ih => exact ih (p.step hw.custody e) (hw.step e)

/-- Whoever is counted as one that has started has gone through the gate, or joined without one. -/
theorem passed_of_countsIn (hw : Lawful n w) (h : w.codeOf t = i :: rest)
    (hi : i.countsIn s r) : Passed (w.proceed t i rest) r := by
  rcases hi with rfl | rfl
  · exact .inl (startedOf_proceed_of_started (hw.enrolled.joined (h ▸ List.mem_cons_self)))
  · refine .inr ⟨t, mem_codeOf_proceed_of_mem h ?_ nofun⟩
    exact hw.enrolled.passes (h ▸ List.mem_cons_self)

/-! The theorem. -/

/-- The thread of record `r` waits at the gate before its own code, and the one that has started it
has not come back from that. -/
structure HeldBack (w : World) (s : ServiceId) (r : RecordId) : Prop where
  level : w.levelOf r = .blocking
  phase : w.phaseOf r = .started
  entry : ∃ t top, w.ownerOf r = some t ∧ .user ∉ top ∧
    w.codeOf t = top ++ [.member (.gateWait s r), .user, .member (.exitRaise s r)]
  start : ∃ q, .member (.spawnWait s r) ∈ w.codeOf q ∧ w.inUser q = false

/-- A record in the roster that has not started is held back, when no thread works on the roster. -/
theorem heldBack_of_free (hw : Lawful n w) (hf : w.isFree (.roster s) = true)
    (hr : r ∈ w.members s) (hn : w.startedOf r = false) : HeldBack w s r := by
  have d := hw.enrolled
  obtain ⟨t, ⟨b, hj⟩ | hj⟩ := d.awaited hr hn
  · have hb : w.homeOf r = some b := hw.rostered.sited hj rfl
    rw [hw.rostered.homed hr] at hb
    obtain rfl := Option.some.inj hb
    obtain ⟨k, g⟩ := hw.onWay hj
    have hk : 7 ≤ k := by
      by_contra hk
      exact d.outside (g.mem_gateEnter (Nat.lt_of_not_le hk)) (r := r) rfl hr
    obtain ⟨top, hc, ht⟩ := g.code
    obtain ⟨q, hq⟩ := hw.spawnWait hj
    refine ⟨g.level (by omega), g.phase (by omega), ⟨t, top, ?_, ?_, ?_⟩,
      q, hq, hw.reachable.inUser_of_spawnWait hq⟩
    · refine (hw.reachable.custody.kept hj rfl).resolve_right fun hown => ?_
      obtain ⟨-, ⟨b, hent⟩, -⟩ := hw.bound.owned hown
      exact d.outside hent (r := r) rfl hr
    · exact fun hu => not_user_of_wayside (ht _ hu) rfl
    · rw [hc, List.drop_of_length_le hk]
      rfl
  · -- a thread notes that it has started while it holds the lock
    have hl := (d.noted hj (hw.rostered.homed hr)).2
    exact absurd (List.mem_map.mpr ⟨_, hl, rfl⟩) (not_mem_held_of_free hf)

/-- No count of the threads that have started has grown for a record that has not. -/
theorem counted_of_unstarted (es₁ es₂ : List Event) (e : Event)
    (ha : (World.initial n).admits (es₁ ++ e :: es₂) = true)
    (hf : ((World.initial n).run (es₁ ++ e :: es₂)).isFree (.roster s) = true)
    (hr : r ∈ ((World.initial n).run (es₁ ++ e :: es₂)).members s)
    (hn : ((World.initial n).run (es₁ ++ e :: es₂)).startedOf r = false)
    (hg : (((World.initial n).run es₁).census s).grows
      (((World.initial n).run (es₁ ++ [e])).census s)) :
    ∃ i b, ((World.initial n).run es₁).upNext e = some i ∧ i.countsIn s b ∧ b ≠ r := by
  have hw : Lawful n ((World.initial n).run (es₁ ++ e :: es₂)) := ⟨_, ha, rfl⟩
  have hw₁ : Lawful n ((World.initial n).run es₁) := by
    rw [admits_append, Bool.and_eq_true] at ha
    exact ⟨es₁, ha.1, rfl⟩
  have hsplit : (World.initial n).run (es₁ ++ e :: es₂) =
      (((World.initial n).run es₁).step e).run es₂ := by rw [run_append, run_cons]
  rw [run_append] at hg
  change Census.grows _ ((((World.initial n).run es₁).step e).census s) at hg
  rcases World.step_cases ((World.initial n).run es₁) e with ⟨t, i, rest, rfl, hc, -, hs⟩ | u
  · rw [hs] at hg
    obtain ⟨b, hb⟩ := (hw₁.rostered.step hw₁ hc s).countsIn hg
    refine ⟨i, b, upNext_eq_some.mpr ⟨t, rest, rfl, hc⟩, hb, ?_⟩
    rintro rfl
    have p := (passed_of_countsIn hw₁ hc hb).run (hs ▸ hw₁.reachable.step _) es₂
    rw [← hs, ← hsplit] at p
    rcases p with p | ⟨q, hj⟩
    · rw [hn] at p
      cases p
    · have hl := (hw.enrolled.noted hj (hw.rostered.homed hr)).2
      exact absurd (List.mem_map.mpr ⟨_, hl, rfl⟩) (not_mem_held_of_free hf)
  · rw [census, census, roster_of_services_eq u.services] at hg
    rcases hg with hg | hg | hg <;> exact absurd hg (Nat.lt_irrefl _)

/-- A step by which a record comes to have started is taken while the gate is open. -/
theorem gate_open_of_started (hw : Lawful n w) (hr : r < w.records.length)
    (hn : w.startedOf r = false) (hy : (w.step e).startedOf r = true)
    (hs : w.homeOf r = some s) : (w.census s).allSuspended = false := by
  rcases w.step_cases e with ⟨t, i, rest, -, hc, -, he⟩ | u
  · rw [he] at hy
    by_cases hi : i = .member (.noteStarted r)
    · subst hi
      exact hw.gate_open (t := t) (hc ▸ List.mem_cons_self) hs
    · rw [startedOf_proceed hr hi, hn] at hy
      cases hy
  · rw [startedOf, u.ofRecord, ← startedOf, hn] at hy
    cases hy

/-- Whenever no thread works on the roster of a service, the threads waiting to start are its records
that have not started. Each of them is held back at the gate, and no step of the run has counted it
as live, as started or as no daemon. A record comes to have started only while the gate is open. -/
theorem start_gate_holds_threads_back (n : Nat) (es : List Event) (s : ServiceId)
    (ha : (World.initial n).admits es = true) :
    (((World.initial n).run es).isFree (.roster s) = true →
      (((World.initial n).run es).census s).waitingToStart =
        (((World.initial n).run es).members s).countP (!((World.initial n).run es).startedOf ·) ∧
      ∀ r ∈ ((World.initial n).run es).members s, ((World.initial n).run es).startedOf r = false →
        HeldBack ((World.initial n).run es) s r ∧
        ∀ es₁ e es₂, es = es₁ ++ e :: es₂ →
          (((World.initial n).run es₁).census s).grows
            (((World.initial n).run (es₁ ++ [e])).census s) →
          ∃ i b, ((World.initial n).run es₁).upNext e = some i ∧ i.countsIn s b ∧ b ≠ r) ∧
    ∀ es₁ e es₂ r, es = es₁ ++ e :: es₂ → r < ((World.initial n).run es₁).records.length →
      ((World.initial n).run es₁).homeOf r = some s →
      ((World.initial n).run es₁).startedOf r = false →
      ((World.initial n).run (es₁ ++ [e])).startedOf r = true →
      (((World.initial n).run es₁).census s).allSuspended = false := by
  have hw : Lawful n ((World.initial n).run es) := ⟨es, ha, rfl⟩
  refine ⟨fun hf => ⟨?_, fun r hr hn => ⟨heldBack_of_free hw hf hr hn, ?_⟩⟩, ?_⟩
  -- while nobody has the lock, who is at the gate and who has not started are the same
  · rw [(hw.tallied s).waiting]
    exact List.countP_congr fun r hr => by rw [isGated_of_free hw hf hr]
  · rintro es₁ e es₂ rfl hg
    exact counted_of_unstarted es₁ es₂ e ha hf hr hn hg
  · rintro es₁ e es₂ r rfl hr hs hn hy
    rw [admits_append, Bool.and_eq_true] at ha
    rw [run_append] at hy
    exact gate_open_of_started ⟨es₁, ha.1, rfl⟩ hr hn hy hs

/-- The main thread of a service stops all others, and a thread that is not attached starts one. -/
def heldAtGate : List Event :=
  .invoke 0 (.establish { mechanism := .safepoint }) :: turns 0 5 ++
    .invoke 0 (.suspendAll 0) :: turns 0 8 ++ .invoke 1 (.spawn 0 {}) :: turns 1 8 ++ turns 2 10

theorem new_thread_is_held_at_gate :
    ((World.initial 2).run heldAtGate).members 0 = [0, 1] ∧
      (((World.initial 2).run heldAtGate).census 0).waitingToStart =
        (((World.initial 2).run heldAtGate).members 0).countP
          (!((World.initial 2).run heldAtGate).startedOf ·) ∧
      HeldBack ((World.initial 2).run heldAtGate) 0 1 := by
  have hm : ((World.initial 2).run heldAtGate).members 0 = [0, 1] := by decide +kernel
  have h := (start_gate_holds_threads_back 2 heldAtGate 0 (by decide +kernel)).1
    (by decide +kernel)
  exact ⟨hm, h.1, (h.2 1 (by simp [hm]) (by decide +kernel)).1⟩

end Standstill
