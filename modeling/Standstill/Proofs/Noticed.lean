import Standstill.Proofs.Binding
import Standstill.Proofs.Lowering
import Standstill.Proofs.Settling
import Standstill.Proofs.Waking

/-!
Stop signals that come to nothing. A thread takes the signal without stopping while its level is
raised, while it is parked already, and while no record stands for it. In the first two cases it looks
for requests again before it goes on with its own code; in the third, between joining a service by
attaching and the moment at which its record comes to stand for it, it does not.
-/
namespace Standstill

open World ParkInstr

variable {n : Nat} {w w' : World} {t t' q : ThreadId} {s : ServiceId} {r b : RecordId} {i j : Instr}
  {code rest : List Instr} {e : Event} {es : List Event}

/-! Who raises requests, and whose are raised. -/

namespace Instr

/-- The record whose request is about to be raised. -/
def aims? : Instr → Option RecordId
  | .stop (.readEpoch _ r) | .stop (.request _ r _) | .stop (.haltRequest _ r) => some r
  | _ => none

/-- The record that is still to be entered into a roster. -/
def unlisted? : Instr → Option RecordId
  | .member (.publish _ r) | .member (.spawnNative _ r) | .member (.gateEnter _ r) => some r
  | _ => none

/-- The request for record `r` has been raised, and the thread has still to see whether to send the
stop signal, or to send it. -/
def tells (r : RecordId) : Instr → Bool
  | .stop (.readLevel _ b _ _) | .stop (.deliver _ b _ _) | .stop (.haltLevel _ b)
  | .stop (.haltDeliver _ b) => b == r
  | _ => false

end Instr

theorem outside_of_unlisted (h : j.unlisted? = some r) : j.outside? = some r := by
  cases j with
  | member m => cases m <;> first | exact h | cases h
  | _ => cases h

theorem marked_of_unlisted (h : j.unlisted? = some r) : j.isMarked = true := by
  cases j with
  | member m => cases m <;> first | rfl | cases h
  | _ => cases h

/-- A request is raised only by a thread that has been about to. -/
theorem aims_of_isRequested {i : StopInstr} (hn : w.isRequested r = false)
    (hq : (i.run t w).1.isRequested r = true) : (Instr.stop i).aims? = some r := by
  by_cases hi : (Instr.stop i).isQuiet = true
  · rw [isRequested_eq, ofRecord_congr (i.core_run hi) fun _ => rfl, ← isRequested_eq, hn] at hq
    cases hq
  have signal (b : RecordId) : (w.signalOwner b).records = w.records := by
    simp only [signalOwner]
    split <;> rfl
  have still (h : (i.run t w).1.records = w.records) : (Instr.stop i).aims? = some r := by
    rw [isRequested_of_records_eq h, hn] at hq
    cases hq
  cases i with
  | request s b k | haltRequest s b =>
    have hb : (w.setRequest b true).isRequested r = true := hq
    rw [isRequested_setRequest, hn] at hb
    split at hb
    next hx => rw [hx.1]; rfl
    · cases hb
  -- these take a request back
  | withdraw b | resumeClear s b | freeClear s b =>
    have hb : (w.setRequest b false).isRequested r = true := hq
    rw [isRequested_setRequest, hn] at hb
    split at hb <;> cases hb
  | deliver s b | resumeWake s b =>
    apply still
    simp only [StopInstr.run]
    repeat' split
    all_goals first | rfl | exact signal b
  | haltDeliver s b | freeWake s b =>
    apply still
    simp only [StopInstr.run]
    split
    · exact signal b
    · rfl
  | _ => exact absurd rfl hi

/-- Joining and leaving raise no request, and what is new has none. -/
theorem MemberInstr.not_isRequested_run (i : MemberInstr) (hn : w.isRequested r = false) :
    (i.run t w).1.isRequested r = false := by
  by_cases hi : (Instr.member i).isQuiet = true
  · rw [isRequested_eq, ofRecord_congr (i.core_run hi) fun _ => rfl]
    exact hn
  rw [isRequested_eq] at hn ⊢
  cases i with
  | clearRequest b =>
    have hb := isRequested_setRequest (w := w) (r := r) b false
    rw [isRequested_eq, isRequested_eq, hn, ite_self] at hb
    exact hb
  | _ =>
    simp only [MemberInstr.run]
    repeat' split
    all_goals
      simp [Instr.isQuiet, World.setLevel, setBinding, answer, fail, say, modCensus, modRoster,
        ofRecord_modRecord, ofRecord_addRecord, ThreadRecord.create, ThreadRecord.bindTo] at hi ⊢
    all_goals simp [hn]

theorem isRequested_of_proceed (hn : w.isRequested r = false)
    (hq : (w.proceed t i rest).isRequested r = true) :
    (∃ s k, i = .stop (.request s r k)) ∨ ∃ s, i = .stop (.haltRequest s r) := by
  have hq' : (i.run t (w.setCode t rest)).1.isRequested r = true := hq
  have hn' : (w.setCode t rest).isRequested r = false := hn
  have still (h : (i.run t (w.setCode t rest)).1.isRequested r = (w.setCode t rest).isRequested r) :
      (∃ s k, i = .stop (.request s r k)) ∨ ∃ s, i = .stop (.haltRequest s r) := by
    rw [h, hn'] at hq'
    cases hq'
  cases i with
  | user => exact still rfl
  | sync i =>
    obtain ⟨_, _, he⟩ := i.run_fst (w := w.setCode t rest) (t := t)
    apply still
    rw [Instr.run, he]
    rfl
  | guard i => exact still (i.ofRecord_run (fun _ _ => rfl) fun _ _ => rfl)
  | park i => exact still (i.ofRecord_run (fun _ => rfl) fun _ _ => rfl)
  | pool i => exact still (ofRecord_congr i.core_run fun _ => rfl)
  | read i => exact still (ofRecord_congr i.core_run fun _ => rfl)
  | member i =>
    have hf : (i.run t (w.setCode t rest)).1.isRequested r = false := i.not_isRequested_run hn'
    have hq'' : (i.run t (w.setCode t rest)).1.isRequested r = true := hq'
    rw [hf] at hq''
    cases hq''
  | stop i =>
    have ha := aims_of_isRequested hn' hq'
    cases i with
    | request s b k =>
      obtain rfl := Option.some.inj ha
      exact Or.inl ⟨s, k, rfl⟩
    | haltRequest s b =>
      obtain rfl := Option.some.inj ha
      exact Or.inr ⟨s, rfl⟩
    -- it aims at the record as well, but only reads
    | readEpoch s b =>
      apply still
      simp only [Instr.run, StopInstr.run]
      split <;> rfl
    | _ => cases ha

/-- New code raises the request of a record for which its instruction was about to do so, or of one
that is found in a roster. -/
theorem aims_of_remainder (hj : j ∈ w.remainder t i rest) (ha : j.aims? = some r) :
    i.aims? = some r ∨ ∃ s, r ∈ w.members s := by
  have listed {s} (h : ∃ x ∈ (w.setCode t rest).entriesOf s, x.2 = r) : ∃ s, r ∈ w.members s := by
    obtain ⟨x, hx, rfl⟩ := h
    exact ⟨s, List.mem_map_of_mem hx⟩
  cases j with
  | stop k =>
    obtain ⟨k', rfl⟩ := isStop_of_run i hj
    cases k with
    | readEpoch s b | request s b c =>
      rcases k'.target_of_run hj ha with ht | ⟨s', hx⟩
      · cases k' with
        | readEpoch | request => exact Or.inl ht
        | readLevel s b c d =>
          exfalso
          simp only [remainder, Instr.run, StopInstr.run, leaveRoster] at hj
          split at hj <;> simp at hj
        | deliver s b c d =>
          exfalso
          simp only [remainder, Instr.run, StopInstr.run, leaveRoster] at hj
          repeat' split at hj
          all_goals simp at hj
        | _ => cases ht
      · exact Or.inr (listed hx)
    | haltRequest s b =>
      obtain rfl := Option.some.inj ha
      cases begets_remainder (by exact fun he => by cases he) hj rfl with
      | haltRequest _ _ hb =>
        exact Or.inr ⟨s, (List.mem_filter.mp hb).1⟩
    | _ => cases ha
  | _ => cases ha

/-- Nobody is after a record that is still to be entered, and its request has not been raised. -/
structure Unlisted (w : World) : Prop where
  unasked : ∀ {t j r}, j ∈ w.codeOf t → j.unlisted? = some r → w.isRequested r = false
  unsought : ∀ {t j r q i}, j ∈ w.codeOf t → j.unlisted? = some r → i ∈ w.codeOf q →
    i.aims? ≠ some r

theorem unlisted_initial (n : Nat) : Unlisted (World.initial n) := by
  constructor
  case unasked =>
    intro t j r hj hr
    cases eq_user_of_initial hj
    cases hr
  case unsought =>
    intro t j r q i hj hr
    cases eq_user_of_initial hj
    cases hr

theorem lt_of_aims (hw : Lawful n w) (hi : i ∈ w.codeOf t) (ha : i.aims? = some r) :
    r < w.records.length := by
  cases i with
  | stop k =>
    cases k with
    | readEpoch s b | request s b c =>
      have hn := hw.reachable.registered.sought hi ha
      obtain ⟨o, ho⟩ := Option.ne_none_iff_exists'.mp hn
      exact lt_of_ownerOf ho
    | haltRequest s b =>
      obtain rfl := Option.some.inj ha
      exact lt_of_homeOf (hw.rostered.sited hi rfl)
    | _ => cases ha
  | _ => cases ha

section Proceed

variable (hw : Lawful n w) (d : Unlisted w) (h : w.codeOf t = i :: rest)
  (hu : i.isReady w t = true)
include hw h hu

/-- A record that is still to be entered after a step was so before, or it is new. -/
theorem unlisted_of_proceed (hj : j ∈ (w.proceed t i rest).codeOf t') (hr : j.unlisted? = some r) :
    r = w.records.length ∨ ∃ q k, k ∈ w.codeOf q ∧ k.unlisted? = some r := by
  rcases marked_cases (hw.reachable.sealed t) h hu hj (marked_of_unlisted hr) with
    ⟨rfl, hb⟩ | ⟨hj, -⟩ | ⟨s, b, rfl, -, hj, -⟩
  · left
    cases hb <;> first | exact (Option.some.inj hr).symm | cases hr
  · exact Or.inr ⟨t', j, hj, hr⟩
  · right
    refine ⟨t, .member (.spawnNative s b), h ▸ List.mem_cons_self, ?_⟩
    simp only [threadCode, List.mem_cons, List.not_mem_nil, or_false] at hj
    rcases hj with rfl | rfl | rfl | rfl | rfl | rfl | rfl | rfl | rfl | rfl <;> cases hr
    rfl

include d

theorem Unlisted.proceed : Unlisted (w.proceed t i rest) := by
  have hmem : i ∈ w.codeOf t := h ▸ List.mem_cons_self
  constructor
  case unasked =>
    intro t' j r hj hr
    rw [Bool.eq_false_iff]
    intro hq
    have hn : w.isRequested r = false := by
      rcases unlisted_of_proceed hw h hu hj hr with rfl | ⟨q, k, hk, hkr⟩
      · exact ofRecord_of_le _ _ (Nat.le_refl _)
      · exact d.unasked hk hkr
    have ha : i.aims? = some r := by
      rcases isRequested_of_proceed hn hq with ⟨s, k, rfl⟩ | ⟨s, rfl⟩ <;> rfl
    rcases unlisted_of_proceed hw h hu hj hr with rfl | ⟨q, k, hk, hkr⟩
    · exact absurd (lt_of_aims hw hmem ha) (Nat.lt_irrefl _)
    · exact d.unsought hk hkr hmem ha
  case unsought =>
    intro t' j r q k hj hr hk ha
    have sought : (∃ q k, k ∈ w.codeOf q ∧ k.aims? = some r) ∨ ∃ s, r ∈ w.members s := by
      rcases mem_codeOf_proceed h hk with ⟨-, hk⟩ | ⟨-, hk⟩ | ⟨-, hk⟩ | ⟨s, b, -, -, hk, -⟩
      · exact (aims_of_remainder hk ha).imp_left fun hi => ⟨t, i, hmem, hi⟩
      · exact Or.inl ⟨t, k, h ▸ List.mem_cons_of_mem _ hk, ha⟩
      · exact Or.inl ⟨q, k, hk, ha⟩
      · cases (threadCode_none rfl hk).symm.trans ha
    rcases unlisted_of_proceed hw h hu hj hr with rfl | ⟨q', k', hk', hkr⟩
    · -- a record that is new is known to nobody
      rcases sought with ⟨q, k, hk, ha⟩ | ⟨s, hs⟩
      · exact Nat.lt_irrefl _ (lt_of_aims hw hk ha)
      · exact Nat.lt_irrefl _ (lt_of_homeOf (hw.rostered.homed hs))
    · rcases sought with ⟨q, k, hk, ha⟩ | ⟨s, hs⟩
      · exact d.unsought hk' hkr hk ha
      · exact hw.enrolled.outside hk' (outside_of_unlisted hkr) hs

end Proceed

theorem Call.code_aimless (c : Call) : ∀ j ∈ c.code w t, j.aims? = none := by
  intro j hj
  cases j with
  | stop k => cases k <;> first | rfl | cases c.stop_of_code hj
  | _ => rfl

theorem aimless_of_nested {code : List Instr} (h : code.all Instr.isNested = true) :
    ∀ j ∈ code, j.aims? = none := by
  intro j hj
  have hn := List.all_eq_true.mp h j hj
  cases j with
  | stop k => cases hn
  | _ => rfl

/-- Code taken otherwise than by an instruction asks nobody to stop. -/
theorem World.Takes.aimless (h : Takes w t e code) (hj : j ∈ code) (ha : j.aims? ≠ none) :
    j ∈ w.codeOf t := by
  obtain ⟨new, old, rfl, hs, hnew⟩ := h.split
  refine (List.mem_append.mp hj).elim (fun hj => absurd ?_ ha) fun hj => hs.subset hj
  rcases hnew with ⟨hn, -⟩ | ⟨-, hn⟩
  · exact aimless_of_nested hn j hj
  · rcases hn j hj with ⟨c, -, hc⟩ | ⟨s, r, rfl⟩
    · exact c.code_aimless j hc
    · rfl

theorem Unlisted.undisturbed (d : Unlisted w) (u : Undisturbed w e w') : Unlisted w' := by
  have before {t j r} (hj : j ∈ w'.codeOf t) (hr : j.unlisted? = some r) : j ∈ w.codeOf t :=
    (u.mem_iff (lasting_of_marked (marked_of_unlisted hr))).mp hj
  -- nobody is asked to stop by code that comes from no instruction
  have aimed {t i r} (hi : i ∈ w'.codeOf t) (ha : i.aims? = some r) : i ∈ w.codeOf t := by
    rcases u.code t with hc | hc
    · exact hc ▸ hi
    · exact hc.aimless hi (by rw [ha]; exact Option.some_ne_none r)
  constructor
  case unasked =>
    intro t j r hj hr
    rw [isRequested_eq, u.ofRecord, ← isRequested_eq]
    exact d.unasked (before hj hr) hr
  case unsought =>
    intro t j r q i hj hr hi ha
    exact d.unsought (before hj hr) hr (aimed hi ha) ha

theorem Lawful.unlisted (hw : Lawful n w) : Unlisted w := by
  refine hw.induct (unlisted_initial n) ?_
  intro w e hw _ d
  rcases w.step_cases e with ⟨t, i, rest, _, h, hu, hs⟩ | u
  · rw [hs]
    exact d.proceed hw h hu
  · exact d.undisturbed u

/-! The way out of the park loop is the last thing that is put on a thread's code. -/

/-- A thread that leaves its park loop does so next. -/
structure Brief (w : World) : Prop where
  restores : ∀ t p, .park (.restore p) ∉ (w.codeOf t).tail

theorem brief_initial (n : Nat) : Brief (World.initial n) where
  restores t p hj := by
    rcases codeOf_initial n t with hc | hc <;> rw [hc] at hj <;> cases hj

/-- The way out of the loop is put there alone. -/
theorem remainder_restore {p : Parking} (hj : .park (.restore p) ∈ w.remainder t i rest) :
    w.remainder t i rest = [.park (.restore p)] := by
  rcases remainder_park hj with ⟨k, rfl, hl⟩ | ⟨g, m, b, -, -, hk⟩ | ⟨s, m, b, -, -, hk⟩
  · cases hl with
    | quit _ hq =>
      have hq' : (w.setCode t rest).isRequested p.record = false := hq
      simp only [remainder, Instr.run, ParkInstr.run, hq']
      rfl
    | raised _ hl =>
      have hl' : (w.setCode t rest).levelOf p.record ≠ .noBlock := hl
      simp only [remainder, Instr.run, ParkInstr.run, hl', if_false]
  · cases hk
  · cases hk

theorem Brief.proceed (d : Brief w) (h : w.codeOf t = i :: rest) : Brief (w.proceed t i rest) where
  restores t' p := by
    refine codeOf_proceed_cases (P := fun c => .park (.restore p) ∉ c.tail) h ?_ (d.restores t' p)
      (fun hj => by cases hj) fun s r => by simp [threadCode]
    intro hj
    have hrest : .park (.restore p) ∉ rest := by
      have hd := d.restores t p
      rw [h] at hd
      exact hd
    cases hc : w.remainder t i rest with
    | nil =>
      rw [hc, List.nil_append] at hj
      exact hrest (List.mem_of_mem_tail hj)
    | cons j code =>
      rw [hc, List.cons_append, List.tail_cons] at hj
      rcases List.mem_append.mp hj with hj | hj
      · have hr := remainder_restore (p := p) (hc ▸ List.mem_cons_of_mem _ hj)
        rw [hc] at hr
        rw [(List.cons.inj hr).2] at hj
        cases hj
      · exact hrest hj

theorem Brief.undisturbed (d : Brief w) (hw : Alone n w) (u : Undisturbed w e w') : Brief w' where
  restores t p hj := by
    rcases u.code t with hc | hc
    · rw [hc] at hj
      exact d.restores t p hj
    -- the loop is left with the signal blocked, or where no signal comes
    have hold : .park (.restore p) ∈ w.codeOf t := by
      obtain ⟨new, old, he, hs, hl, -⟩ := hc.loose
      rw [he] at hj
      rcases List.mem_append.mp (List.mem_of_mem_tail hj) with hj | hj
      · cases List.all_eq_true.mp hl _ hj
      · exact hs.subset hj
    have still (hu : w.inUser t = true) : False := by
      obtain ⟨rest, hr⟩ := head_user hu
      have ho := hw.reachable.orderly t
      rw [hr] at ho hold
      rcases List.mem_cons.mp hold with hx | hx
      · cases hx
      · cases ho.calm rfl _ hx
    generalize w'.codeOf t = code at hc
    cases hc with
    | interrupt hi =>
      have hn := hw.reachable.muted.not_interrupted hw.uniform hold (by
        cases hp : p.sleep with
        | signal => exact Or.inl (by simp [Instr.isMuted, hp])
        | safepoint => exact Or.inr (by simp [Instr.how?, ParkInstr.how, hp]))
      rw [hi] at hn
      cases hn
    | invoke c hu => exact still hu
    | finish panicked hu => exact still hu

theorem Alone.brief (hw : Alone n w) : Brief w := by
  refine hw.induct (brief_initial n) ?_
  intro w e hw _ _ d
  rcases w.step_cases e with ⟨t, i, rest, _, h, _, hs⟩ | u
  · rw [hs]
    exact d.proceed h
  · exact d.undisturbed hw u

/-! Having to stop, and what will come of it. -/

/-- The instruction looks at the request before its thread goes on with code of its own. -/
def ParkInstr.isDrawn : ParkInstr → Bool
  | .check .. => true
  | k => k.isPinning

/-- The owner of record `r` has to stop now, as the service sees it. -/
structure Due (w : World) (s : ServiceId) (r : RecordId) : Prop where
  listed : r ∈ w.members s
  level : w.levelOf r = .noBlock
  request : w.isRequested r = true

/-- It has been seen to that thread `t` finds the request for its record `r`: the signal has been
sent, or somebody is still to send it, or the thread is about to look. -/
inductive Noticed (w : World) (t : ThreadId) (r : RecordId) : Prop
  | sent (h : w.isPending t = true)
  | told (q : ThreadId) (j : Instr) (hj : j ∈ w.codeOf q) (h : j.tells r = true)
  | drawn (j : Instr) (hj : j ∈ w.codeOf t) (h : j.parksOn isDrawn r = true)

/-- By event `e` thread `t` takes the stop signal while its record `r`, which is in the roster of
service `s` already, has still to come to stand for it. -/
structure Swallows (w : World) (s : ServiceId) (t : ThreadId) (r : RecordId) (e : Event) :
    Prop where
  listed : r ∈ w.members s
  unbound : .member (.bind r) ∈ w.codeOf t
  sent : w.isPending t = true
  taken : (w.step e).isPending t = false

/-- In a world with one service, what is registered stands for its owner, or is about to. -/
theorem bound_of_listed (hw : Alone n w) (hl : Lawful n w) (hr : r ∈ w.members s)
    (ho : w.ownerOf r = some t) :
    w.bindingOf t = some r ∨ .member (.bind r) ∈ w.codeOf t := by
  have g : Joined w t s r := ⟨ho, Or.inl hr⟩
  refine hl.bound.latest g fun b hb => Nat.le_of_not_lt fun hlt => ?_
  -- there is no other service with which a later record could be
  obtain ⟨c, -, -, hc, hh⟩ := hl.bound.since g hb hlt
  obtain ⟨s', hs'⟩ := Option.isSome_iff_exists.mp (homeOf_isSome.mpr (lt_of_ownerOf hc))
  rw [hs', hw.homeOf_eq hs', hw.homeOf_eq (hl.rostered.homed hr)] at hh
  exact hh rfl

/-! How a thread comes to have to stop. -/

section Proceed

variable (hw : Alone n w) (hl : Lawful n w) (h : w.codeOf t = i :: rest)
  (hu : i.isReady w t = true)
include hw hl h

omit hw in
/-- Nothing that is entered into a roster has to stop at once. -/
theorem listed_of_due (d : Due (w.proceed t i rest) s r) : r ∈ w.members s := by
  rcases hl.rostered.mem_members_proceed hl h d.listed with hm | hi
  · exact hm
  have hmem : i ∈ w.codeOf t := h ▸ List.mem_cons_self
  rcases eq_of_inserts hi with rfl | rfl
  all_goals
    have hn := hl.unlisted.unasked hmem rfl
    rcases isRequested_of_proceed hn d.request with ⟨_, _, hx⟩ | ⟨_, hx⟩ <;> cases hx

/-- A thread has to stop from the moment at which it is asked to, or lowers its level. -/
theorem due_proceed (d : Due (w.proceed t i rest) s r) (ho : w.ownerOf r = some q) :
    Due w s r ∨ Noticed (w.proceed t i rest) q r := by
  have hmem : i ∈ w.codeOf t := h ▸ List.mem_cons_self
  have hr := listed_of_due hl h d
  by_cases hq : w.isRequested r = true
  · by_cases hlv : w.levelOf r = .noBlock
    · exact Or.inl ⟨hr, hlv, hq⟩
    right
    rcases lowers_of_proceed (hw.reachable.parkLoop.sober hmem) hlv d.level with hlow | ⟨l, rfl⟩
    · -- whoever lowers its level is about to look, and the record is its own
      obtain ⟨-, top, k, mid, hc, -, ⟨hk, -⟩, hkr, -⟩ := hlow.pinned h
      have hj : .park k ∈ (w.proceed t i rest).codeOf t := by
        rw [hc]
        exact List.mem_append_right _ List.mem_cons_self
      have c := hw.reachable.custody
      have hown := (c.proceed (hw.reachable.orderly t) h).parked hj hkr
      rw [c.ownerOf_proceed h ho] at hown
      obtain rfl := Option.some.inj hown
      refine .drawn _ hj (parksOn_iff.mpr ⟨k, rfl, ?_, hkr⟩)
      cases k <;> first | rfl | exact hk
    · exact absurd hr (hl.enrolled.outside hmem rfl)
  · right
    have hq : w.isRequested r = false := by rw [← Bool.not_eq_true]; exact hq
    rcases isRequested_of_proceed hq d.request with ⟨s', k, rfl⟩ | ⟨s', rfl⟩
    · refine .told t (.stop (.readLevel s' r k ((w.setCode t rest).isRequested r))) ?_ (beq_self_eq_true r)
      rw [codeOf_proceed h]
      exact List.mem_append_left _ List.mem_cons_self
    · refine .told t (.stop (.haltLevel s' r)) ?_ (beq_self_eq_true r)
      rw [codeOf_proceed h]
      exact List.mem_append_left _ List.mem_cons_self

omit hl in
/-- Whoever is about to look at the request finds it, and is then about to park. -/
theorem drawn_proceed (d : Due w s r) (ho : w.ownerOf r = some q) (hj : j ∈ w.codeOf q)
    (hd : j.parksOn isDrawn r = true) :
    ∃ j ∈ (w.proceed t i rest).codeOf q, j.parksOn isDrawn r = true := by
  by_cases hx : q = t → j ≠ i
  · exact ⟨j, mem_codeOf_proceed_of_mem h hj hx, hd⟩
  obtain ⟨rfl, hji⟩ := Classical.not_imp.mp hx
  obtain rfl := Classical.not_not.mp hji
  obtain ⟨k, rfl, hk, hkr⟩ := parksOn_iff.mp hd
  have new {k' : ParkInstr} (hk' : Instr.park k' ∈ w.remainder q (.park k) rest)
      (hd : k'.isDrawn = true) (hr : k'.record? = some r) :
      ∃ j ∈ (w.proceed q (.park k) rest).codeOf q, j.parksOn isDrawn r = true := by
    refine ⟨_, ?_, parksOn_iff.mpr ⟨k', rfl, hd, hr⟩⟩
    rw [codeOf_proceed h]
    exact List.mem_append_left _ hk'
  by_cases hp : k.isPinning = true
  · obtain ⟨top, k', mid, hc, -, ⟨hk', -⟩, hr', -⟩ :=
      run_pinning (w := w.setCode q rest) (t := q) hp hkr d.request d.level
        ((threads_length_setCode rest).symm ▸ lt_of_head h)
    have hmem : .park k' ∈ (k.run q (w.setCode q rest)).2 := by
      rw [hc]
      exact List.mem_append_right _ List.mem_cons_self
    exact new hmem (by cases k' <;> first | rfl | exact hk') hr'
  cases k with
  | check tests entry b =>
    obtain rfl := Option.some.inj hkr
    cases tests with
    | nil => exact absurd rfl hp
    | cons x tests =>
      by_cases hpass : w.passes b x = true
      · refine @new (.check tests entry b) ?_ rfl rfl
        have hpass' : (w.setCode q rest).passes b x = true := by
          cases x <;> exact hpass
        simp only [remainder, Instr.run, ParkInstr.run, hpass', if_true]
        exact List.mem_singleton.mpr rfl
      · cases x with
        | request => exact absurd d.request hpass
        | level => exact absurd (decide_eq_true d.level) hpass
        | phase =>
          -- a thread that is parked already finds the request once more below
          have hs : w.phaseOf b = .suspended := by
            by_contra hne
            exact hpass (decide_eq_true hne)
          obtain ⟨t', ho', hpl⟩ := parked_or_leaves hw.reachable hs
          rw [ho] at ho'
          obtain rfl := Option.some.inj ho'
          rcases hpl with ⟨below, -, top, k', mid, hc, -, ⟨hk', hloop⟩, hr', -⟩ | ⟨p, -, hp⟩
          · have hmem : .park k' ∈ w.codeOf q := by
              rw [hc]
              exact List.mem_append_right _ List.mem_cons_self
            have hne : Instr.park k' ≠ .park (.check (.phase :: tests) entry b) := by
              rintro ⟨⟩
              cases hloop rfl
            exact ⟨_, mem_codeOf_proceed_of_mem h hmem fun _ => hne,
              parksOn_iff.mpr ⟨k', rfl, by cases k' <;> first | rfl | exact hk', hr'⟩⟩
          · have hb := hw.brief.restores q p
            rw [h] at hb hp
            exact absurd ((List.mem_cons.mp hp).resolve_left (by rintro ⟨⟩)) hb
  | _ => exact absurd hk hp

/-- Whoever is to tell the owner does so, as the level is `noBlock`. -/
theorem told_proceed (d : Due w s r) (ho : w.ownerOf r = some t') (hm : w.mechanism s = .signal)
    (hj : j ∈ w.codeOf q) (hd : j.tells r = true) : Noticed (w.proceed t i rest) t' r := by
  -- another instruction leaves the one that tells where it is
  by_cases hx : q = t → j ≠ i
  · exact .told q j (mem_codeOf_proceed_of_mem h hj hx) hd
  obtain ⟨rfl, hji⟩ := Classical.not_imp.mp hx
  obtain rfl := Classical.not_not.mp hji
  have next {k} (hk : k ∈ w.remainder q j rest) (ht : k.tells r = true) :
      Noticed (w.proceed q j rest) t' r :=
    .told q k (by rw [codeOf_proceed h]; exact List.mem_append_left _ hk) ht
  have hlv : (w.setCode q rest).levelOf r = .noBlock := d.level
  have ho' : (w.setCode q rest).ownerOf r = some t' := ho
  have hlt : t' < (w.setCode q rest).threads.length := by
    rw [threads_length_setCode]
    exact hl.bound.manned ho
  have hz := hw.homeOf_eq (hl.rostered.homed d.listed)
  have way {b} (hb : j.service? = some b) : (w.setCode q rest).mechanism b = .signal := by
    rw [hw.uniform.service_eq_zero h hb, ← hz]
    exact hm
  cases j with
  | stop k =>
    cases k with
    | readLevel b c x y =>
      obtain rfl := eq_of_beq hd
      refine next (k := .stop (.deliver b c x y)) ?_ (beq_self_eq_true c)
      simp [remainder, Instr.run, StopInstr.run, hlv]
    | haltLevel b c =>
      obtain rfl := eq_of_beq hd
      refine next (k := .stop (.haltDeliver b c)) ?_ (beq_self_eq_true c)
      simp [remainder, Instr.run, StopInstr.run, hlv]
    -- the signal goes to the owner, as the service stops by signals
    | deliver b c x y =>
      obtain rfl := eq_of_beq hd
      have hout : (w.setCode q rest).isOutOfReach b c = false := by simp [isOutOfReach, ho']
      refine .sent ?_
      rw [isPending_proceed]
      simp only [Instr.run, StopInstr.run, hout, way rfl, Bool.false_eq_true, if_false]
      exact isPending_signalOwner_self ho' hlt
    | haltDeliver b c =>
      obtain rfl := eq_of_beq hd
      refine .sent ?_
      rw [isPending_proceed]
      simp only [Instr.run, StopInstr.run, way rfl]
      exact isPending_signalOwner_self ho' hlt
    | _ => cases hd
  | _ => cases hd

end Proceed

/-! From one moment to the next. -/

theorem ne_user_of_tells (h : j.tells r = true) : j ≠ .user := by
  rintro rfl
  cases h

theorem ne_user_of_parksOn {test : ParkInstr → Bool} (h : j.parksOn test r = true) :
    j ≠ .user := by
  rintro rfl
  cases h

section Step

variable (hw : Alone n w) (hl : Lawful n w)
include hw hl

/-- A thread that takes the signal looks at the request, unless no record stands for it yet. -/
theorem noticed_of_taken (hr : r ∈ w.members s) (ho : w.ownerOf r = some t)
    (hp : w.isPending t = true) (hc : ∀ j ∈ w.handlerCode t, j ∈ (w.step e).codeOf t) :
    Noticed (w.step e) t r ∨ Swallows w s t r e := by
  by_cases ht : (w.step e).isPending t = true
  · exact Or.inl (.sent ht)
  rcases bound_of_listed hw hl hr ho with hb | hb
  · refine Or.inl (.drawn (.park (.check [.request, .level, .phase] .handler r)) (hc _ ?_)
      (parksOn_iff.mpr ⟨_, rfl, rfl, rfl⟩))
    rw [handlerCode_eq, hb]
    exact List.mem_singleton.mpr rfl
  · exact Or.inr ⟨hr, hb, hp, by rw [← Bool.not_eq_true]; exact ht⟩

theorem noticed_step (e : Event) (d : Due w s r) (ho : w.ownerOf r = some t)
    (hm : w.mechanism s = .signal) (hn : Noticed w t r) :
    Noticed (w.step e) t r ∨ Swallows w s t r e := by
  rcases w.step_cases e with ⟨q, i, rest, _, h, _, hs⟩ | u
  · cases hn with
    | sent hp =>
      rcases isPending_run i q t (w := w.setCode q rest) with hsame | ⟨rfl, rfl⟩ | ⟨hyes, -⟩
      · left
        refine .sent ?_
        rw [hs, isPending_proceed, hsame, isPending_setCode]
        exact hp
      · refine noticed_of_taken hw hl d.listed ho hp fun j hj => ?_
        rw [hs, codeOf_proceed h]
        refine List.mem_append_left _ ?_
        have hb : (w.setCode t rest).bindingOf t = w.bindingOf t :=
          ofThread_setCode fun _ _ => rfl
        rw [remainder, Instr.run, ParkInstr.run, handlerCode_eq, hb, ← handlerCode_eq]
        exact hj
      · left
        refine .sent ?_
        rw [hs, isPending_proceed]
        exact hyes
    | told p j hj hd => exact Or.inl (hs ▸ told_proceed hw hl h d ho hm hj hd)
    | drawn j hj hd =>
      obtain ⟨k, hk, hkd⟩ := drawn_proceed hw h d ho hj hd
      exact Or.inl (.drawn k (hs ▸ hk) hkd)
  · have stays {p j} (hj : j ∈ w.codeOf p) (hne : j ≠ .user) : j ∈ (w.step e).codeOf p := by
      rcases u.code p with hc | hc
      · exact hc ▸ hj
      · exact hc.mem_of_mem hj hne
    cases hn with
    | sent hp =>
      rcases u.signals t with ⟨hsame, -, -⟩ | ⟨hi, -, hc⟩
      · exact Or.inl (.sent (hsame.trans hp))
      · refine noticed_of_taken hw hl d.listed ho hp fun j hj => ?_
        generalize (w.step e).codeOf t = code at hc
        cases hc with
        | interrupt _ => exact List.mem_append_left _ (List.mem_append_left _ hj)
        | invoke c hu | finish panicked hu =>
          -- a thread that takes the signal does not go on with code of its own
          exact absurd ⟨(canInterrupt_iff.mp hi).1, (canInterrupt_iff.mp hi).2.1⟩
            (inUser_iff.mp hu).2
    | told p j hj hd => exact Or.inl (.told p j (stays hj (ne_user_of_tells hd)) hd)
    | drawn j hj hd => exact Or.inl (.drawn j (stays hj (ne_user_of_parksOn hd)) hd)

theorem due_step (e : Event) (d : Due (w.step e) s r) (ho : (w.step e).ownerOf r = some t) :
    Due w s r ∧ w.ownerOf r = some t ∨ Noticed (w.step e) t r := by
  rcases w.step_cases e with ⟨q, i, rest, _, h, _, hs⟩ | u
  · rw [hs] at d ho ⊢
    have hown : w.ownerOf r = some t := by
      obtain ⟨x, hx, rfl⟩ := List.mem_map.mp (listed_of_due hl h d)
      obtain ⟨o, hxo⟩ := Option.ne_none_iff_exists'.mp (hw.reachable.registered.rostered hx)
      rw [hw.reachable.custody.ownerOf_proceed h hxo] at ho
      rw [hxo, ho]
    exact (due_proceed hw hl h d hown).imp_left fun hd => ⟨hd, hown⟩
  · left
    refine ⟨⟨?_, ?_, ?_⟩, ?_⟩
    · rw [← members_of_services_eq u.services]
      exact d.listed
    · rw [levelOf_eq, ← u.ofRecord, ← levelOf_eq]
      exact d.level
    · rw [isRequested_eq, ← u.ofRecord, ← isRequested_eq]
      exact d.request
    · rw [ownerOf_eq, ← u.ofRecord, ← ownerOf_eq]
      exact ho

end Step

theorem mechanism_of_step (e : Event) (hs : s < w.services.length) :
    (w.step e).mechanism s = w.mechanism s := by
  rcases w.step_cases e with ⟨q, i, rest, _, h, _, hs'⟩ | u
  · rw [hs']
    exact mechanism_proceed hs
  · exact mechanism_of_services_eq u.services

theorem mechanism_of_steps (es : List Event) (hs : s < w.services.length) :
    (w.run es).mechanism s = w.mechanism s := by
  induction es generalizing w with
  | nil => rfl
  | cons e es ih =>
    exact (ih (Nat.lt_of_lt_of_le hs (services_length_step w e))).trans (mechanism_of_step e hs)

/-! The theorem. -/

/-- In the run `es` thread `t` has taken the stop signal before its record `r` came to stand for it,
and has had to stop at every moment since. -/
def Missed (w : World) (s : ServiceId) (t : ThreadId) (r : RecordId) (es : List Event) : Prop :=
  ∃ es₁ e es₂, es = es₁ ++ e :: es₂ ∧ Swallows (w.run es₁) s t r e ∧
    ∀ fs, fs <+: e :: es₂ → Due ((w.run es₁).run fs) s r

theorem Missed.append (h : Missed w s t r es) (d : Due (w.run (es ++ [e])) s r) :
    Missed w s t r (es ++ [e]) := by
  obtain ⟨es₁, x, es₂, rfl, hx, hd⟩ := h
  refine ⟨es₁, x, es₂ ++ [e], by simp, hx, fun fs hfs => ?_⟩
  rw [← List.cons_append] at hfs
  rcases List.prefix_concat_iff.mp hfs with rfl | hfs
  · rw [← run_append]
    simpa using d
  · exact hd fs hfs

/-- Whenever a thread has to stop, it has been seen to that it finds out, or it has missed the
signal. -/
theorem noticed_or_missed (es : List Event) (ha : (World.initial n).admits es = true)
    (h1 : ((World.initial n).run es).services.length ≤ 1)
    (hm : ((World.initial n).run es).mechanism s = .signal)
    (d : Due ((World.initial n).run es) s r)
    (ho : ((World.initial n).run es).ownerOf r = some t) :
    Noticed ((World.initial n).run es) t r ∨ Missed (World.initial n) s t r es := by
  induction es using List.reverseRecOn with
  | nil => cases d.request
  | append_singleton es e ih =>
    rw [admits_append, Bool.and_eq_true] at ha
    rw [run_append] at h1 hm ho d
    have hstep : (((World.initial n).run es).run [e]) = ((World.initial n).run es).step e := rfl
    rw [hstep] at h1 hm ho d
    have h0 := (services_length_step ((World.initial n).run es) e).trans h1
    have hw : Alone n ((World.initial n).run es) := ⟨es, ha.1, rfl, h0⟩
    have hl : Lawful n ((World.initial n).run es) := ⟨es, ha.1, rfl⟩
    rw [run_append, hstep]
    rcases due_step hw hl e d ho with ⟨d', ho'⟩ | hn
    · rw [mechanism_of_step e (hw.uniform.homes (hl.rostered.homed d'.listed))] at hm
      rcases ih ha.1 h0 hm d' ho' with hn | hx
      -- what was noticed stays so unless the event itself is the one that misses the signal
      · refine (noticed_step hw hl e d' ho' hm hn).imp_right fun hx => ?_
        refine ⟨es, e, [], rfl, hx, fun fs hfs => ?_⟩
        rcases List.prefix_concat_iff.mp (show fs <+: [] ++ [e] from hfs) with rfl | hfs
        · exact d
        · rw [List.prefix_nil.mp hfs]
          exact d'
      · exact Or.inr (hx.append (by rw [run_append]; exact d))
    · exact Or.inl hn

/-- A thread in code of its own that has to stop, and has no signal pending, is going to be sent one,
or it has missed it: it took the signal while it was attaching, between the moment at which its record
was entered into the roster and the moment at which the record came to stand for it. -/
theorem stop_signal_is_missed_only_while_joining (es : List Event)
    (ha : (World.initial n).admits es = true)
    (h1 : ((World.initial n).run es).services.length ≤ 1)
    (hm : ((World.initial n).run es).mechanism s = .signal)
    (d : Due ((World.initial n).run es) s r)
    (ho : ((World.initial n).run es).ownerOf r = some t)
    (hu : ((World.initial n).run es).inUser t = true)
    (hp : ((World.initial n).run es).isPending t = false) :
    (∃ q, ∃ j ∈ ((World.initial n).run es).codeOf q, j.tells r = true) ∨
      Missed (World.initial n) s t r es := by
  have hw : Reachable n ((World.initial n).run es) := ⟨es, rfl⟩
  refine (noticed_or_missed es ha h1 hm d ho).imp_left fun hn => ?_
  cases hn with
  | sent h =>
    rw [hp] at h
    cases h
  | told q j hj h => exact ⟨q, j, hj, h⟩
  | drawn j hj h =>
    -- nothing of the park loop lies in or under code of the thread's own
    obtain ⟨rest, hc⟩ := head_user hu
    have hor := hw.orderly t
    rw [hc] at hor hj
    rcases List.mem_cons.mp hj with rfl | hj
    · cases h
    · have hurgent := urgent_of_parksOn h
      rw [hor.calm rfl j hj] at hurgent
      cases hurgent

/-- The first thread has asked the second to stop, and has still to send it the signal. -/
def askedToStop : List Event :=
  .invoke 0 (.establish { mechanism := .signal }) :: turns 0 5 ++
    .invoke 1 (.attach 0 "late") :: turns 1 5 ++ .invoke 0 (.suspend 0 2) :: turns 0 6

theorem asked_to_stop_is_told :
    (∃ q, ∃ j ∈ ((World.initial 2).run askedToStop).codeOf q, j.tells 1 = true) ∨
      Missed (World.initial 2) 0 1 1 askedToStop :=
  stop_signal_is_missed_only_while_joining askedToStop (by decide +kernel) (by decide +kernel)
    (by decide +kernel) ⟨by decide +kernel, by decide +kernel, by decide +kernel⟩
    (by decide +kernel) (by decide +kernel) (by decide +kernel)

/-- The second thread is entered into the roster and has still to be told which record is its own;
the first asks it to stop, and the signal is taken before the second goes on. -/
def askedWhileJoining : List Event :=
  .invoke 0 (.establish { mechanism := .signal }) :: turns 0 5 ++
    .invoke 1 (.attach 0 "late") :: turns 1 4 ++ .invoke 0 (.suspend 0 2) :: turns 0 8 ++
    .interrupt 1 :: turns 1 2

/-- The second thread goes on in code of its own, though it has to stop, and nobody is left who
would tell it. -/
theorem asked_while_joining_goes_on :
    (World.initial 2).admits askedWhileJoining = true ∧
      ((World.initial 2).run askedWhileJoining).services.length = 1 ∧
      ((World.initial 2).run askedWhileJoining).mechanism 0 = .signal ∧
      ((World.initial 2).run askedWhileJoining).members 0 = [0, 1] ∧
      ((World.initial 2).run askedWhileJoining).ownerOf 1 = some 1 ∧
      ((World.initial 2).run askedWhileJoining).inUser 1 = true ∧
      ((World.initial 2).run askedWhileJoining).levelOf 1 = .noBlock ∧
      ((World.initial 2).run askedWhileJoining).isRequested 1 = true ∧
      ((World.initial 2).run askedWhileJoining).isPending 1 = false ∧
      ∀ x ∈ ((World.initial 2).run askedWhileJoining).threads, ∀ j ∈ x.code,
        j.tells 1 = false := by
  decide +kernel

end Standstill
