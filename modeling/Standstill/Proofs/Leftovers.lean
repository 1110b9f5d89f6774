import Standstill.Proofs.Binding
import Standstill.Proofs.Serving

/-!
What a started thread leaves behind. At its end it takes out the record that it has been started for,
and no other; one that it has made for itself by attaching is taken out if it detaches again. Main
statement: once the thread has ended, just those of the latter stand in a roster that it has not taken
out, they stand there for good, and nobody tells the thread to stop for the sake of any other record.
-/
namespace Standstill

open World

variable {n : Nat} {w w' v : World} {t t' q : ThreadId} {s b : ServiceId} {r x : RecordId}
  {i j : Instr} {code rest : List Instr} {e : Event} {es fs : List Event}

/-! Whose owner is told to stop stands in the roster. -/

namespace Instr

/-- A thread that has raised the request of record `r` in service `s` is about to tell its owner. -/
def hails? : Instr → Option (ServiceId × RecordId)
  | .stop (.readLevel s r _ _) | .stop (.deliver s r _ _) | .stop (.haltLevel s r)
  | .stop (.haltDeliver s r) => some (s, r)
  | _ => none

end Instr

/-- Somebody is told by the thread that has raised the request, and all else waits until then. -/
theorem hails_of_run (i : Instr) (hj : j ∈ (i.run t w).2) (hs : j.hails? = some (s, r)) :
    (i.run t w).2 = [j] ∧ (∃ k, i = .stop k) ∧
      (i.hunts? = some (s, r) ∨ i = .stop (.haltRequest s r) ∨ i.hails? = some (s, r)) := by
  obtain ⟨k, rfl⟩ : ∃ k, j = .stop k := by
    cases j with
    | stop k => exact ⟨k, rfl⟩
    | _ => cases hs
  obtain ⟨m, rfl⟩ := isStop_of_run i hj
  cases m.leads_of_run hj with
  | readLevel b c epoch =>
    cases hs
    exact ⟨rfl, ⟨_, rfl⟩, Or.inl rfl⟩
  | haltLevel b c =>
    cases hs
    exact ⟨rfl, ⟨_, rfl⟩, Or.inr (Or.inl rfl)⟩
  | deliver b c epoch already hl =>
    cases hs
    exact ⟨if_pos hl, ⟨_, rfl⟩, Or.inr (Or.inr rfl)⟩
  | haltDeliver b c hl =>
    cases hs
    exact ⟨if_pos hl, ⟨_, rfl⟩, Or.inr (Or.inr rfl)⟩
  | _ => cases hs

theorem Call.code_hailless (c : Call) : ∀ j ∈ c.code w t, j.hails? = none := by
  intro j hj
  cases j with
  | stop k => cases k <;> first | rfl | cases c.stop_of_code hj
  | _ => rfl

theorem hailless_of_nested (h : i.isNested = true) : i.hails? = none := by
  cases i with
  | stop k => cases h
  | _ => rfl

theorem tops_hails : Tops (·.hails?.isSome) Instr.isNested where
  run w t i := by
    by_cases h : ∃ j ∈ (i.run t w).2, j.hails? ≠ none
    · obtain ⟨j, hj, hn⟩ := h
      obtain ⟨x, hx⟩ := Option.ne_none_iff_exists'.mp hn
      rw [(hails_of_run i hj hx).1]
      exact List.pairwise_singleton _ _
    · exact topped_of_none fun j hj hn => h ⟨j, hj, fun hx => by simp [hx] at hn⟩
  above _ _ _ h := run_nested h
  nested i h := ⟨h, by rw [hailless_of_nested h]; rfl⟩
  user := ⟨rfl, rfl⟩
  mourn _ _ := rfl
  call w t c j hj := by rw [c.code_hailless j hj]; rfl
  thread s r j hj := by
    rw [threadCode_none (f := Instr.hails?) rfl hj]
    rfl

/-- Who is about to tell somebody has the lock of the roster. -/
theorem held_of_hails (hw : Reachable n w) (hj : j ∈ w.codeOf t)
    (hs : j.hails? = some (s, r)) : (.roster s, t) ∈ w.held := by
  obtain ⟨top, below, hc⟩ := List.append_of_mem hj
  obtain ⟨hs', hk⟩ := hw.keeping.keeps t
  have hfit := hk.code
  have hf := tops_hails.reachable hw t
  rw [hc] at hfit hf
  have above := hf.above (by rw [hs]; rfl)
  have hl : Hold.lock (.roster s) ∈ hs' := by
    refine mem_of_fits hfit (fun a ha ho => closes_of_nested (List.all_eq_true.mp above a ha) ho) ?_
    cases j with
    | stop k => cases k <;> first | (cases hs; exact List.mem_cons_self) | cases hs
    | _ => cases hs
  rw [← mem_locksOf, hk.locks]
  exact List.mem_filterMap.mpr ⟨_, hl, rfl⟩

/-- A record whose owner is told to stop stands in the roster all the while. -/
structure Hailed (w : World) : Prop where
  listed : ∀ {t j s r}, j ∈ w.codeOf t → j.hails? = some (s, r) → r ∈ w.members s

theorem Hailed.proceed (d : Hailed w) (hw : Lawful n w) (h : w.codeOf t = i :: rest) :
    Hailed (w.proceed t i rest) where
  listed {t' j s r} hj hs := by
    have hi : i ∈ w.codeOf t := h ▸ List.mem_cons_self
    rcases mem_codeOf_step (hw.reachable.sealed t) h hj with ⟨rfl, hj⟩ | ⟨hj, hl⟩ | ⟨_, _, -, -, hj, -⟩
    · obtain ⟨-, ⟨k, rfl⟩, hk⟩ := hails_of_run i hj hs
      have hm : r ∈ w.members s := by
        rcases hk with hk | hk | hk
        · exact hw.aimed.hunted hi hk
        · exact hw.aimed.halted (hk ▸ hi)
        · exact d.listed hi hk
      exact (hw.rostered.mem_members_of_mem hw h hm).resolve_right fun hx => by cases hx
    · -- under the lock of the roster nobody else takes the record out
      refine mem_members_of_held hw h (d.listed hj hs) (held_of_hails hw.reachable hj hs)
        fun ht hx => ?_
      have hf := tops_hails.reachable hw.reachable t
      rw [h] at hf
      have hn := hf.head (hl ht).1 (by rw [hs]; rfl)
      rcases eq_of_removes hx with ⟨l, rfl⟩ | rfl <;> cases hn
    · cases (threadCode_none rfl hj).symm.trans hs

theorem World.Takes.mem_of_hails (h : Takes w t e code) (hj : j ∈ code)
    (hs : j.hails? ≠ none) : j ∈ w.codeOf t := by
  obtain ⟨new, old, rfl, ho, hnew⟩ := h.split
  rcases List.mem_append.mp hj with hj | hj
  · exfalso
    rcases hnew with ⟨hn, -⟩ | ⟨-, hc⟩
    · exact hs (hailless_of_nested (List.all_eq_true.mp hn j hj))
    · rcases hc j hj with ⟨c, -, hj⟩ | ⟨s, r, rfl⟩
      · exact hs (c.code_hailless j hj)
      · exact hs rfl
  · exact ho.subset hj

theorem Hailed.undisturbed (d : Hailed w) (u : Undisturbed w e w') : Hailed w' where
  listed {t j s r} hj hs := by
    rw [members_of_services_eq u.services]
    refine d.listed (t := t) ?_ hs
    rcases u.code t with hc | hc
    · exact hc ▸ hj
    · exact hc.mem_of_hails hj (by rw [hs]; exact Option.some_ne_none _)

theorem Lawful.hailed (hw : Lawful n w) : Hailed w := by
  refine hw.induct ⟨fun hj hs => ?_⟩ ?_
  · rw [eq_user_of_initial hj] at hs
    cases hs
  · intro w e hw _ d
    rcases w.step_cases e with ⟨t, i, rest, _, h, -, hs⟩ | u
    · rw [hs]
      exact d.proceed hw h
    · exact d.undisturbed u

/-! A thread that has ended. -/

/-- Thread `t` has come to its end. -/
structure Ended (w : World) (t : ThreadId) : Prop where
  manned : t < w.threads.length
  code : w.codeOf t = []

/-- Record `r`, of thread `t`, stands in the roster of service `s`. -/
structure ListedFor (w : World) (t : ThreadId) (s : ServiceId) (r : RecordId) : Prop where
  listed : r ∈ w.members s
  owner : w.ownerOf r = some t

theorem Ended.step (d : Ended w t) (e : Event) : Ended (w.step e) t := by
  rcases w.step_cases e with ⟨q, i, rest, -, h, -, hs⟩ | u
  · have hq : t ≠ q := by
      rintro rfl
      rw [d.code] at h
      cases h
    rw [hs]
    exact ⟨Nat.lt_of_lt_of_le d.manned threads_length_proceed,
      (codeOf_proceed_of_ne h hq d.manned).trans d.code⟩
  · refine ⟨u.length ▸ d.manned, ?_⟩
    have hu : w.inUser t = false := by
      rw [Bool.eq_false_iff, ne_eq, inUser_iff, d.code]
      exact fun hx => nomatch hx.1
    rcases u.code_of_busy hu with hc | ⟨hi, -⟩
    · exact hc.trans d.code
    · exact absurd d.code (canInterrupt_iff.mp hi).2.2

theorem Ended.listedFor_step (d : Ended w t) (hw : Lawful n w) (e : Event) :
    ListedFor (w.step e) t s r ↔ ListedFor w t s r := by
  rcases w.step_cases e with ⟨q, i, rest, -, h, -, hs⟩ | u
  -- a thread that has ended has no code to run
  · have hq : t ≠ q := by
      rintro rfl
      rw [d.code] at h
      cases h
    rw [hs]
    constructor
    · rintro ⟨hm, ho⟩
      have ho' : w.ownerOf r = some t := by
        rcases ownerOf_proceed w q i rest r with hx | ⟨hx, -⟩
        · exact hx ▸ ho
        · exact absurd (Option.some.inj (ho.symm.trans hx)) hq
      refine ⟨(hw.rostered.mem_members_proceed hw h hm).resolve_right fun hi => ?_, ho'⟩
      -- a record is entered by its owner, and this one's has ended
      exact hq (Option.some.inj (ho'.symm.trans (ownerOf_of_inserts hw h hi)))
    · rintro ⟨hm, ho⟩
      refine ⟨(hw.rostered.mem_members_of_mem hw h hm).resolve_right fun hi => ?_,
        hw.reachable.custody.ownerOf_proceed h ho⟩
      exact hq (Option.some.inj (ho.symm.trans (ownerOf_of_removes hw h hi)))
  · have ho : (w.step e).ownerOf r = w.ownerOf r := u.ofRecord
    constructor
    · exact fun hl => ⟨members_of_services_eq u.services ▸ hl.listed, ho ▸ hl.owner⟩
    · exact fun hl => ⟨members_of_services_eq u.services ▸ hl.listed, ho.trans hl.owner⟩

/-- Nobody else enters a record of a thread that has ended, or takes one out. -/
theorem Ended.listedFor_run (d : Ended w t) (hw : Lawful n w) (ha : w.admits es = true) :
    ListedFor (w.run es) t s r ↔ ListedFor w t s r := by
  have key := hw.run_induct (P := fun v => Ended v t ∧ (ListedFor v t s r ↔ ListedFor w t s r)) ha
    ⟨d, Iff.rfl⟩ ?_
  · exact key.2
  · exact fun v e hv _ ⟨d, hl⟩ => ⟨d.step e, (d.listedFor_step hv e).trans hl⟩

/-! What a thread makes for itself and takes out again. -/

/-- In the run `es` thread `t` has made record `r` for itself, to join service `s` with it. -/
def HasJoined (w : World) (t : ThreadId) (s : ServiceId) (r : RecordId) (es : List Event) : Prop :=
  ∃ before i rest after, es = before ++ .advance t :: after ∧
    (w.run before).codeOf t = i :: rest ∧ Joins (w.run before) t i s ∧
    r = (w.run before).records.length

/-- In the run `es` record `r` has been taken out of the roster of service `s`. -/
def HasTakenOut (w : World) (s : ServiceId) (r : RecordId) (es : List Event) : Prop :=
  ∃ i, i.removes? = some (s, r) ∧ w.runs i es = true

theorem HasJoined.append (d : HasJoined w t s r es) (fs : List Event) :
    HasJoined w t s r (es ++ fs) := by
  obtain ⟨before, i, rest, after, rfl, h⟩ := d
  exact ⟨before, i, rest, after ++ fs, by simp, h⟩

theorem exists_of_runs (h : w.runs i es = true) :
    ∃ before t rest after, es = before ++ .advance t :: after ∧
      (w.run before).codeOf t = i :: rest := by
  induction es generalizing w with
  | nil => cases h
  | cons e es ih =>
    rw [runs, Bool.or_eq_true, beq_iff_eq] at h
    rcases h with h | h
    · obtain ⟨t, rest, rfl, hc⟩ := upNext_eq_some.mp h
      exact ⟨[], t, rest, es, rfl, hc⟩
    · obtain ⟨before, t, rest, after, rfl, hc⟩ := ih h
      exact ⟨e :: before, t, rest, after, rfl, hc⟩

theorem ready_of_removes (hi : i.removes? = some (s, r)) : i.isReady w t = true := by
  rcases eq_of_removes hi with ⟨l, rfl⟩ | rfl <;> rfl

section Proceed

variable (hw : Lawful n w) (h : w.codeOf t = i :: rest)
include hw h

/-- A record that is taken out is entered no more. -/
theorem gone_of_removes (hi : i.removes? = some (s, r)) : Gone (w.proceed t i rest) r where
  known := Nat.lt_of_lt_of_le (lt_of_ownerOf (ownerOf_of_removes hw h hi))
    World.records_length_proceed
  outside := not_mem_members_of_removes hw h hi
  unlisted {q j} hj hr := by
    have c := hw.reachable.custody
    have ho := ownerOf_of_removes hw h hi
    rcases unlisted_of_proceed hw h (ready_of_removes hi) hj hr with rfl | ⟨q, k, hk, hkr⟩
    · exact Nat.lt_irrefl _ (lt_of_ownerOf ho)
    -- below the removal its thread has nothing about the record
    have below {m : MemberInstr} (hm : Instr.member m ∈ w.codeOf q) (hmr : m.record? = some r)
        (hn : (Instr.member m).removes? ≠ some (s, r)) : (Instr.member m).lets i = true := by
      have so := hw.reachable.sealed t
      rw [c.eq_of_record hm hmr ho, h] at hm
      rw [h] at so
      rcases List.mem_cons.mp hm with rfl | hm
      · exact absurd hi hn
      · exact so.lets hm
    cases k with
    | member m =>
      cases m with
      | publish b y | gateEnter b y =>
        cases hkr
        have hl := below hk rfl (fun h => by cases h)
        rcases eq_of_removes hi with ⟨l, rfl⟩ | rfl <;> cases hl
      | spawnNative b y =>
        cases hkr
        exact absurd (ho.symm.trans (c.borne hk).2.1) (fun h => by cases h)
      | _ => cases hkr
    | _ => cases hkr

end Proceed

theorem HasTakenOut.gone (d : HasTakenOut w s r es) (hw : Lawful n w) (ha : w.admits es = true) :
    Gone (w.run es) r := by
  obtain ⟨i, hi, hr⟩ := d
  obtain ⟨before, t, rest, after, rfl, hc⟩ := exists_of_runs hr
  rw [admits_append, Bool.and_eq_true, admits, Bool.and_eq_true] at ha
  have hv := hw.run ha.1
  have hstep : (w.run before).step (.advance t) = (w.run before).proceed t i rest :=
    step_of_code hc (ready_of_removes hi)
  rw [run_append, run_cons]
  have g := gone_of_removes hv hc hi
  rw [← hstep] at g
  exact g.run (hv.step ha.2.1) ha.2.2

theorem Joined.run (g : Joined w t s r) (hw : Lawful n w) (ha : w.admits es = true)
    (hn : ∀ i, i.removes? = some (s, r) → w.runs i es = false) : Joined (w.run es) t s r := by
  induction es generalizing w with
  | nil => exact g
  | cons e es ih =>
    have later (i) (hi : i.removes? = some (s, r)) :
        w.upNext e ≠ some i ∧ (w.step e).runs i es = false := by
      have hr := hn i hi
      rw [runs, Bool.or_eq_false_iff, beq_eq_false_iff_ne] at hr
      exact hr
    rw [admits, Bool.and_eq_true] at ha
    refine ih ?_ (hw.step ha.1) ha.2 fun i hi => (later i hi).2
    rcases w.step_cases e with ⟨q, i, rest, rfl, h, -, hs⟩ | u
    · rw [hs]
      refine (g.proceed hw h).resolve_right fun hi => ?_
      exact (later i hi).1 (upNext_eq_some.mpr ⟨q, rest, rfl, h⟩)
    · exact (Joined.undisturbed u).mpr g

/-- A record that a thread has made for itself stands in the roster, or is about to, until the thread
takes it out. -/
theorem HasJoined.joined (d : HasJoined w t s r es) (hw : Lawful n w) (ha : w.admits es = true)
    (hn : ¬HasTakenOut w s r es) : Joined (w.run es) t s r := by
  obtain ⟨before, i, rest, after, rfl, hc, hj, rfl⟩ := d
  rw [admits_append, Bool.and_eq_true, admits, Bool.and_eq_true] at ha
  have hv := hw.run ha.1
  have hstep : (w.run before).step (.advance t) = (w.run before).proceed t i rest :=
    step_of_code hc (by cases hj <;> rfl)
  have h0 : Joined ((w.run before).step (.advance t)) t s (w.run before).records.length := by
    refine ⟨hstep ▸ hj.ownerOf, Or.inr (Or.inl ?_)⟩
    rw [hstep, hj.code hc]
    simp [publishCode, locked]
  rw [run_append, run_cons]
  refine h0.run (hv.step ha.2.1) ha.2.2 fun k hk => ?_
  rw [Bool.eq_false_iff]
  refine fun hr => hn ⟨k, hk, ?_⟩
  rw [runs_append, runs, hr, Bool.or_true, Bool.or_true]

/-! From the birth of a thread to its end. -/

/-- By event `e` service `s` starts thread `t`, for record `r`. -/
structure Starts (w : World) (e : Event) (t : ThreadId) (s : ServiceId) (r : RecordId) : Prop where
  new : t = w.threads.length
  code : (w.step e).codeOf t = threadCode s r

/-- Thread `t` has still to take record `r` out, or has done so. -/
inductive Outgoing (w : World) (t : ThreadId) (s : ServiceId) (r : RecordId) : Prop
  | due (h : .member (.exitRaise s r) ∈ w.codeOf t)
  | next (h : .member (.exitRemove s r) ∈ w.codeOf t)
  | gone (owner : w.ownerOf r = some t) (code : (w.codeOf t).all Instr.isParting = true)
    (outside : ∀ b, r ∉ w.members b)

theorem Outgoing.proceed (d : Outgoing w t' s r) (hw : Lawful n w) (h : w.codeOf t = i :: rest) :
    Outgoing (w.proceed t i rest) t' s r := by
  cases d with
  | due hj =>
    by_cases hi : t' = t ∧ i = .member (.exitRaise s r)
    · obtain ⟨rfl, rfl⟩ := hi
      refine .next ?_
      rw [codeOf_proceed h, remainder]
      simp [Instr.run, MemberInstr.run]
    · exact .due (mem_codeOf_proceed_of_mem h hj fun ht hx => hi ⟨ht, hx.symm⟩)
  | next hj =>
    by_cases hi : t' = t ∧ i = .member (.exitRemove s r)
    · obtain ⟨rfl, rfl⟩ := hi
      have ho := ownerOf_of_removes hw h (s := s) (r := r) rfl
      exact .gone (hw.reachable.custody.ownerOf_proceed h ho)
        (all_parting_proceed h (hw.bound.manned ho) (hw.leaving.parting hj))
        (not_mem_members_of_removes hw h rfl)
    · exact .next (mem_codeOf_proceed_of_mem h hj fun ht hx => hi ⟨ht, hx.symm⟩)
  | gone ho hc hn =>
    refine .gone (hw.reachable.custody.ownerOf_proceed h ho)
      (all_parting_proceed h (hw.bound.manned ho) hc)
      fun b => not_mem_members_proceed hw h (hn b) fun hi => ?_
    -- its thread enters nothing any more
    obtain rfl : t' = t := Option.some.inj (ho.symm.trans (ownerOf_of_inserts hw h hi))
    rw [h, List.all_cons, Bool.and_eq_true] at hc
    rcases eq_of_inserts hi with rfl | rfl <;> cases hc.1

theorem Outgoing.undisturbed (d : Outgoing w t s r) (u : Undisturbed w e w') :
    Outgoing w' t s r := by
  cases d with
  | due hj => exact .due ((u.mem_iff rfl).mpr hj)
  | next hj => exact .next ((u.mem_iff rfl).mpr hj)
  | gone ho hc hn =>
    have ho' : w'.ownerOf r = w.ownerOf r := u.ofRecord
    refine .gone (ho'.trans ho) (all_parting_undisturbed u hc) fun b => ?_
    rw [members_of_services_eq u.services]
    exact hn b

/-- What is known of thread `t`, which service `s` has started for record `r`, after the run `es`. -/
structure Born (w : World) (t : ThreadId) (s : ServiceId) (r : RecordId) (es : List Event) :
    Prop where
  manned : t < (w.run es).threads.length
  outgoing : Outgoing (w.run es) t s r
  own : ∀ {x}, .member (.own x) ∈ (w.run es).codeOf t → x = r
  made : ∀ {x}, (w.run es).ownerOf x = some t → x = r ∨ ∃ b, HasJoined w t b x es

theorem Starts.born (d : Starts w e t s r) (hw : Lawful n w) : Born (w.step e) t s r [] := by
  have hlt : t < (w.step e).threads.length := by
    apply lt_of_codeOf
    rw [d.code]
    exact List.cons_ne_nil _ _
  refine ⟨hlt, .due ?_, fun {x} hj => ?_, fun {x} ho => absurd ho ?_⟩
  · rw [run, List.foldl_nil, d.code]
    simp [threadCode]
  · rw [run, List.foldl_nil, d.code] at hj
    simpa [threadCode] using hj
  · rw [run, List.foldl_nil]
    rcases w.step_cases e with ⟨q, i, rest, -, h, -, hs⟩ | u
    · rw [hs, d.new]
      exact hw.bound.ownerOf_new h x
    · rw [u.length, d.new] at hlt
      exact absurd hlt (Nat.lt_irrefl _)

theorem Born.snoc (d : Born w t s r es) (hw : Lawful n (w.run es)) (e : Event) :
    Born w t s r (es ++ [e]) := by
  rcases (w.run es).step_cases e with ⟨q, i, rest, rfl, h, hu, hs⟩ | u
  · rw [← run_snoc] at hs
    refine ⟨?_, ?_, fun {x} hj => ?_, fun {x} ho => ?_⟩
    · rw [hs]
      exact Nat.lt_of_lt_of_le d.manned threads_length_proceed
    · rw [hs]
      exact d.outgoing.proceed hw h
    · rw [hs] at hj
      rcases marked_cases (hw.reachable.sealed q) h hu hj rfl with ⟨-, hb⟩ | ⟨hj, -⟩ | ⟨_, _, -, ht, -⟩
      · cases hb
      · exact d.own hj
      · exact absurd d.manned (ht ▸ Nat.lt_irrefl _)
    · rw [hs] at ho
      rcases ownerOf_proceed (w.run es) q i rest x with hx | ⟨hx, hi⟩
      · exact (d.made (hx ▸ ho)).imp_right fun ⟨b, hb⟩ => ⟨b, hb.append _⟩
      · obtain rfl : t = q := Option.some.inj (ho.symm.trans hx)
        rcases hi with rfl | rfl
        · exact Or.inl (d.own (h ▸ List.mem_cons_self))
        · obtain ⟨b, hb⟩ := joins_of_ownerOf ho
          exact Or.inr ⟨b, es, i, rest, [], rfl, h, hb, rfl⟩
  · rw [← run_snoc] at u
    have ho (x : RecordId) : (w.run (es ++ [e])).ownerOf x = (w.run es).ownerOf x := u.ofRecord
    refine ⟨u.length ▸ d.manned, d.outgoing.undisturbed u, fun hj => d.own ((u.mem_iff rfl).mp hj),
      fun {x} hx => ?_⟩
    exact (d.made (ho x ▸ hx)).imp_right fun ⟨b, hb⟩ => ⟨b, hb.append _⟩

theorem Born.run (d : Born w t s r []) (hw : Lawful n w) (ha : w.admits es = true) :
    Born w t s r es := by
  induction es using List.reverseRecOn with
  | nil => exact d
  | append_singleton es e ih =>
    rw [admits_append, Bool.and_eq_true] at ha
    exact (ih ha.1).snoc (hw.run ha.1) e

/-! The theorem. -/

section Ended

variable (d : Born w t s r es) (hw : Lawful n w) (ha : w.admits es = true)
  (hend : Ended (w.run es) t)
include d hw ha hend

omit hw ha in
theorem Born.outside (b : ServiceId) : r ∉ (w.run es).members b := by
  cases d.outgoing with
  | due hj | next hj =>
    rw [hend.code] at hj
    cases hj
  | gone _ _ hn => exact hn b

theorem Born.listedFor : ListedFor (w.run es) t b x ↔
    HasJoined w t b x es ∧ ¬HasTakenOut w b x es := by
  constructor
  · rintro ⟨hm, ho⟩
    have hn (c) : ¬HasTakenOut w c x es := fun hx => (hx.gone hw ha).outside b hm
    refine ⟨?_, hn b⟩
    rcases d.made ho with rfl | ⟨c, hj⟩
    · exact absurd hm (d.outside hend b)
    · have hc := (hj.joined hw ha (hn c)).homeOf (hw.run ha)
      have hb := (hw.run ha).rostered.homed hm
      rw [hc] at hb
      exact Option.some.inj hb ▸ hj
  · rintro ⟨hj, hn⟩
    have g := hj.joined hw ha hn
    refine ⟨?_, g.owner⟩
    rcases g.place with hm | hj | hj
    · exact hm
    all_goals
      rw [hend.code] at hj
      cases hj

end Ended

/-- Once a thread that service `s` has started for record `r` has ended, `r` stands in no roster. A
record of the thread stands in one just if the thread has made it for itself, when nothing stood for
it in that service, and has not taken it out again. Nothing that follows changes which ones these are,
and nobody who has raised a request tells the thread to stop for the sake of any other. -/
theorem ended_thread_leaves_what_it_has_joined (hw : Lawful n w) (hs : Starts w e t s r)
    (ha : w.admits (e :: es) = true) (hend : Ended (w.run (e :: es)) t) :
    (∀ b, r ∉ (w.run (e :: es)).members b) ∧
    (∀ b x, ListedFor (w.run (e :: es)) t b x ↔
      HasJoined (w.step e) t b x es ∧ ¬HasTakenOut (w.step e) b x es) ∧
    ∀ fs, (w.run (e :: es)).admits fs = true →
      (∀ b x, ListedFor ((w.run (e :: es)).run fs) t b x ↔ ListedFor (w.run (e :: es)) t b x) ∧
      ∀ q j b x, j ∈ ((w.run (e :: es)).run fs).codeOf q → j.hails? = some (b, x) →
        ((w.run (e :: es)).run fs).ownerOf x = some t → ListedFor (w.run (e :: es)) t b x := by
  have hv : Lawful n (w.run (e :: es)) := hw.run ha
  rw [admits, Bool.and_eq_true] at ha
  have hw' := hw.step ha.1
  -- what the thread enters and takes out is followed from its birth on
  have d := (hs.born hw).run hw' ha.2
  refine ⟨d.outside hend, fun b x => d.listedFor hw' ha.2 hend, fun fs hf => ?_⟩
  have later (b x) := hend.listedFor_run (s := b) (r := x) hv hf
  exact ⟨later, fun q j b x hj hx ho => (later b x).mp ⟨(hv.run hf).hailed.listed hj hx, ho⟩⟩

/-- A service under signals is about to start a thread. -/
def spawning : List Event :=
  .invoke 0 (.establish { mechanism := .signal }) :: turns 0 5 ++ .invoke 0 (.spawn 0 {}) :: turns 0 2

/-- The new thread comes to its own code and detaches. -/
def startedAndDetached : List Event :=
  turns 0 5 ++ turns 1 18 ++ turns 0 7 ++ .invoke 1 (.detach 0) :: turns 1 9

/-- It comes to its end. -/
def endedDetached : List Event := startedAndDetached ++ .finish 1 false :: turns 1 7

/-- It attaches again before it comes to its end. -/
def endedAttachedAnew : List Event :=
  startedAndDetached ++ .invoke 1 (.attach 0 "again") :: turns 1 5 ++ .finish 1 false :: turns 1 7

theorem starts_spawning : Starts ((World.initial 1).run spawning) (.advance 0) 1 0 1 :=
  ⟨by decide +kernel, by decide +kernel⟩

theorem record_of_ended_thread_is_in_no_roster :
    (World.initial 1).admits (spawning ++ .advance 0 :: endedDetached) = true ∧
      Ended (((World.initial 1).run spawning).run (.advance 0 :: endedDetached)) 1 ∧
      ∀ b, 1 ∉ (((World.initial 1).run spawning).run (.advance 0 :: endedDetached)).members b := by
  have hw : Lawful 1 ((World.initial 1).run spawning) := ⟨spawning, by decide +kernel, rfl⟩
  have hend : Ended (((World.initial 1).run spawning).run (.advance 0 :: endedDetached)) 1 :=
    ⟨by decide +kernel, by decide +kernel⟩
  refine ⟨by decide +kernel, hend, ?_⟩
  exact (ended_thread_leaves_what_it_has_joined hw starts_spawning (by decide +kernel) hend).1

/-- The record with which the thread has attached again outlives it, and whoever stops it by the new
handle is about to send a signal to a thread that there is no more. -/
theorem record_attached_anew_outlives_its_thread :
    (World.initial 1).admits (spawning ++ .advance 0 :: endedAttachedAnew ++
        .invoke 0 (.suspend 0 3) :: turns 0 7) = true ∧
      Starts ((World.initial 1).run spawning) (.advance 0) 1 0 1 ∧
      Ended (((World.initial 1).run spawning).run (.advance 0 :: endedAttachedAnew)) 1 ∧
      ListedFor (((World.initial 1).run spawning).run (.advance 0 :: endedAttachedAnew)) 1 0 2 ∧
      ((World.initial 1).run (spawning ++ .advance 0 :: endedAttachedAnew ++
        .invoke 0 (.suspend 0 3) :: turns 0 7)).codeOf 0 =
          [.stop (.deliver 0 2 0 false), .user] := by
  refine ⟨by decide +kernel, starts_spawning, ⟨?_, ?_⟩, ⟨?_, ?_⟩, ?_⟩ <;> decide +kernel

end Standstill
