import Standstill.Proofs.Enrolment

/-!
The counts that a service keeps by hand, of live threads and of threads at the start gate, against
its roster. Each path in and out of the roster pairs a count with a change of the roster, but for
one: a thread that ends is counted out even if its record has been taken out before.
-/
namespace Standstill

open World

namespace Instr

/-- The thread of record `r` has entered the record and is not counted as live yet. -/
def isGating (s : ServiceId) (r : RecordId) : Instr → Bool
  | .member (.gateWait b c) | .member (.gatePass b c) => b == s && c == r
  | _ => false

/-- A thread that ends is counted out although its record is not there any more. -/
def isStray (w : World) (s : ServiceId) : Instr → Bool
  | .member (.exitRemove b r) => b == s && !(w.members s).contains r
  | _ => false

/-- Some thread is counted out. -/
def countsOut (w : World) (s : ServiceId) : Instr → Bool
  | .member (.exitRemove b _) => b == s
  | .member (.detachRemove b r _) => b == s && (w.members s).contains r
  | _ => false

/-- A thread is counted out and the count is zero already. -/
def isClipped (w : World) (s : ServiceId) (i : Instr) : Bool :=
  i.countsOut w s && (w.census s).live == 0

end Instr

namespace World

def isGated (w : World) (s : ServiceId) (r : RecordId) : Bool :=
  w.threads.any fun x => x.code.any (·.isGating s r)

/-- How many records of a service are held at the start gate. -/
def gated (w : World) (s : ServiceId) : Nat := (w.members s).countP (w.isGated s)

/-- How many are not. -/
def ungated (w : World) (s : ServiceId) : Nat := (w.members s).countP fun r => !w.isGated s r

/-- How often a run counts a thread out whose record is not there any more. -/
def strays (w : World) (s : ServiceId) : List Event → Nat
  | [] => 0
  | e :: es =>
    ((w.upNext e).elim 0 fun i => if i.isStray w s then 1 else 0) + (w.step e).strays s es

/-- How often a run takes one from a count of zero. -/
def clipped (w : World) (s : ServiceId) : List Event → Nat
  | [] => 0
  | e :: es =>
    ((w.upNext e).elim 0 fun i => if i.isClipped w s then 1 else 0) + (w.step e).clipped s es

end World

variable {n : Nat} {w w' : World} {t t' : ThreadId} {s b : ServiceId} {r : RecordId} {i j : Instr}
  {rest : List Instr} {e : Event}

theorem isGating_iff : j.isGating s r = true ↔
    j = .member (.gateWait s r) ∨ j = .member (.gatePass s r) := by
  cases j with
  | member k => cases k <;> simp [Instr.isGating]
  | _ => simp [Instr.isGating]

theorem isGated_iff : w.isGated s r = true ↔ ∃ t j, j ∈ w.codeOf t ∧ j.isGating s r = true := by
  simp only [isGated, List.any_eq_true]
  constructor
  · rintro ⟨x, hx, j, hj, hg⟩
    obtain ⟨t, ht⟩ := List.mem_iff_getElem?.mp hx
    refine ⟨t, j, ?_, hg⟩
    simp only [codeOf, ofThread, ht]
    exact hj
  · rintro ⟨t, j, hj, hg⟩
    simp only [codeOf, ofThread] at hj
    split at hj
    next x hx => exact ⟨x, List.mem_of_getElem? hx, j, hj, hg⟩
    · cases hj

theorem Enrolled.isGated_of_started (d : Enrolled w) (hr : w.startedOf r = true) :
    w.isGated s r = false := by
  rw [Bool.eq_false_iff]
  intro hx
  obtain ⟨t, j, hj, hg⟩ := isGated_iff.mp hx
  have ha : j.awaits? = some r := by
    rcases isGating_iff.mp hg with rfl | rfl <;> rfl
  rw [d.unstarted hj ha] at hr
  cases hr

/-! Counting over a list in which one record comes or goes. -/

section Count

variable {ms : List RecordId} {p q : RecordId → Bool}

theorem countP_filter_ne (hn : ms.Nodup) (hr : r ∈ ms) :
    (ms.filter (· != r)).countP p + (if p r then 1 else 0) = ms.countP p := by
  rw [← hn.erase_eq_filter, (List.perm_cons_erase hr).countP_eq p, List.countP_cons]

theorem filter_ne_of_not_mem (hr : r ∉ ms) : ms.filter (· != r) = ms := by
  refine List.filter_eq_self.mpr fun x hx => ?_
  simpa using fun he : x = r => hr (he ▸ hx)

/-- The count goes down by one if the property is lost for one record only. -/
theorem countP_of_lost (hn : ms.Nodup) (hr : r ∈ ms) (hp : p r = true) (hq : q r = false)
    (hpq : ∀ x ∈ ms, x ≠ r → p x = q x) : ms.countP p = ms.countP q + 1 := by
  rw [← countP_filter_ne hn hr, ← countP_filter_ne (p := q) hn hr, hp, hq]
  have hc : (ms.filter (· != r)).countP p = (ms.filter (· != r)).countP q := by
    refine List.countP_congr fun x hx => ?_
    obtain ⟨hx, hne⟩ := List.mem_filter.mp hx
    rw [hpq x hx (by simpa using hne)]
  simp [hc]

end Count

/-! Who is at the gate after a step. -/

section Gate

variable (hw : Lawful n w) (h : w.codeOf t = i :: rest)
include hw h

/-- While a record is taken out of its roster, its thread is not on the way through the gate. -/
theorem isGated_of_removes (hi : i.removes? = some (s, r)) : w.isGated s r = false := by
  rw [Bool.eq_false_iff]
  intro hx
  obtain ⟨t', j, hj, hg⟩ := isGated_iff.mp hx
  have hr : j.record? = some r := by
    rcases isGating_iff.mp hg with rfl | rfl <;> rfl
  obtain rfl := hw.reachable.custody.eq_of_record hj hr (ownerOf_of_removes hw h hi)
  have so := hw.reachable.sealed t'
  rw [h] at hj so
  rcases List.mem_cons.mp hj with rfl | hj
  · rcases isGating_iff.mp hg with rfl | rfl <;> cases hi
  · have hl := so.lets hj
    rcases eq_of_removes hi with ⟨l, rfl⟩ | rfl <;> rcases isGating_iff.mp hg with rfl | rfl <;>
      cases hl

variable (hu : i.isReady w t = true)
include hu

/-- A thread comes to the gate when it enters its record, and leaves it when it goes through. -/
theorem isGated_proceed (hr : r ∈ w.members s) (hi : i ≠ .member (.gatePass s r)) :
    (w.proceed t i rest).isGated s r = w.isGated s r := by
  rw [Bool.eq_iff_iff, isGated_iff, isGated_iff]
  constructor
  · rintro ⟨t', j, hj, hg⟩
    have hm : j.isMarked = true := by
      rcases isGating_iff.mp hg with rfl | rfl <;> rfl
    rcases marked_cases (hw.reachable.sealed t) h hu hj hm with
      ⟨rfl, hb⟩ | ⟨hj, _⟩ | ⟨b, x, rfl, _, hj, _⟩
    · refine ⟨t', .member (.gateWait s r), ?_, by simp [Instr.isGating]⟩
      rcases isGating_iff.mp hg with rfl | rfl <;> cases hb <;> exact h ▸ List.mem_cons_self
    · exact ⟨t', j, hj, hg⟩
    · -- the thread of a record that is not yet in a roster
      have hx : r = x := by
        rcases isGating_iff.mp hg with rfl | rfl <;> simp [threadCode] at hj
        exact hj.2
      exact absurd hr (hw.enrolled.outside (t := t) (h ▸ List.mem_cons_self) (by rw [hx]; rfl))
  · rintro ⟨t', j, hj, hg⟩
    by_cases hk : t' = t ∧ j = i
    · obtain ⟨rfl, rfl⟩ := hk
      obtain rfl := (isGating_iff.mp hg).resolve_right hi
      cases ha : ((w.setCode t' rest).census s).allSuspended with
      | true =>
        refine ⟨t', .member (.gateWait s r), ?_, hg⟩
        rw [codeOf_proceed h]
        simp [remainder, Instr.run, MemberInstr.run, ha]
      | false =>
        refine ⟨t', .member (.gatePass s r), ?_, by simp [Instr.isGating]⟩
        rw [codeOf_proceed h]
        simp [remainder, Instr.run, MemberInstr.run, ha]
    · exact ⟨t', j, mem_codeOf_proceed_of_mem h hj fun ht he => hk ⟨ht, he⟩, hg⟩

theorem isGated_gatePass (hi : i = .member (.gatePass s r)) :
    (w.proceed t i rest).isGated s r = false := by
  subst hi
  rw [Bool.eq_false_iff]
  intro hx
  obtain ⟨t', j, hj, hg⟩ := isGated_iff.mp hx
  have c := hw.reachable.custody
  -- only the owner of a record stands at the gate for it, and it has just passed
  have ho := c.ownerOf_of_head (hw.reachable.orderly t) h (r := r) rfl (fun h => by cases h)
  rcases isGating_iff.mp hg with rfl | rfl <;>
    rcases marked_cases (hw.reachable.sealed t) h hu hj rfl with
      ⟨rfl, hb⟩ | ⟨hj, hl⟩ | ⟨b, x, hi, _⟩
  · cases hb
  · cases (hl (c.eq_of_record hj rfl ho)).2
  · cases hi
  · cases hb
  · cases (hl (c.eq_of_record hj rfl ho)).2
  · cases hi

theorem isGated_gateEnter (hi : i = .member (.gateEnter s r)) :
    (w.proceed t i rest).isGated s r = true := by
  subst hi
  have hj := hw.enrolled.enters (t := t) (h ▸ List.mem_cons_self)
  exact isGated_iff.mpr ⟨t, _, mem_codeOf_proceed_of_mem h hj fun _ => (fun h => by cases h),
    isGating_iff.mpr (Or.inl rfl)⟩

theorem isGated_publish (hi : i = .member (.publish s r)) :
    (w.proceed t i rest).isGated s r = false := by
  subst hi
  refine (hw.enrolled.proceed hw h hu).isGated_of_started ?_
  exact startedOf_proceed_of_started (hw.enrolled.joined (t := t) (h ▸ List.mem_cons_self))

end Gate

/-! What a step does to the counts. -/

section Counts

variable (hw : Lawful n w) (h : w.codeOf t = i :: rest) (hu : i.isReady w t = true)
include hw h hu

/-- The records in a roster stay on the side of the gate on which they are, if none goes through. -/
theorem countP_proceed {ms : List RecordId} (hm : ms ⊆ w.members s)
    (hi : ∀ r, i ≠ .member (.gatePass s r)) :
    ms.countP ((w.proceed t i rest).isGated s) = ms.countP (w.isGated s) ∧
    (ms.countP fun r => !(w.proceed t i rest).isGated s r) =
      ms.countP fun r => !w.isGated s r := by
  have he (r) (hr : r ∈ ms) := isGated_proceed hw h hu (hm hr) (hi r)
  exact ⟨List.countP_congr fun r hr => by rw [he r hr],
    List.countP_congr fun r hr => by rw [he r hr]⟩

theorem counts_of_keep (hm : (w.proceed t i rest).members s = w.members s)
    (hi : ∀ r, i ≠ .member (.gatePass s r)) :
    (w.proceed t i rest).gated s = w.gated s ∧ (w.proceed t i rest).ungated s = w.ungated s := by
  rw [gated, ungated, hm]
  exact countP_proceed hw h hu (List.Subset.refl _) hi

theorem counts_of_insert (hm : (w.proceed t i rest).members s =
      (w.members s).filter (· != r) ++ [r]) (hr : r ∉ w.members s)
    (hi : ∀ r, i ≠ .member (.gatePass s r)) :
    (w.proceed t i rest).gated s =
      w.gated s + (if (w.proceed t i rest).isGated s r then 1 else 0) ∧
    (w.proceed t i rest).ungated s =
      w.ungated s + (if (w.proceed t i rest).isGated s r then 0 else 1) := by
  obtain ⟨hg, hn⟩ := countP_proceed (s := s) hw h hu (List.Subset.refl _) hi
  rw [filter_ne_of_not_mem hr] at hm
  rw [gated, ungated, hm, List.countP_append, List.countP_append, hg, hn]
  cases hx : (w.proceed t i rest).isGated s r <;> simp [hx, gated, ungated]

theorem counts_of_remove (hm : (w.proceed t i rest).members s =
      (w.members s).filter (· != r)) (hr : i.removes? = some (s, r)) :
    (w.proceed t i rest).gated s = w.gated s ∧
    (w.proceed t i rest).ungated s + (if r ∈ w.members s then 1 else 0) = w.ungated s := by
  have hx := isGated_of_removes hw h hr
  have hi (c) : i ≠ .member (.gatePass s c) := by
    rintro rfl
    cases hr
  have hsub : (w.members s).filter (· != r) ⊆ w.members s := List.filter_sublist.subset
  obtain ⟨hg, hn⟩ := countP_proceed hw h hu hsub hi
  rw [gated, ungated, hm, hg, hn]
  by_cases hc : r ∈ w.members s
  · have hd := (hw.rostered.tagged s).nodup
    have hg := countP_filter_ne (p := w.isGated s) hd hc
    have hn := countP_filter_ne (p := fun c => !w.isGated s c) hd hc
    simp only [hx, Bool.not_false, if_true, Bool.false_eq_true, if_false] at hg hn
    simp only [hc, if_true]
    exact ⟨hg, hn⟩
  · rw [filter_ne_of_not_mem hc]
    simp [hc, gated, ungated]

theorem counts_of_gatePass (hi : i = .member (.gatePass s r))
    (hm : (w.proceed t i rest).members s = w.members s) :
    w.gated s = (w.proceed t i rest).gated s + 1 ∧
    (w.proceed t i rest).ungated s = w.ungated s + 1 := by
  have hd := (hw.rostered.tagged s).nodup
  have hr : r ∈ w.members s := hw.enrolled.admitted (t := t) (h ▸ hi ▸ List.mem_cons_self)
  have hg : w.isGated s r = true :=
    isGated_iff.mpr ⟨t, i, h ▸ List.mem_cons_self, isGating_iff.mpr (Or.inr hi)⟩
  have hn := isGated_gatePass hw h hu hi
  -- all the others stay on their side of the gate
  have hs (c) (hc : c ∈ w.members s) (hne : c ≠ r) :
      (w.proceed t i rest).isGated s c = w.isGated s c := by
    refine isGated_proceed hw h hu hc ?_
    rw [hi]
    intro he
    simp only [Instr.member.injEq, MemberInstr.gatePass.injEq] at he
    exact hne he.2.symm
  rw [gated, gated, ungated, ungated, hm]
  constructor
  · exact countP_of_lost hd hr hg hn fun c hc hne => (hs c hc hne).symm
  · refine countP_of_lost hd hr (by simp [hn]) (by simp [hg]) fun c hc hne => ?_
    rw [hs c hc hne]

end Counts

/-- The counts of service `s` fit its roster, but that some threads may be missing. -/
structure Tallied (w : World) (s : ServiceId) : Prop where
  waiting : (w.census s).waitingToStart = w.gated s
  live : (w.census s).live ≤ w.ungated s

/-- From `w` to `w'` as many threads come as are counted in, and as many go as are counted out, but
for `x` threads that were counted out for nothing, and `y` times the count was zero already. -/
structure Balanced (w w' : World) (s : ServiceId) (x y : Nat) : Prop where
  tallied : Tallied w' s
  balance : (w'.census s).live + x + w.ungated s = w'.ungated s + y + (w.census s).live

theorem balanced_of_eq (d : Tallied w s)
    (hcw : (w'.census s).waitingToStart = (w.census s).waitingToStart)
    (hcl : (w'.census s).live = (w.census s).live) (hg : w'.gated s = w.gated s)
    (hn : w'.ungated s = w.ungated s) : Balanced w w' s 0 0 where
  tallied := ⟨by rw [hcw, hg]; exact d.waiting, by rw [hcl, hn]; exact d.live⟩
  balance := by
    rw [hcl, hn]
    omega

section Balanced

variable (hw : Lawful n w) (d : Tallied w s) (h : w.codeOf t = i :: rest)
  (hu : i.isReady w t = true)
include hw d h hu

theorem balanced_keep {g : Roster} (he : (w.proceed t i rest).roster s = g)
    (hm : g.records = w.members s) (hi : ∀ r, i ≠ .member (.gatePass s r))
    (hcw : g.census.waitingToStart = (w.census s).waitingToStart)
    (hcl : g.census.live = (w.census s).live) : Balanced w (w.proceed t i rest) s 0 0 := by
  subst he
  obtain ⟨hg, hn⟩ := counts_of_keep hw h hu hm hi
  exact balanced_of_eq d hcw hcl hg hn

theorem balanced_insert {c : Census}
    (he : (w.proceed t i rest).roster s = { (w.roster s).insert (r + 1) r with census := c })
    (hr : i.inserts? = some (s, r))
    (hc : if (w.proceed t i rest).isGated s r then c = (w.census s).queueUp
      else c = (w.census s).arrive) : Balanced w (w.proceed t i rest) s 0 0 := by
  have hx : r ∉ w.members s := by
    refine hw.enrolled.outside (t := t) (j := i) (h ▸ List.mem_cons_self) ?_
    rcases eq_of_inserts hr with rfl | rfl <;> rfl
  have hi (x) : i ≠ .member (.gatePass s x) := by
    rintro rfl
    cases hr
  have hm : (w.proceed t i rest).members s = (w.members s).filter (· != r) ++ [r] := by
    rw [members, he]
    exact (hw.rostered.tagged s).records_insert r
  have hc' : (w.proceed t i rest).census s = c := by rw [census, he]
  obtain ⟨hg, hn⟩ := counts_of_insert hw h hu hm hx hi
  have h1 := d.waiting
  have h2 := d.live
  cases hs : (w.proceed t i rest).isGated s r with
  | true =>
    simp only [hs, if_true] at hc hg hn
    subst hc
    refine ⟨⟨?_, ?_⟩, ?_⟩ <;> rw [hc', Census.queueUp] <;> simp only <;> omega
  | false =>
    simp only [hs, Bool.false_eq_true, if_false] at hc hg hn
    subst hc
    refine ⟨⟨?_, ?_⟩, ?_⟩ <;> rw [hc', Census.arrive] <;> simp only <;> omega

theorem balanced_gatePass (hi : i = .member (.gatePass s r)) {daemon : Bool}
    (he : (w.proceed t i rest).roster s =
      { w.roster s with census := (w.census s).passGate daemon }) :
    Balanced w (w.proceed t i rest) s 0 0 := by
  have hm : (w.proceed t i rest).members s = w.members s := by
    rw [members, he]
    rfl
  have hc : (w.proceed t i rest).census s = (w.census s).passGate daemon := by rw [census, he]
  have hp : ((w.census s).passGate daemon).waitingToStart = (w.census s).waitingToStart - 1 ∧
      ((w.census s).passGate daemon).live = (w.census s).live + 1 := by
    cases daemon <;> exact ⟨rfl, rfl⟩
  obtain ⟨hg, hn⟩ := counts_of_gatePass hw h hu hi hm
  have h1 := d.waiting
  have h2 := d.live
  refine ⟨⟨?_, ?_⟩, ?_⟩ <;> rw [hc] <;> omega

theorem balanced_remove {c : Census} (counted : Bool) (hr : i.removes? = some (s, r))
    (hm : (w.proceed t i rest).members s = (w.members s).filter (· != r))
    (hc : (w.proceed t i rest).census s = c) (hx : r ∈ w.members s → counted = true)
    (hcw : c.waitingToStart = (w.census s).waitingToStart)
    (hcl : c.live = if counted then (w.census s).live - 1 else (w.census s).live) :
    Balanced w (w.proceed t i rest) s (if counted && !(w.members s).contains r then 1 else 0)
      (if counted && (w.census s).live == 0 then 1 else 0) := by
  obtain ⟨hg, hn⟩ := counts_of_remove hw h hu hm hr
  have h1 := d.waiting
  have h2 := d.live
  by_cases hin : r ∈ w.members s
  · obtain rfl := hx hin
    simp only [hin, if_true] at hn hcl
    refine ⟨⟨?_, ?_⟩, ?_⟩ <;> rw [hc]
    · omega
    · omega
    · by_cases hz : (w.census s).live = 0 <;> simp [hin, hz] at hcl ⊢ <;> omega
  -- a record that was not on the roster is taken off the count all the same if the code counts it
  · simp only [hin, if_false, Nat.add_zero] at hn
    cases counted with
    | true =>
      simp only [if_true] at hcl
      refine ⟨⟨?_, ?_⟩, ?_⟩ <;> rw [hc]
      · omega
      · omega
      · by_cases hz : (w.census s).live = 0 <;> simp [hin, hz] at hcl ⊢ <;> omega
    | false =>
      simp only [Bool.false_eq_true, if_false] at hcl
      refine ⟨⟨?_, ?_⟩, ?_⟩ <;> rw [hc]
      · omega
      · omega
      · simp
        omega

/-- Each way of changing a roster keeps the balance, with what it counts out for nothing. -/
theorem balanced_proceed : Balanced w (w.proceed t i rest) s (if i.isStray w s then 1 else 0)
    (if i.isClipped w s then 1 else 0) := by
  have hr := hw.rostered.step hw h s
  generalize he : (w.proceed t i rest).roster s = g at hr
  cases hr with
  | still _ hi =>
    have hx : i.isStray w s = false ∧ i.countsOut w s = false := by
      cases i with
      | member k =>
        cases k with
        | exitRemove b r | detachRemove b r _ =>
          have hne : b ≠ s := fun hb => hi (hb ▸ rfl)
          simp [Instr.isStray, Instr.countsOut, hne]
        | _ => exact ⟨rfl, rfl⟩
      | _ => exact ⟨rfl, rfl⟩
    rw [hx.1, Instr.isClipped, hx.2]
    exact balanced_keep hw d h hu he rfl (fun r hk => hi (hk ▸ rfl)) rfl rfl
  | closeGate | openGate => exact balanced_keep hw d h hu he rfl (fun _ h => by cases h) rfl rfl
  | publish r =>
    refine balanced_insert hw d h hu he rfl ?_
    rw [isGated_publish hw h hu rfl]
    rfl
  | gateEnter r =>
    refine balanced_insert hw d h hu he rfl ?_
    rw [isGated_gateEnter hw h hu rfl]
    rfl
  | gatePass r daemon => exact balanced_gatePass hw d h hu rfl he
  | detachRemove r l =>
    have hm := (hw.rostered.revises hw h s).2.eq_of_remove rfl
    -- it is counted out if it has been taken out
    have hb := balanced_remove hw d h hu ((w.members s).contains r) rfl hm rfl (by simp)
    by_cases hin : r ∈ w.members s
    · have hc : (w.proceed t (.member (.detachRemove s r l)) rest).census s =
          (w.census s).leave := by
        rw [census, he, if_pos hin]
      simpa [hin, hc, Instr.isStray, Instr.isClipped, Instr.countsOut]
        using hb (by rw [hc]; rfl) (by rw [hc]; simp [hin, Census.leave])
    · have hc : (w.proceed t (.member (.detachRemove s r l)) rest).census s = w.census s := by
        rw [census, he, if_neg hin, census]
      simpa [hin, Instr.isStray, Instr.isClipped, Instr.countsOut]
        using hb (by rw [hc]) (by rw [hc]; simp [hin])
  | exitRemove r daemon =>
    have hm := (hw.rostered.revises hw h s).2.eq_of_remove rfl
    have hc : (w.proceed t (.member (.exitRemove s r)) rest).census s =
        (w.census s).finish daemon := by rw [census, he]
    have hf : ((w.census s).finish daemon).waitingToStart = (w.census s).waitingToStart ∧
        ((w.census s).finish daemon).live = (w.census s).live - 1 := by
      cases daemon <;> exact ⟨rfl, rfl⟩
    have hb := balanced_remove hw d h hu true rfl hm hc (fun _ => rfl) hf.1 hf.2
    simpa [Instr.isStray, Instr.isClipped, Instr.countsOut] using hb

end Balanced

theorem Tallied.undisturbed (d : Tallied w s) (u : Undisturbed w e w') : Balanced w w' s 0 0 := by
  -- such a step lets nobody through the gate
  have hg (r) : w'.isGated s r = w.isGated s r := by
    have hm (j : Instr) (hj : j.isGating s r = true) (t : ThreadId) :
        j ∈ w'.codeOf t ↔ j ∈ w.codeOf t := by
      rcases isGating_iff.mp hj with rfl | rfl <;> exact u.mem_iff rfl
    rw [Bool.eq_iff_iff, isGated_iff, isGated_iff]
    exact ⟨fun ⟨t, j, hj, hk⟩ => ⟨t, j, (hm j hk t).mp hj, hk⟩,
      fun ⟨t, j, hj, hk⟩ => ⟨t, j, (hm j hk t).mpr hj, hk⟩⟩
  have hm : w'.members s = w.members s := members_of_services_eq u.services
  have hf : w'.isGated s = w.isGated s := funext hg
  have hc : w'.census s = w.census s := by
    rw [census, roster_of_services_eq u.services, census]
  refine balanced_of_eq d (by rw [hc]) (by rw [hc]) ?_ ?_
  · rw [gated, hm, hf, gated]
  · rw [ungated, hm, hf, ungated]

theorem balanced_step (hw : Lawful n w) (d : Tallied w s) (e : Event) : Balanced w (w.step e) s
    ((w.upNext e).elim 0 fun i => if i.isStray w s then 1 else 0)
    ((w.upNext e).elim 0 fun i => if i.isClipped w s then 1 else 0) := by
  by_cases hk : ∃ k, w.upNext e = some (.member k)
  · obtain ⟨k, hk⟩ := hk
    obtain ⟨t, rest, rfl, hc⟩ := upNext_eq_some.mp hk
    have hs : w.step (.advance t) = w.proceed t (.member k) rest := advance_of_code hc rfl
    rw [hs, hk]
    exact balanced_proceed hw d hc rfl
  · rcases w.step_cases e with ⟨t, i, rest, he, hc, hr, hs⟩ | u
    · rw [hs, upNext_eq_some.mpr ⟨t, rest, he, hc⟩]
      exact balanced_proceed hw d hc hr
    · -- an instruction that has still to wait counts nobody out
      have hz : ((w.upNext e).elim 0 fun i => if i.isStray w s then 1 else 0) = 0 ∧
          ((w.upNext e).elim 0 fun i => if i.isClipped w s then 1 else 0) = 0 := by
        cases hx : w.upNext e with
        | none => exact ⟨rfl, rfl⟩
        | some i =>
          cases i with
          | member k => exact absurd ⟨k, hx⟩ hk
          | _ => exact ⟨rfl, rfl⟩
      rw [hz.1, hz.2]
      exact d.undisturbed u

theorem Lawful.tallied (hw : Lawful n w) (s : ServiceId) : Tallied w s := by
  refine hw.induct (P := fun w => Tallied w s) ⟨rfl, Nat.le_refl 0⟩ ?_
  intro w e hw _ d
  exact (balanced_step hw d e).tallied

theorem balance_run (hw : Lawful n w) (es : List Event) (ha : w.admits es = true) :
    ((w.run es).census s).live + w.strays s es + w.ungated s =
      (w.run es).ungated s + w.clipped s es + (w.census s).live := by
  induction es generalizing w with
  | nil =>
    simp only [World.run, List.foldl_nil, strays, clipped]
    omega
  | cons e es ih =>
    rw [admits, Bool.and_eq_true] at ha
    have hi := ih (hw.step ha.1) ha.2
    have hb := (balanced_step hw (hw.tallied s) e).balance
    rw [run_cons, strays, clipped]
    omega

/-! While no thread works on the roster, those at the gate are those that have not started. -/

theorem isGated_of_free (hw : Lawful n w) (hf : w.isFree (.roster s) = true)
    (hr : r ∈ w.members s) : w.isGated s r = !w.startedOf r := by
  have d := hw.enrolled
  cases hs : w.startedOf r with
  | true => exact d.isGated_of_started hs
  | false =>
    obtain ⟨t, ⟨b, hj⟩ | hj⟩ := d.awaited hr hs
    · have hb : w.homeOf r = some b := hw.rostered.sited hj rfl
      rw [hw.rostered.homed hr] at hb
      obtain rfl := Option.some.inj hb
      exact isGated_iff.mpr ⟨t, _, hj, isGating_iff.mpr (Or.inl rfl)⟩
    · -- a thread notes that it has started while it holds the lock
      have hl := (d.noted hj (hw.rostered.homed hr)).2
      exact absurd (List.mem_map.mpr ⟨_, hl, rfl⟩) (not_mem_held_of_free hf)

/-- Whenever no thread works on the roster of a service, the threads waiting to start are its
records that have not started, and the live ones those that have, but for each time that a thread
has ended without its record in the roster: then one too few is counted, or the count was zero and
stayed so. If no thread ends in this way, the count of live threads is exact and is never taken
below zero. -/
theorem live_threads_are_counted (n : Nat) (es : List Event) (s : ServiceId)
    (ha : (World.initial n).admits es = true)
    (hf : ((World.initial n).run es).isFree (.roster s) = true) :
    (((World.initial n).run es).census s).waitingToStart =
      (((World.initial n).run es).members s).countP (!((World.initial n).run es).startedOf ·) ∧
    (((World.initial n).run es).census s).live + (World.initial n).strays s es =
      (((World.initial n).run es).members s).countP ((World.initial n).run es).startedOf +
        (World.initial n).clipped s es ∧
    (World.initial n).clipped s es ≤ (World.initial n).strays s es ∧
    ((World.initial n).strays s es = 0 → (World.initial n).clipped s es = 0 ∧
      (((World.initial n).run es).census s).live =
        (((World.initial n).run es).members s).countP ((World.initial n).run es).startedOf ∧
      (((World.initial n).run es).census s).live +
        (((World.initial n).run es).census s).waitingToStart =
        (((World.initial n).run es).roster s).size) := by
  have hw : Lawful n ((World.initial n).run es) := (lawful_initial n).run ha
  have hb := balance_run (s := s) (lawful_initial n) es ha
  generalize (World.initial n).run es = w at hw hf hb
  -- nobody is counted at the start, so that what the run adds to both sides is all there is
  have h0 : (World.initial n).ungated s = 0 ∧ ((World.initial n).census s).live = 0 := ⟨rfl, rfl⟩
  -- with the roster free nobody stands between the gate and the note of the start
  have hg : w.gated s = (w.members s).countP (!w.startedOf ·) := by
    refine List.countP_congr fun r hr => ?_
    rw [isGated_of_free hw hf hr]
  have hn : w.ungated s = (w.members s).countP w.startedOf := by
    refine List.countP_congr fun r hr => ?_
    rw [isGated_of_free hw hf hr, Bool.not_not]
  have hlen : (w.members s).countP w.startedOf + (w.members s).countP (!w.startedOf ·) =
      (w.roster s).size := by
    have hl := List.length_eq_countP_add_countP w.startedOf (l := w.members s)
    have hz : (w.members s).length = (w.roster s).size := List.length_map _
    simp only [Bool.not_eq_true, Bool.decide_eq_false] at hl
    omega
  obtain ⟨hwait, hlive⟩ := hw.tallied s
  rw [h0.1, h0.2, hn] at hb
  rw [hn] at hlive
  rw [hg] at hwait
  refine ⟨hwait, ?_, ?_, fun hx => ⟨?_, ?_, ?_⟩⟩ <;> omega

/-- A service is set up, and the thread that it starts has come to its own code. -/
def spawned : List Event :=
  .invoke 0 (.establish { mechanism := .safepoint }) :: turns 0 5 ++
    .invoke 0 (.spawn 0 {}) :: turns 0 8 ++ turns 1 17 ++ turns 0 7

/-- The new thread comes to its end. -/
theorem ended_thread_is_counted_out :
    (World.initial 1).strays 0 (spawned ++ .finish 1 false :: turns 1 7) = 0 ∧
      (((World.initial 1).run (spawned ++ .finish 1 false :: turns 1 7)).census 0).live =
        (((World.initial 1).run (spawned ++ .finish 1 false :: turns 1 7)).members 0).countP
          ((World.initial 1).run (spawned ++ .finish 1 false :: turns 1 7)).startedOf := by
  have hx : (World.initial 1).strays 0 (spawned ++ .finish 1 false :: turns 1 7) = 0 := by decide
  obtain ⟨_, _, _, hl⟩ := live_threads_are_counted 1 (spawned ++ .finish 1 false :: turns 1 7) 0
    (by decide) (by decide)
  exact ⟨hx, (hl hx).2.1⟩

/-- The new thread detaches itself before it comes to its end. -/
def detachedThenEnded : List Event :=
  spawned ++ .invoke 1 (.detach 0) :: turns 1 9 ++ .finish 1 false :: turns 1 7

/-- It has been counted out twice: the only thread left has started and none is counted. -/
theorem main_thread_is_not_counted :
    (World.initial 1).admits detachedThenEnded = true ∧
      ((World.initial 1).run detachedThenEnded).isFree (.roster 0) = true ∧
      ((World.initial 1).run detachedThenEnded).members 0 = [0] ∧
      ((World.initial 1).run detachedThenEnded).startedOf 0 = true ∧
      (((World.initial 1).run detachedThenEnded).census 0).live = 0 ∧
      (((World.initial 1).run detachedThenEnded).census 0).waitingToStart = 0 := by
  refine ⟨?_, ?_, ?_, ?_, ?_, ?_⟩ <;> decide +kernel

end Standstill
