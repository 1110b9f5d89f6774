import Standstill.Proofs.MemberLevels
import Standstill.Proofs.Pursuit

/-!
Records that stand in no roster. Nobody asks for a record which has been taken out. A thread that
leaves raises its level before it takes its record out; if it comes back to `noBlock` at all, it clears
the request first. Main statement: a record off the roster stops nobody, who is parked can be found and
woken, and nobody waits for ever for a thread that has left.
-/
namespace Standstill

open World ParkInstr

variable {n : Nat} {w w' : World} {t t' q : ThreadId} {s : ServiceId} {r : RecordId} {i j : Instr}
  {code rest : List Instr} {e : Event} {es : List Event}

/-! Records that have been taken out, or have never come to be entered, stay outside. -/

/-- Record `r` stands in no roster, and nobody is going to enter it. -/
structure Gone (w : World) (r : RecordId) : Prop where
  known : r < w.records.length
  outside : ∀ s, r ∉ w.members s
  unlisted : ∀ {t j}, j ∈ w.codeOf t → j.unlisted? ≠ some r

theorem Gone.proceed (g : Gone w r) (hw : Lawful n w) (h : w.codeOf t = i :: rest)
    (hu : i.isReady w t = true) : Gone (w.proceed t i rest) r where
  known := Nat.lt_of_lt_of_le g.known World.records_length_proceed
  outside s := by
    refine not_mem_members_proceed hw h (g.outside s) fun hx => ?_
    refine g.unlisted (h ▸ List.mem_cons_self) (?_ : i.unlisted? = some r)
    rcases eq_of_inserts hx with rfl | rfl <;> rfl
  unlisted hj hr := by
    rcases unlisted_of_proceed hw h hu hj hr with rfl | ⟨q, k, hk, hkr⟩
    · exact Nat.lt_irrefl _ g.known
    · exact g.unlisted hk hkr

theorem Gone.undisturbed (g : Gone w r) (u : Undisturbed w e w') : Gone w' r where
  known := by
    rw [u.records]
    exact g.known
  outside s := by
    rw [members_of_services_eq u.services]
    exact g.outside s
  unlisted hj hr := g.unlisted ((u.mem_iff (lasting_of_marked (marked_of_unlisted hr))).mp hj) hr

theorem Gone.step (g : Gone w r) (hw : Lawful n w) (e : Event) : Gone (w.step e) r := by
  rcases w.step_cases e with ⟨t, i, rest, _, h, hu, hs⟩ | u
  · rw [hs]
    exact g.proceed hw h hu
  · exact g.undisturbed u

theorem Lawful.run_induct {P : World → Prop} (hw : Lawful n w) (ha : w.admits es = true) (h0 : P w)
    (hs : ∀ w e, Lawful n w → e.isPlaced w = true → P w → P (w.step e)) : P (w.run es) := by
  induction es generalizing w with
  | nil => exact h0
  | cons e es ih =>
    simp only [admits, Bool.and_eq_true] at ha
    exact ih (hw.step ha.1) ha.2 (hs w e hw ha.1 h0)

theorem Gone.run (g : Gone w r) (hw : Lawful n w) (ha : w.admits es = true) :
    Gone (w.run es) r :=
  hw.run_induct (P := fun w => Gone w r) ha g fun _ e hw _ g => g.step hw e

/-- Nobody asks for a record that stands in no roster. -/
theorem Gone.not_isRequested_step (g : Gone w r) (hw : Lawful n w) (e : Event)
    (hq : w.isRequested r = false) : (w.step e).isRequested r = false := by
  rcases w.step_cases e with ⟨t, i, rest, _, h, hu, hs⟩ | u
  · rw [hs, Bool.eq_false_iff]
    intro hx
    have ha : i.aims? = some r := by
      rcases isRequested_of_proceed hq hx with ⟨s, k, rfl⟩ | ⟨s, rfl⟩ <;> rfl
    obtain ⟨s, hm⟩ := hw.aimed.listed (h ▸ List.mem_cons_self) ha
    exact g.outside s hm
  · rw [isRequested_of_records_eq u.records]
    exact hq

/-- A record that stands in no roster and has a request is one that has been taken out. -/
theorem gone_of_isRequested (hw : Lawful n w) (hr : ∀ s, r ∉ w.members s)
    (hq : w.isRequested r = true) : Gone w r where
  known := by
    by_contra hn
    rw [isRequested_eq, ofRecord_of_le _ _ (Nat.le_of_not_lt hn)] at hq
    cases hq
  outside := hr
  unlisted hj hx := by
    rw [hw.unlisted.unasked hj hx] at hq
    cases hq

/-- A record that is taken out is entered no more. -/
theorem gone_of_removed (hw : Lawful n w) (e : Event) (hr : r ∈ w.members s)
    (hn : r ∉ (w.step e).members s) : Gone (w.step e) r := by
  rcases w.step_cases e with ⟨t, i, rest, _, h, hu, hs⟩ | u
  · rw [hs] at hn ⊢
    have hx := (hw.rostered.mem_members_of_mem hw h hr).resolve_left hn
    refine ⟨?_, not_mem_members_of_removes hw h hx, fun hj hj' => ?_⟩
    · exact Nat.lt_of_lt_of_le (lt_of_homeOf (hw.rostered.homed hr)) World.records_length_proceed
    · rcases unlisted_of_proceed hw h hu hj hj' with rfl | ⟨q, k, hk, hkr⟩
      · exact Nat.lt_irrefl _ (lt_of_homeOf (hw.rostered.homed hr))
      · exact hw.enrolled.outside hk (outside_of_unlisted hkr) hr
  · rw [members_of_services_eq u.services] at hn
    exact absurd hr hn

/-! How a thread leaves. -/

/-- What is left to do for a thread that takes its record out for good. -/
def Instr.isParting : Instr → Bool
  | .sync _ | .guard (.mask _) | .member (.exitRemove ..) | .member (.unbind _) => true
  | i => i.isNested

theorem parting_of_nested (h : i.isNested = true) : i.isParting = true := by
  cases i with
  | guard g => cases g <;> first | rfl | cases h
  | member m => cases h
  | sync | park => rfl
  | _ => cases h

theorem steady_of_parting (h : i.isParting = true) : i.isSteady = true := by
  cases i with
  | guard g => cases g <;> first | rfl | cases h
  | member m => cases m <;> first | rfl | cases h
  | _ => rfl

theorem run_parting (h : i.isParting = true) : (i.run t w).2.all Instr.isParting = true := by
  cases hn : i.isNested with
  | true =>
    exact all_imp parting_of_nested (run_nested hn)
  | false =>
    cases i with
    | sync k => cases k <;> simp [Instr.run, SyncInstr.run, Instr.isParting]
    | guard g =>
      cases g with
      | mask s => rfl
      | setMask => cases hn
      | _ => cases h
    | member m =>
      cases m with
      | exitRemove | unbind =>
        simp only [Instr.run, MemberInstr.run]
        repeat' split
        all_goals rfl
      | _ => cases h
    | park => cases hn
    | _ => cases h

/-- What may stand above the removal of a record sets no level. -/
theorem steady_of_lets_removes (hr : j.removes? = some (s, r)) (hl : j.lets i = true) :
    i.isSteady = true := by
  rcases eq_of_removes hr with ⟨l, rfl⟩ | rfl
  · exact steady_of_lets rfl hl
  · cases hn : i.isNested with
    | true => exact steady_of_nested hn
    | false =>
      simp only [Instr.lets, hn, Bool.false_or] at hl
      cases i with
      | guard g => cases g <;> first | rfl | cases hl
      | member m => cases hl
      | _ => rfl

theorem steady_of_lets_clearRequest (hl : (Instr.member (.clearRequest r)).lets i = true) :
    i.isSteady = true := by
  cases hn : i.isNested with
  | true => exact steady_of_nested hn
  | false =>
    simp only [Instr.lets, hn, Bool.false_or] at hl
    cases i with
    | guard g => cases hl
    | member m => cases m <;> first | rfl | cases hl
    | _ => rfl

structure Leaving (w : World) : Prop where
  raised : ∀ {t j s r}, j ∈ w.codeOf t → j.removes? = some (s, r) → w.levelOf r ≠ .noBlock
  parting : ∀ {t s r}, .member (.exitRemove s r) ∈ w.codeOf t →
    (w.codeOf t).all Instr.isParting = true

theorem leaving_initial (n : Nat) : Leaving (World.initial n) := by
  constructor
  case raised =>
    intro t j s r hj hr
    rw [eq_user_of_initial hj] at hr
    cases hr
  case parting =>
    intro t s r hj
    cases eq_user_of_initial hj

theorem marked_of_removes (hr : j.removes? = some (s, r)) : j.isMarked = true := by
  rcases eq_of_removes hr with ⟨l, rfl⟩ | rfl <;> rfl

section Proceed

variable (hw : Lawful n w) (h : w.codeOf t = i :: rest) (hu : i.isReady w t = true)
include hw h

/-- A level stays where it is while its record's thread does nothing about levels. -/
theorem levelOf_proceed_of_owner (ho : w.ownerOf r = some t') (hi : t' = t → i.isSteady = true) :
    (w.proceed t i rest).levelOf r = w.levelOf r := by
  by_cases ht : t' = t
  · exact levelOf_proceed_of_steady (hi ht)
  · refine levelOf_proceed_of_ne hw.reachable.custody (hw.reachable.orderly t) h ?_
    rintro o ho' rfl
    exact ht (Option.some.inj (ho.symm.trans ho'))

omit hw in
theorem all_parting_proceed (ht : t' < w.threads.length)
    (hp : (w.codeOf t').all Instr.isParting = true) :
    ((w.proceed t i rest).codeOf t').all Instr.isParting = true := by
  by_cases he : t' = t
  · subst he
    rw [h, List.all_cons, Bool.and_eq_true] at hp
    rw [codeOf_proceed h, List.all_append, Bool.and_eq_true]
    exact ⟨run_parting hp.1, hp.2⟩
  · rw [codeOf_proceed_of_ne h he ht]
    exact hp

variable (d : Leaving w)
include hu d

theorem Leaving.raised_proceed (hj : j ∈ (w.proceed t i rest).codeOf t')
    (hr : j.removes? = some (s, r)) : (w.proceed t i rest).levelOf r ≠ .noBlock := by
  have c := hw.reachable.custody
  have hrec : j.record? = some r := by rcases eq_of_removes hr with ⟨l, rfl⟩ | rfl <;> rfl
  rcases marked_cases (hw.reachable.sealed t) h hu hj (marked_of_removes hr) with
    ⟨rfl, hb⟩ | ⟨hj, hl⟩ | ⟨b, x, rfl, -, hj, -⟩
  · have hlt {k : Instr} (hk : w.codeOf t' = k :: rest) (hkr : k.record? = some r) :
        r < w.records.length := lt_of_record c (hk ▸ List.mem_cons_self) hkr
    cases hb with
    | detachRemove b x =>
      cases hr
      have hlv : (w.proceed t' (.member (.detachRaise s r)) rest).levelOf r =
          (w.setLevel r .critical).levelOf r := rfl
      rw [hlv, levelOf_setLevel, if_pos (hlt h rfl)]
      decide
    | exitRemove b x =>
      cases hr
      have hlv : (w.proceed t' (.member (.exitRaise s r)) rest).levelOf r =
          (w.setLevel r .blocking).levelOf r := rfl
      rw [hlv, levelOf_setLevel, if_pos (hlt h rfl)]
      decide
    | _ => cases hr
  -- until it is removed nobody lowers the level of a record that leaves
  · have hsame : (w.proceed t i rest).levelOf r = w.levelOf r := by
      by_cases ht : t' = t
      · exact levelOf_proceed_of_steady (steady_of_lets_removes hr (hl ht).2)
      · exact levelOf_proceed_of_ne c (hw.reachable.orderly t) h fun o hown he =>
          ht (he ▸ c.eq_of_record hj hrec hown)
    rw [hsame]
    exact d.raised hj hr
  · cases (threadCode_none rfl hj).symm.trans hr

theorem Leaving.parting_proceed (hj : .member (.exitRemove s r) ∈ (w.proceed t i rest).codeOf t') :
    ((w.proceed t i rest).codeOf t').all Instr.isParting = true := by
  have so := hw.reachable.sealed t
  rcases marked_cases so h hu hj rfl with ⟨rfl, hb⟩ | ⟨hj, -⟩ | ⟨b, x, rfl, -, hj, -⟩
  · cases hb
    rw [h] at so
    obtain rfl := so.of_exitRaise
    rw [codeOf_proceed h, List.append_nil, remainder]
    simp only [Instr.run, MemberInstr.run]
    split <;> rfl
  · exact all_parting_proceed h (lt_of_codeOf (List.ne_nil_of_mem hj)) (d.parting hj)
  · simp [threadCode] at hj

theorem Leaving.proceed : Leaving (w.proceed t i rest) where
  raised := d.raised_proceed hw h hu
  parting := d.parting_proceed hw h hu

end Proceed

/-- A thread that takes its record out for good gets no code but its handler's. -/
theorem all_parting_undisturbed (u : Undisturbed w e w')
    (hp : (w.codeOf t).all Instr.isParting = true) :
    (w'.codeOf t).all Instr.isParting = true := by
  have hu : w.inUser t = false := by
    rw [Bool.eq_false_iff]
    intro hu
    obtain ⟨rest, hr⟩ := head_user hu
    rw [hr] at hp
    cases hp
  rcases u.code_of_busy hu with hc | ⟨-, hc⟩
  · rw [hc]
    exact hp
  · rw [hc, List.all_append, Bool.and_eq_true]
    exact ⟨all_imp parting_of_nested handler_nested, hp⟩

theorem Leaving.undisturbed (d : Leaving w) (u : Undisturbed w e w') : Leaving w' where
  raised {t j s r} hj hr := by
    have hl : w'.levelOf r = w.levelOf r := u.ofRecord
    rw [hl]
    exact d.raised ((u.mem_iff (lasting_of_marked (marked_of_removes hr))).mp hj) hr
  parting hj := all_parting_undisturbed u (d.parting ((u.mem_iff rfl).mp hj))

theorem Lawful.leaving (hw : Lawful n w) : Leaving w := by
  refine hw.induct (leaving_initial n) ?_
  intro w e hw _ d
  rcases w.step_cases e with ⟨t, i, rest, _, h, hu, hs⟩ | u
  · rw [hs]
    exact d.proceed hw h hu
  · exact d.undisturbed u

/-! What keeps a record that has been taken out from stopping its thread. -/

/-- Thread `t` has taken record `r` out for good: it keeps the level raised to its end. -/
structure Parted (w : World) (t : ThreadId) (r : RecordId) : Prop where
  owner : w.ownerOf r = some t
  level : w.levelOf r ≠ .noBlock
  code : (w.codeOf t).all Instr.isParting = true

/-- Thread `t` has taken record `r` out: it keeps the level raised until it has cleared the
request. -/
structure Clearing (w : World) (t : ThreadId) (r : RecordId) : Prop where
  owner : w.ownerOf r = some t
  level : w.levelOf r ≠ .noBlock
  code : .member (.clearRequest r) ∈ w.codeOf t

theorem Parted.proceed (p : Parted w t' r) (hw : Lawful n w) (h : w.codeOf t = i :: rest) :
    Parted (w.proceed t i rest) t' r where
  owner := hw.reachable.custody.ownerOf_proceed h p.owner
  level := by
    rw [levelOf_proceed_of_owner hw h p.owner]
    · exact p.level
    · rintro rfl
      have hp := p.code
      rw [h, List.all_cons, Bool.and_eq_true] at hp
      exact steady_of_parting hp.1
  code := all_parting_proceed h (hw.bound.manned p.owner) p.code

theorem Parted.step (p : Parted w t r) (hw : Lawful n w) (e : Event) : Parted (w.step e) t r := by
  rcases w.step_cases e with ⟨q, i, rest, _, h, hu, hs⟩ | u
  · rw [hs]
    exact p.proceed hw h
  · have ho : (w.step e).ownerOf r = w.ownerOf r := u.ofRecord
    have hl : (w.step e).levelOf r = w.levelOf r := u.ofRecord
    exact ⟨ho.trans p.owner, hl ▸ p.level, all_parting_undisturbed u p.code⟩

theorem isRequested_setRequest_false (w : World) (r : RecordId) :
    (w.setRequest r false).isRequested r = false := by
  rw [isRequested_setRequest]
  split
  · rfl
  next hn =>
    rw [isRequested_eq]
    exact ofRecord_of_le _ _ (Nat.le_of_not_lt fun hl => hn ⟨rfl, hl⟩)

theorem isRequested_proceed_clearRequest :
    (w.proceed t (.member (.clearRequest r)) rest).isRequested r = false :=
  isRequested_setRequest_false w r

theorem Clearing.proceed (p : Clearing w t' r) (hw : Lawful n w) (h : w.codeOf t = i :: rest) :
    Clearing (w.proceed t i rest) t' r ∨ (w.proceed t i rest).isRequested r = false := by
  by_cases hi : i = .member (.clearRequest r)
  · rw [hi]
    exact Or.inr isRequested_proceed_clearRequest
  · left
    -- until its turn comes the instruction that clears the request stays on the way
    have hrest (ht : t' = t) : .member (.clearRequest r) ∈ rest := by
      have hj := p.code
      rw [ht, h] at hj
      exact (List.mem_cons.mp hj).resolve_left fun hx => hi hx.symm
    have so := hw.reachable.sealed t
    rw [h] at so
    refine ⟨hw.reachable.custody.ownerOf_proceed h p.owner, ?_,
      mem_codeOf_proceed_of_mem h p.code fun _ hx => hi hx.symm⟩
    rw [levelOf_proceed_of_owner hw h p.owner fun ht => steady_of_lets_clearRequest (so.lets (hrest ht))]
    exact p.level

/-- A record that has been taken out with its request raised stops nobody. -/
structure Hushed (w : World) : Prop where
  hushed : ∀ {r}, w.isRequested r = true → (∀ s, r ∉ w.members s) →
    ∃ t, Parted w t r ∨ Clearing w t r

theorem Hushed.proceed (d : Hushed w) (hw : Lawful n w) (h : w.codeOf t = i :: rest) :
    Hushed (w.proceed t i rest) where
  hushed {r} hq hr := by
    have hi : i ∈ w.codeOf t := h ▸ List.mem_cons_self
    have hq' : w.isRequested r = true := by
      -- a request is raised only while the record stands in the roster
      by_contra hn
      have ha : i.aims? = some r := by
        rcases isRequested_of_proceed (by simpa using hn) hq with ⟨s, k, rfl⟩ | ⟨s, rfl⟩ <;> rfl
      obtain ⟨s, hm⟩ := hw.aimed.listed hi ha
      refine hr s ((hw.rostered.mem_members_of_mem hw h hm).resolve_right fun hx => ?_)
      rcases eq_of_removes hx with ⟨l, rfl⟩ | rfl <;> cases ha
    by_cases hm : ∃ s, r ∈ w.members s
    · -- this very step takes the record out
      obtain ⟨s, hm⟩ := hm
      have hx := (hw.rostered.mem_members_of_mem hw h hm).resolve_left (hr s)
      have ho : w.ownerOf r = some t := ownerOf_of_removes hw h hx
      have ho' := hw.reachable.custody.ownerOf_proceed h ho
      have hl : (w.proceed t i rest).levelOf r ≠ .noBlock := by
        rw [levelOf_proceed_of_steady]
        · exact hw.leaving.raised hi hx
        · rcases eq_of_removes hx with ⟨l, rfl⟩ | rfl <;> rfl
      refine ⟨t, ?_⟩
      rcases eq_of_removes hx with ⟨l, rfl⟩ | rfl
      · refine Or.inr ⟨ho', hl, ?_⟩
        rw [codeOf_proceed h]
        refine List.mem_append_left _ ?_
        have hh := hw.reachable.handleOf (lt_of_ownerOf ho)
        have hh' : (w.setCode t rest).handleOf r = some (r + 1) := hh
        have hrm := (hw.rostered.tagged s).removeBy ho
        rw [if_pos (show r ∈ (w.roster s).records from hm)] at hrm
        have hrm' : ((w.setCode t rest).roster s).removeBy (w.setCode t rest).ownerOf t (r + 1) =
            .ok (r, (w.roster s).erase (r + 1)) := hrm
        simp [remainder, Instr.run, MemberInstr.run, hh', hrm']
      · exact Or.inl ⟨ho', hl, all_parting_proceed h (hw.bound.manned ho) (hw.leaving.parting hi)⟩
    · obtain ⟨q, p | p⟩ := d.hushed hq' fun s hs => hm ⟨s, hs⟩
      · exact ⟨q, Or.inl (p.proceed hw h)⟩
      · refine ⟨q, Or.inr ((p.proceed hw h).resolve_right fun hn => ?_)⟩
        rw [hq] at hn
        cases hn

theorem Hushed.undisturbed (d : Hushed w) (u : Undisturbed w e w') : Hushed w' where
  hushed {r} hq hr := by
    have ho : w'.ownerOf r = w.ownerOf r := u.ofRecord
    have hl : w'.levelOf r = w.levelOf r := u.ofRecord
    rw [isRequested_of_records_eq u.records] at hq
    obtain ⟨t, p | p⟩ := d.hushed hq fun s => by
      have hn := hr s
      rwa [members_of_services_eq u.services] at hn
    · exact ⟨t, Or.inl ⟨ho.trans p.owner, hl ▸ p.level, all_parting_undisturbed u p.code⟩⟩
    · exact ⟨t, Or.inr ⟨ho.trans p.owner, hl ▸ p.level, (u.mem_iff rfl).mpr p.code⟩⟩

theorem Lawful.hushed (hw : Lawful n w) : Hushed w := by
  refine hw.induct ⟨fun {r} hq => ?_⟩ ?_
  · rw [isRequested_eq, ofRecord_of_le _ _ (Nat.zero_le _)] at hq
    cases hq
  · intro w e hw _ d
    rcases w.step_cases e with ⟨t, i, rest, _, h, hu, hs⟩ | u
    · rw [hs]
      exact d.proceed hw h
    · exact d.undisturbed u

/-- A record that stands in no roster has no request, or its level is raised. -/
theorem Lawful.level_of_outside (hw : Lawful n w) (hr : ∀ s, r ∉ w.members s)
    (hq : w.isRequested r = true) : w.levelOf r ≠ .noBlock := by
  obtain ⟨t, p | p⟩ := hw.hushed.hushed hq hr
  · exact p.level
  · exact p.level

/-! Nobody is in the park loop of a record that stands in no roster. -/

/-- The request of the record has been read already. -/
def ParkInstr.isAsked : ParkInstr → Bool
  | .check tests _ _ => !tests.contains .request
  | _ => true

theorem ParkInstr.Leads.asked {k k' : ParkInstr} (h : Leads w t k' k) (hk : k.isAsked = true)
    (hr : k.record? = some r) : k'.isAsked = true ∧ k'.record? = some r ∨ w.isRequested r = true := by
  cases h with
  | pass x tests entry b hx =>
    cases x with
    | request =>
      cases hr
      exact Or.inr hx
    | level | phase => exact Or.inl ⟨hk, hr⟩
  | nest b hb => cases hk
  | await p hl => cases hr
  | _ => exact Or.inl ⟨rfl, hr⟩

theorem World.Takes.mem_of_asked (h : Takes w t e code) (hj : j ∈ code)
    (hp : j.parksOn isAsked r = true) : j ∈ w.codeOf t := by
  obtain ⟨k, rfl, hk, -⟩ := parksOn_iff.mp hp
  cases h.origin hj with
  | kept h => exact h
  -- the handler looks at the request before it is asked anything
  | handler _ _ h =>
    rw [handlerCode_eq] at h
    split at h <;> simp at h
    subst h
    cases hk
  | call c _ _ h =>
    rcases c.code_plain (w := w) (t := t) with hc | ⟨s, b, -, -, hc⟩
    · cases calm_of_plain hc _ h
    · rw [hc, List.mem_singleton] at h
      cases h
      cases hk
  | mourn s b h => cases h

/-- A thread that has read its request stands in a roster, or its level is raised. -/
structure Answering (w : World) : Prop where
  asked : ∀ {t j r}, j ∈ w.codeOf t → j.parksOn isAsked r = true →
    (∃ s, r ∈ w.members s) ∨ w.levelOf r ≠ .noBlock

theorem Answering.proceed (d : Answering w) (hw : Lawful n w) (h : w.codeOf t = i :: rest) :
    Answering (w.proceed t i rest) where
  asked {t' j r} hj hp := by
    have c := hw.reachable.custody
    have ho := hw.reachable.orderly t
    have hi : i ∈ w.codeOf t := h ▸ List.mem_cons_self
    have keep (hx : ∀ s, i.removes? ≠ some (s, r))
        (hl : (w.proceed t i rest).levelOf r = w.levelOf r)
        (ha : (∃ s, r ∈ w.members s) ∨ w.levelOf r ≠ .noBlock) :
        (∃ s, r ∈ (w.proceed t i rest).members s) ∨ (w.proceed t i rest).levelOf r ≠ .noBlock := by
      rw [hl]
      exact ha.imp_left fun ⟨s, hs⟩ =>
        ⟨s, (hw.rostered.mem_members_of_mem hw h hs).resolve_right (hx s)⟩
    have old (hj : t' = t ∧ j ∈ rest ∨ t' ≠ t ∧ j ∈ w.codeOf t')
        (ha : (∃ s, r ∈ w.members s) ∨ w.levelOf r ≠ .noBlock) :
        (∃ s, r ∈ (w.proceed t i rest).members s) ∨
          (w.proceed t i rest).levelOf r ≠ .noBlock := by
      have hu := urgent_of_parksOn hp
      have hr := parkRecord_of_parksOn hp
      refine keep (fun s hx => ?_) (c.levelOf_of_parked ho h hj hu hr) ha
      rcases c.apart_of_parked ho h hj hu hr with ⟨-, hn⟩ | hn
      · rcases eq_of_removes hx with ⟨l, rfl⟩ | rfl <;> cases hn
      · refine hn (Or.inr (Or.inr ?_))
        rcases eq_of_removes hx with ⟨l, rfl⟩ | rfl <;> rfl
    rcases mem_codeOf_proceed h hj with ⟨-, hm⟩ | ⟨ht, hm⟩ | ⟨ht, hm⟩ | ⟨s, b, -, -, hm, -⟩
    · obtain ⟨k, rfl, hk, hr⟩ := parksOn_iff.mp hp
      rcases remainder_park hm with ⟨k', rfl, hl⟩ | ⟨g, m, b, -, -, rfl⟩ | ⟨s, m, b, -, -, rfl⟩
      · -- the request is read now, or has been read before
        refine keep (fun s hx => by cases hx) (levelOf_proceed_of_nested rfl) ?_
        rcases hl.asked hk hr with ⟨hk', hr'⟩ | hq
        · exact d.asked hi (parksOn_iff.mpr ⟨_, rfl, hk', hr'⟩)
        · by_cases hm : ∃ s, r ∈ w.members s
          · exact Or.inl hm
          · exact Or.inr (hw.level_of_outside (fun s hs => hm ⟨s, hs⟩) hq)
      · cases hk
      · cases hk
    · exact old (Or.inl ⟨ht, hm⟩) (d.asked (ht ▸ h ▸ List.mem_cons_of_mem _ hm) hp)
    · exact old (Or.inr ⟨ht, hm⟩) (d.asked hm hp)
    · cases (threadCode_none rfl hm).symm.trans (parkRecord_of_parksOn hp)

theorem Answering.undisturbed (d : Answering w) (u : Undisturbed w e w') : Answering w' where
  asked {t j r} hj hp := by
    have hl : w'.levelOf r = w.levelOf r := u.ofRecord
    rw [hl]
    have hj' : j ∈ w.codeOf t := by
      rcases u.code t with hc | hc
      · exact hc ▸ hj
      · exact hc.mem_of_asked hj hp
    refine (d.asked hj' hp).imp_left fun ⟨s, hs⟩ => ⟨s, ?_⟩
    rwa [members_of_services_eq u.services]

theorem Lawful.answering (hw : Lawful n w) : Answering w := by
  refine hw.induct ⟨fun {t j r} hj hp => ?_⟩ ?_
  · rw [eq_user_of_initial hj] at hp
    cases hp
  · intro w e hw _ d
    rcases w.step_cases e with ⟨t, i, rest, _, h, hu, hs⟩ | u
    · rw [hs]
      exact d.proceed hw h
    · exact d.undisturbed u

/-- Thread `t` is in the park loop of record `r`: it has read all that it reads before it parks. -/
def InParkOf (w : World) (t : ThreadId) (r : RecordId) : Prop :=
  ∃ k, .park k ∈ w.codeOf t ∧ k.record? = some r ∧ ∀ tests entry b, k ≠ .check tests entry b

theorem InParkOf.owner (h : InParkOf w t r) (hw : Reachable n w) : w.ownerOf r = some t := by
  obtain ⟨k, hk, hr, -⟩ := h
  exact hw.custody.parked hk hr

theorem InParkOf.listed (h : InParkOf w t r) (hw : Lawful n w) : ∃ s, r ∈ w.members s := by
  obtain ⟨k, hj, hr, hk⟩ := h
  have hp : k.isCommitted = true ∧ k.isAsked = true := by
    cases k with
    | check tests entry b => exact absurd rfl (hk tests entry b)
    | awaitSignal => cases hr
    | _ => exact ⟨rfl, rfl⟩
  have hl := hw.reachable.parkLoop.level hj (parksOn_iff.mpr ⟨k, rfl, hp.1, hr⟩)
  exact (hw.answering.asked hj (parksOn_iff.mpr ⟨k, rfl, hp.2, hr⟩)).resolve_right fun hn => hn hl

theorem Lawful.not_shouldPark (hw : Lawful n w) (hr : ∀ s, r ∉ w.members s) :
    w.shouldPark r = false := by
  rw [Bool.eq_false_iff, ne_eq, shouldPark_iff]
  rintro ⟨hq, hl⟩
  exact hw.level_of_outside hr hq hl

/-! Waiting for a thread that has left. -/

/-- Thread `q` has not read about record `r` what makes it go round once more. -/
def Unmoved (w : World) (q : ThreadId) (r : RecordId) : Prop :=
  ∀ x : Watch, x.record = r →
    .stop (.watchLevel x) ∉ w.codeOf q ∧ .stop (.watchClock x) ∉ w.codeOf q

/-- Once a thread that has left has cleared its request, or has raised its level for good, nobody
that looks at its record from the beginning goes round once more. -/
theorem Gone.ends_watch (g : Gone w r) (hw : Lawful n w)
    (hc : ∀ t, .member (.clearRequest r) ∉ w.codeOf t) (hm : Unmoved w q r)
    (ha : w.admits es = true) {x : Watch} (hx : x.record = r) :
    .stop (.watchClock x) ∉ (w.run es).codeOf q := by
  cases hq : w.isRequested r with
  | false =>
    -- nobody raises the request again, and whoever reads that there is none has done
    have key := hw.run_induct (P := fun w => Gone w r ∧ w.isRequested r = false ∧ Unmoved w q r)
      ha ⟨g, hq, hm⟩ ?_
    · exact (key.2.2 x hx).2
    · rintro w e hw - ⟨g, hq, hm⟩
      refine ⟨g.step hw e, g.not_isRequested_step hw e hq, fun x hx => ⟨fun hj => ?_, fun hj => ?_⟩⟩
      · rcases mem_step_of_seeks e hj (Option.some_ne_none _) with hj | ⟨i, _, -, -, hp⟩
        · exact (hm x hx).1 hj
        · cases hp with
          | request _ hq' =>
            rw [hx, hq] at hq'
            cases hq'
      · rcases mem_step_of_seeks e hj (Option.some_ne_none _) with hj | ⟨i, _, -, hi, hp⟩
        · exact (hm x hx).2 hj
        · cases hp with
          | level _ _ => exact (hm x hx).1 (hi ▸ List.mem_cons_self)
  | true =>
    obtain ⟨t, p | p⟩ := hw.hushed.hushed hq g.outside
    · -- the thread is at its end; whoever reads its level has done
      have key := hw.run_induct (P := fun w => Parted w t r ∧
        ∀ x : Watch, x.record = r → .stop (.watchClock x) ∉ w.codeOf q)
        ha ⟨p, fun x hx => (hm x hx).2⟩ ?_
      · exact key.2 x hx
      · rintro w e hw - ⟨p, hm⟩
        refine ⟨p.step hw e, fun x hx hj => ?_⟩
        rcases mem_step_of_seeks e hj (Option.some_ne_none _) with hj | ⟨i, _, -, -, hp⟩
        · exact hm x hx hj
        · cases hp with
          | level _ hl => exact p.level (hx ▸ hl)
    · exact absurd p.code (hc t)

/-! The theorem. -/

/-- A thread that resumes another by its handle clears the request. -/
theorem resume_clears (hl : (w.roster s).lookup (r + 1) = some r)
    (h : w.codeOf q = .stop (.resumeFind s (r + 1)) :: rest) :
    (w.run (turns q 2)).isRequested r = false ∧
      (w.run (turns q 2)).codeOf q = .stop (.resumeLevel s r) :: rest := by
  have h1 : (w.advance q).codeOf q = .stop (.resumeClear s r) :: rest := by
    have hl' : ((w.setCode q rest).roster s).lookup (r + 1) = some r := hl
    rw [advance_of_code h rfl, codeOf_proceed h]
    simp [remainder, Instr.run, StopInstr.run, hl']
  have h2 : w.run (turns q 2) = (w.advance q).proceed q (.stop (.resumeClear s r)) rest := by
    have ha := advance_of_code h1 rfl
    exact ha
  rw [h2]
  exact ⟨isRequested_setRequest_false (w.advance q) r, codeOf_proceed h1⟩

/-- A record that does not stand in the roster of its service stops nobody, and nobody is in its park
loop. Who is in a park loop can be found by the handle of its record, and a resume by that handle
clears the request and reaches the thread. And who waits for a thread to stop that leaves in the
meantime has no reason to wait from then on, and goes round no more once the leaving thread has
cleared its request, or is at its end with the level raised. -/
theorem off_the_roster_stops_nobody (hw : Lawful n w) (hs : w.homeOf r = some s) :
    (r ∉ w.members s → w.shouldPark r = false ∧ ∀ t, ¬InParkOf w t r) ∧
    (∀ t, InParkOf w t r →
      w.ownerOf r = some t ∧ w.handleOf r = some (r + 1) ∧
      (w.roster s).lookup (r + 1) = some r ∧ w.isOutOfReach s r = false ∧
      ∀ q rest, w.codeOf q = .stop (.resumeFind s (r + 1)) :: rest →
        (w.run (turns q 2)).isRequested r = false ∧
          (w.run (turns q 2)).codeOf q = .stop (.resumeLevel s r) :: rest) ∧
    ∀ e es, r ∈ w.members s → r ∉ (w.step e).members s → w.admits (e :: es) = true →
      (∀ x : Watch, x.record = r → x.lasts (w.run (e :: es)) = false) ∧
      ((∀ t, .member (.clearRequest r) ∉ (w.run (e :: es)).codeOf t) →
        ∀ q, Unmoved (w.run (e :: es)) q r → ∀ fs, (w.run (e :: es)).admits fs = true →
          ∀ x : Watch, x.record = r →
            .stop (.watchClock x) ∉ ((w.run (e :: es)).run fs).codeOf q) := by
  refine ⟨fun hr => ?_, fun t hp => ?_, fun e es hr hn ha => ?_⟩
  · -- no roster but that of its own service can have the record
    have outside (b : ServiceId) : r ∉ w.members b := fun hb => by
      have hh := hw.rostered.homed hb
      rw [hs] at hh
      cases hh
      exact hr hb
    refine ⟨hw.not_shouldPark outside, fun t hp => ?_⟩
    obtain ⟨b, hb⟩ := hp.listed hw
    exact outside b hb
  · have ho := hp.owner hw.reachable
    have hl : (w.roster s).lookup (r + 1) = some r := by
      obtain ⟨b, hb⟩ := hp.listed hw
      have hh := hw.rostered.homed hb
      rw [hs] at hh
      cases hh
      exact (hw.rostered.tagged s).lookup_isSome.mpr hb
    refine ⟨ho, hw.reachable.handleOf (lt_of_homeOf hs), hl, ?_, fun q rest h => resume_clears hl h⟩
    rw [isOutOfReach, ho]
    simp
  · have ha' := ha
    simp only [admits, Bool.and_eq_true] at ha'
    have hw' : Lawful n (w.run (e :: es)) := hw.run ha
    -- what has gone from a roster never comes back, to this one or another
    have g : Gone (w.run (e :: es)) r :=
      (gone_of_removed hw e hr hn).run (hw.step ha'.1) ha'.2
    refine ⟨fun x hx => ?_, fun hc q hm fs hf x hx => g.ends_watch hw' hc hm hf hx⟩
    rw [Bool.eq_false_iff]
    intro hl
    have hp := x.shouldPark_of_lasts hl
    rw [hx, hw'.not_shouldPark g.outside] at hp
    cases hp

/-- A thread detaches while another waits for it to stop. -/
def leavingUnderWatch : List Event :=
  lateJoin ++ .invoke 1 (.detach 0) :: turns 1 1 ++ .invoke 0 (.suspend 0 2) :: turns 0 12 ++
    turns 1 2

/-- A thread is asked to stop and parks at a safe point. -/
def parkingWhenAsked : List Event :=
  lateJoin ++ .invoke 0 (.suspend 0 2) :: turns 0 11 ++ .invoke 1 (.safePoint 0) :: turns 1 9

theorem leaver_is_waited_for_no_more :
    ((World.initial 2).run leavingUnderWatch).members 0 = [0, 1] ∧
      (((World.initial 2).run leavingUnderWatch).run (turns 1 1)).members 0 = [0] ∧
      (((World.initial 2).run leavingUnderWatch).run (turns 1 1)).isRequested 1 = true ∧
      (((World.initial 2).run leavingUnderWatch).run (turns 1 1)).shouldPark 1 = false ∧
      (∀ x : Watch, x.record = 1 → .stop (.watchClock x) ∉
        ((((World.initial 2).run leavingUnderWatch).run (.advance 1 :: turns 1 4)).run
          (turns 0 9)).codeOf 0) ∧
      InParkOf ((World.initial 2).run parkingWhenAsked) 1 1 ∧
      (((World.initial 2).run parkingWhenAsked).roster 0).lookup 2 = some 1 := by
  have hw : Lawful 2 ((World.initial 2).run leavingUnderWatch) :=
    ⟨leavingUnderWatch, by decide +kernel, rfl⟩
  have hp : InParkOf ((World.initial 2).run parkingWhenAsked) 1 1 :=
    ⟨.testLevel ⟨.safepoint, 1, .running⟩, by decide +kernel, rfl, fun _ _ _ h => by cases h⟩
  have hm : ((World.initial 2).run leavingUnderWatch).members 0 = [0, 1] := by decide +kernel
  have hm' : (((World.initial 2).run leavingUnderWatch).run (turns 1 1)).members 0 = [0] := by
    decide +kernel
  have hn : 1 ∉ (((World.initial 2).run leavingUnderWatch).step (.advance 1)).members 0 := by
    decide +kernel
  -- only the owner of a record clears its request, and this one is not about to
  have hc (t : ThreadId) : .member (.clearRequest 1) ∉
      (((World.initial 2).run leavingUnderWatch).run (.advance 1 :: turns 1 4)).codeOf t := by
    intro hj
    have ho : (((World.initial 2).run leavingUnderWatch).run (.advance 1 :: turns 1 4)).ownerOf 1 =
        some 1 := by decide +kernel
    obtain rfl := (hw.reachable.run (.advance 1 :: turns 1 4)).custody.eq_of_record hj rfl ho
    revert hj
    decide +kernel
  have hu : Unmoved (((World.initial 2).run leavingUnderWatch).run (.advance 1 :: turns 1 4)) 0 1 := by
    have h0 : (((World.initial 2).run leavingUnderWatch).run (.advance 1 :: turns 1 4)).codeOf 0 =
        [.stop (.watchEpoch ⟨0, 1, 0, 0, false⟩), .user] := by decide +kernel
    intro x _
    rw [h0]
    simp
  refine ⟨hm, hm', by decide +kernel, ?_, fun x hx => ?_, hp, ?_⟩
  · exact ((off_the_roster_stops_nobody (s := 0)
      (hw.run (show World.admits _ (turns 1 1) = true by decide +kernel))
      (by decide +kernel)).1 (by rw [hm']; decide)).1
  · exact ((off_the_roster_stops_nobody (s := 0) hw (by decide +kernel)).2.2 (.advance 1) (turns 1 4)
      (by rw [hm]; decide) hn (by decide +kernel)).2 hc 0 hu (turns 0 9) (by decide +kernel) x hx
  · exact ((off_the_roster_stops_nobody (s := 0) ⟨parkingWhenAsked, by decide +kernel, rfl⟩
      (by decide +kernel)).2.1 1 hp).2.2.1

end Standstill
