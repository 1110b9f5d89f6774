import Standstill.Proofs.Enrolment

/-!
The one record that stands for a thread. A thread can have records with several services, but only
the one that it has joined last stands for it; the others stay in their rosters unnoticed.
-/
namespace Standstill

open World

variable {n : Nat} {w w' : World} {t t' : ThreadId} {s : ServiceId} {b r : RecordId} {i j : Instr}
  {rest : List Instr} {e : Event}

/-! What a step does to the binding of a thread. -/

theorem bindingOf_proceed_of_not_binder (hi : ∀ k, i = .member k → k.isBinder = false) :
    (w.proceed t i rest).bindingOf t' = w.bindingOf t' := by
  have hs : (w.setCode t rest).bindingOf t' = w.bindingOf t' := ofThread_setCode fun _ _ => rfl
  have hp : (w.proceed t i rest).bindingOf t' =
      (i.run t (w.setCode t rest)).1.bindingOf t' := ofThread_push (fun _ _ => rfl) _
  rw [hp, bindingOf_run_of_not_binder i hi, hs]

theorem bindingOf_proceed_bind (ht : t < w.threads.length) :
    (w.proceed t (.member (.bind r)) rest).bindingOf t = some r := by
  have hp : (w.proceed t (.member (.bind r)) rest).bindingOf t =
      ((w.setCode t rest).setBinding t (some r)).bindingOf t := ofThread_push (fun _ _ => rfl) _
  rw [hp]
  simp [bindingOf, setBinding, setCode, ofThread_modThread, ofThread_const, ht]

/-- The record that stands for a thread does so until the thread takes another or gives it up. -/
theorem bindingOf_proceed_of_some (hb : w.bindingOf t' = some r) (ht : t < w.threads.length)
    (h1 : ∀ b, t' = t → i = .member (.bind b) → b = r)
    (h2 : ∀ h, t' = t → i = .member (.unbind h) → w.handleOf r ≠ some h) :
    (w.proceed t i rest).bindingOf t' = some r := by
  by_cases he : t' = t
  · subst he
    by_cases hk : ∃ k, i = .member k ∧ k.isBinder = true
    · obtain ⟨k, rfl, hk⟩ := hk
      cases k with
      | bind b =>
        obtain rfl := h1 b rfl rfl
        exact bindingOf_proceed_bind ht
      -- an unbinding looks whether the record is the one that it was meant for
      | unbind h =>
        have hs : (w.setCode t' rest).bindingOf t' = w.bindingOf t' :=
          ofThread_setCode fun _ _ => rfl
        have hp : (w.proceed t' (.member (.unbind h)) rest).bindingOf t' =
            ((MemberInstr.unbind h).run t' (w.setCode t' rest)).1.bindingOf t' :=
          ofThread_push (fun _ _ => rfl) _
        rw [hp, MemberInstr.run]
        split
        · rw [hs, hb]
        next x hx =>
          have hbx : x.binding = some r := by
            have hc : (w.setCode t' rest).bindingOf t' = x.binding := by
              simp only [bindingOf, ofThread, hx]
            rw [← hc, hs, hb]
          have hn : ¬(x.binding.bind (w.setCode t' rest).handleOf = some h) := by
            rw [hbx]
            exact h2 h rfl rfl
          rw [if_neg hn, hs, hb]
      | _ => cases hk
    · rw [bindingOf_proceed_of_not_binder fun k hi => ?_, hb]
      rw [Bool.eq_false_iff]
      exact fun hx => hk ⟨k, hi, hx⟩
  · rcases bindingOf_proceed w t t' i rest with hs | ⟨hs, _⟩
    · rw [hs, hb]
    · exact absurd hs he

/-- A thread stays itself in a service as long as no other record comes to stand for it. -/
theorem selfIn_proceed (hb : w.selfIn t' s = some r)
    (hi : t' = t → ∀ k, i = .member k → k.isBinder = false) :
    (w.proceed t i rest).selfIn t' s = some r := by
  obtain ⟨hb, hs⟩ := selfIn_eq_some.mp hb
  refine selfIn_eq_some.mpr ⟨?_, homeOf_proceed_of_some hs⟩
  rcases bindingOf_proceed w t t' i rest with hx | ⟨ht, _⟩
  · rw [hx, hb]
  · rw [bindingOf_proceed_of_not_binder (hi ht), hb]

/-- A thread that gives up the record that stands for it has none. -/
theorem bindingOf_proceed_unbind {k : Handle} (hb : w.bindingOf t = some r)
    (hr : w.handleOf r = some k) :
    (w.proceed t (.member (.unbind k)) rest).bindingOf t = none := by
  have hs : (w.setCode t rest).bindingOf t = w.bindingOf t := ofThread_setCode fun _ _ => rfl
  have hp : (w.proceed t (.member (.unbind k)) rest).bindingOf t =
      ((MemberInstr.unbind k).run t (w.setCode t rest)).1.bindingOf t :=
    ofThread_push (fun _ _ => rfl) _
  rw [hb] at hs
  rw [hp, MemberInstr.run]
  split
  next hx =>
    simp only [bindingOf, ofThread, hx] at hs
    cases hs
  next x hx =>
    have hbx : x.binding = some r := by
      simpa only [bindingOf, ofThread, hx] using hs
    have hh : (w.setCode t rest).handleOf r = some k := hr
    rw [if_pos (by rw [hbx]; exact hh)]
    simp [bindingOf, setBinding, ofThread_modThread, ofThread_const]

/-! The records that a thread makes for itself. -/

theorem records_length_proceed (hi : ∀ k, i = .member k → k.isMaker = false) :
    (w.proceed t i rest).records.length = w.records.length := by
  have hp : (w.proceed t i rest).records = (i.run t (w.setCode t rest)).1.records := rfl
  have hsame (ho : (i.run t (w.setCode t rest)).1.outline = (w.setCode t rest).outline) :
      (i.run t (w.setCode t rest)).1.records.length = w.records.length := by
    simp only [World.outline, Prod.mk.injEq] at ho
    exact ho.1.2.1
  rw [hp]
  cases i with
  | user => rfl
  | sync i =>
    obtain ⟨_, a, he⟩ := i.run_fst (w := w.setCode t rest) (t := t)
    rw [Instr.run, he]
    rfl
  | guard i => exact hsame i.outline_run
  | park i => exact hsame i.outline_run
  | stop i => exact hsame i.outline_run
  | pool i => exact hsame (outline_congr i.core_run)
  | member i => exact hsame (i.outline_run (hi i rfl))
  | read i => exact hsame (outline_congr i.core_run)

/-- A thread makes record `r` for itself and is about to join service `s` with it. -/
inductive Joins (w : World) (t : ThreadId) : Instr → ServiceId → Prop
  | establish (x : Settings) : Joins w t (.member (.establish x)) w.services.length
  | attach (s : ServiceId) (name : String) (h : w.selfIn t s = none) :
    Joins w t (.member (.attach s name)) s

theorem joins_of_ownerOf (ho : (w.proceed t i rest).ownerOf w.records.length = some t') :
    ∃ s, Joins w t i s := by
  by_cases hk : ∃ k, i = .member k ∧ k.isMaker = true
  · obtain ⟨k, rfl, hk⟩ := hk
    cases k with
    | establish x => exact ⟨_, .establish x⟩
    | attach s name =>
      cases hs : w.selfIn t s with
      | none => exact ⟨s, .attach s name hs⟩
      | some r =>
        have hl : (w.proceed t (.member (.attach s name)) rest).records = w.records := by
          have hs' : (w.setCode t rest).selfIn t s = some r := by rw [selfIn_setCode, hs]
          simp only [World.proceed, Instr.run, MemberInstr.run, hs']
          split <;> rfl
        have hlt := lt_of_ownerOf ho
        rw [hl] at hlt
        exact absurd hlt (Nat.lt_irrefl _)
    -- the record of a thread that is to be started has no owner yet
    | spawnRecord =>
      rw [ownerOf_proceed_spawnRecord] at ho
      cases ho
    | spawnNative s r =>
      have hl : (w.proceed t (.member (.spawnNative s r)) rest).records = w.records := by
        simp only [World.proceed, Instr.run, MemberInstr.run]
        repeat' split
        all_goals rfl
      have hlt := lt_of_ownerOf ho
      rw [hl] at hlt
      exact absurd hlt (Nat.lt_irrefl _)
    | _ => cases hk
  · have hlt := lt_of_ownerOf ho
    rw [records_length_proceed fun k hi => ?_] at hlt
    · exact absurd hlt (Nat.lt_irrefl _)
    · rw [Bool.eq_false_iff]
      exact fun hx => hk ⟨k, hi, hx⟩

section Joins

variable (hj : Joins w t i s)
include hj

theorem Joins.ownerOf : (w.proceed t i rest).ownerOf w.records.length = some t := by
  cases hj with
  | establish x => exact ofRecord_new records_establish
  | attach s name h => exact ofRecord_new (records_attach h)

theorem Joins.homeOf : (w.proceed t i rest).homeOf w.records.length = some s := by
  cases hj with
  | establish x => exact ofRecord_new records_establish
  | attach s name h => exact ofRecord_new (records_attach h)

theorem Joins.startedOf : (w.proceed t i rest).startedOf w.records.length = true := by
  cases hj with
  | establish x => exact ofRecord_new records_establish
  | attach s name h => exact ofRecord_new (records_attach h)

theorem Joins.code (h : w.codeOf t = i :: rest) :
    (w.proceed t i rest).codeOf t = publishCode s w.records.length ++ rest := by
  rw [codeOf_proceed h]
  cases hj with
  | establish x => rfl
  | attach s name hn =>
    have hs : (w.setCode t rest).selfIn t s = none := by rw [selfIn_setCode, hn]
    simp only [remainder, Instr.run, MemberInstr.run, hs]
    rfl

end Joins

/-- Thread `t` has joined service `s` with its record `r` and not left it, or is about to join. -/
structure Joined (w : World) (t : ThreadId) (s : ServiceId) (r : RecordId) : Prop where
  owner : w.ownerOf r = some t
  place : r ∈ w.members s ∨ .member (.publish s r) ∈ w.codeOf t ∨
    .member (.gateEnter s r) ∈ w.codeOf t

/-- Which record stands for a thread. -/
structure Bound (w : World) : Prop where
  manned : ∀ {t r}, w.ownerOf r = some t → t < w.threads.length
  owned : ∀ {t r}, .member (.own r) ∈ w.codeOf t → .member (.bind r) ∈ w.codeOf t ∧
    (∃ s, .member (.gateEnter s r) ∈ w.codeOf t) ∧ ∀ b, w.ownerOf b ≠ some t
  published : ∀ {t s r}, .member (.publish s r) ∈ w.codeOf t → .member (.bind r) ∈ w.codeOf t
  newest : ∀ {t r b}, .member (.bind r) ∈ w.codeOf t → w.ownerOf b = some t → b ≤ r
  binds : ∀ {t r s}, .member (.bind r) ∈ w.codeOf t → w.homeOf r = some s →
    .member (.own r) ∈ w.codeOf t ∨ Joined w t s r
  bound : ∀ {t r s}, w.bindingOf t = some r → w.homeOf r = some s →
    Joined w t s r ∨ .member (.unbind (r + 1)) ∈ w.codeOf t
  starts : ∀ {t r}, .member (.bind r) ∈ w.codeOf t → w.startedOf r = true ∨ Starting w t r
  vouched : ∀ {t r}, w.bindingOf t = some r → w.startedOf r = true ∨ Starting w t r
  latest : ∀ {t s r}, Joined w t s r → (∀ b, w.ownerOf b = some t → b ≤ r) →
    w.bindingOf t = some r ∨ .member (.bind r) ∈ w.codeOf t
  since : ∀ {t s r b}, Joined w t s r → w.ownerOf b = some t → r < b →
    ∃ c, r < c ∧ c ≤ b ∧ w.ownerOf c = some t ∧ w.homeOf c ≠ some s

theorem Joined.homeOf (hw : Lawful n w) (g : Joined w t s r) : w.homeOf r = some s := by
  rcases g.place with hr | hj | hj
  · exact hw.rostered.homed hr
  · exact hw.rostered.sited hj rfl
  · exact hw.rostered.sited hj rfl

section Proceed

variable (hw : Lawful n w) (d : Bound w) (h : w.codeOf t = i :: rest)
  (hu : i.isReady w t = true)
include hw h

theorem Joined.proceed (g : Joined w t' s r) :
    Joined (w.proceed t i rest) t' s r ∨ i.removes? = some (s, r) := by
  have ho := hw.reachable.custody.ownerOf_proceed h g.owner
  rcases g.place with hr | hj | hj
  -- in a roster a record stays until it is removed; on the way there it stays until it is entered
  · rcases hw.rostered.mem_members_of_mem hw h hr with hr | hr
    · exact Or.inl ⟨ho, Or.inl hr⟩
    · exact Or.inr hr
  · left
    by_cases hi : i = .member (.publish s r)
    · exact ⟨ho, Or.inl (hw.rostered.mem_members_of_insert hw h (by rw [hi]; rfl))⟩
    · exact ⟨ho, Or.inr (Or.inl (mem_codeOf_proceed_of_mem h hj fun _ he => hi he.symm))⟩
  · left
    by_cases hi : i = .member (.gateEnter s r)
    · exact ⟨ho, Or.inl (hw.rostered.mem_members_of_insert hw h (by rw [hi]; rfl))⟩
    · exact ⟨ho, Or.inr (Or.inr (mem_codeOf_proceed_of_mem h hj fun _ he => hi he.symm))⟩

/-- What a thread has joined while it removes a record is in a roster already. -/
theorem Joined.mem_of_removes (g : Joined w t' s r) (hi : i.removes? = some (b, r)) :
    r ∈ w.members s := by
  have ho := ownerOf_of_removes hw h hi
  rw [g.owner] at ho
  obtain rfl := Option.some.inj ho
  have so := hw.reachable.sealed t'
  -- what may stand under a removal in progress is not about to enter the same record
  have below {k : MemberInstr} (hk : Instr.member k ∈ w.codeOf t')
      (hn : (Instr.member k).removes? ≠ some (b, r)) : (Instr.member k).lets i = true := by
    rw [h] at so hk
    rcases List.mem_cons.mp hk with rfl | hk
    · exact absurd hi hn
    · exact so.lets hk
  rcases g.place with hr | hj | hj
  · exact hr
  · have hl := below hj (fun h => by cases h)
    rcases eq_of_removes hi with ⟨l, rfl⟩ | rfl <;> cases hl
  · have hl := below hj (fun h => by cases h)
    rcases eq_of_removes hi with ⟨l, rfl⟩ | rfl <;> cases hl

include hu

theorem Joined.of_proceed (g : Joined (w.proceed t i rest) t' s r) :
    Joined w t' s r ∨ t' = t ∧ (i = .member (.own r) ∨ r = w.records.length) := by
  rcases ownerOf_proceed w t i rest r with hs | ⟨hs, hi⟩
  · left
    have ho : w.ownerOf r = some t' := hs ▸ g.owner
    have hi : i ∈ w.codeOf t := h ▸ List.mem_cons_self
    have hlt := lt_of_ownerOf ho
    rcases g.place with hr | hj | hj
    · rcases hw.rostered.mem_members_proceed hw h hr with hm | hm
      · exact ⟨ho, Or.inl hm⟩
      · have ht := ownerOf_of_inserts hw h hm
        rw [ho] at ht
        obtain rfl := Option.some.inj ht
        refine ⟨ho, Or.inr ?_⟩
        rcases eq_of_inserts hm with rfl | rfl
        · exact Or.inl hi
        · exact Or.inr hi
    · rcases marked_cases (hw.reachable.sealed t) h hu hj rfl with
        ⟨rfl, hb⟩ | ⟨hj, _⟩ | ⟨b, x, rfl, _, hj, _⟩
      · cases hb <;> exact absurd hlt (Nat.lt_irrefl _)
      · exact ⟨ho, Or.inr (Or.inl hj)⟩
      · simp [threadCode] at hj
    · rcases marked_cases (hw.reachable.sealed t) h hu hj rfl with
        ⟨rfl, hb⟩ | ⟨hj, _⟩ | ⟨b, x, rfl, _, hj, _⟩
      · cases hb
      · exact ⟨ho, Or.inr (Or.inr hj)⟩
      · -- the thread of a record that nobody owns yet
        have hx : r = x := by
          simp only [threadCode, List.mem_cons, List.not_mem_nil, or_false] at hj
          rcases hj with hj | hj | hj | hj | hj | hj | hj | hj | hj | hj <;> cases hj
          rfl
        rw [hx, (hw.reachable.custody.borne hi).2.1] at ho
        cases ho
  · right
    have ht := g.owner
    rw [hs] at ht
    exact ⟨(Option.some.inj ht).symm, hi⟩

include d

omit hw hu in
theorem Bound.manned_proceed (ho : (w.proceed t i rest).ownerOf r = some t') :
    t' < (w.proceed t i rest).threads.length := by
  have hl : w.threads.length ≤ (w.proceed t i rest).threads.length := threads_length_proceed
  rcases ownerOf_proceed w t i rest r with hs | ⟨hs, _⟩
  · exact Nat.lt_of_lt_of_le (d.manned (hs ▸ ho)) hl
  · rw [hs] at ho
    obtain rfl := Option.some.inj ho
    exact Nat.lt_of_lt_of_le (lt_of_head h) hl

omit hw hu in
/-- A thread that is just being started owns nothing. -/
theorem Bound.ownerOf_new (r : RecordId) :
    (w.proceed t i rest).ownerOf r ≠ some w.threads.length := by
  intro ho
  rcases ownerOf_proceed w t i rest r with hs | ⟨hs, _⟩
  · exact absurd (d.manned (hs ▸ ho)) (Nat.lt_irrefl _)
  · rw [hs] at ho
    exact absurd (lt_of_head h) (Option.some.inj ho ▸ Nat.lt_irrefl _)

theorem Bound.owned_proceed (hj : .member (.own r) ∈ (w.proceed t i rest).codeOf t') :
    .member (.bind r) ∈ (w.proceed t i rest).codeOf t' ∧
      (∃ s, .member (.gateEnter s r) ∈ (w.proceed t i rest).codeOf t') ∧
      ∀ b, (w.proceed t i rest).ownerOf b ≠ some t' := by
  rcases marked_cases (hw.reachable.sealed t) h hu hj rfl with
    ⟨rfl, hb⟩ | ⟨hj, hl⟩ | ⟨b, x, rfl, rfl, hj, hc⟩
  · cases hb
  · obtain ⟨hb, ⟨s, hs⟩, hn⟩ := d.owned hj
    refine ⟨mem_codeOf_proceed_of_mem h hb fun ht hi => ?_, ⟨s, ?_⟩, fun b ho => ?_⟩
    · subst hi
      cases (hl ht).2
    · refine mem_codeOf_proceed_of_mem h hs fun ht hi => ?_
      subst hi
      cases (hl ht).2
    · rcases ownerOf_proceed w t i rest b with he | ⟨he, hi⟩
      · exact hn b (he ▸ ho)
      · rw [he] at ho
        obtain rfl := Option.some.inj ho
        have hl := (hl rfl).2
        rcases hi with rfl | rfl
        · cases hl
        · obtain ⟨s, hx⟩ := joins_of_ownerOf he
          cases hx <;> cases hl
  · have hx : r = x := by
      simpa [threadCode] using hj
    subst hx
    rw [hc]
    exact ⟨by simp [threadCode], ⟨b, by simp [threadCode]⟩, d.ownerOf_new h⟩

theorem Bound.published_proceed
    (hj : .member (.publish s r) ∈ (w.proceed t i rest).codeOf t') :
    .member (.bind r) ∈ (w.proceed t i rest).codeOf t' := by
  rcases marked_cases (hw.reachable.sealed t) h hu hj rfl with
    ⟨rfl, hb⟩ | ⟨hj, hl⟩ | ⟨b, x, rfl, _, hj, _⟩
  · have bind (hx : Joins w t' i s) : .member (.bind w.records.length) ∈
        (w.proceed t' i rest).codeOf t' := by
      rw [hx.code h]
      simp [publishCode, locked]
    cases hb with
    | establishPublish x => exact bind (.establish x)
    | attachPublish _ name hn => exact bind (.attach s name hn)
  · refine mem_codeOf_proceed_of_mem h (d.published hj) fun ht hi => ?_
    subst hi
    cases (hl ht).2
  · simp [threadCode] at hj

theorem Bound.newest_proceed (hj : .member (.bind r) ∈ (w.proceed t i rest).codeOf t')
    (ho : (w.proceed t i rest).ownerOf b = some t') : b ≤ r := by
  rcases marked_cases (hw.reachable.sealed t) h hu hj rfl with
    ⟨rfl, hb⟩ | ⟨hj, hl⟩ | ⟨c, x, rfl, rfl, hj, _⟩
  · have new (hi : i ≠ .member (.own b)) : b ≤ w.records.length := by
      rcases ownerOf_proceed w t' i rest b with he | ⟨_, hk | rfl⟩
      · exact Nat.le_of_lt (lt_of_ownerOf (he ▸ ho))
      · exact absurd hk hi
      · exact Nat.le_refl _
    cases hb with
    | establishBind => exact new (fun h => by cases h)
    | attachBind => exact new (fun h => by cases h)
  · rcases ownerOf_proceed w t i rest b with he | ⟨he, hi⟩
    · exact d.newest hj (he ▸ ho)
    · rw [he] at ho
      obtain rfl := Option.some.inj ho
      -- the thread may take over the record that it binds next, and no other stands above the
      -- binding
      have hl := (hl rfl).2
      rcases hi with rfl | rfl
      · have hbr : b = r := by simpa [Instr.lets, Instr.isNested, MemberInstr.lets] using hl
        exact Nat.le_of_eq hbr
      · obtain ⟨s, hx⟩ := joins_of_ownerOf he
        cases hx <;> cases hl
  · exact absurd ho (d.ownerOf_new h b)

theorem Bound.binds_proceed (hj : .member (.bind r) ∈ (w.proceed t i rest).codeOf t')
    (hs : (w.proceed t i rest).homeOf r = some s) :
    .member (.own r) ∈ (w.proceed t i rest).codeOf t' ∨ Joined (w.proceed t i rest) t' s r := by
  rcases marked_cases (hw.reachable.sealed t) h hu hj rfl with
    ⟨rfl, hb⟩ | ⟨hj, hl⟩ | ⟨c, x, rfl, rfl, hj, hc⟩
  -- a thread that joins owns its new record and is about to publish it
  · have new {b : ServiceId} (hx : Joins w t' i b)
        (hs : (w.proceed t' i rest).homeOf w.records.length = some s) :
        Joined (w.proceed t' i rest) t' s w.records.length := by
      rw [hx.homeOf] at hs
      obtain rfl := Option.some.inj hs
      refine ⟨hx.ownerOf, Or.inr (Or.inl ?_)⟩
      rw [hx.code h]
      simp [publishCode, locked]
    cases hb with
    | establishBind x => exact Or.inr (new (.establish x) hs)
    | attachBind b name hn => exact Or.inr (new (.attach b name hn) hs)
  · have hlt := lt_of_record hw.reachable.custody hj rfl
    rw [homeOf_proceed hlt] at hs
    rcases d.binds hj hs with ho | g
    · by_cases hi : t' = t ∧ i = .member (.own r)
      · obtain ⟨rfl, rfl⟩ := hi
        obtain ⟨_, ⟨b, hg⟩, _⟩ := d.owned (t := t') (r := r) (h ▸ List.mem_cons_self)
        have hb : w.homeOf r = some b := hw.rostered.sited hg rfl
        rw [hs] at hb
        obtain rfl := Option.some.inj hb
        exact Or.inr ⟨ownerOf_proceed_own hlt,
          Or.inr (Or.inr (mem_codeOf_proceed_of_mem h hg fun _ => (fun h => by cases h)))⟩
      · exact Or.inl (mem_codeOf_proceed_of_mem h ho fun ht he => hi ⟨ht, he.symm⟩)
    · rcases g.proceed hw h with g | hr
      · exact Or.inr g
      · have ho := ownerOf_of_removes hw h hr
        rw [g.owner] at ho
        have hl := (hl (Option.some.inj ho)).2
        rcases eq_of_removes hr with ⟨l, rfl⟩ | rfl <;> cases hl
  · have hx : r = x := by
      simpa [threadCode] using hj
    subst hx
    rw [hc]
    exact Or.inl (by simp [threadCode])

omit d hu in
/-- What stands for a thread and is taken out of its roster is given up next. -/
theorem unbind_of_removes (g : Joined w t' s r) (hr : i.removes? = some (s, r)) :
    .member (.unbind (r + 1)) ∈ (w.proceed t i rest).codeOf t' := by
  have ho := ownerOf_of_removes hw h hr
  have hm := g.mem_of_removes hw h hr
  rw [g.owner] at ho
  obtain rfl := Option.some.inj ho
  have hlt := lt_of_ownerOf g.owner
  rw [codeOf_proceed h]
  apply List.mem_append_left
  rcases eq_of_removes hr with ⟨l, rfl⟩ | rfl
  · have hh : (w.setCode t' rest).handleOf r = some (r + 1) := hw.reachable.handleOf hlt
    -- the handle is in the roster and the owner asks, so the removal is not refused
    have hrm : ((w.setCode t' rest).roster s).removeBy (w.setCode t' rest).ownerOf t' (r + 1) =
        .ok (r, (w.roster s).erase (r + 1)) :=
      ((hw.rostered.tagged s).removeBy g.owner).trans (if_pos hm)
    simp [remainder, Instr.run, MemberInstr.run, hh, hrm]
  · have hc : (w.setCode t' rest).records[r]? = some w.records[r] := List.getElem?_eq_getElem hlt
    have hk := hw.reachable.handle_eq hc
    simp [remainder, Instr.run, MemberInstr.run, hc, hk]

theorem Bound.bound_proceed (hb : (w.proceed t i rest).bindingOf t' = some r)
    (hs : (w.proceed t i rest).homeOf r = some s) :
    Joined (w.proceed t i rest) t' s r ∨
      .member (.unbind (r + 1)) ∈ (w.proceed t i rest).codeOf t' := by
  have c := hw.reachable.custody
  -- a record that is removed from its roster is unbound next
  have keep (g : Joined w t' s r) : Joined (w.proceed t i rest) t' s r ∨
      .member (.unbind (r + 1)) ∈ (w.proceed t i rest).codeOf t' := by
    rcases g.proceed hw h with hg | hr
    · exact Or.inl hg
    · exact Or.inr (unbind_of_removes hw h g hr)
  rcases bindingOf_proceed w t t' i rest with he | ⟨rfl, hi⟩
  · rw [he] at hb
    have hlt := lt_of_ownerOf (c.bound hb)
    rw [homeOf_proceed hlt] at hs
    rcases d.bound hb hs with g | hj
    · exact keep g
    · by_cases hi : t' = t ∧ i = .member (.unbind (r + 1))
      · obtain ⟨rfl, rfl⟩ := hi
        rw [bindingOf_proceed_unbind hb (hw.reachable.handleOf hlt), hb] at he
        cases he
      · exact Or.inr (mem_codeOf_proceed_of_mem h hj fun ht he => hi ⟨ht, he.symm⟩)
  -- the thread binds the record now, which it has taken over and joined before
  · obtain rfl := hi r hb
    have hm : .member (.bind r) ∈ w.codeOf t' := h ▸ List.mem_cons_self
    rw [homeOf_proceed (lt_of_record c hm rfl)] at hs
    rcases d.binds hm hs with ho | g
    · have so := hw.reachable.sealed t'
      rw [h] at ho so
      rcases List.mem_cons.mp ho with ho | ho
      · cases ho
      · cases so.lets ho
    · exact keep g

theorem Bound.starts_proceed (hj : .member (.bind r) ∈ (w.proceed t i rest).codeOf t') :
    (w.proceed t i rest).startedOf r = true ∨ Starting (w.proceed t i rest) t' r := by
  rcases marked_cases (hw.reachable.sealed t) h hu hj rfl with
    ⟨rfl, hb⟩ | ⟨hj, hl⟩ | ⟨c, x, rfl, rfl, hj, hc⟩
  · cases hb with
    | establishBind x => exact Or.inl (Joins.establish x).startedOf
    | attachBind b name hn => exact Or.inl (Joins.attach b name hn).startedOf
  · rcases d.starts hj with hs | hs
    · exact Or.inl (startedOf_proceed_of_started hs)
    · exact (hs.proceed h (lt_of_record hw.reachable.custody hj rfl)).symm
  · have hx : r = x := by
      simpa [threadCode] using hj
    subst hx
    refine Or.inr (Or.inl ⟨c, ?_⟩)
    rw [hc]
    simp [threadCode]

theorem Bound.vouched_proceed (hb : (w.proceed t i rest).bindingOf t' = some r) :
    (w.proceed t i rest).startedOf r = true ∨ Starting (w.proceed t i rest) t' r := by
  have c := hw.reachable.custody
  have keep (hv : w.startedOf r = true ∨ Starting w t' r) (hr : r < w.records.length) :
      (w.proceed t i rest).startedOf r = true ∨ Starting (w.proceed t i rest) t' r := by
    rcases hv with hs | hs
    · exact Or.inl (startedOf_proceed_of_started hs)
    · exact (hs.proceed h hr).symm
  rcases bindingOf_proceed w t t' i rest with he | ⟨rfl, hi⟩
  · rw [he] at hb
    exact keep (d.vouched hb) (lt_of_ownerOf (c.bound hb))
  · obtain rfl := hi r hb
    have hm : .member (.bind r) ∈ w.codeOf t' := h ▸ List.mem_cons_self
    exact keep (d.starts hm) (lt_of_record c hm rfl)

theorem Bound.latest_proceed (g : Joined (w.proceed t i rest) t' s r)
    (hn : ∀ b, (w.proceed t i rest).ownerOf b = some t' → b ≤ r) :
    (w.proceed t i rest).bindingOf t' = some r ∨
      .member (.bind r) ∈ (w.proceed t i rest).codeOf t' := by
  have c := hw.reachable.custody
  have hi : i ∈ w.codeOf t := h ▸ List.mem_cons_self
  rcases g.of_proceed hw h hu with g' | ⟨rfl, rfl | rfl⟩
  · have hold (b) (hb : w.ownerOf b = some t') : b ≤ r := hn b (c.ownerOf_proceed h hb)
    rcases d.latest g' hold with hb | hj
    · left
      refine bindingOf_proceed_of_some hb (lt_of_head h) ?_ ?_
      · rintro b rfl rfl
        have hb := c.ownerOf_of_head (hw.reachable.orderly t') h (r := b) rfl (fun h => by cases h)
        exact Nat.le_antisymm (hold b hb) (d.newest hi g'.owner)
      -- the thread unbinds only when it is off the roster, but it has joined and is on it
      · rintro k rfl rfl hk
        obtain ⟨x, rfl, _, hx⟩ := hw.enrolled.parted hi
        rw [hw.reachable.handleOf (lt_of_ownerOf g'.owner)] at hk
        obtain rfl := Nat.succ.inj (Option.some.inj hk)
        have so := hw.reachable.sealed t'
        rw [h] at so
        rcases g'.place with hm | hj | hj
        · exact hx s hm
        · rw [h] at hj
          cases so.lets ((List.mem_cons.mp hj).resolve_left (fun h => by cases h))
        · rw [h] at hj
          cases so.lets ((List.mem_cons.mp hj).resolve_left (fun h => by cases h))
    · by_cases hk : t' = t ∧ i = .member (.bind r)
      · obtain ⟨rfl, rfl⟩ := hk
        exact Or.inl (bindingOf_proceed_bind (lt_of_head h))
      · exact Or.inr (mem_codeOf_proceed_of_mem h hj fun ht he => hk ⟨ht, he.symm⟩)
  · exact Or.inr (mem_codeOf_proceed_of_mem h (d.owned hi).1 fun _ => (fun h => by cases h))
  · obtain ⟨b, hx⟩ := joins_of_ownerOf g.owner
    right
    rw [hx.code h]
    simp [publishCode, locked]

/-- A record that a thread comes to own after one with service `s` is not with `s`, or another one
between them is not. -/
theorem Bound.since_join (g : Joined w t s r) (hj : Joins w t i b)
    (hx : ∀ x, w.ownerOf x = some t → x ≤ r) : b ≠ s := by
  rintro rfl
  have hh := g.homeOf hw
  cases hj with
  | establish x => exact absurd (hw.founded.homes hh) (Nat.lt_irrefl _)
  | attach b name hn =>
    rcases d.latest g hx with hb | hb
    · rw [selfIn_eq_some.mpr ⟨hb, hh⟩] at hn
      cases hn
    · have so := hw.reachable.sealed t
      rw [h] at so hb
      cases so.lets ((List.mem_cons.mp hb).resolve_left (fun h => by cases h))

theorem Bound.since_proceed (g : Joined (w.proceed t i rest) t' s r)
    (ho : (w.proceed t i rest).ownerOf b = some t') (hb : r < b) :
    ∃ c, r < c ∧ c ≤ b ∧ (w.proceed t i rest).ownerOf c = some t' ∧
      (w.proceed t i rest).homeOf c ≠ some s := by
  have c := hw.reachable.custody
  have hi : i ∈ w.codeOf t := h ▸ List.mem_cons_self
  -- what stood between the two does so still
  have old (g' : Joined w t' s r) {x : RecordId} (ho : w.ownerOf x = some t') (hb : r < x)
      (hx : x ≤ b) : ∃ c, r < c ∧ c ≤ b ∧ (w.proceed t i rest).ownerOf c = some t' ∧
        (w.proceed t i rest).homeOf c ≠ some s := by
    obtain ⟨y, h1, h2, h3, h4⟩ := d.since g' ho hb
    have he : (w.proceed t i rest).homeOf y = w.homeOf y := homeOf_proceed (lt_of_ownerOf h3)
    exact ⟨y, h1, Nat.le_trans h2 hx, c.ownerOf_proceed h h3, he ▸ h4⟩
  -- the newer record was the thread's already, is taken over, or is new
  rcases ownerOf_proceed w t i rest b with he | ⟨he, hk⟩
  · have ho' : w.ownerOf b = some t' := he ▸ ho
    rcases g.of_proceed hw h hu with g' | ⟨rfl, rfl | rfl⟩
    · exact old g' ho' hb (Nat.le_refl b)
    · exact absurd ho' ((d.owned hi).2.2 b)
    · exact absurd (Nat.lt_trans hb (lt_of_ownerOf ho')) (Nat.lt_irrefl _)
  · rw [he] at ho
    obtain rfl := Option.some.inj ho
    rcases hk with rfl | rfl
    · rcases g.of_proceed hw h hu with g' | ⟨_, hr | rfl⟩
      · exact absurd g'.owner ((d.owned hi).2.2 r)
      · simp only [Instr.member.injEq, MemberInstr.own.injEq] at hr
        exact absurd hr (Nat.ne_of_gt hb)
      · obtain ⟨_, hx⟩ := joins_of_ownerOf g.owner
        cases hx
    · obtain ⟨x, hx⟩ := joins_of_ownerOf he
      rcases g.of_proceed hw h hu with g' | ⟨_, rfl | rfl⟩
      -- if the new record is the first after the other, it is of another service, for nobody joins
      -- one twice
      · by_cases hnew : ∃ y, w.ownerOf y = some t ∧ r < y
        · obtain ⟨y, hy, hr⟩ := hnew
          exact old g' hy hr (Nat.le_of_lt (lt_of_ownerOf hy))
        · refine ⟨_, hb, Nat.le_refl _, he, ?_⟩
          rw [hx.homeOf]
          intro hs
          refine d.since_join hw h hu g' hx (fun y hy => ?_) (Option.some.inj hs)
          exact Nat.le_of_not_lt fun hl => hnew ⟨y, hy, hl⟩
      · cases hx
      · exact absurd hb (Nat.lt_irrefl _)

theorem Bound.proceed : Bound (w.proceed t i rest) where
  manned := d.manned_proceed h
  owned := d.owned_proceed hw h hu
  published := d.published_proceed hw h hu
  newest := d.newest_proceed hw h hu
  binds := d.binds_proceed hw h hu
  bound := d.bound_proceed hw h hu
  starts := d.starts_proceed hw h hu
  vouched := d.vouched_proceed hw h hu
  latest := d.latest_proceed hw h hu
  since := d.since_proceed hw h hu

end Proceed

theorem bound_initial (n : Nat) : Bound (World.initial n) := by
  have unowned {t : ThreadId} {r : RecordId} (ho : (World.initial n).ownerOf r = some t) : False :=
    absurd (lt_of_ownerOf ho) (Nat.not_lt_zero r)
  have unbound {t : ThreadId} {r : RecordId} (hb : (World.initial n).bindingOf t = some r) :
      False := by
    rw [bindingOf_initial] at hb
    cases hb
  exact ⟨fun ho => (unowned ho).elim, fun hj => (nomatch eq_user_of_initial hj),
    fun hj => (nomatch eq_user_of_initial hj), fun hj => (nomatch eq_user_of_initial hj),
    fun hj => (nomatch eq_user_of_initial hj), fun hb => (unbound hb).elim,
    fun hj => (nomatch eq_user_of_initial hj), fun hb => (unbound hb).elim,
    fun g => (unowned g.owner).elim, fun g => (unowned g.owner).elim⟩

theorem World.Undisturbed.selfIn (u : Undisturbed w e w') : w'.selfIn t s = w.selfIn t s := by
  have hr (r : RecordId) : w'.homeOf r = w.homeOf r := u.ofRecord
  refine Option.ext fun r => ?_
  rw [selfIn_eq_some, selfIn_eq_some, u.binding, hr]

theorem Joined.undisturbed (u : Undisturbed w e w') : Joined w' t s r ↔ Joined w t s r := by
  have ho : w'.ownerOf r = w.ownerOf r := u.ofRecord
  have hm : w'.members s = w.members s := members_of_services_eq u.services
  have hp := u.mem_iff (t := t) (j := .member (.publish s r)) rfl
  have hg := u.mem_iff (t := t) (j := .member (.gateEnter s r)) rfl
  constructor
  · rintro ⟨h1, h2⟩
    exact ⟨ho ▸ h1, by rwa [hm, hp, hg] at h2⟩
  · rintro ⟨h1, h2⟩
    exact ⟨ho ▸ h1, by rwa [hm, hp, hg]⟩

theorem Starting.undisturbed (u : Undisturbed w e w') : Starting w' t r ↔ Starting w t r := by
  simp only [Starting, u.mem_iff (j := .member (.gateWait _ r)) rfl,
    u.mem_iff (j := .member (.noteStarted r)) rfl]

theorem Bound.undisturbed (d : Bound w) (u : Undisturbed w e w') : Bound w' := by
  have owner (r : RecordId) : w'.ownerOf r = w.ownerOf r := u.ofRecord
  have home (r : RecordId) : w'.homeOf r = w.homeOf r := u.ofRecord
  have started (r : RecordId) : w'.startedOf r = w.startedOf r := u.ofRecord
  -- no new code of such a step has an instruction that binds, so each of these is where it was
  have own {t : ThreadId} {r : RecordId} := u.mem_iff (t := t) (j := .member (.own r)) rfl
  have bind {t : ThreadId} {r : RecordId} := u.mem_iff (t := t) (j := .member (.bind r)) rfl
  have enter {t : ThreadId} {s : ServiceId} {r : RecordId} :=
    u.mem_iff (t := t) (j := .member (.gateEnter s r)) rfl
  have unbind {t : ThreadId} {k : Handle} := u.mem_iff (t := t) (j := .member (.unbind k)) rfl
  constructor
  case manned =>
    intro t r ho
    rw [u.length]
    exact d.manned (owner r ▸ ho)
  case owned =>
    intro t r hj
    simp only [own, bind, enter, owner] at hj ⊢
    exact d.owned hj
  case published =>
    intro t s r hj
    rw [bind]
    exact d.published ((u.mem_iff rfl).mp hj)
  case newest =>
    intro t r b hj ho
    exact d.newest (bind.mp hj) (owner b ▸ ho)
  case binds =>
    intro t r s hj hs
    rw [own, Joined.undisturbed u]
    exact d.binds (bind.mp hj) (home r ▸ hs)
  case bound =>
    intro t r s hb hs
    rw [u.binding] at hb
    rw [unbind, Joined.undisturbed u]
    exact d.bound hb (home r ▸ hs)
  case starts =>
    intro t r hj
    rw [started, Starting.undisturbed u]
    exact d.starts (bind.mp hj)
  case vouched =>
    intro t r hb
    rw [u.binding] at hb
    rw [started, Starting.undisturbed u]
    exact d.vouched hb
  case latest =>
    intro t s r g hn
    rw [u.binding, bind]
    exact d.latest ((Joined.undisturbed u).mp g) fun b hb => hn b (owner b ▸ hb)
  case since =>
    intro t s r b g ho hb
    obtain ⟨c, h1, h2, h3, h4⟩ := d.since ((Joined.undisturbed u).mp g) (owner b ▸ ho) hb
    exact ⟨c, h1, h2, owner c ▸ h3, home c ▸ h4⟩

theorem Lawful.bound (hw : Lawful n w) : Bound w := by
  refine hw.induct (bound_initial n) ?_
  intro w e hw _ d
  rcases w.step_cases e with ⟨t, i, rest, _, hc, hr, hs⟩ | u
  · rw [hs]
    exact d.proceed hw hc hr
  · exact d.undisturbed u

theorem push_nil (w : World) (t : ThreadId) : w.push t [] = w := by
  have hm : w.threads.modify t (fun x => { x with code := [] ++ x.code }) = w.threads :=
    List.modify_id t w.threads
  simp only [push, modThread, hm]

/-- A thread that is in the roster of a service, and has joined no other service since, is found
there if it attaches again: it gets the handle that it has, and no record is made. If a service has
two records of one thread, the thread has joined another service between them. -/
theorem attach_finds_the_record (hw : Lawful n w) :
    (∀ t s name rest r h, w.codeOf t = .member (.attach s name) :: rest → r ∈ w.members s →
      w.ownerOf r = some t → w.handleOf r = some h →
      (∀ b, w.ownerOf b = some t → r < b → w.homeOf b = some s) →
      w.step (.advance t) = (w.setCode t rest).answer t (.handle h)) ∧
    ∀ t s r b, r ∈ w.members s → b ∈ w.members s → w.ownerOf r = some t →
      w.ownerOf b = some t → r < b →
      ∃ c, r < c ∧ c < b ∧ w.ownerOf c = some t ∧ w.homeOf c ≠ some s := by
  have d := hw.bound
  constructor
  · intro t s name rest r k h hm ho hk hn
    have g : Joined w t s r := ⟨ho, Or.inl hm⟩
    -- before a newer record of this service there would be one of another
    have hnew (b) (hb : w.ownerOf b = some t) : b ≤ r := by
      by_contra hl
      obtain ⟨c, h1, h2, h3, h4⟩ := d.since g hb (Nat.lt_of_not_le hl)
      exact h4 (hn c h3 h1)
    have hb : w.bindingOf t = some r := by
      refine (d.latest g hnew).resolve_right fun hj => ?_
      have so := hw.reachable.sealed t
      rw [h] at hj so
      cases so.lets ((List.mem_cons.mp hj).resolve_left (fun h => by cases h))
    have hs : (w.setCode t rest).selfIn t s = some r := by
      rw [selfIn_setCode]
      exact selfIn_eq_some.mpr ⟨hb, hw.rostered.homed hm⟩
    have hk' : (w.setCode t rest).handleOf r = some k := hk
    have hstep : w.step (.advance t) = w.proceed t (.member (.attach s name)) rest :=
      advance_of_code h rfl
    rw [hstep]
    simp only [World.proceed, Instr.run, MemberInstr.run, hs, hk']
    exact push_nil _ t
  · intro t s r b hr hb hor hob hlt
    obtain ⟨c, h1, h2, h3, h4⟩ := d.since ⟨hor, Or.inl hr⟩ hob hlt
    refine ⟨c, h1, Nat.lt_of_le_of_ne h2 ?_, h3, h4⟩
    rintro rfl
    exact h4 (hw.rostered.homed hb)

/-- The main thread of a service attaches once more. -/
def attachedAgain : List Event :=
  .invoke 0 (.establish { mechanism := .safepoint }) :: turns 0 5 ++ [.invoke 0 (.attach 0 "again")]

theorem attached_again_is_found :
    ((World.initial 1).run attachedAgain).step (.advance 0) =
      (((World.initial 1).run attachedAgain).setCode 0 [.user]).answer 0 (.handle 1) := by
  have hw : Lawful 1 ((World.initial 1).run attachedAgain) := ⟨attachedAgain, by decide, rfl⟩
  refine (attach_finds_the_record hw).1 0 0 "again" [.user] 0 1 (by decide) (by decide)
    (by decide) (by decide) ?_
  intro b hb hlt
  have hl : b < 1 := lt_of_ownerOf hb
  exact absurd hlt (Nat.not_lt.mpr (Nat.le_of_lt_succ hl))

/-- The main thread of a service sets up another service before it attaches to the first again. -/
def attachedTwice : List Event :=
  .invoke 0 (.establish { mechanism := .safepoint }) :: turns 0 5 ++
    .invoke 0 (.establish { mechanism := .safepoint }) :: turns 0 5 ++
    .invoke 0 (.attach 0 "again") :: turns 0 5

/-- The first service has two records of its main thread. -/
theorem attached_twice_is_registered_twice :
    (World.initial 1).admits attachedTwice = true ∧
      ((World.initial 1).run attachedTwice).members 0 = [0, 2] ∧
      ((World.initial 1).run attachedTwice).ownerOf 0 = some 0 ∧
      ((World.initial 1).run attachedTwice).ownerOf 2 = some 0 ∧
      ((World.initial 1).run attachedTwice).threads.map (·.outcome) = [.value (.handle 3)] := by
  refine ⟨?_, ?_, ?_, ?_, ?_⟩ <;> decide

end Standstill
