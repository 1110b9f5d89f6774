import Standstill.Proofs.Steps

/-!
Each record is looked after by one thread. A record comes into the world with its owner, or it waits
for the thread that is started for it to take it over; from then on only the owner's own code is
about it.
-/
namespace Standstill

open World

variable {n : Nat} {w w' : World} {t t' : ThreadId} {r : RecordId} {i j : Instr}
  {code rest : List Instr} {e : Event}

/-! Every thread's code is orderly. -/

theorem Orderly.tail (h : Orderly (i :: rest)) : Orderly rest := (List.pairwise_cons.mp h).2

theorem calm_epilogue {panicked : Bool} (h : ∀ i ∈ code, i.isUrgent = false) :
    ∀ i ∈ epilogue panicked code, i.isUrgent = false := by
  intro i hi
  rcases mem_epilogue hi with hi | ⟨s, r, rfl, _⟩
  · exact h i hi
  · rfl

theorem World.Takes.orderly (h : Takes w t e code) (ho : Orderly (w.codeOf t)) : Orderly code := by
  cases h with
  | interrupt h =>
    apply ho.append_nested
    rw [List.all_append, handlerCode_nested]
    rfl
  | invoke c h =>
    obtain ⟨rest, hc⟩ := head_user h
    apply (c.code_orderly).append_calm
    rw [hc] at ho ⊢
    exact List.forall_mem_cons.mpr ⟨rfl, ho.calm rfl⟩
  | finish p h =>
    obtain ⟨rest, hc⟩ := head_user h
    rw [hc] at ho ⊢
    exact orderly_of_calm (calm_epilogue (ho.calm rfl))

theorem orderly_threadCode (s : ServiceId) (r : RecordId) : Orderly (threadCode s r) :=
  orderly_of_late rfl

theorem orderly_proceed (h : w.codeOf t = i :: rest) (ho : ∀ t, Orderly (w.codeOf t)) :
    Orderly ((w.proceed t i rest).codeOf t') := by
  have hir : Orderly (i :: rest) := h ▸ ho t
  refine codeOf_proceed_cases h ?_ (ho t') List.Pairwise.nil orderly_threadCode
  cases hn : i.isNested
  · exact (run_orderly i).append_calm (hir.calm hn)
  · exact hir.tail.append_nested (run_nested hn)

theorem codeOf_initial (n : Nat) (t : ThreadId) :
    (World.initial n).codeOf t = [.user] ∨ (World.initial n).codeOf t = [] := by
  by_cases h : t < n
  · left
    simp [codeOf, ofThread, initial, h]
  · right
    exact ofThread_of_le _ _ (by simpa [initial] using h)

theorem eq_user_of_initial {n : Nat} {t : ThreadId} {j : Instr}
    (hj : j ∈ (World.initial n).codeOf t) : j = .user := by
  rcases codeOf_initial n t with hc | hc <;> rw [hc] at hj
  · exact List.mem_singleton.mp hj
  · cases hj

theorem bindingOf_initial (n : Nat) (t : ThreadId) : (World.initial n).bindingOf t = none := by
  by_cases ht : t < n
  · simp [bindingOf, ofThread, initial, ht]
  · exact ofThread_of_le _ _ (by simpa [initial] using ht)

theorem scopesOf_initial (n : Nat) (t : ThreadId) : (World.initial n).scopesOf t = [] := by
  by_cases ht : t < n
  · simp [scopesOf, ofThread, initial, ht]
  · exact ofThread_of_le _ _ (by simpa [initial] using ht)

theorem orderly_step (ho : ∀ t, Orderly (w.codeOf t)) (e : Event) (t : ThreadId) :
    Orderly ((w.step e).codeOf t) := by
  rcases w.step_cases e with ⟨q, i, rest, _, hc, _, hs⟩ | hu
  · rw [hs]
    exact orderly_proceed hc ho
  · rcases hu.code t with hc | hc
    · rw [hc]
      exact ho t
    · exact hc.orderly (ho t)

theorem Reachable.orderly (h : Reachable n w) (t : ThreadId) : Orderly (w.codeOf t) := by
  revert t
  refine h.induct (P := fun w => ∀ t, Orderly (w.codeOf t)) ?_ fun w e _ ho => orderly_step ho e
  intro t
  rcases codeOf_initial n t with h | h <;> rw [h] <;> simp [Orderly]

/-! Custody. -/

theorem parkRecord_of_nested (hn : i.isNested = true) (hr : i.record? = some r) :
    i.parkRecord? = some r := by
  cases i with
  | guard i =>
    cases i with
    | setMask => cases hr
    | _ => cases hn
  | sync i => exact hr
  | park i => exact hr
  | _ => cases hn

/-- Who looks after which record. -/
structure Custody (w : World) : Prop where
  bound : ∀ {t r}, w.bindingOf t = some r → w.ownerOf r = some t
  opened : ∀ {t x r}, x ∈ w.scopesOf t → x.record? = some r → w.ownerOf r = some t
  parked : ∀ {t j r}, j ∈ w.codeOf t → j.parkRecord? = some r → w.ownerOf r = some t
  kept : ∀ {t j r}, j ∈ w.codeOf t → j.record? = some r →
    w.ownerOf r = some t ∨ .member (.own r) ∈ w.codeOf t
  /-- A record that a thread is about to take over has no owner, and no other thread is about to. -/
  pledged : ∀ {t r}, .member (.own r) ∈ w.codeOf t →
    r < w.records.length ∧ w.ownerOf r = none ∧
      ∀ t', .member (.own r) ∈ w.codeOf t' → t' = t
  /-- The thread that shall take a record over is started only once. -/
  borne : ∀ {t s r}, .member (.spawnNative s r) ∈ w.codeOf t →
    r < w.records.length ∧ w.ownerOf r = none ∧ (∀ t', .member (.own r) ∉ w.codeOf t') ∧
      ∀ t' s', .member (.spawnNative s' r) ∈ w.codeOf t' → t' = t

theorem custody_initial (n : Nat) : Custody (World.initial n) := by
  constructor
  case bound =>
    intro t r h
    rw [bindingOf_initial] at h
    cases h
  case opened =>
    intro t x r h
    rw [scopesOf_initial] at h
    cases h
  case parked =>
    intro t j r h hr
    cases eq_user_of_initial h
    cases hr
  case kept =>
    intro t j r h hr
    cases eq_user_of_initial h
    cases hr
  case pledged =>
    intro t r h
    cases eq_user_of_initial h
  case borne =>
    intro t s r h
    cases eq_user_of_initial h

theorem lt_of_ownerOf {o : ThreadId} (h : w.ownerOf r = some o) : r < w.records.length := by
  by_contra hn
  rw [ownerOf_eq, ofRecord_of_le _ _ (Nat.le_of_not_lt hn)] at h
  cases h

section Proceed

variable (c : Custody w) (ho : Orderly (w.codeOf t)) (h : w.codeOf t = i :: rest)
include c h

theorem Custody.ownerOf_proceed {o : ThreadId} (hr : w.ownerOf r = some o) :
    (w.proceed t i rest).ownerOf r = some o := by
  rcases World.ownerOf_proceed w t i rest r with
    hs | ⟨_, rfl | hl⟩
  · rw [hs, hr]
  · have hn := (c.pledged (t := t) (r := r) (h ▸ List.mem_cons_self)).2.1
    rw [hn] at hr
    cases hr
  · have hlt := lt_of_ownerOf hr
    exact absurd hl (Nat.ne_of_lt hlt)

omit c h in
theorem ownerOf_proceed_none (hr : w.ownerOf r = none) (hi : i ≠ .member (.own r))
    (hl : r < w.records.length) :
    (w.proceed t i rest).ownerOf r = none := by
  rcases World.ownerOf_proceed w t i rest r with
    hs | ⟨_, hi' | hl'⟩
  · rw [hs, hr]
  · exact absurd hi' hi
  · exact absurd hl' (Nat.ne_of_lt hl)

include ho

/-- A thread that looks after a record owns it, or takes it over at this very step. -/
theorem Custody.tends (hr : Tends w t i r) : w.ownerOf r = some t ∨ i = .member (.own r) := by
  have hi : i ∈ w.codeOf t := h ▸ List.mem_cons_self
  rcases hr with hr | ⟨x, hx, hr⟩ | hr
  · exact Or.inl (c.bound hr)
  · exact Or.inl (c.opened hx hr)
  -- code about a record stands above the instruction by which its thread takes the record over
  · rcases c.kept hi hr with hk | hk
    · exact Or.inl hk
    · rw [h] at hk ho
      rcases List.mem_cons.mp hk with hk | hk
      · exact Or.inr hk.symm
      · left
        cases hn : i.isNested
        · cases ho.calm hn _ hk
        · apply c.parked hi
          exact parkRecord_of_nested hn hr

/-- A thread looks after nothing that another owns. -/
theorem Custody.not_tends (hr : w.ownerOf r = some t') (ht : t' ≠ t) : ¬Tends w t i r := by
  intro hn
  rcases c.tends ho h hn with hn | rfl
  · rw [hr] at hn
    exact ht (Option.some.inj hn)
  · have hp := (c.pledged (t := t) (r := r) (h ▸ List.mem_cons_self)).2.1
    rw [hr] at hp
    cases hp

theorem Custody.tends_proceed (hr : Tends w t i r) : (w.proceed t i rest).ownerOf r = some t := by
  rcases c.tends ho h hr with hr | rfl
  · exact c.ownerOf_proceed h hr
  · exact ownerOf_proceed_own (c.pledged (t := t) (h ▸ List.mem_cons_self)).1

omit c in
/-- What is urgent and not nested lies under nothing that is not nested. -/
theorem not_mem_rest (hu : j.isUrgent = true) (hn : i.isNested = false) : j ∉ rest := by
  intro hj
  rw [h] at ho
  rw [ho.calm hn j hj] at hu
  cases hu

theorem Custody.bound_proceed (hr : (w.proceed t i rest).bindingOf t' = some r) :
    (w.proceed t i rest).ownerOf r = some t' := by
  rcases bindingOf_proceed w t t' i rest with
    hs | ⟨rfl, hb⟩
  · exact c.ownerOf_proceed h (c.bound (hs ▸ hr))
  · exact c.tends_proceed ho h (Or.inr (Or.inr (by rw [hb r hr]; rfl)))

omit ho in
theorem Custody.opened_proceed {x : Scope} (hx : x ∈ (w.proceed t i rest).scopesOf t')
    (hr : x.record? = some r) :
    (w.proceed t i rest).ownerOf r = some t' := by
  rcases mem_scopesOf_proceed hx with hx | ⟨rfl, _, hx⟩
  · exact c.ownerOf_proceed h (c.opened hx hr)
  · cases hx with
    | bare _ hn =>
      rw [hn] at hr
      cases hr
    | guard b l hb =>
      obtain rfl : b = r := Option.some.inj hr
      exact c.ownerOf_proceed h (c.bound hb)
    | phase b hb =>
      obtain rfl : b = r := Option.some.inj hr
      exact c.ownerOf_proceed h (c.bound hb)

omit ho in
theorem Custody.parked_proceed (hm : j ∈ (w.proceed t i rest).codeOf t')
    (hr : j.parkRecord? = some r) :
    (w.proceed t i rest).ownerOf r = some t' := by
  have hi : i ∈ w.codeOf t := h ▸ List.mem_cons_self
  rcases mem_codeOf_proceed h hm with ⟨rfl, hj⟩ | ⟨rfl, hj⟩ | ⟨_, hj⟩ | ⟨s, b, _, _, hj, _⟩
  · rcases remainder_parkRecord hj hr with hb | ⟨x, hx, hb⟩ | hb
    · exact c.ownerOf_proceed h (c.bound hb)
    · exact c.ownerOf_proceed h (c.opened hx hb)
    · exact c.ownerOf_proceed h (c.parked hi hb)
  · exact c.ownerOf_proceed h (c.parked (h ▸ List.mem_cons_of_mem _ hj) hr)
  · exact c.ownerOf_proceed h (c.parked hj hr)
  · cases (threadCode_none rfl hj).symm.trans hr

theorem Custody.kept_proceed (hm : j ∈ (w.proceed t i rest).codeOf t') (hr : j.record? = some r) :
    (w.proceed t i rest).ownerOf r = some t' ∨
      .member (.own r) ∈ (w.proceed t i rest).codeOf t' := by
  -- what was the thread's stays so, and what it was to take over it takes over or has still to
  have keep (hk : j ∈ w.codeOf t') : (w.proceed t i rest).ownerOf r = some t' ∨
      .member (.own r) ∈ (w.proceed t i rest).codeOf t' := by
    rcases c.kept hk hr with ho' | ho'
    · exact Or.inl (c.ownerOf_proceed h ho')
    · by_cases he : t' = t ∧ i = .member (.own r)
      · obtain ⟨rfl, rfl⟩ := he
        exact Or.inl (c.tends_proceed ho h (Or.inr (Or.inr rfl)))
      · exact Or.inr (mem_codeOf_proceed_of_mem h ho' fun ht hi' => he ⟨ht, hi'.symm⟩)
  rcases mem_codeOf_proceed h hm with ⟨rfl, hj⟩ | ⟨rfl, hj⟩ | ⟨_, hj⟩ | ⟨s, b, _, _, hj, hc⟩
  · left
    by_cases ht : Tends w t' i r
    · exact c.tends_proceed ho h ht
    · exact remainder_avoids ht hj hr
  · exact keep (h ▸ List.mem_cons_of_mem _ hj)
  · exact keep hj
  · right
    rw [hc]
    simp only [threadCode, List.mem_cons, List.not_mem_nil, or_false] at hj ⊢
    rcases hj with rfl | rfl | rfl | rfl | rfl | rfl | rfl | rfl | rfl | rfl <;>
      simp_all [Instr.record?, MemberInstr.record?, Instr.parkRecord?]

omit c ho in
/-- A pledge is an old one, or that of a thread just started. -/
theorem own_of_proceed (hm : .member (.own r) ∈ (w.proceed t i rest).codeOf t') :
    .member (.own r) ∈ w.codeOf t' ∧ (t' = t → .member (.own r) ∈ rest) ∨
      t' = w.threads.length ∧ ∃ s, i = .member (.spawnNative s r) := by
  rcases mem_codeOf_proceed h hm with ⟨rfl, hj⟩ | ⟨rfl, hj⟩ | ⟨ht, hj⟩ | ⟨s, b, hb, he, hj, _⟩
  · obtain ⟨_, _, _, _, hb⟩ := remainder_birth hj rfl
    cases hb
  · exact Or.inl ⟨h ▸ List.mem_cons_of_mem _ hj, fun _ => hj⟩
  · exact Or.inl ⟨hj, fun ht' => absurd ht' ht⟩
  · right
    simp only [threadCode, List.mem_cons, List.not_mem_nil, or_false] at hj
    obtain rfl : r = b := by simpa using hj
    exact ⟨he, s, hb⟩

omit c ho in
/-- A thread to be started is an old one, or it is for a record just made. -/
theorem spawnNative_of_proceed {s : ServiceId}
    (hm : .member (.spawnNative s r) ∈ (w.proceed t i rest).codeOf t') :
    .member (.spawnNative s r) ∈ w.codeOf t' ∧ (t' = t → .member (.spawnNative s r) ∈ rest) ∨
      t' = t ∧ r = w.records.length ∧ ∃ s o k, i = .member (.spawnRecord s o k) := by
  rcases mem_codeOf_proceed h hm with ⟨rfl, hj⟩ | ⟨rfl, hj⟩ | ⟨ht, hj⟩ | ⟨s, b, hb, he, hj, _⟩
  · obtain ⟨s, o, k, hk, hb⟩ := remainder_birth hj rfl
    simp only [Instr.member.injEq, MemberInstr.spawnNative.injEq] at hb
    exact Or.inr ⟨rfl, hb.2, s, o, k, hk⟩
  · exact Or.inl ⟨h ▸ List.mem_cons_of_mem _ hj, fun _ => hj⟩
  · exact Or.inl ⟨hj, fun ht' => absurd ht' ht⟩
  · simp [threadCode] at hj

theorem Custody.pledged_proceed (hm : .member (.own r) ∈ (w.proceed t i rest).codeOf t') :
    r < (w.proceed t i rest).records.length ∧ (w.proceed t i rest).ownerOf r = none ∧
      ∀ t₁, .member (.own r) ∈ (w.proceed t i rest).codeOf t₁ → t₁ = t' := by
  have hi : i ∈ w.codeOf t := h ▸ List.mem_cons_self
  rcases own_of_proceed h hm with ⟨hj, hjr⟩ | ⟨ht', s, rfl⟩
  · obtain ⟨hl, hn, hu⟩ := c.pledged hj
    -- the one that takes the record over now is not about to a second time
    have hne : i ≠ .member (.own r) := by
      rintro rfl
      obtain rfl := hu t hi
      exact not_mem_rest ho h rfl rfl (hjr rfl)
    refine ⟨Nat.lt_of_lt_of_le hl records_length_proceed, ownerOf_proceed_none hn hne hl, ?_⟩
    intro t₁ h₁
    rcases own_of_proceed h h₁ with ⟨h₁, _⟩ | ⟨_, s, rfl⟩
    · exact hu t₁ h₁
    · exact absurd hj ((c.borne hi).2.2.1 t')
  · obtain ⟨hl, hn, hu, _⟩ := c.borne hi
    refine ⟨Nat.lt_of_lt_of_le hl records_length_proceed,
      ownerOf_proceed_none hn (by simp) hl, ?_⟩
    intro t₁ h₁
    rcases own_of_proceed h h₁ with ⟨h₁, _⟩ | ⟨ht₁, _⟩
    · exact absurd h₁ (hu t₁)
    · rw [ht₁, ht']

theorem Custody.borne_proceed {s : ServiceId}
    (hm : .member (.spawnNative s r) ∈ (w.proceed t i rest).codeOf t') :
    r < (w.proceed t i rest).records.length ∧ (w.proceed t i rest).ownerOf r = none ∧
      (∀ t₁, .member (.own r) ∉ (w.proceed t i rest).codeOf t₁) ∧
      ∀ t₁ s₁, .member (.spawnNative s₁ r) ∈ (w.proceed t i rest).codeOf t₁ → t₁ = t' := by
  have hi : i ∈ w.codeOf t := h ▸ List.mem_cons_self
  rcases spawnNative_of_proceed h hm with ⟨hj, hjr⟩ | ⟨rfl, rfl, s₀, o, k, rfl⟩
  · obtain ⟨hl, hn, hu, hone⟩ := c.borne hj
    have hne : i ≠ .member (.own r) := by
      rintro rfl
      exact hu t hi
    refine ⟨Nat.lt_of_lt_of_le hl records_length_proceed, ownerOf_proceed_none hn hne hl, ?_, ?_⟩
    · intro t₁ h₁
      rcases own_of_proceed h h₁ with ⟨h₁, _⟩ | ⟨_, s₁, rfl⟩
      · exact hu t₁ h₁
      · obtain rfl := hone t s₁ hi
        exact not_mem_rest ho h rfl rfl (hjr rfl)
    · intro t₁ s₁ h₁
      rcases spawnNative_of_proceed h h₁ with ⟨h₁, _⟩ | ⟨_, he, _⟩
      · exact hone t₁ s₁ h₁
      · exact absurd he (Nat.ne_of_lt hl)
  · refine ⟨?_, ownerOf_proceed_spawnRecord, ?_, ?_⟩
    · exact lt_records_proceed_spawnRecord
    · intro t₁ h₁
      rcases own_of_proceed h h₁ with ⟨h₁, _⟩ | ⟨_, _, hb⟩
      · exact absurd rfl (Nat.ne_of_lt (c.pledged h₁).1)
      · cases hb
    · intro t₁ s₁ h₁
      rcases spawnNative_of_proceed h h₁ with ⟨h₁, _⟩ | ⟨he, _⟩
      · exact absurd rfl (Nat.ne_of_lt (c.borne h₁).1)
      · exact he

theorem Custody.proceed : Custody (w.proceed t i rest) where
  bound := c.bound_proceed ho h
  opened := c.opened_proceed h
  parked := c.parked_proceed h
  kept := c.kept_proceed ho h
  pledged := c.pledged_proceed ho h
  borne := c.borne_proceed ho h

end Proceed

section Undisturbed

variable (c : Custody w) (u : Undisturbed w e w')
include c u

theorem Custody.undisturbed : Custody w' := by
  have ho (r : RecordId) : w'.ownerOf r = w.ownerOf r := u.ofRecord
  -- what is new is about the thread's own record, or mourns for one that it was to take out
  have hold {t j} (hj : j ∈ w'.codeOf t) : j ∈ w.codeOf t ∨ j.isBirth = false ∧
      ((∀ r, j.record? = some r → w.bindingOf t = some r) ∨
        ∃ s r, j = .member (.mourn s r) ∧ .member (.exitRaise s r) ∈ w.codeOf t) := by
    rcases u.code t with hc | hc
    · exact Or.inl (hc ▸ hj)
    · exact hc.mem hj
  have hkeep {t r} (hj : .member (.own r) ∈ w.codeOf t) : .member (.own r) ∈ w'.codeOf t := by
    rcases u.code t with hc | hc
    · rw [hc]
      exact hj
    · exact hc.mem_of_mem hj (by simp)
  have hbirth {t j} (hj : j ∈ w'.codeOf t) (hb : j.isBirth = true) : j ∈ w.codeOf t := by
    rcases hold hj with hj | ⟨hn, _⟩
    · exact hj
    · rw [hn] at hb
      cases hb
  constructor
  case bound =>
    intro t r hr
    rw [ho]
    exact c.bound (u.binding t ▸ hr)
  case opened =>
    intro t x r hx hr
    rw [ho]
    exact c.opened (u.scopes t ▸ hx) hr
  case parked =>
    intro t j r hj hr
    rw [ho]
    rcases hold hj with hj | ⟨_, hb | ⟨s, b, rfl, _⟩⟩
    · exact c.parked hj hr
    · exact c.bound (hb r (record_of_parkRecord hr))
    · cases hr
  case kept =>
    intro t j r hj hr
    rw [ho]
    rcases hold hj with hj | ⟨_, hb | ⟨s, b, rfl, hx⟩⟩
    · exact (c.kept hj hr).imp_right hkeep
    · exact Or.inl (c.bound (hb r hr))
    · exact (c.kept hx hr).imp_right hkeep
  case pledged =>
    intro t r hj
    rw [ho, u.records]
    obtain ⟨hl, hn, hu⟩ := c.pledged (hbirth hj rfl)
    exact ⟨hl, hn, fun t₁ h₁ => hu t₁ (hbirth h₁ rfl)⟩
  case borne =>
    intro t s r hj
    rw [ho, u.records]
    obtain ⟨hl, hn, hu, hone⟩ := c.borne (hbirth hj rfl)
    exact ⟨hl, hn, fun t₁ h₁ => hu t₁ (hbirth h₁ rfl),
      fun t₁ s₁ h₁ => hone t₁ s₁ (hbirth h₁ rfl)⟩

end Undisturbed

theorem Custody.step (c : Custody w) (ho : ∀ t, Orderly (w.codeOf t)) (e : Event) :
    Custody (w.step e) := by
  rcases w.step_cases e with ⟨t, i, rest, _, hc, _, hs⟩ | hu
  · rw [hs]
    exact c.proceed (ho t) hc
  · exact c.undisturbed hu

theorem Reachable.custody (h : Reachable n w) : Custody w :=
  h.induct (custody_initial n) fun _ e hw c => c.step hw.orderly e

end Standstill
