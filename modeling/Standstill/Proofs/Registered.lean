import Standstill.Proofs.Custody

/-!
Every record that the roster of a service knows has an owner. Whoever finds a record there can reach
its thread, so no request is ever withdrawn because the thread could not be told of it.
-/
namespace Standstill

open World

variable {n : Nat} {w w' : World} {t t' : ThreadId} {s : ServiceId} {r : RecordId} {i j : Instr}
  {code rest : List Instr} {e : Event}

/-! Who finds what in a roster, and who puts it there. -/

theorem entriesOf_of_services_eq (h : w'.services = w.services) :
    w'.entriesOf s = w.entriesOf s := by
  simp only [entriesOf, roster, h]

theorem mem_entriesOf_modService {s' : ServiceId} {f : Service → Service}
    {x : Handle × RecordId} (h : x ∈ (w.modService s' f).entriesOf s) :
    x ∈ w.entriesOf s ∨ s = s' ∧ ∃ v, w.services[s]? = some v ∧ x ∈ (f v).roster.entries := by
  simp only [entriesOf, roster, modService, List.getElem?_modify] at h ⊢
  by_cases hs : s' = s
  · subst hs
    rcases hv : w.services[s']? with _ | v
    · simp [hv] at h
    · right
      refine ⟨rfl, v, rfl, ?_⟩
      simpa [hv] using h
  · left
    simp only [hs, if_false] at h
    rcases hv : w.services[s]? with _ | v
    · simp [hv] at h
    · simpa [hv] using h

theorem mem_entriesOf_modRoster {s' : ServiceId} {f : Roster → Roster} {x : Handle × RecordId}
    (h : x ∈ (w.modRoster s' f).entriesOf s) :
    x ∈ w.entriesOf s ∨ s = s' ∧ x ∈ (f (w.roster s)).entries := by
  rcases mem_entriesOf_modService h with h | ⟨rfl, v, hv, h⟩
  · exact Or.inl h
  · right
    refine ⟨rfl, ?_⟩
    simpa only [roster, hv] using h

theorem entriesOf_modCensus {s' : ServiceId} (f : Census → Census) :
    (w.modCensus s' f).entriesOf s = w.entriesOf s :=
  entriesOf_congr (core_modCensus f)

theorem mem_entriesOf_insert {s' : ServiceId} {h : Handle} {f : Census → Census}
    {x : Handle × RecordId}
    (hx : x ∈ ((w.modRoster s' fun g => g.insert h r).modCensus s' f).entriesOf s) :
    x ∈ w.entriesOf s ∨ x.2 = r := by
  rw [entriesOf_modCensus] at hx
  rcases mem_entriesOf_modRoster hx with hx | ⟨_, hx⟩
  · exact Or.inl hx
  · simp only [Roster.insert, List.mem_append, List.mem_filter, List.mem_singleton] at hx
    rcases hx with ⟨hx, _⟩ | rfl
    · exact Or.inl hx
    · exact Or.inr rfl

theorem mem_entriesOf_removed {g : Roster} {b : RecordId} {h : Handle} {f : Census → Census}
    {x : Handle × RecordId} (hg : (w.roster s).removeBy w.ownerOf t h = .ok (b, g)) {s' : ServiceId}
    (hm : x ∈ ((w.modRoster s fun _ => g).modCensus s f).entriesOf s') : x ∈ w.entriesOf s' := by
  rw [entriesOf_modCensus] at hm
  rcases mem_entriesOf_modRoster hm with hx | ⟨rfl, hx⟩
  · exact hx
  · have hge : g = (w.roster s').erase h := by
      simp only [Roster.removeBy] at hg
      split at hg
      · cases hg
      · split at hg
        · exact (Prod.mk.inj (Except.ok.inj hg)).2.symm
        · split at hg
          · exact (Prod.mk.inj (Except.ok.inj hg)).2.symm
          · cases hg
    rw [hge] at hx
    exact (List.mem_filter.mp hx).1

/-- The instruction enters record `r` into a roster. -/
def MemberInstr.enters (r : RecordId) : MemberInstr → Bool
  | .publish _ b | .gateEnter _ b => b == r
  | _ => false

theorem MemberInstr.mem_entriesOf_run (i : MemberInstr) {x : Handle × RecordId}
    (h : x ∈ (i.run t w).1.entriesOf s) : x ∈ w.entriesOf s ∨ i.enters x.2 = true := by
  by_cases hq : (Instr.member i).isQuiet = true
  · rw [entriesOf_congr (i.core_run hq)] at h
    exact Or.inl h
  have same {w' : World} (hs : w'.services = w.services) (h : x ∈ w'.entriesOf s) :
      x ∈ w.entriesOf s := by rwa [entriesOf_of_services_eq hs] at h
  cases i with
  -- a new service has an empty roster, and its number is new
  | establish y =>
    left
    have hv (v : Service) (he : v.roster.entries = []) (hx : x ∈ (w.addService v).entriesOf s) :
        x ∈ w.entriesOf s := by
      simp only [entriesOf, roster, addService] at hx ⊢
      rcases Nat.lt_trichotomy s w.services.length with hl | rfl | hl
      · rwa [List.getElem?_append_left hl] at hx
      · simp [he] at hx
      · have hn : w.services.length + 1 ≤ s := hl
        rw [List.getElem?_eq_none (by simpa using hn)] at hx
        cases hx
    exact hv _ rfl h
  -- only an insertion adds an entry, the one of the record that it is for
  | publish b c | gateEnter b c =>
    simp only [MemberInstr.run] at h
    split at h
    · exact Or.inl h
    · rcases mem_entriesOf_insert h with h | h
      · exact Or.inl h
      · right
        simp [MemberInstr.enters, h]
  | detachRemove b c l =>
    left
    simp only [MemberInstr.run] at h
    split at h
    · exact h
    · split at h
      · exact same rfl h
      next hg => exact mem_entriesOf_removed hg h
  | exitRemove b c =>
    left
    simp only [MemberInstr.run] at h
    split at h
    · exact h
    · split at h
      · rwa [entriesOf_modCensus] at h
      next hg => exact mem_entriesOf_removed hg h
  | attach | unbind | spawnNative =>
    left
    simp only [MemberInstr.run] at h
    repeat' split at h
    all_goals exact same rfl h
  | bind | detachRaise | clearRequest | setLevel | spawnRecord | own | exitRaise => exact Or.inl h
  | _ => exact absurd rfl hq

theorem StopInstr.entriesOf_run (i : StopInstr) :
    (i.run t w).1.entriesOf s = w.entriesOf s := by
  by_cases hq : (Instr.stop i).isQuiet = true
  · exact entriesOf_congr (i.core_run hq)
  · exact entriesOf_of_services_eq (i.services_run hq)

theorem mem_entriesOf_run (i : Instr) {x : Handle × RecordId}
    (h : x ∈ (i.run t w).1.entriesOf s) :
    x ∈ w.entriesOf s ∨ ∃ k : MemberInstr, i = .member k ∧ k.enters x.2 = true := by
  cases i with
  | user => exact Or.inl h
  | sync i =>
    obtain ⟨_, _, he⟩ := i.run_fst (w := w) (t := t)
    rw [Instr.run, he] at h
    exact Or.inl h
  | guard i => exact Or.inl (entriesOf_of_services_eq i.services_run ▸ h)
  | park i => exact Or.inl (entriesOf_of_services_eq i.services_run ▸ h)
  | stop i => exact Or.inl (i.entriesOf_run ▸ h)
  | pool i => exact Or.inl (entriesOf_congr i.core_run ▸ h)
  | member i => exact (i.mem_entriesOf_run h).imp_right fun he => ⟨i, rfl, he⟩
  | read i => exact Or.inl (entriesOf_congr i.core_run ▸ h)

/-! Whoever stops a thread has found its record in a roster. -/

/-- The record that a thread is stopping, as long as it may still fail to tell the owner. -/
def StopInstr.target? : StopInstr → Option RecordId
  | .readEpoch _ r | .request _ r _ | .readLevel _ r _ _ | .deliver _ r _ _ => some r
  | _ => none

def Instr.target? : Instr → Option RecordId
  | .stop i => i.target?
  | _ => none

theorem lookup_mem {α β : Type} [BEq α] [LawfulBEq α] {a : α} {b : β} {l : List (α × β)}
    (h : l.lookup a = some b) : ∃ x ∈ l, x.2 = b := by
  induction l with
  | nil => cases h
  | cons x l ih =>
    rw [List.lookup_cons] at h
    split at h
    · exact ⟨x, List.mem_cons_self, Option.some.inj h⟩
    · obtain ⟨y, hy, hb⟩ := ih h
      exact ⟨y, List.mem_cons_of_mem _ hy, hb⟩

/-- New code is after the target of its instruction, or after one just found. -/
theorem StopInstr.target_of_run (i : StopInstr) (hj : j ∈ (i.run t w).2)
    (hr : j.target? = some r) : i.target? = some r ∨ ∃ s, ∃ x ∈ w.entriesOf s, x.2 = r := by
  cases j with
  | stop k =>
    cases i.leads_of_run hj with
    | readEpoch s h b hb =>
      obtain rfl : b = r := Option.some.inj hr
      exact Or.inr ⟨s, lookup_mem hb⟩
    | request | readLevel | deliver => exact Or.inl hr
    | _ => cases hr
  | _ => cases hr

def Instr.isStop : Instr → Bool
  | .stop _ => true
  | _ => false

theorem stopless_of_nested {code : List Instr} (h : code.all Instr.isNested = true) :
    code.all (!·.isStop) = true := by
  apply List.all_eq_true.mpr
  intro j hj
  have hn := List.all_eq_true.mp h j hj
  cases j with
  | stop => cases hn
  | _ => rfl

section Stopless

attribute [local simp] Instr.isStop

theorem stopless_of_work (h : i.isWork = true) : (!i.isStop) = true := by
  cases i with
  | stop => cases h
  | _ => rfl

theorem MemberInstr.run_stopless (i : MemberInstr) : (i.run t w).2.all (!·.isStop) = true := by
  cases i <;> simp only [MemberInstr.run] <;> repeat' split
  all_goals rfl

theorem GuardInstr.run_stopless (i : GuardInstr) : (i.run t w).2.all (!·.isStop) = true := by
  cases i <;> simp only [GuardInstr.run] <;> repeat' split
  all_goals rfl

/-- Only an instruction that stops a thread or lets it go leaves more of its kind. -/
theorem run_stopless (i : Instr) (h : i.isStop = false) :
    (i.run t w).2.all (!·.isStop) = true := by
  cases i with
  | user => rfl
  | sync i => cases i <;> rfl
  | guard i => exact i.run_stopless
  | park i => exact stopless_of_nested (run_nested rfl)
  | stop i => cases h
  | pool i => exact all_imp stopless_of_work i.run_work
  | member i => exact i.run_stopless
  | read i => exact all_imp stopless_of_work i.run_work

end Stopless

theorem isStop_of_run (i : Instr) {k : StopInstr} (hj : .stop k ∈ (i.run t w).2) :
    ∃ k', i = .stop k' := by
  cases hi : i.isStop
  · have hn := List.all_eq_true.mp (run_stopless (w := w) (t := t) i hi) _ hj
    cases hn
  · cases i with
    | stop k' => exact ⟨k', rfl⟩
    | _ => cases hi

theorem target_of_run (i : Instr) (hj : j ∈ (i.run t w).2) (hr : j.target? = some r) :
    i.target? = some r ∨ ∃ s, ∃ x ∈ w.entriesOf s, x.2 = r := by
  cases j with
  | stop k =>
    obtain ⟨k', rfl⟩ := isStop_of_run i hj
    exact k'.target_of_run hj hr
  | _ => cases hr

/-- A request is withdrawn only by a thread that cannot reach the owner. -/
theorem withdraw_of_run (i : Instr) (hj : .stop (.withdraw r) ∈ (i.run t w).2) :
    i.target? = some r ∧ w.ownerOf r = none := by
  obtain ⟨k, rfl⟩ := isStop_of_run i hj
  cases k.leads_of_run hj with
  | withdraw s _ epoch already ho =>
    simp only [isOutOfReach, Bool.and_eq_true, Option.isNone_iff_eq_none] at ho
    exact ⟨rfl, ho.2⟩

structure Registered (w : World) : Prop where
  rostered : ∀ {s x}, x ∈ w.entriesOf s → w.ownerOf x.2 ≠ none
  sought : ∀ {t j r}, j ∈ w.codeOf t → j.target? = some r → w.ownerOf r ≠ none
  kept : ∀ t r, .stop (.withdraw r) ∉ w.codeOf t

theorem registered_initial (n : Nat) : Registered (World.initial n) := by
  refine ⟨fun h => ?_, fun h hr => ?_, fun t r h => ?_⟩
  · cases h
  · cases eq_user_of_initial h
    cases hr
  · cases eq_user_of_initial h

section Proceed

variable (g : Registered w) (c : Custody w) (ho : Orderly (w.codeOf t)) (h : w.codeOf t = i :: rest)
include g c ho h

omit g ho in
theorem owned_proceed (hr : w.ownerOf r ≠ none) : (w.proceed t i rest).ownerOf r ≠ none := by
  obtain ⟨o, hr⟩ := Option.ne_none_iff_exists'.mp hr
  rw [c.ownerOf_proceed h hr]
  exact fun h => by cases h

theorem Registered.rostered_proceed {x : Handle × RecordId}
    (hx : x ∈ (w.proceed t i rest).entriesOf s) : (w.proceed t i rest).ownerOf x.2 ≠ none := by
  rcases mem_entriesOf_run (w := w.setCode t rest) (t := t) i hx with hx | ⟨k, rfl, hk⟩
  · exact owned_proceed c h (g.rostered (s := s) hx)
  · have hr : (Instr.member k).record? = some x.2 := by
      cases k with
      | publish | gateEnter =>
        exact congrArg some (by simpa [MemberInstr.enters] using hk)
      | _ => cases hk
    rw [c.tends_proceed ho h (Or.inr (Or.inr hr))]
    exact fun h => by cases h

omit ho in
theorem Registered.sought_proceed (hm : j ∈ (w.proceed t i rest).codeOf t')
    (hr : j.target? = some r) : (w.proceed t i rest).ownerOf r ≠ none := by
  apply owned_proceed c h
  rcases mem_codeOf_proceed h hm with ⟨rfl, hj⟩ | ⟨rfl, hj⟩ | ⟨_, hj⟩ | ⟨s, b, _, _, hj, _⟩
  · rcases target_of_run i hj hr with hi | ⟨s, x, hx, rfl⟩
    · exact g.sought (h ▸ List.mem_cons_self) hi
    · exact g.rostered (s := s) hx
  · exact g.sought (h ▸ List.mem_cons_of_mem _ hj) hr
  · exact g.sought hj hr
  · cases (threadCode_none rfl hj).symm.trans hr

omit c ho in
theorem Registered.kept_proceed (t' : ThreadId) (r : RecordId) :
    .stop (.withdraw r) ∉ (w.proceed t i rest).codeOf t' := by
  intro hm
  rcases mem_codeOf_proceed h hm with ⟨rfl, hj⟩ | ⟨rfl, hj⟩ | ⟨_, hj⟩ | ⟨s, b, _, _, hj, _⟩
  · obtain ⟨hi, ho⟩ := withdraw_of_run i hj
    exact g.sought (h ▸ List.mem_cons_self) hi ho
  · exact g.kept t' r (h ▸ List.mem_cons_of_mem _ hj)
  · exact g.kept t' r hj
  · simp [threadCode] at hj

end Proceed

/-- No call begins with anything but a count, a guard or a look-up. -/
theorem Call.stop_of_code (c : Call) {k : StopInstr} (hk : .stop k ∈ c.code w t) :
    k.isOpening = true := c.opening_of_code hk

theorem Call.code_target (c : Call) :
    ∀ j ∈ c.code w t, j.target? = none ∧ j ≠ .stop (.withdraw r) := by
  intro j hj
  constructor
  · cases j with
    | stop k => cases k <;> first | rfl | cases c.stop_of_code hj
    | _ => rfl
  · rintro rfl
    cases c.stop_of_code hj

theorem Registered.undisturbed (g : Registered w) (u : Undisturbed w e w') : Registered w' := by
  have ho (r : RecordId) : w'.ownerOf r = w.ownerOf r := u.ofRecord
  have hold {t j} (hj : j ∈ w'.codeOf t) :
      j ∈ w.codeOf t ∨ j.target? = none ∧ ∀ r, j ≠ .stop (.withdraw r) := by
    cases u.origin hj with
    | kept h => exact Or.inl h
    | handler _ _ h =>
      have hs : (w.handlerCode t ++ [Instr.guard (.setMask false)]).all (!·.isStop) = true := by
        rw [List.all_append, stopless_of_nested handlerCode_nested]
        rfl
      have hn := List.all_eq_true.mp hs j h
      cases j with
      | stop => cases hn
      | _ => exact Or.inr ⟨rfl, fun _ h => by cases h⟩
    | call c _ _ h => exact Or.inr ⟨(c.code_target (r := 0) j h).1, fun r => (c.code_target j h).2⟩
    | mourn s r h =>
      subst h
      exact Or.inr ⟨rfl, fun _ h => by cases h⟩
  refine ⟨fun h => ?_, fun h hr => ?_, fun t r h => ?_⟩
  · rw [ho]
    rw [entriesOf_of_services_eq u.services] at h
    exact g.rostered h
  · rw [ho]
    rcases hold h with h | ⟨hn, _⟩
    · exact g.sought h hr
    · rw [hn] at hr
      cases hr
  · rcases hold h with h | ⟨_, hn⟩
    · exact g.kept t r h
    · exact hn r rfl

theorem Reachable.registered (h : Reachable n w) : Registered w := by
  refine h.induct (registered_initial n) ?_
  intro w e hw g
  rcases w.step_cases e with ⟨t, i, rest, _, hc, _, hs⟩ | hu
  · rw [hs]
    exact ⟨g.rostered_proceed hw.custody (hw.orderly t) hc, g.sought_proceed hw.custody hc,
      g.kept_proceed hc⟩
  · exact g.undisturbed hu

end Standstill
