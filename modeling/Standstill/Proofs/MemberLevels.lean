import Standstill.Proofs.Binding
import Standstill.Proofs.Unparked

/-!
The level of a record when it begins to stand for a thread, and when it ceases to. It begins at
`noBlock`. A thread that detaches has put it at `critical` before; only one whose code has ended gives
its record up at `blocking`.
-/
namespace Standstill

open World

variable {n : Nat} {w w' : World} {t t' : ThreadId} {s : ServiceId} {r : RecordId} {l : Level}
  {i j : Instr} {rest : List Instr} {e : Event}

/-- The record that shall come to stand for a thread. -/
def Instr.brings? : Instr → Option RecordId
  | .member (.bind r) | .member (.spawnNative _ r) => some r
  | _ => none

theorem steady_of_nested (h : i.isNested = true) : i.isSteady = true := by
  cases i with
  | guard i => cases i <;> first | rfl | cases h
  | member i => cases h
  | _ => rfl

/-- Joining or leaving, with the level of the record already where it shall be. -/
def MemberInstr.isThreshold : MemberInstr → Bool
  | .bind _ | .spawnNative .. | .detachRemove .. | .unbind _ => true
  | _ => false

/-- What may stand above a joining or a departure sets no level. -/
theorem steady_of_lets {m : MemberInstr} (hm : m.isThreshold = true)
    (hl : (Instr.member m).lets i = true) : i.isSteady = true := by
  cases hn : i.isNested
  · have hl' : m.lets i = true := by simpa only [Instr.lets, hn, Bool.false_or] using hl
    cases i with
    | guard g =>
      cases m with
      | bind | spawnNative | detachRemove | unbind => cases hl'
      | _ => cases hm
    | member g =>
      cases m with
      | bind b => cases g <;> first | rfl | cases hl'
      | spawnNative | detachRemove | unbind => cases hl'
      | _ => cases hm
    | _ => rfl
  · exact steady_of_nested hn

section Proceed

variable (c : Custody w) (ho : Orderly (w.codeOf t)) (h : w.codeOf t = i :: rest)

theorem levelOf_proceed_of_steady (hi : i.isSteady = true) :
    (w.proceed t i rest).levelOf r = w.levelOf r :=
  levelOf_run_of_steady (w := w.setCode t rest) i hi

include c ho h

/-- Nobody sets the level of a record that another looks after, or no one yet. -/
theorem levelOf_proceed_of_ne (hr : ∀ o, w.ownerOf r = some o → o ≠ t) :
    (w.proceed t i rest).levelOf r = w.levelOf r := by
  by_cases ht : Tends w t i r
  · rcases c.tends ho h ht with ht | rfl
    · exact absurd rfl (hr t ht)
    · exact levelOf_proceed_of_steady rfl
  · exact levelOf_proceed_of_not_tends ht

end Proceed

structure Levelled (w : World) : Prop where
  fresh : ∀ {t j r}, j ∈ w.codeOf t → j.brings? = some r → w.levelOf r = .noBlock
  raised : ∀ {t s r l}, .member (.detachRemove s r l) ∈ w.codeOf t → w.levelOf r ≠ .blocking
  left : ∀ {t r}, .member (.unbind (r + 1)) ∈ w.codeOf t → .user ∈ w.codeOf t →
    w.levelOf r ≠ .blocking
  /-- A thread that is about to remove its record for good does not come back. -/
  last : ∀ {t s r}, .member (.exitRemove s r) ∈ w.codeOf t → .user ∉ w.codeOf t

theorem levelled_initial (n : Nat) : Levelled (World.initial n) := by
  constructor
  case fresh =>
    intro t j r hj hr
    cases eq_user_of_initial hj
    cases hr
  case raised =>
    intro t s r l hj
    cases eq_user_of_initial hj
  case left =>
    intro t r hj
    cases eq_user_of_initial hj
  case last =>
    intro t s r hj
    cases eq_user_of_initial hj

section Proceed

variable (hw : Lawful n w) (d : Levelled w) (h : w.codeOf t = i :: rest)
  (hu : i.isReady w t = true)
include h hu

/-- Code of a thread's own that is left after a step was there before. -/
theorem user_of_proceed (hx : .user ∈ (w.proceed t i rest).codeOf t) : .user ∈ rest := by
  rw [codeOf_proceed h] at hx
  rcases List.mem_append.mp hx with hx | hx
  · have hs := List.all_eq_true.mp (run_sequel i (ne_user_of_ready hu)) _ hx
    cases hs
  · exact hx

include hw d

theorem Levelled.fresh_proceed (hj : j ∈ (w.proceed t i rest).codeOf t')
    (hr : j.brings? = some r) : (w.proceed t i rest).levelOf r = .noBlock := by
  have c := hw.reachable.custody
  have ho := hw.reachable.orderly t
  have hm : j.isMarked = true := by
    cases j with
    | member m => cases m <;> first | rfl | cases hr
    | _ => cases hr
  have hth {m} (he : j = .member m) : m.isThreshold = true := by
    subst he
    cases m <;> first | rfl | cases hr
  have owner {o} (hj : j ∈ w.codeOf t') (hown : w.ownerOf r = some o) : t' = o := by
    cases j with
    | member m =>
      cases m with
      | bind b =>
        cases hr
        exact c.eq_of_record hj rfl hown
      | spawnNative s b =>
        cases hr
        rw [(c.borne hj).2.1] at hown
        cases hown
      | _ => cases hr
    | _ => cases hr
  -- a new record is at `noBlock`
  have hnew : w.levelOf w.records.length = .noBlock := ofRecord_of_le _ _ (Nat.le_refl _)
  rcases marked_cases (hw.reachable.sealed t) h hu hj hm with
    ⟨rfl, hb⟩ | ⟨hj', hl⟩ | ⟨b, x, rfl, _, hj, _⟩
  · cases hb with
    | establishBind | attachBind | spawnNative =>
      obtain rfl := Option.some.inj hr
      exact (levelOf_proceed_of_steady rfl).trans hnew
    | _ => cases hr
  · have hsame : (w.proceed t i rest).levelOf r = w.levelOf r := by
      by_cases ht : t' = t
      · cases j with
        | member m => exact levelOf_proceed_of_steady (steady_of_lets (hth rfl) (hl ht).2)
        | _ => cases hr
      · exact levelOf_proceed_of_ne c ho h fun o hown he => ht (he ▸ owner hj' hown)
    rw [hsame]
    exact d.fresh hj' hr
  · have hx : r = x := by
      simp only [threadCode, List.mem_cons, List.not_mem_nil, or_false] at hj
      rcases hj with rfl | rfl | rfl | rfl | rfl | rfl | rfl | rfl | rfl | rfl <;> cases hr
      rfl
    rw [levelOf_proceed_of_steady rfl]
    exact d.fresh (h ▸ List.mem_cons_self) (by rw [hx]; rfl)

theorem Levelled.raised_proceed
    (hj : .member (.detachRemove s r l) ∈ (w.proceed t i rest).codeOf t') :
    (w.proceed t i rest).levelOf r ≠ .blocking := by
  have c := hw.reachable.custody
  have ho := hw.reachable.orderly t
  rcases marked_cases (hw.reachable.sealed t) h hu hj rfl with
    ⟨rfl, hb⟩ | ⟨hj, hl⟩ | ⟨b, x, rfl, _, hj, _⟩
  · cases hb with
    | detachRemove =>
      have hlv : (w.proceed t' (.member (.detachRaise s r)) rest).levelOf r =
          ((w.setCode t' rest).setLevel r .critical).levelOf r := rfl
      rw [hlv, levelOf_setLevel]
      split <;> decide
  -- from the raise to the removal the owner leaves the level alone, and so do all others
  · have hsame : (w.proceed t i rest).levelOf r = w.levelOf r := by
      by_cases ht : t' = t
      · exact levelOf_proceed_of_steady
          (steady_of_lets rfl (hl ht).2)
      · refine levelOf_proceed_of_ne c ho h fun o hown he => ?_
        exact ht (he ▸ c.eq_of_record hj rfl hown)
    rw [hsame]
    exact d.raised hj
  · simp [threadCode] at hj

theorem Levelled.left_proceed {k : Handle} (hk : k = r + 1)
    (hj : .member (.unbind k) ∈ (w.proceed t i rest).codeOf t')
    (hx : .user ∈ (w.proceed t i rest).codeOf t') :
    (w.proceed t i rest).levelOf r ≠ .blocking := by
  have c := hw.reachable.custody
  have ho := hw.reachable.orderly t
  have hi : i ∈ w.codeOf t := h ▸ List.mem_cons_self
  rcases marked_cases (hw.reachable.sealed t) h hu hj rfl with
    ⟨rfl, hb⟩ | ⟨hj', hl⟩ | ⟨b, x, rfl, _, hj, _⟩
  · have hrest := user_of_proceed h hu hx
    cases hb with
    | unbind s b l _ hh =>
      rw [hw.reachable.handleOf (lt_of_record c hi rfl), hk] at hh
      -- handles count from one, so the handle gives the record away
      obtain rfl : b = r := Nat.succ.inj (Option.some.inj hh)
      rw [levelOf_proceed_of_steady rfl]
      exact d.raised hi
    | exitUnbind s b c' hc => exact absurd (h ▸ List.mem_cons_of_mem _ hrest) (d.last hi)
  · subst hk
    obtain ⟨b, hb, hown, _⟩ := hw.enrolled.parted hj'
    obtain rfl : r = b := Nat.succ.inj hb
    by_cases ht : t' = t
    · subst ht
      rw [levelOf_proceed_of_steady (steady_of_lets rfl (hl rfl).2)]
      exact d.left hj' (h ▸ List.mem_cons_of_mem _ (user_of_proceed h hu hx))
    · have hlt : t' < w.threads.length := lt_of_codeOf (List.ne_nil_of_mem hj')
      rw [codeOf_proceed_of_ne h ht hlt] at hx
      rw [levelOf_proceed_of_ne c ho h fun o ho' he => ht (he ▸ Option.some.inj (hown.symm.trans ho'))]
      exact d.left hj' hx
  · simp [threadCode] at hj

theorem Levelled.last_proceed (hj : .member (.exitRemove s r) ∈ (w.proceed t i rest).codeOf t') :
    .user ∉ (w.proceed t i rest).codeOf t' := by
  have so := hw.reachable.sealed t
  intro hx
  rcases marked_cases so h hu hj rfl with ⟨rfl, hb⟩ | ⟨hj', hl⟩ | ⟨b, x, rfl, _, hj, _⟩
  · have hrest := user_of_proceed h hu hx
    cases hb with
    | exitRemove =>
      rw [h] at so
      obtain rfl := so.of_exitRaise
      cases hrest
  · by_cases ht : t' = t
    · subst ht
      exact d.last hj' (h ▸ List.mem_cons_of_mem _ (user_of_proceed h hu hx))
    · have hlt : t' < w.threads.length := lt_of_codeOf (List.ne_nil_of_mem hj')
      rw [codeOf_proceed_of_ne h ht hlt] at hx
      exact d.last hj' hx
  · simp [threadCode] at hj

theorem Levelled.proceed : Levelled (w.proceed t i rest) where
  fresh := d.fresh_proceed hw h hu
  raised := d.raised_proceed hw h hu
  left := d.left_proceed hw h hu rfl
  last := d.last_proceed hw h hu

end Proceed

/-- Only a thread that has code of its own left is given more. -/
theorem user_of_undisturbed (u : Undisturbed w e w') (hx : .user ∈ w'.codeOf t) :
    .user ∈ w.codeOf t := by
  have back (hi : w.inUser t = true) : .user ∈ w.codeOf t := by
    obtain ⟨rest, hr⟩ := head_user hi
    rw [hr]
    exact List.mem_cons_self
  rcases u.code t with hc | hc
  · exact hc ▸ hx
  · generalize w'.codeOf t = code at hc hx
    cases hc with
    | interrupt hi =>
      rcases List.mem_append.mp hx with hx | hx
      · cases List.all_eq_true.mp handler_nested _ hx
      · exact hx
    | invoke c hi => exact back hi
    | finish q hi => exact back hi

theorem Levelled.undisturbed (d : Levelled w) (u : Undisturbed w e w') : Levelled w' := by
  have hl (r : RecordId) : w'.levelOf r = w.levelOf r := u.ofRecord
  have old {t j} (hj : j ∈ w'.codeOf t) (hm : j.isMarked = true) : j ∈ w.codeOf t :=
    (u.mem_iff (lasting_of_marked hm)).mp hj
  constructor
  case fresh =>
    intro t j r hj hr
    rw [hl]
    refine d.fresh (old hj ?_) hr
    cases j with
    | member m => cases m <;> first | rfl | cases hr
    | _ => cases hr
  case raised =>
    intro t s r l hj
    rw [hl]
    exact d.raised (old hj rfl)
  case left =>
    intro t r hj hx
    rw [hl]
    exact d.left (old hj rfl) (user_of_undisturbed u hx)
  case last =>
    intro t s r hj hx
    exact d.last (old hj rfl) (user_of_undisturbed u hx)

theorem Lawful.levelled (hw : Lawful n w) : Levelled w := by
  refine hw.induct (levelled_initial n) ?_
  intro w e hw _ d
  rcases w.step_cases e with ⟨t, i, rest, _, h, hu, hs⟩ | u
  · rw [hs]
    exact d.proceed hw h hu
  · exact d.undisturbed u

end Standstill
