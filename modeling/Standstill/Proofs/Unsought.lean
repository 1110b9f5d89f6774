import Standstill.Proofs.Departures
import Standstill.Proofs.Hiring
import Standstill.Proofs.LettingGo
import Standstill.Proofs.PoolTables

/-!
A thread that nobody stops. A thread that has joined the one service of its world, and takes no part in
anything else, is none of the others that it stops. So nobody ever asks it to stop if no other thread
stops anybody and it pursues none but records of others.
-/
namespace Standstill

open World

variable {n : Nat} {w w' : World} {t q : ThreadId} {s b : ServiceId} {r : RecordId} {h : Handle}
  {i j : Instr} {rest : List Instr} {e : Event}

/-! Threads that stop nobody, and threads that keep the records that they have. -/

def World.Stopless (w : World) (t : ThreadId) : Prop := (w.codeOf t).all (!·.isStop) = true

theorem stretch_stopless : Stretch fun i => !i.isStop where
  run h := run_stopless _ (Bool.not_eq_true' _ ▸ h)
  nested {i} h := by
    cases i with
    | stop => cases h
    | _ => rfl

theorem World.Stopless.step (a : w.Stopless t)
    (he : ∀ c, e = .invoke t c → (c.code w t).all (!·.isStop) = true) : (w.step e).Stopless t :=
  stretch_stopless.all_step a (fun _ => ⟨he, fun _ _ => rfl⟩) (.inr fun _ _ => rfl)

/-- The instruction gives no record of its own thread up, and makes none but by setting up a service. -/
def Instr.isTame : Instr → Bool
  | .member (.own _) | .member (.attach ..) | .member (.unbind _) | .member (.detach _)
  | .member (.detachRaise ..) | .member (.detachRemove ..) | .member (.exitRaise ..)
  | .member (.exitRemove ..) => false
  | _ => true

theorem stretch_tame : Stretch Instr.isTame :=
  stretch_of_member (fun {i} h => by cases i <;> first | rfl | cases h) fun {w t k} h => by
    cases k <;> first | (cases h; done) | skip
    all_goals
      simp only [MemberInstr.run]
      repeat' split
    all_goals rfl

def World.Tame (w : World) (q : ThreadId) : Prop := (w.codeOf q).all Instr.isTame = true

theorem World.Tame.head (a : w.Tame q) (hc : w.codeOf q = i :: rest) : i.isTame = true := by
  rw [World.Tame, hc, List.all_cons, Bool.and_eq_true] at a
  exact a.1

theorem World.Tame.step (a : w.Tame q) (hq : q < w.threads.length)
    (he : ∀ c, e = .invoke q c → (c.code w q).all Instr.isTame = true) : (w.step e).Tame q :=
  stretch_tame.all_step a (fun _ => ⟨he, fun _ _ => rfl⟩) (.inl hq)

/-- Record `r` is there, and is not one of thread `q`'s. -/
def World.IsForeign (w : World) (q : ThreadId) (r : RecordId) : Prop :=
  r < w.records.length ∧ w.ownerOf r ≠ some q

/-- What the thread owns after an event it owned before, or has made by setting up a service. -/
theorem World.Tame.ownerOf_step (a : w.Tame q) (ho : (w.step e).ownerOf r = some q) :
    w.ownerOf r = some q ∨ r = w.records.length ∧
      ∃ x rest, w.codeOf q = .member (.establish x) :: rest ∧
        w.step e = w.proceed q (.member (.establish x)) rest := by
  rcases w.step_cases e with ⟨t, i, rest, -, hc, -, hs⟩ | u
  · rw [hs] at ho
    rcases ownerOf_proceed w t i rest r with h | ⟨h, hi⟩
    · exact .inl (h ▸ ho)
    · obtain rfl := Option.some.inj (h.symm.trans ho)
      have ht := a.head hc
      rcases hi with rfl | rfl
      · cases ht
      · obtain ⟨b, hj⟩ := joins_of_ownerOf ho
        cases hj with
        | establish x => exact .inr ⟨rfl, x, rest, hc, hs⟩
        | attach => cases ht
  · have h : (w.step e).ownerOf r = w.ownerOf r := u.ofRecord
    exact .inl (h ▸ ho)

theorem World.IsForeign.step (f : w.IsForeign q r) (a : w.Tame q) (e : Event) :
    (w.step e).IsForeign q r :=
  ⟨Nat.lt_of_lt_of_le f.1 (records_length_step w e), fun ho =>
    (a.ownerOf_step ho).elim f.2 fun h => Nat.ne_of_lt f.1 h.1⟩

/-! Nobody stops the thread. -/

/-- Nobody has asked thread `q` to stop, or is about to. -/
structure Unsought (w : World) (q : ThreadId) : Prop where
  unasked : ∀ {r}, w.ownerOf r = some q → w.isRequested r = false
  aimed : ∀ {t j r}, j ∈ w.codeOf t → j.aims? = some r → w.IsForeign q r
  sought : ∀ {t s h}, .stop (.suspendFind s h) ∈ w.codeOf t → ∃ r, h = r + 1 ∧ w.IsForeign q r

/-- New code is after a record that its instruction was after, or has found by its handle, or among the
others. -/
theorem aims_found (hw : Lawful n w) (hj : j ∈ w.remainder t i rest) (ha : j.aims? = some r) :
    i.aims? = some r ∨ (∃ s, i = .stop (.suspendFind s (r + 1))) ∨
      ∃ s, i = .stop (.haltOthers s) ∧ r ∈ w.others t s := by
  cases j with
  | stop k =>
    obtain ⟨m, rfl⟩ := isStop_of_run i hj
    cases m.leads_of_run hj with
    | readEpoch s h b hb =>
      obtain rfl := Option.some.inj ha
      have hb : (w.roster s).lookup h = some b := hb
      -- a record is in a roster under its own handle
      obtain ⟨l₁, l₂, hl, -⟩ := List.lookup_eq_some_iff.mp hb
      have hm : (h, b) ∈ (w.roster s).entries := by
        rw [hl]
        exact List.mem_append_right _ List.mem_cons_self
      obtain rfl : h = b + 1 := (hw.rostered.tagged s).tagged _ hm
      exact .inr (.inl ⟨s, rfl⟩)
    | haltRequest s b hb =>
      obtain rfl := Option.some.inj ha
      have ho : (w.setCode t rest).others t s = w.others t s := others_setCode
      exact .inr (.inr ⟨s, rfl, ho ▸ hb⟩)
    | request => exact .inl ha
    | _ => cases ha
  | _ => cases ha

theorem Call.eq_suspend_of_code {c : Call} (hj : .stop (.suspendFind s h) ∈ c.code w t) :
    c = .suspend s h := by
  cases c with
  | mutex b x k => cases x <;> cases k <;> simp [Call.code, MutexCall.code, guarded, locked] at hj
  | cond b x k => cases x <;> cases k <;> simp [Call.code, CondCall.code, guarded, locked] at hj
  | safePoint b =>
    simp only [Call.code] at hj
    split at hj <;> simp at hj
  | suspend b k =>
    simp [Call.code] at hj
    rw [hj.1, hj.2]
  | _ =>
    simp [Call.code, sleepCode, sleeping, inquireCode, guarded, locked, suspendAllCode,
      resumeAllCode] at hj

namespace Unsought

variable (a : Unsought w q) (ht : w.Tame q)
include a ht

theorem unasked_step (ho : (w.step e).ownerOf r = some q) : (w.step e).isRequested r = false := by
  have hn : w.isRequested r = false := by
    rcases ht.ownerOf_step ho with h | ⟨rfl, -⟩
    · exact a.unasked h
    · exact ofRecord_of_le _ _ (Nat.le_refl _)
  rw [Bool.eq_false_iff]
  intro hq
  rcases w.step_cases e with ⟨t, i, rest, -, hc, -, hs⟩ | u
  · have ha : i.aims? = some r := by
      rcases isRequested_of_proceed hn (hs ▸ hq) with ⟨s, k, rfl⟩ | ⟨s, rfl⟩ <;> rfl
    exact ((a.aimed (hc ▸ List.mem_cons_self) ha).step ht e).2 ho
  · rw [isRequested_of_records_eq u.records, hn] at hq
    cases hq

theorem aimed_step (hw : Lawful n w)
    (hhalt : ∀ t s rest, w.codeOf t = .stop (.haltOthers s) :: rest →
      ∀ r ∈ w.others t s, w.IsForeign q r)
    (hj : j ∈ (w.step e).codeOf t) (ha : j.aims? = some r) : (w.step e).IsForeign q r := by
  suffices f : w.IsForeign q r from f.step ht e
  rcases w.step_cases e with ⟨p, i, rest, -, hc, -, hs⟩ | u
  · rw [hs] at hj
    rcases mem_codeOf_proceed hc hj with ⟨-, hj⟩ | ⟨-, hj⟩ | ⟨-, hj⟩ | ⟨s, b, -, -, hj, -⟩
    · rcases aims_found hw hj ha with hi | ⟨s, rfl⟩ | ⟨s, rfl, hr⟩
      · exact a.aimed (hc ▸ List.mem_cons_self) hi
      · obtain ⟨b, hb, f⟩ := a.sought (hc ▸ List.mem_cons_self)
        exact Nat.succ.inj hb ▸ f
      · exact hhalt p s rest hc r hr
    · exact a.aimed (hc ▸ List.mem_cons_of_mem _ hj) ha
    · exact a.aimed hj ha
    · cases (threadCode_none rfl hj).symm.trans ha
  · rcases u.code t with hc | hc
    · exact a.aimed (hc ▸ hj) ha
    · exact a.aimed (hc.aimless hj (by rw [ha]; exact Option.some_ne_none r)) ha

theorem sought_step
    (hcall : ∀ t s h, e = .invoke t (.suspend s h) → ∃ r, h = r + 1 ∧ w.IsForeign q r)
    (hj : .stop (.suspendFind s h) ∈ (w.step e).codeOf t) :
    ∃ r, h = r + 1 ∧ (w.step e).IsForeign q r := by
  suffices f : ∃ r, h = r + 1 ∧ w.IsForeign q r from
    f.imp fun r f => ⟨f.1, f.2.step ht e⟩
  rcases w.step_cases e with ⟨p, i, rest, -, hc, -, hs⟩ | u
  · rw [hs] at hj
    rcases mem_codeOf_proceed hc hj with ⟨-, hj⟩ | ⟨-, hj⟩ | ⟨-, hj⟩ | ⟨s, b, -, -, hj, -⟩
    · obtain ⟨m, rfl⟩ := isStop_of_run i hj
      cases m.leads_of_run hj
    · exact a.sought (hc ▸ List.mem_cons_of_mem _ hj)
    · exact a.sought hj
    · simp [threadCode] at hj
  · rcases u.code t with hc | hc
    · exact a.sought (hc ▸ hj)
    · obtain ⟨new, old, he, hold, hnew⟩ := hc.split
      rw [he] at hj
      rcases List.mem_append.mp hj with hj | hj
      · rcases hnew with ⟨hn, -⟩ | ⟨-, hn⟩
        · cases List.all_eq_true.mp hn _ hj
        · rcases hn _ hj with ⟨c, rfl, hcode⟩ | ⟨s, r, he⟩
          · obtain rfl := Call.eq_suspend_of_code hcode
            exact hcall t s h rfl
          · cases he
      · exact a.sought (hold.subset hj)

theorem step (hw : Lawful n w)
    (hhalt : ∀ t s rest, w.codeOf t = .stop (.haltOthers s) :: rest →
      ∀ r ∈ w.others t s, w.IsForeign q r)
    (hcall : ∀ t s h, e = .invoke t (.suspend s h) → ∃ r, h = r + 1 ∧ w.IsForeign q r) :
    Unsought (w.step e) q where
  unasked := a.unasked_step ht
  aimed := a.aimed_step ht hw hhalt
  sought := a.sought_step ht hcall

end Unsought

/-! A thread with one record. -/

/-- Thread `q` has joined the one service that there is, and with no record twice. -/
structure Housed (w : World) (q : ThreadId) : Prop where
  alone : w.services.length ≤ 1
  joined : ∀ {r}, w.ownerOf r = some q → Joined w q 0 r

theorem Housed.selfIn (a : Housed w q) (hw : Lawful n w) (ho : w.ownerOf r = some q)
    (hb : .member (.bind r) ∉ w.codeOf q) : w.selfIn q 0 = some r := by
  have g := a.joined ho
  refine selfIn_eq_some.mpr ⟨(hw.bound.latest g fun b hob => ?_).resolve_right hb, g.homeOf hw⟩
  by_contra hlt
  obtain ⟨c, -, -, hoc, hne⟩ := hw.bound.since g hob (Nat.lt_of_not_le hlt)
  exact hne ((a.joined hoc).homeOf hw)

/-- The others that the thread stops are others. -/
theorem Housed.foreign_of_others (a : Housed w q) (hw : Lawful n w)
    (hc : w.codeOf q = .stop (.haltOthers s) :: rest) (hr : r ∈ w.others q s) : w.IsForeign q r := by
  obtain ⟨hm, hne⟩ := List.mem_filter.mp hr
  have hh := hw.rostered.homed hm
  have hl := lt_of_homeOf hh
  refine ⟨hl, fun ho => ?_⟩
  obtain rfl : s = 0 := (hw.alone a.alone).homeOf_eq hh
  have hb : .member (.bind r) ∉ w.codeOf q := by
    have so := hw.reachable.sealed q
    rw [hc] at so ⊢
    intro hj
    cases so.lets ((List.mem_cons.mp hj).resolve_left fun h => by cases h)
  simp [a.selfIn hw ho hb] at hne

theorem Housed.step (a : Housed w q) (ht : w.Tame q) (hw : Lawful n w)
    (hx : ∀ t x rest, w.codeOf t ≠ .member (.establish x) :: rest) : Housed (w.step e) q where
  alone := fittings_eq_none.mp
    (fittings_step_of_none (fittings_eq_none.mpr a.alone) fun t x rest _ => hx t x rest)
  joined {r} ho := by
    rcases ht.ownerOf_step ho with ho | ⟨-, x, rest, hc, -⟩
    · have g := a.joined ho
      rcases w.step_cases e with ⟨t, i, rest, -, hc, -, hs⟩ | u
      · rw [hs]
        refine (g.proceed hw hc).resolve_right fun hr => ?_
        obtain rfl := Option.some.inj ((ownerOf_of_removes hw hc hr).symm.trans g.owner)
        have hi := ht.head hc
        rcases eq_of_removes hr with ⟨l, rfl⟩ | rfl <;> cases hi
      · exact (Joined.undisturbed u).mpr g
    · exact absurd hc (hx q x rest)

/-- A thread that sets up the first service has one record then. -/
theorem housed_of_establish {x : Settings} (ht : w.Tame q) (h0 : w.services = [])
    (hn : ∀ r, w.ownerOf r ≠ some q) (hc : w.codeOf q = .member (.establish x) :: rest) :
    Housed (w.step (.advance q)) q where
  alone := by
    rw [step_of_code hc rfl, services_length_establish, h0]
    exact Nat.le_refl 1
  joined {r} ho := by
    obtain ⟨rfl, -⟩ := (ht.ownerOf_step ho).resolve_left (hn r)
    refine ⟨ho, .inr (.inl ?_)⟩
    rw [step_of_code hc rfl, (Joins.establish x).code hc, h0]
    exact List.mem_append_left _ (List.mem_cons_of_mem _ List.mem_cons_self)

end Standstill
