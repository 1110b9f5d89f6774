import Standstill.Proofs.LastSteps
import Standstill.Proofs.StartGate
import Standstill.Proofs.StressRoom

/-!
The threads of the stress scenario. The workers start none, so each thread that there is was hired by the
conductor. A worker has its departure still to do until it is over; so when the conductor reads a count
of zero, all workers that it has hired are over.
-/
namespace Standstill.Stress

open World

variable {n : Nat} {w : World} {t : ThreadId} {e : Event} {ws : List (Stage × Bool)}
  {x x' : Stage × Bool} {k : Nat} {es : List Event} {call : Call} {r : RecordId} {d : Option Nat}

/-- Thread `t` has code of its own still to do, and then to leave; it is no daemon. -/
def OnDuty (w : World) (t : ThreadId) : Prop :=
  ∃ top r, w.codeOf t = top ++ [.user, .member (.exitRaise service r)] ∧ w.daemonOf r = false

/-- Each thread but the first is a worker's, which starts none itself and leaves in the end; a worker
that is not over is on duty. -/
structure Crew (w : World) (ws : List (Stage × Bool)) : Prop where
  unhiring : ∀ t, t ≠ 0 → w.Unhiring t
  departing : ∀ t, t ≠ 0 → w.Departing service t
  manned : ∀ {i}, i + 1 < w.threads.length →
    ∃ x, ws[i]? = some x ∧ (x.1.isOver = true ∨ OnDuty w (i + 1))

/-- All the workers are over, and their threads are out of the roster. -/
structure Dismissed (w : World) (ws : List (Stage × Bool)) : Prop where
  done : ws.all (·.1.isOver) = true
  out : ∀ t, t ≠ 0 → w.HasLeft service t

theorem Dismissed.step (a : Dismissed w ws) (hl : (w.step e).threads.length = w.threads.length) :
    Dismissed (w.step e) ws := ⟨a.done, fun t ht => (a.out t ht).step (.inr hl)⟩

/-- A worker is at another stage; who is over stays so. -/
theorem Dismissed.set (a : Dismissed w ws) (hi : ws[k]? = some x)
    (h : x.1.isOver = true → x'.1.isOver = true) : Dismissed w (ws.set k x') where
  out := a.out
  done := by
    have hall := List.all_eq_true.mp a.done
    refine List.all_eq_true.mpr fun y hy => ?_
    rcases List.mem_or_eq_of_mem_set hy with hy | rfl
    · exact hall y hy
    · exact h (hall x (List.mem_of_getElem? hi))

theorem stretch_any : Stretch fun _ => true := ⟨fun _ => by simp, fun _ => rfl⟩

theorem OnDuty.step (a : OnDuty w t) (he : e.isBy t = false) : OnDuty (w.step e) t := by
  obtain ⟨top, r, hc, hd⟩ := a
  have hd' := (daemonOf_step e (lt_of_daemonOf hd)).trans hd
  rcases stretch_any.step hc (List.all_eq_true.mpr fun _ _ => rfl) he with
    ⟨top', -, hc', -⟩ | ⟨-, -, hu, -⟩
  · exact ⟨top', r, hc', hd'⟩
  · exact absurd rfl hu

/-- A worker makes a call. -/
theorem OnDuty.invoke (a : OnDuty w t) (hu : w.inUser t = true) (hr : call.refusal? = none) :
    OnDuty (w.step (.invoke t call)) t := by
  obtain ⟨top, r, hc, hd⟩ := a
  refine ⟨call.code w t ++ top, r, ?_, (daemonOf_step _ (lt_of_daemonOf hd)).trans hd⟩
  rw [(invoke_admitted hu hr).1, hc, List.append_assoc]

namespace Crew

variable (a : Crew w ws)
include a

/-- One event. A thread that comes with it is a worker's. -/
theorem step (hs : ∀ t c, t ≠ 0 → e = .invoke t c → c.isHiring = false)
    (hstay : ∀ i x, ws[i]? = some x → x.1.isOver = false → OnDuty w (i + 1) →
      OnDuty (w.step e) (i + 1))
    (hnew : (w.step e).threads.length = w.threads.length ∨
      (w.step e).threads.length = w.threads.length + 1 ∧ w.threads.length ≤ ws.length ∧
        OnDuty (w.step e) w.threads.length) : Crew (w.step e) ws where
  unhiring t ht := (a.unhiring t ht).step fun c => hs t c ht
  departing t ht := by
    by_cases hlt : t < w.threads.length
    · exact (a.departing t ht).step hlt e
    · have hle := Nat.le_of_not_lt hlt
      rcases hnew with hl | ⟨hl, -, hd⟩
      · exact .of_le (hl.trans_le hle)
      · by_cases hx : t = w.threads.length
        · obtain ⟨top, r, hc, hd⟩ := hx ▸ hd
          exact .due (top ++ [.user]) r (hc.trans (by simp)) hd
        · exact .of_le (hl.trans_le (Nat.lt_of_le_of_ne hle (Ne.symm hx)))
  manned {i} hi := by
    by_cases hlt : i + 1 < w.threads.length
    · obtain ⟨x, hx, hd⟩ := a.manned hlt
      refine ⟨x, hx, ?_⟩
      cases ho : x.1.isOver with
      | true => exact .inl rfl
      | false =>
        rw [ho] at hd
        exact .inr (hstay i x hx ho (hd.resolve_left Bool.false_ne_true))
    · rcases hnew with hl | ⟨hl, hle, hd⟩
      · exact absurd (hl ▸ hi) hlt
      · have hieq : w.threads.length = i + 1 := by omega
        rw [hieq] at hle hd
        exact ⟨_, List.getElem?_eq_getElem hle, .inr hd⟩

theorem set (hi : ws[k]? = some x) (h : x.1.isOver = true → x'.1.isOver = true) :
    Crew w (ws.set k x') where
  unhiring := a.unhiring
  departing := a.departing
  manned {i} hlt := by
    obtain ⟨y, hy, hd⟩ := a.manned hlt
    by_cases hik : k = i
    · subst hik
      obtain rfl := Option.some.inj (hi.symm.trans hy)
      exact ⟨x', List.getElem?_set_self (List.getElem?_eq_some_iff.mp hi).1, hd.imp_left h⟩
    · exact ⟨y, (List.getElem?_set_ne hik).trans hy, hd⟩

theorem append (x : Stage × Bool) : Crew w (ws ++ [x]) where
  unhiring := a.unhiring
  departing := a.departing
  manned {i} hlt := by
    obtain ⟨y, hy, hd⟩ := a.manned hlt
    exact ⟨y, (List.getElem?_append_left (List.getElem?_eq_some_iff.mp hy).1).trans hy, hd⟩

section Ended

variable (hw : (World.initial n).run es = w) (ha : (World.initial n).admits es = true)
  (hc : w.codeOf 0 = [.member (.awaitExitCheck service d), .user])
  (hz : (w.census service).nonDaemon = 0)
include hw ha hc hz

omit a hz in
/-- The conductor has the lock of the roster. -/
theorem holds_of_awaitExitCheck (hl : (Lock.roster service, t) ∈ w.held) : t = 0 := by
  subst hw
  have k := (Lawful.reachable ⟨es, ha, rfl⟩ : Reachable n ((World.initial n).run es)).keeping
  exact k.holder_unique hl (k.held_of_head (l := .roster service) hc List.mem_cons_self)

/-- When the count of threads that are no daemons is read as zero, in a section on the roster, a thread
that was to leave has ended: it was not on its way in, for that takes the lock, or the conductor's wait. -/
theorem hasEnded (g : GateDue n es t service r) (ht : t ≠ 0) (hdaemon : w.daemonOf r = false) :
    (World.initial n).hasEnded service r es = true := by
  have hl {q} := holds_of_awaitExitCheck (t := q) hw ha hc
  subst hw
  have hw : Lawful n ((World.initial n).run es) := ⟨es, ha, rfl⟩
  have hp : (World.initial n).hasPassed service r es = true := by
    rcases g with hj | hj | hp
    · obtain ⟨q, hq⟩ := hw.spawnWait hj
      by_cases h0 : q = 0
      · rw [h0, hc] at hq
        simp at hq
      · cases List.all_eq_true.mp (a.unhiring q h0) _ hq
    · have hn := hw.enrolled.passes hj
      exact absurd (hl (hw.enrolled.noted hn (hw.rostered.sited hj rfl)).2) ht
    · exact hp
  have hn : (World.initial n).serving service es = 0 :=
    (nonDaemon_eq_serving es ha service).symm.trans hz
  exact hasEnded_of_serving_eq_zero hn (lt_of_daemonOf hdaemon) hdaemon hp

/-- So there is none that has still to leave. -/
theorem none_leaves (ht : t ≠ 0) (hdaemon : w.daemonOf r = false) :
    .member (.exitRaise service r) ∉ w.codeOf t ∧ .member (.exitRemove service r) ∉ w.codeOf t := by
  have o := staged es ha
  subst hw
  have ended (g : GateDue n es t service r) := a.hasEnded rfl ha hc hz g ht hdaemon
  exact ⟨fun hj => (o.ended (ended (o.leaves hj))).2.2 hj rfl,
    fun hj => (o.ended (ended (o.removes hj))).2.2 hj rfl⟩

/-- Then all the workers are over, and who was to leave is out. -/
theorem dismissed (hl : ws.length < w.threads.length) : Dismissed w ws where
  done := by
    rw [List.all_eq_true]
    intro x hx
    obtain ⟨i, hi⟩ := List.getElem?_of_mem hx
    have hlt : i + 1 < w.threads.length := by
      have := (List.getElem?_eq_some_iff.mp hi).1
      omega
    obtain ⟨y, hy, hd⟩ := a.manned hlt
    obtain rfl := Option.some.inj (hi.symm.trans hy)
    refine hd.resolve_right ?_
    rintro ⟨top, r, hcode, hdaemon⟩
    refine (a.none_leaves hw ha hc hz (Nat.succ_ne_zero i) hdaemon).1 ?_
    rw [hcode]
    simp
  out t ht := by
    have hmine := holds_of_awaitExitCheck (t := t) hw ha hc
    have leaves {r : RecordId} := a.none_leaves (r := r) hw ha hc hz ht
    cases a.departing t ht with
    | due top r hcode hdaemon =>
      refine absurd ?_ (leaves hdaemon).1
      rw [hcode]
      simp
    | last top r hcode hdaemon =>
      refine absurd ?_ (leaves hdaemon).2
      rw [hcode]
      simp
    | past hp =>
      subst hw
      exact Keeping.hasLeft (Lawful.reachable ⟨es, ha, rfl⟩).keeping hp fun h => ht (hmine h)

end Ended

end Crew

theorem crew_initial : Crew (World.initial 1) [] where
  unhiring t _ := by
    rcases codeOf_initial 1 t with hc | hc <;> unfold World.Unhiring <;> rw [hc] <;> rfl
  departing t ht := .of_le (Nat.one_le_iff_ne_zero.mpr ht)
  manned hi := by
    simp [World.initial] at hi

end Standstill.Stress
