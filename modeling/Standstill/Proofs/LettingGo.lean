import Standstill.Proofs.Departures
import Standstill.Proofs.RosterWakes
import Standstill.Proofs.StartGate

/-!
All threads of a service are let go. With the lock of the roster in its hand a thread clears every
request but its own, opens the start gate, and calls those who wait there once it has given the lock
back. From then on, until somebody stops threads again, nobody in the roster is asked to stop but the
thread itself, and nobody sleeps at the gate.
-/
namespace Standstill

open World

variable {n : Nat} {w w' : World} {t t' q : ThreadId} {s : ServiceId} {r : RecordId}
  {i j : Instr} {rest : List Instr} {e : Event}

theorem Lawful.alone (hw : Lawful n w) (h1 : w.services.length ≤ 1) : Alone n w :=
  let ⟨es, ha, hr⟩ := hw
  ⟨es, ha, hr, h1⟩

/-! What raises a request. -/

namespace Instr

/-- A thread of service `s` is asked to stop, or its start gate is closed. -/
def isPressing (s : ServiceId) : Instr → Bool
  | .stop (.request b ..) | .stop (.haltRequest b _) | .stop (.closeGate b) => b == s
  | _ => false

end Instr

section Proceed

variable (hw : Lawful n w) (h : w.codeOf t = i :: rest)
include hw h

/-- A record of the roster is asked to stop by one who has found it there. -/
theorem pressing_of_isRequested (hr : r ∈ w.members s) (hn : w.isRequested r = false)
    (hq : (w.proceed t i rest).isRequested r = true) :
    i.isPressing s = true ∧ (.roster s, t) ∈ w.held := by
  have hi : i ∈ w.codeOf t := h ▸ List.mem_cons_self
  have home {b : ServiceId} (hb : r ∈ w.members b) : b = s :=
    Option.some.inj ((hw.rostered.homed hb).symm.trans (hw.rostered.homed hr))
  rcases isRequested_of_proceed hn hq with ⟨b, k, rfl⟩ | ⟨b, rfl⟩
  · obtain rfl := home (hw.aimed.hunted hi rfl)
    exact ⟨beq_self_eq_true b, held_of_hunts hw.reachable hi rfl⟩
  · obtain rfl := home (hw.aimed.halted hi)
    exact ⟨beq_self_eq_true b, held_of_haltRequest hw.reachable hi⟩

end Proceed

/-! The requests are cleared. -/

/-- Until the gate is opened, all whose request stands are still to be let go, but the one who lets
them go. -/
structure Releasing (w : World) : Prop where
  told : ∀ {t s r}, .stop (.openGate s) ∈ w.codeOf t → r ∈ w.members s →
    w.isRequested r = true → w.selfIn t s = some r ∨ .stop (.freeClear s r) ∈ w.codeOf t

theorem Releasing.proceed (d : Releasing w) (hw : Lawful n w) (h : w.codeOf t = i :: rest)
    (hu : i.isReady w t = true) : Releasing (w.proceed t i rest) where
  told {t' s r} hj hr hq := by
    rcases marked_cases (hw.reachable.sealed t) h hu hj rfl with
      ⟨rfl, hb⟩ | ⟨hj, hl⟩ | ⟨b, x, rfl, _, hj, _⟩
    · cases hb
      have hm : r ∈ w.members s :=
        (hw.rostered.mem_members_proceed hw h hr).resolve_right fun h => by cases h
      rcases mem_others (t := t') hw hm with hs | ho
      · exact .inl (selfIn_proceed hs fun _ _ h => by cases h)
      · right
        have he : (w.setCode t' rest).others t' s = w.others t' s := others_setCode
        rw [← he] at ho
        rw [codeOf_proceed h]
        exact List.mem_append_left _ (List.mem_append_left _ (List.mem_map.mpr ⟨r, ho, rfl⟩))
    · -- meanwhile nobody else changes the roster or a request, as the lock is held
      have hk := held_of_stopping hw.reachable hj (.inl (beq_self_eq_true s))
      have ht (hx : (.roster s, t) ∈ w.held) : t' = t := hw.reachable.keeping.holder_unique hk hx
      have hm : r ∈ w.members s := by
        rcases hw.rostered.mem_members_proceed hw h hr with hm | hi
        · exact hm
        · have hl := (hl (ht (held_of_inserts hw h hi))).2
          rcases eq_of_inserts hi with rfl | rfl <;> cases hl
      have hq' : w.isRequested r = true := by
        by_contra hn
        obtain ⟨hp, hx⟩ := pressing_of_isRequested hw h hm (by simpa using hn) hq
        have hl := (hl (ht hx)).2
        cases i with
        | stop k => cases k <;> first | cases hp | cases hl
        | _ => cases hp
      rcases d.told hj hm hq' with hs | hf
      · refine .inl (selfIn_proceed hs fun ht k hi => ?_)
        subst hi
        cases (hl ht).2
      · refine .inr (mem_codeOf_proceed_of_mem h hf fun _ hi => ?_)
        subst hi
        exact Bool.false_ne_true ((isRequested_setRequest_false (w.setCode t rest) r).symm.trans hq)
    · simp [threadCode] at hj

theorem Lawful.releasing (hw : Lawful n w) : Releasing w := by
  refine hw.induct ⟨fun _ hr => absurd hr List.not_mem_nil⟩ ?_
  intro w e hw _ d
  rcases w.step_cases e with ⟨t, i, rest, _, hc, hr, hs⟩ | u
  · rw [hs]
    exact d.proceed hw hc hr
  · refine ⟨fun {t s r} hj hr hq => ?_⟩
    rw [members_of_services_eq u.services] at hr
    rw [isRequested_of_records_eq u.records] at hq
    rcases d.told ((u.mem_iff rfl).mp hj) hr hq with hs | hf
    · exact .inl (u.selfIn.trans hs)
    · exact .inr ((u.mem_iff rfl).mpr hf)

/-! All are free. -/

/-- Thread `t` has let the threads of service `s` go: the gate is open, no request stands but that of
`t`, and whoever still sleeps at the gate is going to be woken by `t`. -/
structure Freed (w : World) (t : ThreadId) (s : ServiceId) : Prop where
  gate : (w.census s).allSuspended = false
  unasked : ∀ {r}, r ∈ w.members s → w.isRequested r = true → w.selfIn t s = some r
  called : w.services.length ≤ 1 → ∀ {q r}, Dozes w s q (.member (.gateWait s r)) →
    .sync (.notifyAll (.roster s)) ∈ w.codeOf t

theorem freed_openGate (hw : Lawful n w) (h : w.codeOf t = .stop (.openGate s) :: rest) :
    Freed (w.proceed t (.stop (.openGate s)) rest) t s := by
  have hi : .stop (.openGate s) ∈ w.codeOf t := h ▸ List.mem_cons_self
  constructor
  case gate => rw [census, roster_openGate (hw.founded.placed hi rfl)]
  case unasked =>
    intro r hr hq
    have hm : r ∈ w.members s :=
      (hw.rostered.mem_members_proceed hw h hr).resolve_right fun h => by cases h
    have hq' : w.isRequested r = true := by
      by_contra hn
      cases (pressing_of_isRequested hw h hm (by simpa using hn) hq).1
    rcases hw.releasing.told hi hm hq' with hs | hf
    · exact selfIn_proceed hs fun _ _ h => by cases h
    · have so := hw.reachable.sealed t
      rw [h] at hf so
      cases so.lets ((List.mem_cons.mp hf).resolve_left fun h => by cases h)
  case called =>
    intro h1 q r _
    have ha := hw.alone (services_length_proceed.trans h1)
    have htrail := ha.queued.trails t
    rw [h] at htrail
    obtain ⟨code, rfl⟩ := htrail.1
    rw [codeOf_proceed h]
    simp

section Freed

variable (g : Freed w t s) (hw : Lawful n w)
include g

theorem Freed.called_proceed (h : w.codeOf q = i :: rest) (hu : i.isReady w q = true)
    (ha : Alone n w) (z : Dozes (w.proceed q i rest) s t' (.member (.gateWait s r))) :
    .sync (.notifyAll (.roster s)) ∈ (w.proceed q i rest).codeOf t := by
  rcases z.of_proceed ha.queued h hu with z' | ⟨rfl, l, m, code, rfl, rfl⟩
  · refine mem_codeOf_proceed_of_mem h (g.called ha.uniform.single z') ?_
    rintro - rfl
    -- after the call nobody sleeps there
    have hx : (.roster s, t') ∈ w.asleep.filter (·.1 != .roster s) := z.asleep
    simp at hx
  · -- who goes to sleep has found the gate closed
    have hc : w.codeOf t' = [] ++ .sync (.wait (.roster s) l m) :: .member (.gateWait s r) :: code := h
    have hx := ha.queued.unmet hc
    simp [Instr.isMet, g.gate] at hx

include hw

theorem Freed.proceed (h : w.codeOf q = i :: rest) (hu : i.isReady w q = true)
    (hp : i.isPressing s = false) (hb : q = t → ∀ k, i ≠ .member k) :
    Freed (w.proceed q i rest) t s := by
  have hi : i ∈ w.codeOf q := h ▸ List.mem_cons_self
  constructor
  case gate =>
    rw [Bool.eq_false_iff]
    intro hx
    obtain rfl := (hw.rostered.step hw h s).closes g.gate hx
    simp [Instr.isPressing] at hp
  case unasked =>
    intro r hr hq
    rcases hw.rostered.mem_members_proceed hw h hr with hm | hx
    · refine selfIn_proceed (g.unasked hm ?_) fun ht k hk => absurd hk (hb ht.symm k)
      by_contra hn
      rw [(pressing_of_isRequested hw h hm (by simpa using hn) hq).1] at hp
      cases hp
    · -- a record that is entered has not been asked yet
      exfalso
      have hn : w.isRequested r = false := by
        refine hw.unlisted.unasked hi ?_
        rcases eq_of_inserts hx with rfl | rfl <;> rfl
      rcases isRequested_of_proceed hn hq with ⟨_, _, rfl⟩ | ⟨_, rfl⟩ <;> cases hx
  case called =>
    intro h1 q' r z
    exact g.called_proceed h hu (hw.alone (services_length_proceed.trans h1)) z

omit hw in
theorem Freed.undisturbed (u : Undisturbed w e w') : Freed w' t s where
  gate := by
    rw [census, roster_of_services_eq u.services]
    exact g.gate
  unasked {r} hr hq := by
    rw [members_of_services_eq u.services] at hr
    rw [isRequested_of_records_eq u.records] at hq
    exact u.selfIn.trans (g.unasked hr hq)
  called h1 {q r} z := by
    rw [u.services] at h1
    have hm := g.called h1 (z.of_undisturbed u)
    rcases u.code t with hc | hc
    · exact hc ▸ hm
    · exact hc.mem_of_mem hm (by rintro ⟨⟩)

/-- The threads stay free while nobody stops any, and the one that has let them go stays who it is. -/
theorem Freed.step (e : Event) (hp : (w.upNext e).any (·.isPressing s) = false)
    (hb : e = .advance t → ∀ k, w.upNext e ≠ some (.member k)) : Freed (w.step e) t s := by
  rcases w.step_cases e with ⟨q, i, rest, rfl, hc, hr, hs⟩ | u
  · have hx := upNext_eq_some.mpr ⟨q, rest, rfl, hc⟩
    rw [hx] at hp hb
    rw [hs]
    refine g.proceed hw hc hr hp fun ht k hk => hb (by rw [ht]) k (by rw [hk])
  · exact g.undisturbed u

end Freed

end Standstill
