import Standstill.Proofs.Departures

/-!
Handles. A record enters a roster under its own handle, which no roster holds, and its owner alone
takes it out. Main statement: what a handle has stood for it stands for to the end, and a handle that
has been given up is found in no roster ever after.
-/
namespace Standstill

open World

variable {n : Nat} {w w' : World} {t : ThreadId} {s b : ServiceId} {r : RecordId} {h : Handle}
  {i : Instr} {g : Roster} {rest : List Instr} {e : Event} {es : List Event}

namespace Roster

theorem IsTagged.eq_of_lookup (hg : g.IsTagged) (hl : g.lookup h = some r) :
    h = r + 1 ∧ r ∈ g.records := by
  obtain ⟨x, hx, rfl⟩ := lookup_mem hl
  have hh : h = x.2 + 1 := by
    obtain ⟨l₁, l₂, he, -⟩ := List.lookup_eq_some_iff.mp hl
    refine hg.tagged (h, x.2) ?_
    rw [he]
    exact List.mem_append_right _ List.mem_cons_self
  exact ⟨hh, List.mem_map.mpr ⟨x, hx, rfl⟩⟩

theorem IsTagged.nodup_handles (hg : g.IsTagged) : (g.entries.map (·.1)).Nodup := by
  have he : g.entries.map (·.1) = g.records.map (· + 1) := by
    rw [records, List.map_map]
    exact List.map_congr_left hg.tagged
  rw [he]
  exact hg.nodup.map fun _ _ => Nat.succ.inj

/-- A handle that is not in use takes nobody's place. -/
theorem entries_insert_of_lookup (hl : g.lookup h = none) :
    (g.insert h r).entries = g.entries ++ [(h, r)] := by
  have hf : g.entries.filter (·.1 != h) = g.entries := by
    refine List.filter_eq_self.mpr fun x hx => ?_
    have hn : h ≠ x.1 := by simpa using List.lookup_eq_none_iff.mp hl x hx
    simpa using hn.symm
  rw [Roster.insert, hf]

end Roster

/-- The entries of the roster of service `s` after event `e`. -/
inductive Relists (w : World) (s : ServiceId) (e : Event) : List (Handle × RecordId) → Prop
  | keep : Relists w s e (w.entriesOf s)
  | enter (h : Handle) (r : RecordId) (handle : w.handleOf r = some h)
      (fresh : ∀ b, (w.roster b).lookup h = none) : Relists w s e (w.entriesOf s ++ [(h, r)])
  | leave (t : ThreadId) (h : Handle) (r : RecordId) (found : (w.roster s).lookup h = some r)
      (owner : w.ownerOf r = some t) (own : e = .advance t) :
      Relists w s e ((w.entriesOf s).filter (·.1 != h))

section Proceed

variable (hw : Lawful n w) (hc : w.codeOf t = i :: rest)
include hw hc

/-- A record that is about to be entered has a handle that no roster knows. -/
theorem relists_insert (hi : i.inserts? = some (s, r)) :
    Relists w s e ((w.roster s).insert (r + 1) r).entries := by
  have ho := ownerOf_of_inserts hw hc hi
  have fresh (b : ServiceId) : (w.roster b).lookup (r + 1) = none := by
    refine (hw.rostered.tagged b).lookup_eq_none ?_
    refine hw.enrolled.outside (t := t) (j := i) (hc ▸ List.mem_cons_self) ?_
    rcases eq_of_inserts hi with rfl | rfl <;> rfl
  rw [Roster.entries_insert_of_lookup (fresh s)]
  exact .enter (r + 1) r (hw.reachable.handleOf (lt_of_ownerOf ho)) fresh

theorem relists_erase (hi : i.removes? = some (s, r)) :
    Relists w s (.advance t)
      (if r ∈ w.members s then (w.roster s).erase (r + 1) else w.roster s).entries := by
  split
  next hr =>
    exact .leave t (r + 1) r ((hw.rostered.tagged s).lookup_isSome.mpr hr)
      (ownerOf_of_removes hw hc hi) rfl
  · exact .keep

theorem relists_proceed (s : ServiceId) :
    Relists w s (.advance t) ((w.proceed t i rest).entriesOf s) := by
  have hs := hw.rostered.step hw hc s
  rw [entriesOf]
  generalize (w.proceed t i rest).roster s = g at hs ⊢
  cases hs with
  | still | gatePass | closeGate | openGate => exact .keep
  | publish r | gateEnter r => exact relists_insert hw hc rfl
  | detachRemove r l =>
    have hr := relists_erase (s := s) (r := r) hw hc rfl
    split at hr
    next hm =>
      rw [if_pos hm]
      exact hr
    next hm =>
      rw [if_neg hm]
      exact hr
  | exitRemove r daemon => exact relists_erase (s := s) (r := r) hw hc rfl

end Proceed

theorem Lawful.relists (hw : Lawful n w) (e : Event) (s : ServiceId) :
    Relists w s e ((w.step e).entriesOf s) := by
  rcases w.step_cases e with ⟨t, i, rest, rfl, hc, -, hs⟩ | u
  · rw [hs]
    exact relists_proceed hw hc s
  · rw [entriesOf_of_services_eq u.services]
    exact .keep

theorem Gone.lookup_eq_none (g : Gone w r) (hw : Lawful n w) (s : ServiceId) :
    (w.roster s).lookup (r + 1) = none :=
  (hw.rostered.tagged s).lookup_eq_none (g.outside s)

/-- Every entry of a roster stands under the handle of its record, and no handle occurs twice. What
happens leaves the entries as they are, or adds one under a handle that no roster holds, or takes
one out, and this the thread does which owns the record. A handle that has been given up is found in
no roster, whatever follows. -/
theorem handles_are_never_used_again (hw : Lawful n w) :
    (∀ s, (∀ x ∈ w.entriesOf s, w.handleOf x.2 = some x.1) ∧
      ((w.entriesOf s).map (·.1)).Nodup) ∧
    (∀ e s, Relists w s e ((w.step e).entriesOf s)) ∧
    ∀ e es s h, ((w.roster s).lookup h).isSome = true →
      ((w.step e).roster s).lookup h = none → w.admits (e :: es) = true →
      ∀ b, ((w.run (e :: es)).roster b).lookup h = none := by
  refine ⟨fun s => ⟨fun x hx => ?_, (hw.rostered.tagged s).nodup_handles⟩, hw.relists,
    fun e es s h hl hn ha b => ?_⟩
  · have hm : x.2 ∈ w.members s := List.mem_map.mpr ⟨x, hx, rfl⟩
    rw [(hw.rostered.tagged s).tagged x hx]
    exact hw.reachable.handleOf (lt_of_homeOf (hw.rostered.homed hm))
  · -- the handle names one record only, and this one is gone for good
    obtain ⟨r, hr⟩ := Option.isSome_iff_exists.mp hl
    obtain ⟨rfl, hm⟩ := (hw.rostered.tagged s).eq_of_lookup hr
    simp only [admits, Bool.and_eq_true] at ha
    have hw' := hw.step ha.1
    have hn' : r ∉ (w.step e).members s := fun hx => by
      rw [(hw'.rostered.tagged s).lookup_isSome.mpr hx] at hn
      cases hn
    have g := (gone_of_removed hw e hm hn').run hw' ha.2
    exact g.lookup_eq_none (hw'.run ha.2) b

/-- A thread that has left comes back, under a new handle. -/
def comingBack : List Event :=
  turns 1 12 ++ .invoke 1 (.attach 0 "again") :: turns 1 7

theorem old_handle_is_not_found :
    (((World.initial 2).run leavingUnderWatch).roster 0).entries = [(1, 0), (2, 1)] ∧
      (((World.initial 2).run (leavingUnderWatch ++ .advance 1 :: comingBack)).roster 0).entries =
        [(1, 0), (3, 2)] ∧
      ∀ b, (((World.initial 2).run (leavingUnderWatch ++ .advance 1 :: comingBack)).roster b).lookup
        2 = none := by
  have hw : Lawful 2 ((World.initial 2).run leavingUnderWatch) :=
    ⟨leavingUnderWatch, by decide +kernel, rfl⟩
  refine ⟨by decide +kernel, by decide +kernel, fun b => ?_⟩
  rw [run_append]
  exact (handles_are_never_used_again hw).2.2 (.advance 1) comingBack 0 2 (by decide +kernel)
    (by decide +kernel) (by decide +kernel) b

end Standstill
