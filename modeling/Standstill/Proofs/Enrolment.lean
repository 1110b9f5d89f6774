import Standstill.Proofs.Rosters
import Standstill.Proofs.Sections

/-!
How a record gets into the roster of its service and out of it. The thread of a record that is
started by a service enters the record, waits until the start gate is open and notes that it has
started; an attached thread publishes a record that counts as started at once. Both take their
record out for good.
-/
namespace Standstill

open World

/-- The service with whose roster the instruction works, and the record that it is about. -/
def MemberInstr.site? : MemberInstr → Option (ServiceId × RecordId)
  | .publish s r | .spawnNative s r | .detachRaise s r | .detachRemove s r _ | .gateEnter s r
  | .gateWait s r | .gatePass s r | .exitRaise s r | .exitRemove s r => some (s, r)
  | _ => none

def StopInstr.site? : StopInstr → Option (ServiceId × RecordId)
  | .haltRequest s r | .freeClear s r | .resumeClear s r => some (s, r)
  | _ => none

def Instr.site? : Instr → Option (ServiceId × RecordId)
  | .member i => i.site?
  | .stop i => i.site?
  | _ => none

variable {n : Nat} {w w' : World} {t t' : ThreadId} {s b : ServiceId} {r : RecordId} {i j : Instr}
  {k : MemberInstr} {code rest : List Instr} {e : Event}

theorem lasting_of_site (h : j.site? = some (s, r)) : j.isLasting = true := by
  cases j with
  | member j => cases j <;> first | rfl | cases h
  | stop j => cases j <;> first | rfl | cases h
  | _ => cases h

theorem lasting_of_marked (h : j.isMarked = true) : j.isLasting = true := by
  cases j with
  | user => cases h
  | _ => simp only [Instr.isLasting, h, Bool.true_or]

theorem eq_of_inserts (h : i.inserts? = some (s, r)) :
    i = .member (.publish s r) ∨ i = .member (.gateEnter s r) := by
  cases i with
  | member k =>
    cases k with
    | publish | gateEnter =>
      cases h
      simp
    | _ => cases h
  | _ => cases h

theorem eq_of_removes (h : i.removes? = some (s, r)) :
    (∃ l, i = .member (.detachRemove s r l)) ∨ i = .member (.exitRemove s r) := by
  cases i with
  | member k =>
    cases k with
    | detachRemove | exitRemove =>
      cases h
      simp
    | _ => cases h
  | _ => cases h

theorem others_setCode : (w.setCode t rest).others t s = w.others t s := by
  simp only [others, selfIn_setCode]
  rfl

/-- What is left to do has been left by the instruction at hand. -/
theorem begets_remainder (hu : i ≠ .user) (hj : j ∈ w.remainder t i rest)
    (hm : j.isMarked = true) : Begets w t i j := by
  have hb := begets_of_run (w := w.setCode t rest) i hu hj hm
  cases hb with
  | establishPublish x => exact .establishPublish x
  | establishBind x => exact .establishBind x
  | attachPublish s name h => exact .attachPublish s name (selfIn_setCode ▸ h)
  | attachBind s name h => exact .attachBind s name (selfIn_setCode ▸ h)
  | spawnNative s o k => exact .spawnNative s o k
  | detachRaise s r h => exact .detachRaise s r (selfIn_setCode ▸ h)
  | detachRemove s r => exact .detachRemove s r
  | unbind s r l h hh => exact .unbind s r l h hh
  | clearRequest s r l => exact .clearRequest s r l
  | setLevel s r l => exact .setLevel s r l
  | exitRemove s r => exact .exitRemove s r
  | exitUnbind s r c hc => exact .exitUnbind s r c hc
  | gateWait s r h => exact .gateWait s r h
  | gatePass s r h => exact .gatePass s r h
  | noteStarted s r h => exact .noteStarted s r h
  | haltRequest s r h => exact .haltRequest s r (others_setCode ▸ h)
  | closeGate s => exact .closeGate s
  | freeClear s r h => exact .freeClear s r (others_setCode ▸ h)
  | openGate s => exact .openGate s
  | resumeClear s r h hr => exact .resumeClear s r h hr

/-- Where marked code of a thread has come from, or what it has been under. -/
theorem marked_cases (so : Sealed (w.codeOf t)) (h : w.codeOf t = i :: rest)
    (hu : i.isReady w t = true) (hj : j ∈ (w.proceed t i rest).codeOf t')
    (hm : j.isMarked = true) :
    t' = t ∧ Begets w t i j ∨ j ∈ w.codeOf t' ∧ (t' = t → j ∈ rest ∧ j.lets i = true) ∨
      ∃ s r, i = .member (.spawnNative s r) ∧ t' = w.threads.length ∧ j ∈ threadCode s r ∧
        (w.proceed t i rest).codeOf t' = threadCode s r := by
  rcases mem_codeOf_step so h hj with ⟨ht, hj⟩ | hj | hj
  · exact Or.inl ⟨ht, begets_remainder (ne_user_of_ready hu) hj hm⟩
  · exact Or.inr (Or.inl hj)
  · exact Or.inr (Or.inr hj)

/-! Who is about which record. -/

/-- Only the owner has code about a record. -/
theorem Custody.eq_of_record (c : Custody w) (hj : j ∈ w.codeOf t') (hr : j.record? = some r)
    (ho : w.ownerOf r = some t) : t' = t := by
  rcases c.kept hj hr with hk | hk
  · rw [ho] at hk
    exact (Option.some.inj hk).symm
  · rw [(c.pledged hk).2.1] at ho
    cases ho

/-- At the head of its owner's code an instruction is about a record that the owner has taken. -/
theorem Custody.ownerOf_of_head (c : Custody w) (ho : Orderly (w.codeOf t))
    (h : w.codeOf t = i :: rest) (hr : i.record? = some r) (hi : i ≠ .member (.own r)) :
    w.ownerOf r = some t :=
  (c.tends ho h (Or.inr (Or.inr hr))).resolve_right hi

theorem lt_of_record (c : Custody w) (hj : j ∈ w.codeOf t) (hr : j.record? = some r) :
    r < w.records.length := by
  rcases c.kept hj hr with hk | hk
  · exact lt_of_ownerOf hk
  · exact (c.pledged hk).1

/-! The lock of a roster. -/

/-- What an instruction gives back its thread holds when it gets there. -/
theorem Keeping.held_of_head {l : Lock} (k : Keeping w) (h : w.codeOf t = i :: rest)
    (hl : .lock l ∈ i.closes) : (l, t) ∈ w.held := by
  obtain ⟨hs, hk⟩ := k.keeps t
  obtain ⟨fs, rfl, _, _⟩ := h ▸ hk.code
  rw [← mem_locksOf, hk.locks]
  exact List.mem_filterMap.mpr ⟨_, List.mem_append_left _ hl, rfl⟩

theorem mem_held_proceed {l : Lock} (hm : (l, t') ∈ w.held)
    (hn : t' = t → ∀ q d, i ≠ .sync (.release l) ∧ i ≠ .sync (.wait q l d)) :
    (l, t') ∈ (w.proceed t i rest).held := by
  -- a lock is given back by its holder alone, or for the time of a sleep
  have erase {b : Lock} (hb : t' = t → b ≠ l) : (l, t') ∈ w.held.erase (b, t) := by
    refine (List.mem_erase_of_ne fun he => ?_).mpr hm
    obtain ⟨hl, ht⟩ := Prod.mk.inj he
    exact hb ht hl.symm
  have hsame (hr : (i.run t (w.setCode t rest)).1.held = w.held) :
      (l, t') ∈ (w.proceed t i rest).held := by
    have hp : (w.proceed t i rest).held = (i.run t (w.setCode t rest)).1.held := rfl
    rw [hp, hr]
    exact hm
  by_cases hi : ∃ j, i = .sync j
  · obtain ⟨j, rfl⟩ := hi
    cases j with
    | acquire b => exact List.mem_cons_of_mem _ hm
    | release b => exact erase fun ht hb => (hn ht (.roster 0) none).1 (hb ▸ rfl)
    | wait q b d => exact erase fun ht hb => (hn ht q d).2 (hb ▸ rfl)
    | notifyOne q => exact hsame held_wakeFirst
    | _ => exact hm
  · exact hsame (held_run i fun j he => hi ⟨j, he⟩)

/-- The records of service `s`, once `ms`, after instruction `i`. -/
inductive Revises (s : ServiceId) (i : Instr) (ms : List RecordId) : List RecordId → Prop
  | insert (r : RecordId) (h : i.inserts? = some (s, r)) :
    Revises s i ms (ms.filter (· != r) ++ [r])
  | remove (r : RecordId) (h : i.removes? = some (s, r)) : Revises s i ms (ms.filter (· != r))
  | keep (hi : ∀ r, i.inserts? ≠ some (s, r)) (hr : ∀ r, i.removes? ≠ some (s, r)) :
    Revises s i ms ms

section Revises

variable {ms ms' : List RecordId}

theorem Revises.mem_or (v : Revises s i ms ms') (hr : r ∈ ms') :
    r ∈ ms ∨ i.inserts? = some (s, r) := by
  cases v with
  | insert b hb =>
    rcases List.mem_append.mp hr with hr | hr
    · exact Or.inl (List.mem_filter.mp hr).1
    · rw [List.mem_singleton.mp hr]
      exact Or.inr hb
  | remove b hb => exact Or.inl (List.mem_filter.mp hr).1
  | keep => exact Or.inl hr

theorem Revises.mem_of_mem (v : Revises s i ms ms') (hr : r ∈ ms) :
    r ∈ ms' ∨ i.removes? = some (s, r) := by
  cases v with
  | insert b hb =>
    left
    by_cases he : r = b
    · rw [he]
      exact List.mem_append_right _ List.mem_cons_self
    · exact List.mem_append_left _ (List.mem_filter.mpr ⟨hr, by simpa using he⟩)
  | remove b hb =>
    by_cases he : r = b
    · rw [he]
      exact Or.inr hb
    · exact Or.inl (List.mem_filter.mpr ⟨hr, by simpa using he⟩)
  | keep => exact Or.inl hr

theorem Revises.mem_of_insert (v : Revises s i ms ms')
    (hi : i.inserts? = some (s, r)) : r ∈ ms' := by
  cases v with
  | insert b hb =>
    rw [hb] at hi
    obtain rfl := (Prod.mk.inj (Option.some.inj hi)).2
    exact List.mem_append_right _ List.mem_cons_self
  | remove b hb =>
    cases i with
    | member k =>
      cases k with
      | publish | gateEnter => cases hb
      | _ => cases hi
    | _ => cases hi
  | keep hn => exact absurd hi (hn r)

theorem Revises.eq_of_remove (v : Revises s i ms ms') (hi : i.removes? = some (s, r)) :
    ms' = ms.filter (· != r) := by
  cases v with
  | insert b hb =>
    cases i with
    | member k =>
      cases k with
      | detachRemove | exitRemove => cases hb
      | _ => cases hi
    | _ => cases hi
  | remove b hb =>
    rw [hb] at hi
    obtain rfl := (Prod.mk.inj (Option.some.inj hi)).2
    rfl
  | keep hn hr => exact absurd hi (hr r)

theorem Revises.not_mem_of_remove (v : Revises s i ms ms') (hi : i.removes? = some (s, r)) :
    r ∉ ms' := by
  rw [v.eq_of_remove hi]
  simp

end Revises

/-- What a step by instruction `i` makes of the roster of service `s`. -/
inductive RosterStep (w : World) (s : ServiceId) : Instr → Roster → Prop
  | still (i : Instr) (h : i.roster? ≠ some s) : RosterStep w s i (w.roster s)
  | publish (r : RecordId) : RosterStep w s (.member (.publish s r))
      { (w.roster s).insert (r + 1) r with census := (w.census s).arrive }
  | gateEnter (r : RecordId) : RosterStep w s (.member (.gateEnter s r))
      { (w.roster s).insert (r + 1) r with census := (w.census s).queueUp }
  | gatePass (r : RecordId) (daemon : Bool) : RosterStep w s (.member (.gatePass s r))
      { w.roster s with census := (w.census s).passGate daemon }
  | detachRemove (r : RecordId) (l : Level) : RosterStep w s (.member (.detachRemove s r l))
      (if r ∈ w.members s then
        { (w.roster s).erase (r + 1) with census := (w.census s).leave }
      else w.roster s)
  | exitRemove (r : RecordId) (daemon : Bool) : RosterStep w s (.member (.exitRemove s r))
      { (if r ∈ w.members s then (w.roster s).erase (r + 1) else w.roster s) with
        census := (w.census s).finish daemon }
  | closeGate : RosterStep w s (.stop (.closeGate s))
      { w.roster s with census := { w.census s with allSuspended := true } }
  | openGate : RosterStep w s (.stop (.openGate s))
      { w.roster s with census := { w.census s with allSuspended := false } }

/-! Rosters hold records of their own service, each under its handle. -/

structure Rostered (w : World) : Prop where
  tagged : ∀ s, (w.roster s).IsTagged
  homed : ∀ {s r}, r ∈ w.members s → w.homeOf r = some s
  sited : ∀ {t j s r}, j ∈ w.codeOf t → j.site? = some (s, r) → w.homeOf r = some s

theorem rostered_initial (n : Nat) : Rostered (World.initial n) where
  tagged s := Roster.isTagged_empty
  homed hr := absurd hr List.not_mem_nil
  sited {t j s r} hj hs := by
    rw [eq_user_of_initial hj] at hs
    cases hs

section Proceed

variable (hw : Lawful n w) (g : Rostered w) (h : w.codeOf t = i :: rest)
  (hu : i.isReady w t = true)
include hw g h

theorem Rostered.step (s : ServiceId) : RosterStep w s i ((w.proceed t i rest).roster s) := by
  have hi : i ∈ w.codeOf t := h ▸ List.mem_cons_self
  have hg := g.tagged s
  have owner {r} (hr : i.record? = some r) (hn : i ≠ .member (.own r)) : w.ownerOf r = some t :=
    hw.reachable.custody.ownerOf_of_head (hw.reachable.orderly t) h hr hn
  have handle {r} (ho : w.ownerOf r = some t) : w.handleOf r = some (r + 1) :=
    hw.reachable.handleOf (lt_of_ownerOf ho)
  -- an instruction that writes the roster of a service writes no other, and most write none
  by_cases hr : i.roster? = some s
  · have hs {k} (hk : i = k) (hp : k.service? = some s) : s < w.services.length :=
      hw.founded.placed (hk ▸ hi) hp
    cases i with
    | stop k =>
      cases k with
      | closeGate b =>
        obtain rfl : b = s := Option.some.inj hr
        rw [roster_closeGate (hs rfl rfl)]
        exact .closeGate
      | openGate b =>
        obtain rfl : b = s := Option.some.inj hr
        rw [roster_openGate (hs rfl rfl)]
        exact .openGate
      | _ => cases hr
    | member k =>
      cases k with
      | publish b r =>
        obtain rfl : b = s := Option.some.inj hr
        rw [roster_publish (hs rfl rfl) (handle (owner rfl (fun h => by cases h)))]
        exact .publish r
      | gateEnter b r =>
        obtain rfl : b = s := Option.some.inj hr
        rw [roster_gateEnter (hs rfl rfl) (handle (owner rfl (fun h => by cases h)))]
        exact .gateEnter r
      | gatePass b r =>
        obtain rfl : b = s := Option.some.inj hr
        have hl := lt_of_ownerOf (owner (r := r) rfl (fun h => by cases h))
        rw [roster_gatePass (hs rfl rfl) (List.getElem?_eq_getElem hl)]
        exact .gatePass r _
      | detachRemove b r l =>
        obtain rfl : b = s := Option.some.inj hr
        have ho := owner (r := r) rfl (fun h => by cases h)
        rw [roster_detachRemove (hs rfl rfl) hg ho (handle ho)]
        exact .detachRemove r l
      | exitRemove b r =>
        obtain rfl : b = s := Option.some.inj hr
        have ho := owner (r := r) rfl (fun h => by cases h)
        have hc := List.getElem?_eq_getElem (lt_of_ownerOf ho)
        rw [roster_exitRemove (hs rfl rfl) hg ho hc (hw.reachable.handle_eq hc)]
        exact .exitRemove r _
      | _ => cases hr
    | _ => cases hr
  · rw [roster_proceed hr]
    exact .still i hr

/-- A step enters one record into the roster of a service, takes one out, or leaves all there. -/
theorem Rostered.revises (s : ServiceId) : ((w.proceed t i rest).roster s).IsTagged ∧
    Revises s i (w.members s) ((w.proceed t i rest).members s) := by
  have hg := g.tagged s
  have hs := g.step hw h s
  -- whoever is not in the roster is taken out of it without a trace
  have gone (r : RecordId) :
      (if r ∈ w.members s then (w.roster s).erase (r + 1) else w.roster s).IsTagged ∧
        (if r ∈ w.members s then (w.roster s).erase (r + 1) else w.roster s).records =
          (w.members s).filter (· != r) := by
    split
    · exact ⟨hg.erase r, hg.records_filter r⟩
    next hm =>
      refine ⟨hg, (List.filter_eq_self.mpr fun x hx => ?_).symm⟩
      simpa using fun he : x = r => hm (he ▸ hx)
  have hm : (w.proceed t i rest).members s = ((w.proceed t i rest).roster s).records := rfl
  rw [hm]
  generalize (w.proceed t i rest).roster s = g' at hs ⊢
  cases hs with
  | still _ hi =>
    refine ⟨hg, .keep (fun r hk => ?_) fun r hk => ?_⟩
    · rcases eq_of_inserts hk with rfl | rfl <;> exact hi rfl
    · rcases eq_of_removes hk with ⟨l, rfl⟩ | rfl <;> exact hi rfl
  | publish r | gateEnter r =>
    exact ⟨(hg.insert r).census _, hg.records_insert r ▸ .insert r rfl⟩
  | gatePass | closeGate | openGate => exact ⟨hg.census _, .keep (fun _ h => by cases h) (fun _ h => by cases h)⟩
  | detachRemove r l =>
    obtain ⟨ht, hr⟩ := gone r
    by_cases hx : r ∈ w.members s
    · rw [if_pos hx] at ht hr ⊢
      exact ⟨ht.census _, hr ▸ .remove r rfl⟩
    · rw [if_neg hx] at ht hr ⊢
      exact ⟨ht, hr ▸ .remove r rfl⟩
  | exitRemove r =>
    obtain ⟨ht, hr⟩ := gone r
    exact ⟨ht.census _, hr ▸ .remove r rfl⟩

theorem Rostered.mem_members_proceed (hr : r ∈ (w.proceed t i rest).members s) :
    r ∈ w.members s ∨ i.inserts? = some (s, r) := (g.revises hw h s).2.mem_or hr

theorem Rostered.mem_members_of_mem (hr : r ∈ w.members s) :
    r ∈ (w.proceed t i rest).members s ∨ i.removes? = some (s, r) :=
  (g.revises hw h s).2.mem_of_mem hr

theorem Rostered.mem_members_of_insert (hi : i.inserts? = some (s, r)) :
    r ∈ (w.proceed t i rest).members s := (g.revises hw h s).2.mem_of_insert hi

theorem Rostered.not_mem_members_of_remove (hi : i.removes? = some (s, r)) :
    r ∉ (w.proceed t i rest).members s := (g.revises hw h s).2.not_mem_of_remove hi

theorem Rostered.homed_proceed (hr : r ∈ (w.proceed t i rest).members s) :
    (w.proceed t i rest).homeOf r = some s := by
  apply homeOf_proceed_of_some
  rcases g.mem_members_proceed hw h hr with hr | hi
  · exact g.homed hr
  · -- whoever enters a record does so with the roster of its service
    refine g.sited (t := t) (j := i) (h ▸ List.mem_cons_self) ?_
    cases i with
    | member k => cases k <;> first | exact hi | cases hi
    | _ => cases hi

omit hw in
/-- A record that new code is about belongs to the service that the code is for. -/
theorem Rostered.homeOf_of_begets (hb : Begets w t i j) (hs : j.site? = some (s, r)) :
    (w.proceed t i rest).homeOf r = some s := by
  -- the record is that of the instruction at hand, one of the others on the roster, or a new one
  have head {s r} (hi : i.site? = some (s, r)) : (w.proceed t i rest).homeOf r = some s :=
    homeOf_proceed_of_some (g.sited (t := t) (h ▸ List.mem_cons_self) hi)
  have found {b r} (hr : r ∈ w.others t b) : (w.proceed t i rest).homeOf r = some b :=
    homeOf_proceed_of_some (g.homed (List.mem_filter.mp hr).1)
  cases hb with
  | establishPublish x =>
    cases hs
    exact ofRecord_new records_establish
  | attachPublish b name hn =>
    cases hs
    exact ofRecord_new (records_attach hn)
  | spawnNative b o k =>
    cases hs
    exact ofRecord_new records_spawnRecord
  | detachRaise b c hc =>
    cases hs
    exact homeOf_proceed_of_some (selfIn_eq_some.mp hc).2
  | detachRemove | exitRemove | gateWait | gatePass =>
    cases hs
    exact head rfl
  | haltRequest b c hc | freeClear b c hc =>
    cases hs
    exact found hc
  | resumeClear b c k hk =>
    cases hs
    obtain ⟨x, hx, rfl⟩ := lookup_mem hk
    exact homeOf_proceed_of_some (g.homed (List.mem_map.mpr ⟨x, hx, rfl⟩))
  | _ => cases hs

omit hw in
include hu in
theorem Rostered.sited_proceed (so : Sealed (w.codeOf t))
    (hj : j ∈ (w.proceed t i rest).codeOf t') (hs : j.site? = some (s, r)) :
    (w.proceed t i rest).homeOf r = some s := by
  have hi : i ∈ w.codeOf t := h ▸ List.mem_cons_self
  rcases mem_codeOf_step so h hj with ⟨rfl, hj⟩ | ⟨hj, _⟩ | ⟨b, c, rfl, _, hj, _⟩
  · have hu := ne_user_of_ready hu
    have hl := List.all_eq_true.mp (run_sequel (w := w.setCode t' rest) i hu) j hj
    have hm : j.isMarked = true := by
      cases j with
      | member k =>
        cases k with
        | exitRaise => cases hl
        | _ => first | rfl | cases hs
      | stop k => cases k <;> first | rfl | cases hs
      | _ => cases hs
    exact g.homeOf_of_begets h (begets_remainder hu hj hm) hs
  · exact homeOf_proceed_of_some (g.sited hj hs)
  · apply homeOf_proceed_of_some
    have hf : j.site? = some (s, r) → s = b ∧ r = c := by
      simp only [threadCode, List.mem_cons, List.not_mem_nil, or_false] at hj
      rcases hj with rfl | rfl | rfl | rfl | rfl | rfl | rfl | rfl | rfl | rfl <;> intro hs <;>
        cases hs <;> exact ⟨rfl, rfl⟩
    obtain ⟨rfl, rfl⟩ := hf hs
    exact g.sited hi rfl

end Proceed

theorem members_of_services_eq (h : w'.services = w.services) : w'.members s = w.members s := by
  rw [members, roster_of_services_eq h, members]

theorem Rostered.undisturbed (g : Rostered w) (u : Undisturbed w e w') : Rostered w' where
  tagged s := by
    rw [roster_of_services_eq u.services]
    exact g.tagged s
  homed {s r} hr := by
    rw [members_of_services_eq u.services] at hr
    have hh : w'.homeOf r = w.homeOf r := u.ofRecord
    rw [hh]
    exact g.homed hr
  sited {t j s r} hj hs := by
    have hh : w'.homeOf r = w.homeOf r := u.ofRecord
    rw [hh]
    exact g.sited ((u.mem_iff (lasting_of_site hs)).mp hj) hs

theorem Lawful.rostered (hw : Lawful n w) : Rostered w := by
  refine hw.induct (rostered_initial n) ?_
  intro w e hw _ g
  rcases w.step_cases e with ⟨t, i, rest, _, hc, hr, hs⟩ | u
  · rw [hs]
    exact ⟨fun s => (g.revises hw hc s).1, g.homed_proceed hw hc,
      g.sited_proceed hc hr (hw.reachable.sealed t)⟩
  · exact g.undisturbed u

/-! How a thread gets to be registered, and how it leaves. -/

namespace Instr

/-- The record whose thread has not yet noted that it has started. -/
def awaits? : Instr → Option RecordId
  | .member (.own r) | .member (.spawnNative _ r) | .member (.gateEnter _ r)
  | .member (.gateWait _ r) | .member (.gatePass _ r) | .member (.noteStarted r) => some r
  | _ => none

/-- The record that is in no roster when the instruction is reached. -/
def outside? : Instr → Option RecordId
  | .member (.publish _ r) | .member (.spawnNative _ r) | .member (.gateEnter _ r)
  | .member (.clearRequest r) | .member (.setLevel r _) => some r
  | _ => none

end Instr

/-- Thread `t` has not yet noted that record `r` has started. -/
def Starting (w : World) (t : ThreadId) (r : RecordId) : Prop :=
  (∃ s, .member (.gateWait s r) ∈ w.codeOf t) ∨ .member (.noteStarted r) ∈ w.codeOf t

structure Enrolled (w : World) : Prop where
  enters : ∀ {t s r}, .member (.gateEnter s r) ∈ w.codeOf t → .member (.gateWait s r) ∈ w.codeOf t
  passes : ∀ {t s r}, .member (.gatePass s r) ∈ w.codeOf t → .member (.noteStarted r) ∈ w.codeOf t
  unstarted : ∀ {t j r}, j ∈ w.codeOf t → j.awaits? = some r → w.startedOf r = false
  joined : ∀ {t s r}, .member (.publish s r) ∈ w.codeOf t → w.startedOf r = true
  outside : ∀ {t j s r}, j ∈ w.codeOf t → j.outside? = some r → r ∉ w.members s
  parted : ∀ {t h}, .member (.unbind h) ∈ w.codeOf t →
    ∃ r, h = r + 1 ∧ w.ownerOf r = some t ∧ ∀ s, r ∉ w.members s
  inside : ∀ {t s r}, .member (.gateWait s r) ∈ w.codeOf t →
    .member (.gateEnter s r) ∈ w.codeOf t ∨ r ∈ w.members s
  admitted : ∀ {t s r}, .member (.gatePass s r) ∈ w.codeOf t → r ∈ w.members s
  noted : ∀ {t s r}, .member (.noteStarted r) ∈ w.codeOf t → w.homeOf r = some s →
    r ∈ w.members s ∧ (.roster s, t) ∈ w.held
  awaited : ∀ {s r}, r ∈ w.members s → w.startedOf r = false → ∃ t, Starting w t r

/-- A thread that waits at the gate has entered its record, and does not enter it below. -/
theorem Enrolled.inside_of_head (hw : Lawful n w) (d : Enrolled w)
    (h : w.codeOf t = .member (.gateWait s r) :: rest) : r ∈ w.members s := by
  rcases d.inside (t := t) (h ▸ List.mem_cons_self) with hk | hk
  · rw [h] at hk
    have so := hw.reachable.sealed t
    rw [h] at so
    rcases List.mem_cons.mp hk with hk | hk
    · cases hk
    · cases so.lets hk
  · exact hk

section Proceed

variable (hw : Lawful n w) (d : Enrolled w) (h : w.codeOf t = i :: rest)
  (hu : i.isReady w t = true)
include hw d h hu

omit d hu in
theorem ownerOf_of_inserts (hi : i.inserts? = some (s, r)) : w.ownerOf r = some t := by
  have head (hr : i.record? = some r) (hn : i ≠ .member (.own r)) : w.ownerOf r = some t :=
    hw.reachable.custody.ownerOf_of_head (hw.reachable.orderly t) h hr hn
  rcases eq_of_inserts hi with rfl | rfl <;> exact head rfl (fun h => by cases h)

omit d hu in
theorem ownerOf_of_removes (hi : i.removes? = some (s, r)) : w.ownerOf r = some t := by
  have head (hr : i.record? = some r) (hn : i ≠ .member (.own r)) : w.ownerOf r = some t :=
    hw.reachable.custody.ownerOf_of_head (hw.reachable.orderly t) h hr hn
  rcases eq_of_removes hi with ⟨l, rfl⟩ | rfl <;> exact head rfl (fun h => by cases h)

omit d hu in
theorem not_mem_members_proceed (hr : r ∉ w.members s) (hi : i.inserts? ≠ some (s, r)) :
    r ∉ (w.proceed t i rest).members s := by
  intro hx
  rcases hw.rostered.mem_members_proceed hw h hx with hx | hk
  · exact hr hx
  · exact hi hk

omit d hu in
/-- A record is taken out of a roster by its owner, in whose code there is nothing about it below. -/
theorem mem_members_proceed_of_lets (hr : r ∈ w.members s) (hj : j ∈ w.codeOf t')
    (hl : t' = t → j ∈ rest ∧ j.lets i = true) (hk : j.record? = some r)
    (hn : ∀ b l, j.lets (.member (.detachRemove b r l)) = false)
    (hn' : ∀ b, j.lets (.member (.exitRemove b r)) = false) :
    r ∈ (w.proceed t i rest).members s := by
  rcases hw.rostered.mem_members_of_mem hw h hr with hx | hx
  · exact hx
  · have ho := ownerOf_of_removes hw h hx
    have hl := (hl (hw.reachable.custody.eq_of_record hj hk ho)).2
    rcases eq_of_removes hx with ⟨l, rfl⟩ | rfl
    · rw [hn] at hl
      cases hl
    · rw [hn'] at hl
      cases hl

omit d hu in
/-- A record that is taken out is in no roster, as it was in that of its own service only. -/
theorem not_mem_members_of_removes (hi : i.removes? = some (b, r)) (s : ServiceId) :
    r ∉ (w.proceed t i rest).members s := by
  intro hx
  have hb : r ∉ (w.proceed t i rest).members b := hw.rostered.not_mem_members_of_remove hw h hi
  have hh : (w.proceed t i rest).homeOf r = some s := hw.rostered.homed_proceed hw h hx
  have hs : w.homeOf r = some b := by
    refine hw.rostered.sited (t := t) (j := i) (h ▸ List.mem_cons_self) ?_
    rcases eq_of_removes hi with ⟨l, rfl⟩ | rfl <;> rfl
  rw [homeOf_proceed_of_some hs] at hh
  exact hb (Option.some.inj hh ▸ hx)

theorem Enrolled.outside_proceed (hj : j ∈ (w.proceed t i rest).codeOf t')
    (hr : j.outside? = some r) : r ∉ (w.proceed t i rest).members s := by
  have hi : i ∈ w.codeOf t := h ▸ List.mem_cons_self
  have hm : j.isMarked = true := by
    cases j with
    | member k => cases k <;> first | rfl | cases hr
    | _ => cases hr
  have fresh : w.records.length ∉ w.members s := fun hx =>
    absurd (lt_of_homeOf (hw.rostered.homed hx)) (Nat.lt_irrefl _)
  rcases marked_cases (hw.reachable.sealed t) h hu hj hm with
    ⟨rfl, hb⟩ | ⟨hj, hl⟩ | ⟨b, x, rfl, _, hj, _⟩
  · cases hb with
    | establishPublish | attachPublish | spawnNative =>
      cases hr
      exact not_mem_members_proceed hw h fresh (fun h => by cases h)
    | clearRequest | setLevel =>
      cases hr
      exact not_mem_members_of_removes hw h rfl s
    | _ => cases hr
  · refine not_mem_members_proceed hw h (d.outside hj hr) fun hx => ?_
    -- the owner enters the record, so the code is the owner's and lies below
    have ho := ownerOf_of_inserts hw h hx
    cases j with
    | member k =>
      cases k with
      | spawnNative b c =>
        obtain rfl := Option.some.inj hr
        rw [(hw.reachable.custody.borne hj).2.1] at ho
        cases ho
      | publish | gateEnter | clearRequest | setLevel =>
        have hl := (hl (hw.reachable.custody.eq_of_record hj hr ho)).2
        rcases eq_of_inserts hx with rfl | rfl <;> cases hl
      | _ => cases hr
    | _ => cases hr
  · have hx : r = x := by
      simp only [threadCode, List.mem_cons, List.not_mem_nil, or_false] at hj
      rcases hj with rfl | rfl | rfl | rfl | rfl | rfl | rfl | rfl | rfl | rfl <;> cases hr
      rfl
    exact not_mem_members_proceed hw h (d.outside hi (by rw [hx]; rfl)) (fun h => by cases h)

theorem Enrolled.parted_proceed {k : Handle}
    (hj : .member (.unbind k) ∈ (w.proceed t i rest).codeOf t') :
    ∃ r, k = r + 1 ∧ (w.proceed t i rest).ownerOf r = some t' ∧
      ∀ s, r ∉ (w.proceed t i rest).members s := by
  have c := hw.reachable.custody
  rcases marked_cases (hw.reachable.sealed t) h hu hj rfl with
    ⟨rfl, hb⟩ | ⟨hj, hl⟩ | ⟨b, x, rfl, _, hj, _⟩
  · cases hb with
    | unbind s r l _ hh =>
      have ho := ownerOf_of_removes hw h (s := s) (r := r) rfl
      rw [hw.reachable.handleOf (lt_of_ownerOf ho)] at hh
      exact ⟨r, (Option.some.inj hh).symm, c.ownerOf_proceed h ho,
        not_mem_members_of_removes hw h rfl⟩
    | exitUnbind s r c' hc =>
      have ho := ownerOf_of_removes hw h (s := s) (r := r) rfl
      exact ⟨r, hw.reachable.handle_eq hc, c.ownerOf_proceed h ho,
        not_mem_members_of_removes hw h rfl⟩
  -- who is about to unbind a record does not enter it anywhere
  · obtain ⟨r, rfl, ho, hn⟩ := d.parted hj
    refine ⟨r, rfl, c.ownerOf_proceed h ho, fun s => ?_⟩
    refine not_mem_members_proceed hw h (hn s) fun hx => ?_
    have ht := ownerOf_of_inserts hw h hx
    rw [ho] at ht
    have hl := (hl (Option.some.inj ht)).2
    rcases eq_of_inserts hx with rfl | rfl <;> cases hl
  · simp [threadCode] at hj

theorem Enrolled.enters_proceed (hj : .member (.gateEnter s r) ∈ (w.proceed t i rest).codeOf t') :
    .member (.gateWait s r) ∈ (w.proceed t i rest).codeOf t' := by
  rcases marked_cases (hw.reachable.sealed t) h hu hj rfl with
    ⟨rfl, hb⟩ | ⟨hj, hl⟩ | ⟨b, x, rfl, _, hj, hc⟩
  · cases hb
  · refine mem_codeOf_proceed_of_mem h (d.enters hj) fun ht hi => ?_
    subst hi
    cases (hl ht).2
  · rw [hc]
    simp [threadCode] at hj ⊢
    exact hj

theorem Enrolled.passes_proceed (hj : .member (.gatePass s r) ∈ (w.proceed t i rest).codeOf t') :
    .member (.noteStarted r) ∈ (w.proceed t i rest).codeOf t' := by
  rcases marked_cases (hw.reachable.sealed t) h hu hj rfl with
    ⟨rfl, hb⟩ | ⟨hj, hl⟩ | ⟨b, x, rfl, _, hj, hc⟩
  · cases hb with
    | gatePass _ _ ha =>
      rw [codeOf_proceed h]
      have ha' : ((w.setCode t' rest).census s).allSuspended = false := ha
      simp [remainder, Instr.run, MemberInstr.run, ha']
  · refine mem_codeOf_proceed_of_mem h (d.passes hj) fun ht hi => ?_
    subst hi
    cases (hl ht).2
  · simp [threadCode] at hj

omit hw d hu in
/-- A thread that has not noted its start has still to, or has just done so. -/
theorem Starting.proceed (hs : Starting w t' r) (hr : r < w.records.length) :
    Starting (w.proceed t i rest) t' r ∨ (w.proceed t i rest).startedOf r = true := by
  rcases hs with ⟨s, hj⟩ | hj
  · by_cases hi : t' = t ∧ i = .member (.gateWait s r)
    · obtain ⟨rfl, rfl⟩ := hi
      left
      rw [Starting, codeOf_proceed h]
      -- behind a closed gate it goes on waiting; through an open one it is to note its start
      cases ha : ((w.setCode t' rest).census s).allSuspended with
      | true =>
        refine Or.inl ⟨s, ?_⟩
        simp [remainder, Instr.run, MemberInstr.run, ha]
      | false =>
        right
        simp [remainder, Instr.run, MemberInstr.run, ha]
    · exact Or.inl (Or.inl ⟨s, mem_codeOf_proceed_of_mem h hj fun ht hi' => hi ⟨ht, hi'.symm⟩⟩)
  · by_cases hi : i = .member (.noteStarted r)
    · right
      rw [hi]
      exact startedOf_proceed_noteStarted hr
    · exact Or.inl (Or.inr (mem_codeOf_proceed_of_mem h hj fun _ hi' => hi hi'.symm))

theorem Enrolled.unstarted_proceed (hj : j ∈ (w.proceed t i rest).codeOf t')
    (hr : j.awaits? = some r) : (w.proceed t i rest).startedOf r = false := by
  have c := hw.reachable.custody
  have hi : i ∈ w.codeOf t := h ▸ List.mem_cons_self
  have hm : j.isMarked = true := by
    cases j with
    | member k => cases k <;> first | rfl | cases hr
    | _ => cases hr
  -- who awaits a start awaits it of a record that is there
  have lt {t' j} (hj : j ∈ w.codeOf t') (hr : j.awaits? = some r) : r < w.records.length := by
    cases j with
    | member k =>
      cases k with
      | spawnNative b x =>
        cases hr
        exact (c.borne hj).1
      | own | gateEnter | gateWait | gatePass | noteStarted => exact lt_of_record c hj hr
      | _ => cases hr
    | _ => cases hr
  have keep {t' j} (hj : j ∈ w.codeOf t') (hr : j.awaits? = some r)
      (hn : i ≠ .member (.noteStarted r)) : (w.proceed t i rest).startedOf r = false := by
    rw [startedOf_proceed (lt hj hr) hn]
    exact d.unstarted hj hr
  rcases marked_cases (hw.reachable.sealed t) h hu hj hm with
    ⟨rfl, hb⟩ | ⟨hm, hl⟩ | ⟨b, x, rfl, _, hm, _⟩
  · cases hb with
    | spawnNative =>
      cases hr
      exact ofRecord_new records_spawnRecord
    | gateWait | gatePass | noteStarted =>
      cases hr
      exact keep hi rfl (fun h => by cases h)
    | _ => cases hr
  -- only the owner notes the start of a record, and nothing under that instruction awaits it
  · refine keep hm hr ?_
    rintro rfl
    have ho := c.ownerOf_of_head (hw.reachable.orderly t) h (r := r) rfl (fun h => by cases h)
    cases j with
    | member k =>
      cases k with
      | spawnNative b x =>
        obtain rfl := Option.some.inj hr
        rw [(c.borne hm).2.1] at ho
        cases ho
      | own | gateEnter | gateWait | gatePass | noteStarted =>
        cases (hl (c.eq_of_record hm hr ho)).2
      | _ => cases hr
    | _ => cases hr
  · have hx : r = x := by
      simp only [threadCode, List.mem_cons, List.not_mem_nil, or_false] at hm
      rcases hm with rfl | rfl | rfl | rfl | rfl | rfl | rfl | rfl | rfl | rfl <;> cases hr <;> rfl
    exact keep hi (by rw [hx]; rfl) (fun h => by cases h)

theorem Enrolled.joined_proceed (hj : .member (.publish s r) ∈ (w.proceed t i rest).codeOf t') :
    (w.proceed t i rest).startedOf r = true := by
  rcases marked_cases (hw.reachable.sealed t) h hu hj rfl with
    ⟨rfl, hb⟩ | ⟨hj, hl⟩ | ⟨b, x, rfl, _, hj, _⟩
  · cases hb with
    | establishPublish => exact ofRecord_new records_establish
    | attachPublish _ _ hn => exact ofRecord_new (records_attach hn)
  · exact startedOf_proceed_of_started (d.joined hj)
  · simp [threadCode] at hj

theorem Enrolled.inside_proceed (hj : .member (.gateWait s r) ∈ (w.proceed t i rest).codeOf t') :
    .member (.gateEnter s r) ∈ (w.proceed t i rest).codeOf t' ∨
      r ∈ (w.proceed t i rest).members s := by
  rcases marked_cases (hw.reachable.sealed t) h hu hj rfl with
    ⟨rfl, hb⟩ | ⟨hj, hl⟩ | ⟨b, x, rfl, _, hj, hc⟩
  · cases hb
    right
    exact (hw.rostered.mem_members_of_mem hw h (d.inside_of_head hw h)).resolve_right (fun h => by cases h)
  · rcases d.inside hj with hk | hk
    · by_cases hi : t' = t ∧ i = .member (.gateEnter s r)
      · obtain ⟨rfl, rfl⟩ := hi
        exact Or.inr (hw.rostered.mem_members_of_insert hw h rfl)
      · exact Or.inl (mem_codeOf_proceed_of_mem h hk fun ht hi' => hi ⟨ht, hi'.symm⟩)
    · exact Or.inr (mem_members_proceed_of_lets hw h hk hj hl rfl (fun _ _ => rfl) fun _ => rfl)
  · left
    rw [hc]
    simp [threadCode] at hj ⊢
    exact hj

theorem Enrolled.admitted_proceed (hj : .member (.gatePass s r) ∈ (w.proceed t i rest).codeOf t') :
    r ∈ (w.proceed t i rest).members s := by
  rcases marked_cases (hw.reachable.sealed t) h hu hj rfl with
    ⟨rfl, hb⟩ | ⟨hj, hl⟩ | ⟨b, x, rfl, _, hj, _⟩
  · cases hb
    exact (hw.rostered.mem_members_of_mem hw h (d.inside_of_head hw h)).resolve_right (fun h => by cases h)
  · exact mem_members_proceed_of_lets hw h (d.admitted hj) hj hl rfl (fun _ _ => rfl) fun _ => rfl
  · simp [threadCode] at hj

theorem Enrolled.noted_proceed (hj : .member (.noteStarted r) ∈ (w.proceed t i rest).codeOf t')
    (hr : (w.proceed t i rest).homeOf r = some s) :
    r ∈ (w.proceed t i rest).members s ∧ (.roster s, t') ∈ (w.proceed t i rest).held := by
  have c := hw.reachable.custody
  -- the roster in question is that of the record's own service
  have home {t'} (hj : .member (.noteStarted r) ∈ w.codeOf t') : w.homeOf r = some s := by
    have he : (w.proceed t i rest).homeOf r = w.homeOf r := homeOf_proceed (lt_of_record c hj rfl)
    exact he.symm.trans hr
  rcases marked_cases (hw.reachable.sealed t) h hu hj rfl with
    ⟨rfl, hb⟩ | ⟨hj, hl⟩ | ⟨b, x, rfl, _, hj, _⟩
  · cases hb with
    | noteStarted b =>
      have hb : w.homeOf r = some b := hw.rostered.sited (t := t') (h ▸ List.mem_cons_self) rfl
      have hs := hr
      rw [homeOf_proceed_of_some hb] at hs
      obtain rfl := Option.some.inj hs
      refine ⟨(hw.rostered.mem_members_of_mem hw h (d.inside_of_head hw h)).resolve_right (fun h => by cases h), ?_⟩
      exact mem_held_proceed (hw.reachable.keeping.held_of_head h List.mem_cons_self)
        fun _ _ _ => ⟨(fun h => by cases h), (fun h => by cases h)⟩
  · obtain ⟨hm, hk⟩ := d.noted hj (home hj)
    refine ⟨mem_members_proceed_of_lets hw h hm hj hl rfl (fun _ _ => rfl) fun _ => rfl, ?_⟩
    refine mem_held_proceed hk fun ht q k => ?_
    have hl := (hl ht).2
    refine ⟨?_, ?_⟩ <;> rintro rfl
    · cases hl
    · cases q <;> cases hl
  · simp [threadCode] at hj

theorem Enrolled.awaited_proceed (hr : r ∈ (w.proceed t i rest).members s)
    (hn : (w.proceed t i rest).startedOf r = false) :
    ∃ t', Starting (w.proceed t i rest) t' r := by
  rcases hw.rostered.mem_members_proceed hw h hr with hm | hi
  · have hlt := lt_of_homeOf (hw.rostered.homed hm)
    have ho : w.startedOf r = false := by
      by_contra ho
      rw [Bool.not_eq_false] at ho
      rw [startedOf_proceed_of_started ho] at hn
      cases hn
    obtain ⟨t', hs⟩ := d.awaited hm ho
    rcases hs.proceed h hlt with hs | hs
    · exact ⟨t', hs⟩
    · rw [hs] at hn
      cases hn
  -- who joins by itself has started already; a thread that was started enters before it waits at
  -- the gate
  · rcases eq_of_inserts hi with rfl | rfl
    · rw [startedOf_proceed_of_started (d.joined (t := t) (h ▸ List.mem_cons_self))] at hn
      cases hn
    · have hj := d.enters (t := t) (h ▸ List.mem_cons_self)
      exact ⟨t, Or.inl ⟨s, mem_codeOf_proceed_of_mem h hj fun _ => (fun h => by cases h)⟩⟩

theorem Enrolled.proceed : Enrolled (w.proceed t i rest) where
  enters := d.enters_proceed hw h hu
  passes := d.passes_proceed hw h hu
  unstarted := d.unstarted_proceed hw h hu
  joined := d.joined_proceed hw h hu
  outside := d.outside_proceed hw h hu
  parted := d.parted_proceed hw h hu
  inside := d.inside_proceed hw h hu
  admitted := d.admitted_proceed hw h hu
  noted := d.noted_proceed hw h hu
  awaited := d.awaited_proceed hw h hu

end Proceed

theorem enrolled_initial (n : Nat) : Enrolled (World.initial n) := by
  refine ⟨?_, ?_, ?_, ?_, ?_, ?_, ?_, ?_, ?_, fun hr => absurd hr List.not_mem_nil⟩
  · exact fun hj => nomatch eq_user_of_initial hj
  · exact fun hj => nomatch eq_user_of_initial hj
  · intro t j r hj hr
    rw [eq_user_of_initial hj] at hr
    cases hr
  · exact fun hj => nomatch eq_user_of_initial hj
  · intro t j s r hj hr
    rw [eq_user_of_initial hj] at hr
    cases hr
  · exact fun hj => nomatch eq_user_of_initial hj
  · exact fun hj => nomatch eq_user_of_initial hj
  · exact fun hj => nomatch eq_user_of_initial hj
  · exact fun hj => nomatch eq_user_of_initial hj

theorem Enrolled.undisturbed (d : Enrolled w) (u : Undisturbed w e w') : Enrolled w' where
  enters hj := (u.mem_iff rfl).mpr (d.enters ((u.mem_iff rfl).mp hj))
  passes hj := (u.mem_iff rfl).mpr (d.passes ((u.mem_iff rfl).mp hj))
  -- who awaits a start does so by an instruction that such a step neither adds nor takes away
  unstarted {t j r} hj hr := by
    have hm : j.isLasting = true := by
      cases j with
      | member k => cases k <;> first | rfl | cases hr
      | _ => cases hr
    have hs : w'.startedOf r = w.startedOf r := u.ofRecord
    rw [hs]
    exact d.unstarted ((u.mem_iff hm).mp hj) hr
  joined {t s r} hj := by
    have hs : w'.startedOf r = w.startedOf r := u.ofRecord
    rw [hs]
    exact d.joined ((u.mem_iff rfl).mp hj)
  outside {t j s r} hj hr := by
    have hm : j.isLasting = true := by
      cases j with
      | member k => cases k <;> first | rfl | cases hr
      | _ => cases hr
    rw [members_of_services_eq u.services]
    exact d.outside ((u.mem_iff hm).mp hj) hr
  parted {t k} hj := by
    obtain ⟨r, hk, ho, hn⟩ := d.parted ((u.mem_iff rfl).mp hj)
    have hs : w'.ownerOf r = w.ownerOf r := u.ofRecord
    refine ⟨r, hk, hs ▸ ho, fun s => ?_⟩
    rw [members_of_services_eq u.services]
    exact hn s
  inside hj := by
    rw [members_of_services_eq u.services, u.mem_iff rfl]
    exact d.inside ((u.mem_iff rfl).mp hj)
  admitted hj := by
    rw [members_of_services_eq u.services]
    exact d.admitted ((u.mem_iff rfl).mp hj)
  noted {t s r} hj hr := by
    have hs : w'.homeOf r = w.homeOf r := u.ofRecord
    rw [members_of_services_eq u.services, u.held]
    exact d.noted ((u.mem_iff rfl).mp hj) (hs ▸ hr)
  awaited {s r} hr hn := by
    have hs : w'.startedOf r = w.startedOf r := u.ofRecord
    rw [members_of_services_eq u.services] at hr
    obtain ⟨t, hk⟩ := d.awaited hr (hs ▸ hn)
    refine ⟨t, ?_⟩
    simp only [Starting, u.mem_iff (j := .member (.gateWait _ r)) rfl,
      u.mem_iff (j := .member (.noteStarted r)) rfl]
    exact hk

theorem Lawful.enrolled (hw : Lawful n w) : Enrolled w := by
  refine hw.induct (enrolled_initial n) ?_
  intro w e hw _ d
  rcases w.step_cases e with ⟨t, i, rest, _, hc, hr, hs⟩ | u
  · rw [hs]
    exact d.proceed hw hc hr
  · exact d.undisturbed u

end Standstill
