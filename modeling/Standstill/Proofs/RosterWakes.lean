import Standstill.Proofs.RosterWaits
import Standstill.Proofs.MemberLevels

/-!
Whoever sleeps in the queue of a roster is woken once what it waits for has come to be. A thread
changes what others wait for with the lock of the roster in its hand, and calls them after it has
given the lock back. In between it cannot be stopped, as long as no thread attaches itself.
-/
namespace Standstill

open World

variable {n : Nat} {w w' : World} {t t' q : ThreadId} {s b : ServiceId} {r : RecordId}
  {i j : Instr} {rest : List Instr} {e : Event} {es fs : List Event}

/-! Services whose threads are those that they start. -/

/-- By the event no thread attaches itself, and no call is made straight on the pools. -/
def Event.isInner : Event → Bool
  | .invoke _ (.attach ..) => false
  | e => e.isManaged

/-- The worlds that `n` threads can bring about with no more than one service, to which no thread
attaches itself. -/
def Enclosed (n : Nat) (w : World) : Prop :=
  ∃ es, (World.initial n).admits es = true ∧ es.all Event.isInner = true ∧
    (World.initial n).run es = w ∧ w.services.length ≤ 1

theorem managed_of_inner (h : e.isInner = true) : e.isManaged = true := by
  cases e with
  | invoke t c => cases c <;> first | exact h | rfl
  | _ => exact h

theorem Enclosed.alone (h : Enclosed n w) : Alone n w :=
  let ⟨es, ha, _, hr, h1⟩ := h
  ⟨es, ha, hr, h1⟩

theorem Enclosed.induct {P : World → Prop} (h : Enclosed n w) (h0 : P (World.initial n))
    (hs : ∀ w e, Enclosed n w → e.isPlaced w = true → e.isInner = true →
      (w.step e).services.length ≤ 1 → P w → P (w.step e)) : P w := by
  obtain ⟨es, ha, hi, rfl, h1⟩ := h
  induction es using List.reverseRecOn with
  | nil => exact h0
  | append_singleton es e ih =>
    rw [run_append] at h1 ⊢
    rw [admits_append, Bool.and_eq_true] at ha
    rw [List.all_append, Bool.and_eq_true] at hi
    have hl := Nat.le_trans (services_length_step _ e) h1
    have he := ha.2
    simp only [admits, Bool.and_true] at he
    exact hs _ e ⟨es, ha.1, hi.1, rfl, hl⟩ he (by simpa using hi.2) h1 (ih ha.1 hi.1 hl)

/-- No thread has more than one record, or is about to make another. -/
structure Sole (w : World) : Prop where
  settled : ∀ {t s name}, .member (.attach s name) ∉ w.codeOf t
  sole : ∀ {t r b}, w.ownerOf r = some t → w.ownerOf b = some t → b = r

theorem sole_initial (n : Nat) : Sole (World.initial n) where
  settled {t s name} hj := by
    rcases codeOf_initial n t with hc | hc <;> rw [hc] at hj <;> simp at hj
  sole h := nomatch h

section Proceed

variable (d : Sole w) (hw : Alone n w) (h : w.codeOf t = i :: rest)
include d hw h

/-- A thread that comes to own a record has had none before. -/
theorem Sole.unowned (h1 : (w.proceed t i rest).services.length ≤ 1)
    (ho : (w.proceed t i rest).ownerOf r = some t)
    (hi : i = .member (.own r) ∨ r = w.records.length) : w.ownerOf b ≠ some t := by
  intro hb
  have hmem : i ∈ w.codeOf t := h ▸ List.mem_cons_self
  rcases hi with rfl | rfl
  · exact (hw.lawful.bound.owned hmem).2.2 b hb
  · obtain ⟨s, hj⟩ := joins_of_ownerOf ho
    cases hj with
    | establish x =>
      -- the service would be the second, as there is one already that the record belongs to
      rw [services_length_establish] at h1
      obtain ⟨s, hh⟩ := Option.isSome_iff_exists.mp (homeOf_isSome.mpr (lt_of_ownerOf hb))
      exact Nat.not_lt_zero s ((hw.uniform.homes hh).trans_le (Nat.le_of_succ_le_succ h1))
    | attach s name => exact d.settled hmem

theorem Sole.sole_proceed (h1 : (w.proceed t i rest).services.length ≤ 1)
    (hr : (w.proceed t i rest).ownerOf r = some t')
    (hb : (w.proceed t i rest).ownerOf b = some t') : b = r := by
  rcases ownerOf_proceed w t i rest r with er | ⟨er, ir⟩ <;>
    rcases ownerOf_proceed w t i rest b with eb | ⟨eb, ib⟩
  · exact d.sole (er ▸ hr) (eb ▸ hb)
  · obtain rfl := Option.some.inj (eb.symm.trans hb)
    exact absurd (er ▸ hr) (d.unowned hw h h1 eb ib)
  · obtain rfl := Option.some.inj (er.symm.trans hr)
    exact absurd (eb ▸ hb) (d.unowned hw h h1 er ir)
  · -- it does not take a record over while it makes another
    have not_both {x : RecordId} (hx : i = .member (.own x))
        (ho : (w.proceed t i rest).ownerOf w.records.length = some t) : False := by
      obtain ⟨_, hj⟩ := joins_of_ownerOf ho
      subst hx
      cases hj
    rcases ir with ir | rfl <;> rcases ib with ib | rfl
    · rw [ir] at ib
      cases ib
      rfl
    · exact (not_both ir eb).elim
    · exact (not_both ib er).elim
    · rfl

omit d hw in
theorem settled_proceed (d : ∀ {t s name}, .member (.attach s name) ∉ w.codeOf t)
    (hu : i.isReady w t = true) {name : String} :
    .member (.attach s name) ∉ (w.proceed t i rest).codeOf t' := by
  intro hj
  rcases mem_codeOf_proceed h hj with ⟨-, hj⟩ | ⟨-, hj⟩ | ⟨-, hj⟩ | ⟨_, _, -, -, hj, -⟩
  · have hl := List.all_eq_true.mp (run_sequel i (ne_user_of_ready hu)) _ hj
    cases hl
  · exact d (h ▸ List.mem_cons_of_mem _ hj)
  · exact d hj
  · simp [threadCode] at hj

end Proceed

/-- Only a call brings a thread to attach itself. -/
theorem Call.code_settled (c : Call) (hc : ∀ s name, c ≠ .attach s name) {name : String} :
    .member (.attach s name) ∉ c.code w t := by
  cases c with
  | attach s name => exact absurd rfl (hc s name)
  | mutex s a c => cases a <;> cases c <;> simp [Call.code, MutexCall.code, guarded, locked]
  | cond s a c => cases a <;> cases c <;> simp [Call.code, CondCall.code, guarded, locked]
  | safePoint s =>
    simp only [Call.code]
    split <;> simp
  | _ =>
    simp [Call.code, inquireCode, suspendAllCode, resumeAllCode, sleepCode, sleeping, guarded,
      locked]

theorem Sole.undisturbed (d : Sole w) (u : Undisturbed w e w') (hi : e.isInner = true) :
    Sole w' where
  settled {t s name} hj := by
    rcases u.code t with hc | hc
    · exact d.settled (hc ▸ hj)
    obtain ⟨new, old, ho, hs, hn⟩ := hc.split
    rw [ho] at hj
    rcases List.mem_append.mp hj with hj | hj
    · rcases hn with ⟨hn, -⟩ | ⟨-, hn⟩
      · cases List.all_eq_true.mp hn _ hj
      · rcases hn _ hj with ⟨c, rfl, hj⟩ | ⟨_, _, hj⟩
        · exact c.code_settled (by rintro s name rfl; cases hi) hj
        · cases hj
    · exact d.settled (hs.subset hj)
  sole hr hb := d.sole (u.ofRecord.symm.trans hr) (u.ofRecord.symm.trans hb)

theorem Enclosed.sole (hw : Enclosed n w) : Sole w := by
  refine hw.induct (sole_initial n) ?_
  intro w e hw _ hi h1 d
  rcases w.step_cases e with ⟨t, i, rest, -, hc, hr, hs⟩ | u
  · rw [hs] at h1 ⊢
    exact ⟨settled_proceed hc d.settled hr, d.sole_proceed hw.alone hc h1⟩
  · exact d.undisturbed u hi

/-- A thread with one record leaves on the record that stands for it. -/
theorem Enclosed.not_leavesStale (hw : Enclosed n w) (t : ThreadId) : w.leavesStale t = false := by
  unfold leavesStale
  split
  next s r hh =>
    obtain ⟨rest, hc⟩ := List.head?_eq_some_iff.mp hh
    have hreach := hw.alone.reachable
    have ho := hreach.custody.ownerOf_of_head (hreach.orderly t) hc (r := r) rfl nofun
    cases hb : w.bindingOf t with
    | none => simp
    | some b =>
      obtain rfl := hw.sole.sole ho (hreach.custody.bound hb)
      cases hl : w.levelOf b <;> simp [hl]
  · rfl

theorem Enclosed.managed (hw : Enclosed n w) : Managed n w := by
  refine hw.induct ⟨[], rfl, rfl, Nat.zero_le _⟩ ?_
  rintro w e hw hp hi h1 ⟨es, hm, rfl, -⟩
  refine ⟨es ++ [e], ?_, run_append _ es [e], h1⟩
  rw [manages_append, hm]
  have ht : e.isTimely ((World.initial n).run es) = true := by
    cases e with
    | advance t => simpa [Event.isTimely] using hw.not_leavesStale t
    | _ => rfl
  simp [manages, hp, managed_of_inner hi, ht]

/-! Who sleeps in the queue of a roster, and what it waits for. -/

/-- Thread `t` sleeps in the queue of roster `s`. When it has been woken it takes the lock of the
roster and looks by instruction `j` at what it waits for. -/
structure Dozes (w : World) (s : ServiceId) (t : ThreadId) (j : Instr) : Prop where
  asleep : (.roster s, t) ∈ w.asleep
  code : ∃ top m rest, w.codeOf t =
    top ++ .sync (.resting (.roster s) m) :: .sync (.acquire (.roster s)) :: j :: rest

theorem Queued.exists_dozes (d : Queued w) (h : (.roster s, t) ∈ w.asleep) :
    ∃ j, Dozes w s t j := by
  obtain ⟨m, hm⟩ := d.rests h
  obtain ⟨top, rest, hc⟩ := List.append_of_mem hm
  obtain ⟨j, code, rfl, -⟩ := (hc ▸ d.trails t).followed
  exact ⟨j, h, top, m, code, hc⟩

theorem Dozes.isLook (z : Dozes w s t j) (d : Queued w) : j.isLook s = true := by
  obtain ⟨-, top, m, rest, hc⟩ := z
  obtain ⟨_, _, hx, hj⟩ := (hc ▸ d.trails t).followed
  obtain ⟨rfl, -⟩ := List.cons.inj (List.cons.inj hx).2
  exact hj

theorem Dozes.mem (z : Dozes w s t j) : j ∈ w.codeOf t := by
  obtain ⟨-, top, m, rest, hc⟩ := z
  simp [hc]

/-- A sleeper has slept before, or has just gone to sleep. -/
theorem Dozes.of_proceed (d : Queued w) (h : w.codeOf t = i :: rest) (hu : i.isReady w t = true)
    (z : Dozes (w.proceed t i rest) s t' j) : Dozes w s t' j ∨
      t' = t ∧ ∃ l m code, i = .sync (.wait (.roster s) l m) ∧ rest = j :: code := by
  obtain ⟨ha, top, m, code, hc⟩ := z
  rcases codeOf_proceed_split h hc with
    ⟨rfl, bot, hr, hx⟩ | ⟨rfl, mid, -, hr⟩ | ⟨ht, hc⟩ | ⟨b, r, -, hr⟩
  · -- it has gone to sleep at this very step
    right
    have hm : .sync (.resting (.roster s) m) ∈ w.remainder t' i rest := by
      rw [hr]
      simp
    obtain ⟨l, rfl⟩ := resting_of_run (ne_user_of_ready hu) hm
    refine ⟨rfl, l, m, code, rfl, ?_⟩
    have hr : [.sync (.resting (.roster s) m), .sync (.acquire l)] =
      top ++ .sync (.resting (.roster s) m) :: bot := hr
    cases top with
    | nil =>
      obtain ⟨-, rfl⟩ := List.cons.inj hr
      exact (List.cons.inj hx).2.symm
    | cons k top =>
      have hm : Instr.sync (.resting (.roster s) m) ∈ [.sync (.acquire l)] := by
        rw [(List.cons.inj hr).2]
        simp
      cases List.mem_singleton.mp hm
  · left
    refine ⟨?_, i :: mid, m, code, by rw [h, hr, List.cons_append]⟩
    rcases mem_asleep_proceed ha with ha | ⟨-, l, x, rfl⟩
    · exact ha
    · -- no sleep comes below the way to one
      have he := d.early t'
      rw [h, hr] at he
      cases (List.pairwise_cons.mp he).1 (.sync (.resting (.roster s) m)) (by simp) rfl
  · left
    refine ⟨?_, top, m, code, hc⟩
    rcases mem_asleep_proceed ha with ha | ⟨he, -⟩
    · exact ha
    · exact absurd he ht
  · have hm : Instr.sync (.resting (.roster s) m) ∈ threadCode b r := by
      rw [hr]
      simp
    simp [threadCode] at hm

theorem Dozes.of_undisturbed (u : Undisturbed w e w') (z : Dozes w' s t j) : Dozes w s t j := by
  obtain ⟨ha, top, m, code, hc⟩ := z
  refine ⟨u.asleep.subset ha, ?_⟩
  rcases u.code t with hs | hs
  · exact ⟨top, m, code, hs ▸ hc⟩
  · obtain ⟨above, ho⟩ := hs.lead_below hc rfl
    exact ⟨above, m, code, ho⟩

/-! Who is about to wake the sleepers. -/

/-- Thread `t` wakes all that sleep in the queue of roster `s` once it has given back the lock of
the roster, and is not stopped before. -/
structure Heralding (w : World) (s : ServiceId) (t : ThreadId) : Prop where
  spared : Spared w t
  code : ∃ top rest, w.codeOf t = top ++ .sync (.notifyAll (.roster s)) :: rest ∧
    ∀ j ∈ top, j.isNested = true ∨ j = .sync (.release (.roster s))

theorem Heralding.mem (g : Heralding w s t) : .sync (.notifyAll (.roster s)) ∈ w.codeOf t := by
  obtain ⟨-, top, rest, hc, -⟩ := g
  simp [hc]

theorem Heralding.inUser (g : Heralding w s t) : w.inUser t = false := by
  obtain ⟨-, top, rest, hc, ht⟩ := g
  refine Bool.eq_false_iff.mpr fun hu => ?_
  obtain ⟨code, hh⟩ := head_user hu
  rw [hc] at hh
  cases top with
  | nil => cases hh
  | cons k top =>
    obtain ⟨rfl, -⟩ := List.cons.inj hh
    rcases ht _ List.mem_cons_self with hk | hk <;> cases hk

/-- The thread stays on its way until it calls. -/
theorem Heralding.proceed (hw : Alone n w) (g : Heralding w s t') (h : w.codeOf t = i :: rest) :
    Heralding (w.proceed t i rest) s t' ∨ t' = t ∧ i = .sync (.notifyAll (.roster s)) := by
  obtain ⟨hs, top, code, hc, ht⟩ := g
  by_cases hq : t' = t
  · subst hq
    rw [h] at hc
    cases top with
    | nil => exact .inr ⟨rfl, (List.cons.inj hc).1⟩
    | cons k top =>
      left
      obtain ⟨rfl, hr⟩ := List.cons.inj hc
      obtain ⟨hi, ht⟩ := List.forall_mem_cons.mp ht
      refine ⟨hs.proceed hw h ?_, w.remainder t' i rest ++ top, code, ?_, fun j hj => ?_⟩
      · rcases hi with hi | rfl
        · exact steady_of_nested hi
        · rfl
      · rw [codeOf_proceed h, hr, List.append_assoc]
        rfl
      · rcases List.mem_append.mp hj with hj | hj
        -- what a handler does leads to nothing else, and giving the lock back leads to nothing
        · rcases hi with hi | rfl
          · exact .inl (List.all_eq_true.mp (run_nested hi) j hj)
          · cases hj
        · exact ht j hj
  · have hlt : t' < w.threads.length := lt_of_codeOf (by rw [hc]; simp)
    refine .inl ⟨hs.proceed_of_ne hw h hq hlt, top, code, ?_, ht⟩
    rw [codeOf_proceed_of_ne h hq hlt, hc]

theorem Heralding.undisturbed (g : Heralding w s t) (u : Undisturbed w e w') :
    Heralding w' s t := by
  refine ⟨g.spared.undisturbed u g.inUser, ?_⟩
  obtain ⟨-, top, code, hc, ht⟩ := id g
  rcases u.code_of_busy g.inUser with hs | ⟨-, hs⟩
  · exact ⟨top, code, hs.trans hc, ht⟩
  · refine ⟨w.handlerCode t ++ [.guard (.setMask false)] ++ top, code, ?_, fun j hj => ?_⟩
    · rw [hs, hc, List.append_assoc _ top]
    · rcases List.mem_append.mp hj with hj | hj
      · exact .inl (List.all_eq_true.mp handler_nested j hj)
      · exact ht j hj

/-- Whoever grants something is on the way to call those who may wait for it. -/
theorem heralding_of_grant (hw : Managed n w) (hs : s < w.services.length)
    (h : w.codeOf t = i :: rest) (hi : i.isGrant s = true) :
    Heralding (w.proceed t i rest) s t := by
  have hheld := held_of_grant hw.alone hs h hi
  refine ⟨(hw.unparked.spared hheld rfl).proceed hw.alone h (steady_of_held hw h hheld), ?_⟩
  have htrail := hw.alone.queued.trails t
  rw [h] at htrail
  -- there is one service, so the roster that is called on is that of the grant
  have hz {b : ServiceId} (hb : b < w.services.length) : b = s := by
    have h1 := hw.alone.uniform.single
    exact (Nat.lt_one_iff.mp (hb.trans_le h1)).trans (Nat.lt_one_iff.mp (hs.trans_le h1)).symm
  rw [codeOf_proceed h]
  cases i with
  | stop k =>
    cases k with
    | openGate b =>
      obtain rfl := eq_of_beq hi
      obtain ⟨code, rfl⟩ := htrail.1
      exact ⟨[.sync (.release (.roster b))], code, rfl, by simp⟩
    | _ => cases hi
  | member k =>
    cases k with
    | noteStarted r =>
      obtain ⟨b, code, rfl⟩ := htrail.1
      have hlower : .guard (.lower b) ∈ w.codeOf t := by simp [h]
      obtain rfl := hz (hw.alone.uniform.placed hlower rfl)
      exact ⟨[.sync (.release (.roster b))], _, rfl, by simp⟩
    | exitRemove b r =>
      obtain rfl := eq_of_beq hi
      have hr := lt_of_record hw.alone.reachable.custody (h ▸ List.mem_cons_self) (r := r) rfl
      have hc : (w.setCode t rest).records[r]? = some w.records[r] := List.getElem?_eq_getElem hr
      refine ⟨[.sync (.release (.roster b))], .member (.unbind w.records[r].handle) :: rest, ?_,
        by simp⟩
      simp only [remainder, Instr.run, MemberInstr.run, hc, List.cons_append, List.nil_append]
    | _ => cases hi
  | _ => cases hi

theorem Heralding.step (hw : Alone n w) (g : Heralding w s t) (e : Event) :
    Heralding (w.step e) s t ∨
      e = .advance t ∧ (w.codeOf t).head? = some (.sync (.notifyAll (.roster s))) := by
  rcases w.step_cases e with ⟨q, i, rest, rfl, hc, -, hs⟩ | u
  · rw [hs]
    refine (g.proceed hw hc).imp_right ?_
    rintro ⟨rfl, rfl⟩
    exact ⟨rfl, by rw [hc, List.head?_cons]⟩
  · exact .inl (g.undisturbed u)

/-- In the run `es` thread `t` wakes all that sleep in the queue of roster `s`. -/
def World.notifies (w : World) (s : ServiceId) (t : ThreadId) : List Event → Bool
  | [] => false
  | e :: es => e == .advance t && (w.codeOf t).head? == some (.sync (.notifyAll (.roster s))) ||
    (w.step e).notifies s t es

theorem Heralding.run (hw : Alone n w) (g : Heralding w s t) (ha : w.admits fs = true)
    (h1 : (w.run fs).services.length ≤ 1) :
    w.notifies s t fs = true ∨ Heralding (w.run fs) s t := by
  induction fs generalizing w with
  | nil => exact .inr g
  | cons e fs ih =>
    simp only [admits, Bool.and_eq_true] at ha
    rw [run_cons] at h1 ⊢
    rcases g.step hw e with g | ⟨rfl, hh⟩
    · have hl := (services_length_run _ fs).trans h1
      refine (ih (hw.step ha.1 hl) g ha.2 h1).imp_left fun hn => ?_
      simp [notifies, hn]
    · exact .inl (by simp [notifies, hh])

/-! The theorem. -/

/-- In the run `es` what instruction `j` looks at has come to be by a step of thread `t`, and been
so ever since; the thread has still to wake those that sleep in the queue of roster `s`. -/
def Granted (w : World) (s : ServiceId) (j : Instr) (t : ThreadId) (es : List Event) : Prop :=
  ∃ es₁ es₂, es = es₁ ++ .advance t :: es₂ ∧ j.isMet (w.run es₁) = false ∧
    ∀ fs, fs <+: es₂ → j.isMet (w.run (es₁ ++ .advance t :: fs)) = true ∧
      .sync (.notifyAll (.roster s)) ∈ (w.run (es₁ ++ .advance t :: fs)).codeOf t

theorem Granted.append (h : Granted w s j t es) (hm : j.isMet (w.run (es ++ [e])) = true)
    (hn : .sync (.notifyAll (.roster s)) ∈ (w.run (es ++ [e])).codeOf t) :
    Granted w s j t (es ++ [e]) := by
  obtain ⟨es₁, es₂, rfl, h0, hd⟩ := h
  refine ⟨es₁, es₂ ++ [e], by simp, h0, fun fs hfs => ?_⟩
  rcases List.prefix_concat_iff.mp hfs with rfl | hfs
  · simpa using And.intro hm hn
  · exact hd fs hfs

/-- When what a sleeper waits for comes to be at a step, the step is that of a thread which goes on to
wake it. When it has been so before, whoever is on the way to wake the sleeper stays so. -/
theorem heralding_step (hw : Enclosed n w) (z : Dozes (w.step e) s t j)
    (hm : j.isMet (w.step e) = true) :
    (∃ q, e = .advance q ∧ j.isMet w = false ∧ Heralding (w.step e) s q) ∨
      Dozes w s t j ∧ j.isMet w = true ∧ ∀ q, Heralding w s q → Heralding (w.step e) s q := by
  have d := hw.alone.queued
  rcases w.step_cases e with ⟨q, i, rest, rfl, hc, hr, hs⟩ | u
  · rw [hs] at z hm ⊢
    have grant (hn : j.isMet w = false) (hl : j.isLook s = true) {t : ThreadId}
        (hj : j ∈ w.codeOf t) : i.isGrant s = true :=
      grant_of_met hw.alone.lawful hc hl (fun b r he => d.known (he ▸ hj)) hn hm
    rcases z.of_proceed d hc hr with z' | ⟨rfl, l, m, code, rfl, rfl⟩
    · cases hn : j.isMet w
      · have hg := grant hn (z'.isLook d) z'.mem
        have hb := hw.alone.uniform.placed z'.mem (service_of_look (z'.isLook d))
        exact .inl ⟨q, rfl, rfl, heralding_of_grant hw.managed hb hc hg⟩
      · refine .inr ⟨z', rfl, fun q' g => ?_⟩
        rcases g.proceed hw.alone hc with g | ⟨rfl, rfl⟩
        · exact g
        · -- after the call nobody sleeps there
          have ha : (.roster s, t) ∈ w.asleep.filter (·.1 != .roster s) := z.asleep
          simp at ha
    · -- it goes to sleep after it has found that it has to wait
      have htrail := d.trails t
      rw [hc] at htrail
      obtain ⟨-, _, _, hx, hl⟩ := htrail.1
      obtain ⟨rfl, rfl⟩ := List.cons.inj hx
      have hwait : w.codeOf t = [] ++ .sync (.wait (.roster s) l m) :: j :: code := hc
      cases grant (d.unmet hwait) hl (by rw [hc]; simp)
  · rw [isMet_of_undisturbed u] at hm
    exact .inr ⟨z.of_undisturbed u, hm, fun q g => g.undisturbed u⟩

/-- What a sleeper waits for has come to be by a thread that is on its way to wake it. -/
theorem heralded_of_met (es : List Event) (ha : (World.initial n).admits es = true)
    (hi : es.all Event.isInner = true) (h1 : ((World.initial n).run es).services.length ≤ 1)
    (z : Dozes ((World.initial n).run es) s t j)
    (hm : j.isMet ((World.initial n).run es) = true) :
    ∃ q, Granted (World.initial n) s j q es ∧ Heralding ((World.initial n).run es) s q := by
  induction es using List.reverseRecOn with
  | nil => cases z.asleep
  | append_singleton es e ih =>
    rw [admits_append, Bool.and_eq_true] at ha
    rw [List.all_append, Bool.and_eq_true] at hi
    have hstep : (World.initial n).run (es ++ [e]) = ((World.initial n).run es).step e :=
      run_append _ es [e]
    rw [hstep] at h1 z
    have h0 := (services_length_step ((World.initial n).run es) e).trans h1
    have hw : Enclosed n ((World.initial n).run es) := ⟨es, ha.1, hi.1, rfl, h0⟩
    -- either this event has granted it, or an earlier one and its thread is still on its way
    rcases heralding_step hw z (hstep ▸ hm) with ⟨q, rfl, hn, hh⟩ | ⟨z', hm', stays⟩
    · refine ⟨q, ⟨es, [], rfl, hn, fun fs hfs => ?_⟩, hstep ▸ hh⟩
      rw [List.prefix_nil.mp hfs, hstep]
      exact ⟨hstep ▸ hm, hh.mem⟩
    · obtain ⟨q, g, hh⟩ := ih ha.1 hi.1 h0 z' hm'
      rw [← hstep] at stays
      exact ⟨q, g.append hm (stays q hh).mem, stays q hh⟩

/-- Whoever sleeps in the queue of a roster waits for another thread to have started, for the start
gate to open, or for the last thread to end that is no daemon. If that has come to be, it is by a
thread that has still to wake the sleepers; and however the run goes on, that thread is not stopped
before it has woken them. -/
theorem sleepers_are_going_to_be_woken (es : List Event)
    (ha : (World.initial n).admits es = true) (hi : es.all Event.isInner = true)
    (h1 : ((World.initial n).run es).services.length ≤ 1)
    (hz : (.roster s, t) ∈ ((World.initial n).run es).asleep) :
    ∃ j, Dozes ((World.initial n).run es) s t j ∧ j.isLook s = true ∧
      (j.isMet ((World.initial n).run es) = true →
        ∃ q, Granted (World.initial n) s j q es ∧
          ∀ fs, ((World.initial n).run es).admits fs = true →
            (((World.initial n).run es).run fs).services.length ≤ 1 →
            ((World.initial n).run es).notifies s q fs = true ∨
              .sync (.notifyAll (.roster s)) ∈ (((World.initial n).run es).run fs).codeOf q ∧
                ¬InPark (((World.initial n).run es).run fs) q) := by
  have hw : Alone n ((World.initial n).run es) := ⟨es, ha, rfl, h1⟩
  obtain ⟨j, z⟩ := hw.queued.exists_dozes hz
  refine ⟨j, z, z.isLook hw.queued, fun hm => ?_⟩
  -- whoever has granted what is waited for has still to call on the roster, under its lock
  obtain ⟨q, g, hh⟩ := heralded_of_met es ha hi h1 z hm
  exact ⟨q, g, fun fs hf hl =>
    (hh.run hw hf hl).imp_right fun hh => ⟨hh.mem, hh.spared.not_inPark⟩⟩

/-- The main thread of a service sleeps until the thread that it starts is on its way; that one has
noted its start and given back the lock, and has still to call. -/
def justStarted : List Event :=
  .invoke 0 (.establish { mechanism := .signal }) :: turns 0 5 ++
    .invoke 0 (.spawn 0 {}) :: turns 0 8 ++ turns 1 13

theorem starter_is_going_to_be_woken :
    Instr.isMet ((World.initial 1).run justStarted) (.member (.spawnWait 0 1)) = true ∧
      (.roster 0, 0) ∈ ((World.initial 1).run justStarted).asleep ∧
      ∃ j, Dozes ((World.initial 1).run justStarted) 0 0 j ∧ j.isLook 0 = true ∧
        (j.isMet ((World.initial 1).run justStarted) = true →
          ∃ q, Granted (World.initial 1) 0 j q justStarted ∧
            ∀ fs, ((World.initial 1).run justStarted).admits fs = true →
              (((World.initial 1).run justStarted).run fs).services.length ≤ 1 →
              ((World.initial 1).run justStarted).notifies 0 q fs = true ∨
                .sync (.notifyAll (.roster 0)) ∈
                    (((World.initial 1).run justStarted).run fs).codeOf q ∧
                  ¬InPark (((World.initial 1).run justStarted).run fs) q) := by
  have hz : (.roster 0, 0) ∈ ((World.initial 1).run justStarted).asleep := by decide +kernel
  exact ⟨by decide +kernel, hz, sleepers_are_going_to_be_woken justStarted (by decide +kernel)
    (by decide +kernel) (by decide +kernel) hz⟩

end Standstill
