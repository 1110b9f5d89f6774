import Standstill.Proofs.SpawnAnswer

/-!
Who starts threads. Only code for starting threads starts any, or leads to such code, and a call that
starts a thread has its handle to answer from the moment on at which the thread is there.
-/
namespace Standstill

open World

variable {n : Nat} {w w' : World} {t : ThreadId} {s : ServiceId} {r : RecordId} {i j : Instr}
  {top base rest : List Instr} {e : Event} {es : List Event}

/-- The instruction sets up a service, or starts a thread, or waits for one that it has started. -/
def Instr.isHiring : Instr → Bool
  | .member (.establish _) | .member (.spawn ..) | .member (.spawnRecord ..)
  | .member (.spawnNative ..) | .member (.spawnWait ..) => true
  | _ => false

def Call.isHiring : Call → Bool
  | .establish _ | .spawn .. => true
  | _ => false

def Instr.isMember : Instr → Bool
  | .member _ => true
  | _ => false

/-- Only an instruction about joining and leaving leaves more of its kind. -/
theorem run_memberless (h : i.isMember = false) : (i.run t w).2.all (!·.isMember) = true := by
  have plain {j : Instr} (hj : j.isWork = true ∨ j.isNested = true) : (!j.isMember) = true := by
    cases j <;> first | rfl | (rcases hj with hj | hj <;> cases hj)
  cases i with
  | user => rfl
  | sync i => cases i <;> rfl
  | guard i =>
    cases i <;> simp only [Instr.run, GuardInstr.run] <;> repeat' split
    all_goals rfl
  | park i => exact all_imp (fun hj => plain (.inr hj)) (run_nested (i := .park i) rfl)
  | stop i =>
    cases i with
    | haltOthers s | freeOthers s =>
      simp [Instr.run, StopInstr.run, leaveRoster, Instr.isMember]
    | scanRequest s d rs settled =>
      cases rs <;> simp only [Instr.run, StopInstr.run]
      · rfl
      · split <;> rfl
    | _ =>
      simp only [Instr.run, StopInstr.run, resumeAllCode]
      repeat' split
      all_goals rfl
  | pool i => exact all_imp (fun hj => plain (.inl hj)) i.run_work
  | read i => exact all_imp (fun hj => plain (.inl hj)) i.run_work
  | member i => cases h

/-- A kind of code that is about joining and leaving is led to by nothing else. -/
theorem stretch_of_member {c : Instr → Bool} (hc : ∀ {i}, i.isMember = false → c i = true)
    (hm : ∀ {w t k}, c (.member k) = true → (MemberInstr.run t w k).2.all c = true) : Stretch c where
  nested {i} h := hc (by cases i <;> first | rfl | cases h)
  run {w t i} h := by
    cases hi : i.isMember with
    | false => exact all_imp (fun hj => hc (by simpa using hj)) (run_memberless hi)
    | true =>
      cases i with
      | member k => exact hm h
      | _ => cases hi

/-- Nothing else leads to any of these. -/
theorem stretch_unhiring : Stretch fun i => !i.isHiring :=
  stretch_of_member (fun {i} h => by cases i <;> first | rfl | cases h) fun {w t k} h => by
    cases k <;> first | (cases h; done) | skip
    all_goals
      simp only [MemberInstr.run]
      repeat' split
    all_goals rfl

theorem Call.code_unhiring {c : Call} (h : c.isHiring = false) :
    (c.code w t).all (fun i => !i.isHiring) = true := by
  cases c with
  | establish | spawn => cases h
  | mutex s a c => cases a <;> cases c <;> rfl
  | cond s a c => cases a <;> cases c <;> rfl
  | safePoint s =>
    simp only [Call.code]
    split <;> rfl
  | _ => rfl

/-- There is nothing of the kind in what thread `t` has still to do. -/
def World.Unhiring (w : World) (t : ThreadId) : Prop :=
  (w.codeOf t).all (fun i => !i.isHiring) = true

/-- Code of kind `c` stays so: a thread in code of its own makes no calls but of this kind, and a new
thread has nothing else to do. -/
theorem Stretch.all_step {c : Instr → Bool} (st : Stretch c) (h : (w.codeOf t).all c = true)
    (hu : w.inUser t = true → (∀ k, e = .invoke t k → (k.code w t).all c = true) ∧
      ∀ s r, c (.member (.mourn s r)) = true)
    (hnew : t < w.threads.length ∨ ∀ s r, (threadCode s r).all c = true) :
    ((w.step e).codeOf t).all c = true := by
  rcases w.step_cases e with ⟨q, i, rest, -, hc, -, hs⟩ | u
  · rw [hs]
    by_cases ht : t = q
    · subst ht
      rw [hc, List.all_cons, Bool.and_eq_true] at h
      rw [codeOf_proceed hc, List.all_append, Bool.and_eq_true]
      exact ⟨st.run h.1, h.2⟩
    -- a thread that is not there yet is born in this step or has no code
    · by_cases hlt : t < w.threads.length
      · rwa [codeOf_proceed_of_ne hc ht hlt]
      · rcases thread_proceed_of_le hc (Nat.le_of_not_lt hlt) with hl | ⟨s, r, -, -, hx⟩
        · rw [codeOf, ofThread_of_le _ _ hl]
          rfl
        · simp only [codeOf, ofThread, hx]
          exact hnew.resolve_left hlt s r
  · rcases u.code t with hc | hc
    · rwa [hc]
    · generalize (w.step e).codeOf t = code at hc
      cases hc with
      | interrupt hi =>
        rw [List.all_append, Bool.and_eq_true]
        exact ⟨all_imp st.nested handler_nested, h⟩
      | invoke k hi =>
        rw [List.all_append, Bool.and_eq_true]
        exact ⟨(hu hi).1 k rfl, h⟩
      | finish p hi =>
        rw [List.all_eq_true] at h ⊢
        intro j hj
        rcases mem_epilogue hj with hj | ⟨s, r, rfl, -⟩
        · exact h j (List.mem_of_mem_tail hj)
        · exact (hu hi).2 s r

theorem World.Unhiring.step (h : w.Unhiring t) (he : ∀ c, e = .invoke t c → c.isHiring = false) :
    (w.step e).Unhiring t :=
  stretch_unhiring.all_step h
    (fun _ => ⟨fun k hk => Call.code_unhiring (he k hk), fun _ _ => rfl⟩) (.inr fun _ _ => rfl)

/-- There is at most one more thread after an event, and then somebody has started it. -/
theorem threads_step (w : World) (e : Event) : (w.step e).threads.length = w.threads.length ∨
    ∃ t s r rest, e = .advance t ∧ w.codeOf t = .member (.spawnNative s r) :: rest ∧
      (w.step e).threads.length = w.threads.length + 1 ∧
      (w.step e).codeOf w.threads.length = threadCode s r := by
  rcases w.step_cases e with ⟨q, i, rest, rfl, hc, -, hs⟩ | u
  · rw [hs]
    have hle : w.threads.length ≤ (w.proceed q i rest).threads.length := threads_length_proceed
    rcases thread_proceed_of_le hc (Nat.le_refl _) with hl | ⟨s, r, rfl, -, hx⟩
    · exact .inl (Nat.le_antisymm hl hle)
    · have hlt := (List.getElem?_eq_some_iff.mp hx).1
      -- one thread is added at most
      have hge : (w.proceed q (.member (.spawnNative s r)) rest).threads.length ≤
          w.threads.length + 1 := by
        rcases thread_proceed_of_le hc (Nat.le_succ w.threads.length) with hl | ⟨-, -, -, hx, -⟩
        · exact hl
        · exact absurd hx (Nat.succ_ne_self _)
      refine .inr ⟨q, s, r, rest, rfl, hc, Nat.le_antisymm hge hlt, ?_⟩
      simp only [codeOf, ofThread, hx]
  · exact .inl u.length

/-- Where nobody else is about to start a thread, only thread `t` can have started one. -/
theorem threads_step_of_unhiring (hq : ∀ q, q ≠ t → w.Unhiring q) (e : Event) :
    (w.step e).threads.length = w.threads.length ∨
    ∃ s r rest, e = .advance t ∧ w.codeOf t = .member (.spawnNative s r) :: rest ∧
      (w.step e).threads.length = w.threads.length + 1 ∧
      (w.step e).codeOf w.threads.length = threadCode s r := by
  rcases threads_step w e with hl | ⟨q, s, r, rest, he, hc, hl⟩
  · exact .inl hl
  · by_cases hqt : q = t
    · subst hqt
      exact .inr ⟨s, r, rest, he, hc, hl⟩
    · have hu := hq q hqt
      rw [World.Unhiring, hc] at hu
      cases hu

theorem threads_length_run (w : World) (es : List Event) :
    w.threads.length ≤ (w.run es).threads.length := by
  induction es generalizing w with
  | nil => exact Nat.le_refl _
  | cons e es ih => exact (threads_length_step w e).trans (ih (w.step e))

/-! Starting a thread. -/

theorem threads_proceed_spawnNative (h : w.codeOf t = .member (.spawnNative s r) :: rest)
    {c : ThreadRecord} (hc : w.records[r]? = some c) :
    (w.proceed t (.member (.spawnNative s r)) rest).threads.length = w.threads.length +
      if isRefusedName c.name = false ∧ w.system.thread = .granted then 1 else 0 := by
  have hl := lt_setCode_of_head h
  have hc : (w.setCode t rest).records[r]? = some c := hc
  have hx : (w.setCode t rest).system = w.system := rfl
  have hp : (w.proceed t (.member (.spawnNative s r)) rest).threads.length =
      ((MemberInstr.spawnNative s r).run t (w.setCode t rest)).1.threads.length :=
    (modThread_fields _).1
  rw [hp, ← threads_length_setCode (w := w) (t := t) rest, ← hx]
  simp only [MemberInstr.run, hc, List.getElem?_eq_getElem hl]
  cases hn : isRefusedName c.name with
  | true => exact (modThread_fields _).1
  | false =>
    cases (w.setCode t rest).system.thread with
    | granted => simp [addThread, answer, say]
    | refused e =>
      cases he : e.isShortage with
      | true => simp [he]
      | false => simp [he, fail, say]

/-- Thread `t` has just been given the thread of record `r`, and is going to wait for it. -/
structure Hires (w w' : World) (t : ThreadId) (s : ServiceId) (daemon : Bool) (r : RecordId)
    (base : List Instr) : Prop where
  length : w'.threads.length = w.threads.length + 1
  new : w'.codeOf w.threads.length = threadCode s r
  daemon : w'.daemonOf r = daemon
  code : w'.codeOf t = [.guard (.raise s .blocking), .sync (.acquire (.roster s))] ++
    .member (.spawnWait s r) :: .user :: base
  outcome : w'.outcomeOf t = .value (.handle (r + 1))

section Spawning

variable {os : SpawnOptions} {x : Settings} {reply : Option ThreadReply}

/-- The instruction that starts a thread starts one and has its handle to answer, or does neither. -/
theorem Hired.starts {d : Bool} (hr : Hired n es s d r) (hw : Lawful n ((World.initial n).run es))
    (hq : ∀ q, q ≠ t → ((World.initial n).run es).Unhiring q)
    (ho : ((World.initial n).run es).outcomeOf t = .value .unit)
    (h : ((World.initial n).run es).codeOf t = .member (.spawnNative s r) :: .user :: base) :
    (((World.initial n).run es).step (.advance t)).threads.length =
        ((World.initial n).run es).threads.length ∧
      (∀ k, (((World.initial n).run es).step (.advance t)).outcomeOf t ≠ .value (.handle k)) ∨
    Hires ((World.initial n).run es) (((World.initial n).run es).step (.advance t)) t s d r base := by
  have hs := step_of_code h rfl
  have hlt := lt_of_homeOf hr.home
  obtain ⟨c, hrec⟩ : ∃ c, ((World.initial n).run es).records[r]? = some c :=
    ⟨_, List.getElem?_eq_getElem hlt⟩
  have hlen := threads_proceed_spawnNative h hrec
  have hp := proceed_spawnNative ho hw.reachable h hrec
  rw [← hs] at hlen hp
  -- the system gave the thread, or replied that there is none, or was not asked
  rcases hp with ⟨hc', ho', hn, hy⟩ | ⟨-, ho', -, e, hy, -⟩ | ⟨-, ho', -, e, hy, -⟩ | ⟨-, ho', hn⟩
  · rw [if_pos ⟨hn, hy⟩] at hlen
    rcases threads_step_of_unhiring hq (.advance t) with hl | ⟨s', r', rest, -, h', -, hnew⟩
    · omega
    · cases h.symm.trans h'
      exact .inr ⟨hlen, hnew, (daemonOf_step (.advance t) hlt).trans hr.daemon, hc', ho'⟩
  · rw [if_neg fun h => by cases hy.symm.trans h.2] at hlen
    exact .inl ⟨hlen, fun k h => by cases ho'.symm.trans h⟩
  · rw [if_neg fun h => by cases hy.symm.trans h.2] at hlen
    exact .inl ⟨hlen, fun k h => by cases ho'.symm.trans h⟩
  · rw [if_neg fun h => by cases hn.symm.trans h.1] at hlen
    exact .inl ⟨hlen, fun k h => by cases ho'.symm.trans h⟩

/-- The answer is a handle from the moment on at which there is a new thread. -/
theorem Spawning.step (a : Spawning n es t s os x base reply) (g : Staged n es)
    (hw : Lawful n ((World.initial n).run es)) (he : e.isBy t = false)
    (hq : ∀ q, q ≠ t → ((World.initial n).run es).Unhiring q)
    (ho : ∀ k, ((World.initial n).run es).outcomeOf t ≠ .value (.handle k)) :
    (((World.initial n).run es).step e).threads.length =
        ((World.initial n).run es).threads.length ∧
      Spawning n (es ++ [e]) t s os x base (reply.or (((World.initial n).run es).replyAt? t e)) ∧
      (∀ k, (((World.initial n).run es).step e).outcomeOf t ≠ .value (.handle k)) ∨
    ∃ r, Hires ((World.initial n).run es) (((World.initial n).run es).step e) t s os.daemon r base := by
  have a' := a.append g hw he
  -- only this thread can start one, and only by one instruction
  have keeps (h : ∀ b c rest, e = .advance t →
      ((World.initial n).run es).codeOf t ≠ .member (.spawnNative b c) :: rest) :
      (((World.initial n).run es).step e).threads.length =
        ((World.initial n).run es).threads.length := by
    rcases threads_step_of_unhiring hq e with hl | ⟨b, c, rest, he, hc, -⟩
    · exact hl
    · exact absurd hc (h b c rest he)
  have below {top i rest} (hc : ((World.initial n).run es).codeOf t = top ++ i :: rest)
      (ht : top.all Instr.isSilent = true) (hi : i.asksForThread = false) :
      (((World.initial n).run es).step e).threads.length =
        ((World.initial n).run es).threads.length :=
    keeps fun b c below _ => not_asking hc ht hi b c below
  cases a with
  | begun top ht hc ho' hx =>
    refine .inl ⟨below hc ht rfl, a', ?_⟩
    rcases silent_step hc ht he with ⟨-, -, -, ho'⟩ | ⟨rfl, h, -, -, hs⟩
    · exact ho' ▸ ho
    · rw [hs]
      rcases proceed_spawn ho' hx h with ⟨-, ho', -⟩ | ⟨-, hd⟩
      · rw [ho']
        exact fun k h => by cases h
      · exact hd.ne_handle
  | checked top ht hc ho' hm =>
    refine .inl ⟨below hc ht rfl, a', ?_⟩
    rcases silent_step hc ht he with ⟨-, -, -, ho'⟩ | ⟨rfl, h, -, -, hs⟩
    · exact ho' ▸ ho
    · have hout : (((World.initial n).run es).step (.advance t)).outcomeOf t = .value .unit := by
        rw [hs, outcomeOf_proceed]
        exact (outcomeOf_setCode _).trans ho'
      rw [hout]
      exact fun k h => by cases h
  | made top r k ht hc ho' hr hm hl =>
    rcases asking_step hc ht he with ⟨-, -, -, ho', hn⟩ | ⟨rfl, h⟩
    · exact .inl ⟨keeps hn, a', ho' ▸ ho⟩
    · rcases hr.starts hw hq ho' h with ⟨hl, ho'⟩ | hh
      · exact .inl ⟨hl, a', ho'⟩
      · exact .inr ⟨r, hh⟩
  | waits top r ht hc ho' hr hg => exact absurd ho' (ho _)
  | through top r ht hc ho' hr hp hg => exact absurd ho' (ho _)
  | refusing top rest ht hb hc ho' y hd =>
    refine .inl ⟨below hc ht rfl, a', ?_⟩
    rcases silent_step hc ht he with ⟨-, -, -, ho'⟩ | ⟨rfl, h, -, -, hs⟩
    · exact ho' ▸ ho
    · obtain ⟨-, live, ho'⟩ := proceed_noThread h
      rw [hs, ho']
      exact fun k h => by cases h
  | refused top ht hc reply hd =>
    refine .inl ⟨below hc ht rfl, a', ?_⟩
    obtain ⟨-, -, -, ho'⟩ := silent_step_out hc ht he
    exact ho' ▸ ho

end Spawning

end Standstill
