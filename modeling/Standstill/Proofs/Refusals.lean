import Standstill.Proofs.Doubts
import Standstill.Proofs.StoppedWorld
import Standstill.Proofs.UnderGuard

/-!
Calls that are refused. What such a call has done on the way to its refusal is undone by the time that
its thread is back: guards are closed, a request that it raised itself is withdrawn, and it has changed
nothing else. Main statement: once back, the records, rosters and pools are as before the call.
-/
namespace Standstill

open World

variable {n : Nat} {w w₀ : World} {t t' : ThreadId} {i : Instr} {base top post rest : List Instr}
  {e : Event} {es : List Event}

/-- Something happens to thread `t` alone. -/
def Event.isOwn (t : ThreadId) : Event → Bool
  | .advance q | .interrupt q | .stir _ q => q == t
  | .tick _ | .system _ => true
  | _ => false

/-- The call is carried out, or else changes nothing. -/
def Call.isAllOrNothing : Call → Bool
  | .mutex .. | .cond .. | .condWait .. | .suspend .. | .detach _ | .spawn .. | .shortSleep .. => true
  | .inquire _ _ (.setPriority _) => true
  | _ => false

/-- Thread `t` has no scope open, and the record that stands for it in a service is found there. -/
structure Seated (w : World) (t : ThreadId) : Prop where
  closed : w.scopesOf t = []
  listed : ∀ {s r}, w.selfIn t s = some r → w.Lists t s r

/-- Thread `t` has `top` left to do of its call, after which records and books are as in `w₀`, but for
new records. -/
structure Kept (w₀ w : World) (t : ThreadId) (base top : List Instr) : Prop where
  amid : Amid w t base top
  records : ∃ new, amended top (w.unwound t) = w₀.records ++ new
  books : w.books = w₀.books

/-! A call, step by step. -/

section Kept

variable (k : Kept w₀ w t base (i :: top))
include k

/-- A neutral instruction leaves what is to come back as it is, or the thread parks for good. -/
theorem Kept.proceed_neutral (hi : i.isNeutral = true) :
    (w.remainder t i (top ++ base)).all Instr.isSilent = true ∧
      Kept w₀ (w.proceed t i (top ++ base)) t base (w.remainder t i (top ++ base) ++ top) ∨
    Detained (w.proceed t i (top ++ base)) t base := by
  have hr : (w.remainder t i (top ++ base)).all Instr.isSilent = true := run_neutral hi
  refine (k.amid.proceed_neutral hi).imp_left fun h => ⟨hr, h.1, ?_, ?_⟩
  · obtain ⟨new, hn⟩ := k.records
    refine ⟨new, ?_⟩
    rw [amended_append, amended_of_silent hr, h.2, ← hn, amended_cons, amend_of_neutral hi]
  · exact (alike_proceed_of_neutral hi).books.trans k.books

/-- What has been done to the records is taken back by what is left to do. -/
theorem Kept.proceed_back (hg : ∀ g, i ≠ .guard g) (ht : top.all Instr.isSilent = true)
    (hp : ∀ j ∈ w.remainder t i (top ++ base), j.isPrompt = false)
    (hb : TakesBack (w.setCode t (top ++ base)) i (i.run t (w.setCode t (top ++ base)))) :
    Kept w₀ (w.proceed t i (top ++ base)) t base (w.remainder t i (top ++ base) ++ top) := by
  obtain ⟨new₀, hn₀⟩ := k.records
  obtain ⟨hbooks, new, hn⟩ := hb
  refine ⟨k.amid.proceed_of_unprompted hp, ⟨new₀ ++ new, ?_⟩, hbooks.trans k.books⟩
  have hs : (w.proceed t i (top ++ base)).scopesOf t = w.scopesOf t :=
    scopesOf_proceed_of_not_guard hg
  have hr := hn (w.scopesOf t) k.amid.known
  rw [amended_append, amended_of_silent ht, unwound, hs]
  refine hr.trans ?_
  rw [← List.append_assoc, ← hn₀, amended_cons, amended_of_silent ht]
  rfl

end Kept

section Poised

attribute [local simp] Instr.isPrompt leaveRoster guarded locked sleeping refuseCode

/-- No instruction before which the call can still be refused has the thread look whether it has to
park. -/
theorem unprompted_of_poised (hi : i.IsPoised w t) : ∀ j ∈ (i.run t w).2, j.isPrompt = false := by
  cases i with
  | stop k => exact unprompted_of_plain k.run_plain
  | pool k => exact unprompted_of_plain k.run_plain
  | read k => exact unprompted_of_plain k.run_plain
  | member k =>
    cases k with
    | detach | spawn | spawnRecord | spawnNative | noThread =>
      simp only [Instr.run, MemberInstr.run]
      repeat' split
      all_goals simp
    | _ => cases hi
  | _ => cases hi

theorem ne_guard_of_poised (hi : i.IsPoised w t) : ∀ g, i ≠ .guard g := by
  rintro g rfl
  cases hi

end Poised

/-- How far thread `t` has come with a call that it has made from `base` in world `w₀`. -/
inductive Stage (w₀ w : World) (t : ThreadId) (base : List Instr) : Prop
  /-- It has not turned out yet whether the call is refused. -/
  | asking (pre : List Instr) (i : Instr) (post : List Instr) (hpre : pre.all Instr.isNeutral = true)
    (hi : i.IsPoised w t) (hpost : post.all Instr.isSilent = true)
    (k : Kept w₀ w t base (pre ++ i :: post)) (ho : (w.outcomeOf t).isRefusal = false)
  /-- The call has been refused, if it has not been carried out. -/
  | refused (top : List Instr) (hc : top.all Instr.isBackingOut = true) (k : Kept w₀ w t base top)
  /-- The call will not be refused. -/
  | assured (top : List Instr) (hc : w.codeOf t = top ++ base) (a : Assured w t top)
    (ho : (w.outcomeOf t).isRefusal = false)
  /-- The thread will not come back from the call, unless another lets it go. -/
  | detained (d : Detained w t base)

theorem outcomeOf_proceed_of_neutral (hi : i.isNeutral = true) :
    (w.proceed t i rest).outcomeOf t' = w.outcomeOf t' := by
  cases i with
  | stop k =>
    have ho : (w.setCode t rest).outcomeOf t' = w.outcomeOf t' := outcomeOf_setCode rest
    rw [outcomeOf_proceed, ← ho]
    cases k <;> first | rfl | cases hi
  | sync | guard | park => exact outcomeOf_proceed_of_silent hi
  | _ => cases hi

theorem stage_of_resolves {post : List Instr} (hi : i.IsPoised w t)
    (hpost : post.all Instr.isSilent = true) (k : Kept w₀ w t base (i :: post))
    (ho : (w.outcomeOf t).isRefusal = false) :
    Stage w₀ (w.proceed t i (post ++ base)) t base := by
  have hi' := (alike_setCode w t (post ++ base)).poised hi
  have ho' : ((w.setCode t (post ++ base)).outcomeOf t).isRefusal = false := by
    rw [outcomeOf_setCode]
    exact ho
  have outcome := resolves_of_poised hi' ho'
  have back := k.proceed_back (ne_guard_of_poised hi) hpost (unprompted_of_poised hi')
  have hcode : (w.proceed t i (post ++ base)).codeOf t =
      w.remainder t i (post ++ base) ++ (post ++ base) := codeOf_proceed k.amid.code
  have hout : (w.proceed t i (post ++ base)).outcomeOf t =
      (i.run t (w.setCode t (post ++ base))).1.outcomeOf t := outcomeOf_proceed
  have hal : Alike (i.run t (w.setCode t (post ++ base))).1 (w.proceed t i (post ++ base)) := alike_push
  -- from here on nothing but the effect of the instruction matters
  rw [remainder] at back hcode
  generalize i.run t (w.setCode t (post ++ base)) = e at *
  cases outcome with
  | on pre j tail hpre hj htail hb hsame =>
    refine .asking pre j (tail ++ post) (all_imp neutral_of_silent hpre) ?_ ?_ ?_ ?_
    · cases j with
      | member x => cases x <;> first | exact hj | cases hj
      | _ => exact hj
    · rw [List.all_append, htail, hpost]
      rfl
    · have hk := back hb
      simpa only [List.append_assoc, List.cons_append] using hk
    · rw [hout, hsame]
      exact ho'
  | no hc hb =>
    refine .refused _ ?_ (back hb)
    rw [List.all_append, hc, all_imp backingOut_of_silent hpost]
    rfl
  | assured hc hn =>
    refine .assured _ (by rw [hcode, List.append_assoc]) ?_ (hout ▸ hn)
    exact (hal.assured hc).append (all_imp safe_of_silent hpost)

section Proceed

variable (h : w.codeOf t = i :: rest) (hu : i ≠ .user)
include h hu

/-- Code that does not refuse the call goes on to such code. -/
theorem assured_proceed {base : List Instr} (hc : w.codeOf t = top ++ .user :: base)
    (a : Assured w t top) (ho : (w.outcomeOf t).isRefusal = false) :
    Stage w₀ (w.proceed t i rest) t (.user :: base) := by
  have hcode := codeOf_proceed h
  have hout : (w.proceed t i rest).outcomeOf t = (i.run t (w.setCode t rest)).1.outcomeOf t :=
    outcomeOf_proceed
  have ho' : ((w.setCode t rest).outcomeOf t).isRefusal = false := by
    rw [outcomeOf_setCode]
    exact ho
  -- safe code cannot refuse, and what it leaves to do is safe again
  have safe {below : List Instr} (hr : rest = below ++ .user :: base) (hi : i.isSafe = true)
      (hb : below.all Instr.isSafe = true) : Stage w₀ (w.proceed t i rest) t (.user :: base) := by
    refine .assured (w.remainder t i rest ++ below) ?_ (.safe ?_) ?_
    · rw [hcode, hr, List.append_assoc]
    · rw [List.all_append, remainder, run_safe hi, hb]
      rfl
    · rw [hout, outcomeOf_run_of_safe hi]
      exact ho'
  cases a with
  | safe hs =>
    cases top with
    | nil => exact absurd (List.cons.inj (h.symm.trans hc)).1 hu
    | cons j below =>
      obtain ⟨rfl, hr⟩ := List.cons.inj (h.symm.trans hc)
      rw [List.all_cons, Bool.and_eq_true] at hs
      exact safe hr hs.1 hs.2
  -- the one instruction that could still refuse finds what it needs; until its turn nothing takes
  -- that away
  | sure pre j post hpre hj hpost =>
    cases pre with
    | nil =>
      obtain ⟨rfl, hr⟩ := List.cons.inj (h.symm.trans hc)
      obtain ⟨ha, hn⟩ := assured_run ((alike_setCode w t rest).sure hj) ho'
      refine .assured (w.remainder t i rest ++ post) ?_ ?_ (hout ▸ hn)
      · rw [hcode, hr, List.append_assoc]
        rfl
      · exact (alike_push.assured ha).append hpost
    | cons x pre =>
      obtain ⟨rfl, hr⟩ := List.cons.inj (h.symm.trans hc)
      rw [List.all_cons, Bool.and_eq_true] at hpre
      have hi := neutral_of_silent hpre.1
      refine .assured (w.remainder t i rest ++ (pre ++ j :: post)) ?_ ?_ ?_
      · rw [hcode, hr, List.append_assoc]
        rfl
      · exact ((alike_proceed_of_neutral hi).assured (.sure pre j post hpre.2 hj hpost)).prepend
          (run_silent hpre.1)
      · rw [outcomeOf_proceed_of_neutral hi]
        exact ho

/-- The thread itself takes one step. -/
theorem Stage.proceed {base : List Instr} (g : Stage w₀ w t (.user :: base)) :
    Stage w₀ (w.proceed t i rest) t (.user :: base) := by
  cases g with
  | asking pre j post hpre hj hpost k ho =>
    cases pre with
    | nil =>
      obtain ⟨rfl, rfl⟩ := List.cons.inj (h.symm.trans k.amid.code)
      exact stage_of_resolves hj hpost k ho
    | cons x pre =>
      -- guards and locks come before the question whether the call is refused
      obtain ⟨rfl, rfl⟩ := List.cons.inj (h.symm.trans k.amid.code)
      rw [List.all_cons, Bool.and_eq_true] at hpre
      rcases k.proceed_neutral hpre.1 with ⟨hr, k'⟩ | d
      · refine .asking (_ ++ pre) j post ?_ ?_ hpost (by rw [List.append_assoc]; exact k') ?_
        · rw [List.all_append, all_imp neutral_of_silent hr, hpre.2]
          rfl
        · exact (alike_proceed_of_neutral hpre.1).poised hj
        · rw [outcomeOf_proceed_of_neutral hpre.1]
          exact ho
      · exact .detained d
  | refused top hc k =>
    cases top with
    | nil => exact absurd (List.cons.inj (h.symm.trans k.amid.code)).1 hu
    | cons x top =>
      obtain ⟨rfl, rfl⟩ := List.cons.inj (h.symm.trans k.amid.code)
      rw [List.all_cons, Bool.and_eq_true] at hc
      cases hs : i.isSilent with
      | true =>
        rcases k.proceed_neutral (neutral_of_silent hs) with ⟨hr, k'⟩ | d
        · refine .refused _ ?_ k'
          rw [List.all_append, all_imp backingOut_of_silent hr, hc.2]
          rfl
        · exact .detained d
      | false =>
        -- only the withdrawal of the request still changes a record
        have hw : ∃ r, i = .stop (.withdraw r) := by
          cases i with
          | stop x => cases x <;> first | exact ⟨_, rfl⟩ | cases hc.1
          | _ => exact absurd hc.1 (by simp [Instr.isBackingOut, hs])
        obtain ⟨r, rfl⟩ := hw
        obtain ⟨new, hn⟩ := k.records
        refine .refused top hc.2 ⟨k.amid.proceed_of_unprompted fun j hj => (by cases hj),
          ⟨new, ?_⟩, k.books⟩
        have hr : (w.proceed t (.stop (.withdraw r)) (top ++ .user :: base)).unwound t =
            (w.unwound t).modify r fun c => { c with requested := false } := by
          rw [unwound, scopesOf_proceed_of_not_guard fun g hg => by cases hg]
          exact unwind_modify (fun _ _ => rfl) fun _ _ => rfl
        rw [← hn]
        exact congrArg (amended top) hr
  | assured top hc a ho => exact assured_proceed h hu hc a ho
  | detained d => exact .detained (d.proceed h)

end Proceed

theorem not_isBy_of_isOwn (he : e.isOwn t = true) : e.isBy t = false := by
  cases e <;> first | rfl | cases he

/-- An event in which the thread runs no instruction. -/
theorem Kept.undisturbed (k : Kept w₀ w t base top) (he : e.isBy t = false)
    (ha : ∀ t, e ≠ .advance t) :
    ∃ new, new.all Instr.isSilent = true ∧ Kept w₀ (w.step e) t base (new ++ top) := by
  have u := undisturbed_step (w := w) ha
  obtain ⟨new, hn, m, hu⟩ := k.amid.undisturbed u he
  have hs : new.all Instr.isSilent = true := all_imp silent_of_nested hn
  refine ⟨new, hs, m, ?_, (books_step ha).trans k.books⟩
  rw [amended_append, amended_of_silent hs, hu]
  exact k.records

theorem Stage.undisturbed {base : List Instr} (g : Stage w₀ w t (.user :: base))
    (he : e.isBy t = false) (ha : ∀ t, e ≠ .advance t) :
    Stage w₀ (w.step e) t (.user :: base) := by
  have hout : (w.step e).outcomeOf t = w.outcomeOf t := outcomeOf_step_of_not_by he ha
  cases g with
  | asking pre i post hpre hi hpost k ho =>
    obtain ⟨new, hn, k'⟩ := k.undisturbed he ha
    refine .asking (new ++ pre) i post ?_ ((alike_step ha).poised hi) hpost ?_ (hout ▸ ho)
    · rw [List.all_append, all_imp neutral_of_silent hn, hpre]
      rfl
    · rw [List.append_assoc]
      exact k'
  | refused top hc k =>
    obtain ⟨new, hn, k'⟩ := k.undisturbed he ha
    refine .refused _ ?_ k'
    rw [List.all_append, all_imp backingOut_of_silent hn, hc]
    rfl
  | assured top hc a ho =>
    have u := undisturbed_step (w := w) ha
    have a' := (alike_step ha).assured a
    rcases u.code t with hx | hx
    · exact .assured top (hx.trans hc) a' (hout ▸ ho)
    generalize hcode : (w.step e).codeOf t = code at hx
    -- another's event does nothing to the code but to put a handler on top
    cases hx with
    | interrupt h =>
      have hs : (w.handlerCode t ++ [Instr.guard (.setMask false)]).all Instr.isSilent = true :=
        all_imp silent_of_nested handler_nested
      refine .assured _ ?_ (a'.prepend hs) (hout ▸ ho)
      rw [hcode, hc, List.append_assoc _ top]
    | invoke c h | finish p h => simp [Event.isBy] at he
  | detained d => exact .detained (d.undisturbed (undisturbed_step ha))

theorem Stage.step {base : List Instr} (g : Stage w₀ w t (.user :: base)) (he : e.isOwn t = true) :
    Stage w₀ (w.step e) t (.user :: base) := by
  by_cases ha : ∃ q, e = .advance q
  · obtain ⟨q, rfl⟩ := ha
    obtain rfl : q = t := by simpa [Event.isOwn] using he
    rcases w.advance_cases q with hs | ⟨i, rest, h, hu, hs⟩
    · rw [World.step, hs]
      exact g
    · rw [World.step, hs]
      exact g.proceed h (ne_user_of_ready hu)
  · exact g.undisturbed (not_isBy_of_isOwn he) fun q hq => ha ⟨q, hq⟩

theorem Stage.run {base : List Instr} (g : Stage w₀ w t (.user :: base))
    (hes : ∀ e ∈ es, e.isOwn t = true) : Stage w₀ (w.run es) t (.user :: base) := by
  induction es generalizing w with
  | nil => exact g
  | cons e es ih =>
    obtain ⟨he, hes⟩ := List.forall_mem_cons.mp hes
    exact ih (g.step he) hes

/-- The thread is back from the call. -/
theorem Stage.back (g : Stage w₀ w t base) (hc : w.codeOf t = base) :
    (w.outcomeOf t).isRefusal = false ∨
      (∃ new, w.records = w₀.records ++ new) ∧ w.books = w₀.books := by
  cases g with
  | asking pre i post hpre hi hpost k ho => exact Or.inl ho
  | refused top hb k =>
    obtain rfl : top = [] := by simpa using k.amid.code.symm.trans hc
    obtain ⟨new, hn⟩ := k.records
    exact Or.inr ⟨⟨new, k.amid.unwound_of_nil.symm.trans hn⟩, k.books⟩
  | assured top hb a ho => exact Or.inl ho
  | detained d => exact absurd hc d.codeOf_ne

/-! How a call begins. -/

/-- A call that can be refused asks first, and has done nothing until then. -/
theorem Call.code_asks {c : Call} (hc : c.isAllOrNothing = true) :
    (c.code w t).all Instr.isSafe = true ∨
      ∃ pre i post, c.code w t = pre ++ i :: post ∧ pre.all Instr.isNeutral = true ∧
        (i.isDoubtful = true ∨ ∃ s, i = .member (.detach s)) ∧ post.all Instr.isSilent = true ∧
        ∀ rs, amended (c.code w t) rs = rs := by
  cases c with
  | shortSleep s n => exact Or.inl rfl
  | detach s => exact Or.inr ⟨[], _, [], rfl, rfl, Or.inr ⟨s, rfl⟩, rfl, fun _ => rfl⟩
  | spawn s o => exact Or.inr ⟨[], _, [], rfl, rfl, Or.inl rfl, rfl, fun _ => rfl⟩
  | suspend s h => exact Or.inr ⟨[_, _, _], _, [], rfl, rfl, Or.inl rfl, rfl, fun _ => rfl⟩
  | condWait s c m n => exact Or.inr ⟨[_, _], _, [], rfl, rfl, Or.inl rfl, rfl, fun _ => rfl⟩
  | inquire s h q =>
    cases q with
    | setPriority p => exact Or.inr ⟨[_, _], _, [], rfl, rfl, Or.inl rfl, rfl, fun _ => rfl⟩
    | _ => cases hc
  | mutex s a c =>
    right
    cases a with
    | raw =>
      cases c with
      | create | destroy => exact ⟨[_], _, [_], rfl, rfl, Or.inl rfl, rfl, fun _ => rfl⟩
      | _ => exact ⟨[_], _, [], rfl, rfl, Or.inl rfl, rfl, fun _ => rfl⟩
    | guarded =>
      cases c with
      | create | destroy => exact ⟨[_, _], _, [_, _], rfl, rfl, Or.inl rfl, rfl, fun _ => rfl⟩
      | lock => exact ⟨[_, _], _, [], rfl, rfl, Or.inl rfl, rfl, fun _ => rfl⟩
      | _ => exact ⟨[_, _], _, [_], rfl, rfl, Or.inl rfl, rfl, fun _ => rfl⟩
  | cond s a c =>
    right
    cases a with
    | raw =>
      cases c with
      | create | destroy => exact ⟨[_], _, [_], rfl, rfl, Or.inl rfl, rfl, fun _ => rfl⟩
      | _ => exact ⟨[_], _, [], rfl, rfl, Or.inl rfl, rfl, fun _ => rfl⟩
    | guarded =>
      cases c with
      | create | destroy => exact ⟨[_, _], _, [_, _], rfl, rfl, Or.inl rfl, rfl, fun _ => rfl⟩
      | _ => exact ⟨[_, _], _, [_], rfl, rfl, Or.inl rfl, rfl, fun _ => rfl⟩
  | _ => cases hc

theorem stage_of_invoke {c : Call} (hu : w.inUser t = true) (hs : Seated w t)
    (hc : c.isAllOrNothing = true) : Stage w (w.step (.invoke t c)) t (w.codeOf t) := by
  have ha : Alike w (w.step (.invoke t c)) := alike_step fun _ h => by cases h
  cases hr : c.refusal? with
  | some f =>
    -- a refused call has no code, and what it leaves is what it finds
    have hscopes : (w.step (.invoke t c)).scopesOf t = [] := scopesOf_invoke.trans hs.closed
    have m := amid_nil hscopes
    rw [invoke_refused hr] at m
    refine .refused [] rfl ⟨m, ⟨[], ?_⟩, ha.books⟩
    rw [List.append_nil]
    exact unwound_invoke hs.closed
  | none =>
    obtain ⟨hcode, hout⟩ := invoke_admitted hu hr
    have m := amid_of_invoke hu hs.closed hr fun s h => by simp [h, Call.isAllOrNothing] at hc
    have ho : ((w.step (.invoke t c)).outcomeOf t).isRefusal = false := by
      rw [hout]
      rfl
    rcases c.code_asks (w := w) (t := t) hc with hsafe | ⟨pre, i, post, he, hpre, hi, hpost, hn⟩
    · exact .assured _ hcode (.safe hsafe) ho
    · have k : Kept w (w.step (.invoke t c)) t (w.codeOf t) (c.code w t) :=
        ⟨m, ⟨[], by rw [hn, unwound_invoke hs.closed, List.append_nil]⟩, ha.books⟩
      refine .asking pre i post hpre (ha.poised ?_) hpost (he ▸ k) ho
      rcases hi with hi | ⟨s, rfl⟩
      · cases i with
        | member x => cases x <;> first | exact hi | cases hi
        | _ => exact hi
      · exact fun r hr => hs.listed hr

/-- A thread that can make a call has no scope open, and what stands for it is registered. -/
theorem Lawful.seated (hw : Lawful n w) (hu : w.inUser t = true) : Seated w t where
  closed := hw.reachable.scopesOf_of_user hu
  listed {s r} hr := by
    obtain ⟨hm, -⟩ := mem_of_inUser hw hu hr
    have ho := hw.reachable.custody.bound (selfIn_eq_some.mp hr).1
    exact ⟨r + 1, hw.reachable.handleOf (lt_of_ownerOf ho),
      (hw.rostered.tagged s).lookup_isSome.mpr hm, ho⟩

/-- A call on the pools, or one that stops, removes, starts or ranks a thread or sleeps for a short
time, leaves everything as it was if it is refused, by the service or by the system, while nobody else
acts: rosters with their census and start gate, all records, the slots of both pools and what lies in
them. At most there are records that nobody can find, left over from threads that could not be started.
So it is in every world that can be reached, and in any other in which a thread outside every call has
no scope open and is registered where a record stands for it: there a stop can also fail to be
delivered, to a record that is bound to no thread. -/
theorem refused_call_leaves_no_trace :
    (∀ {n w t}, Lawful n w → w.inUser t = true → Seated w t) ∧
    ∀ {w t c es f}, Seated w t → c.isAllOrNothing = true → w.Returns t c es →
      (∀ e ∈ es, e.isOwn t = true) →
      ((w.step (.invoke t c)).run es).outcomeOf t = .fault f → f ≠ .timeout →
      (∃ new, ((w.step (.invoke t c)).run es).records = w.records ++ new) ∧
        ((w.step (.invoke t c)).run es).books = w.books := by
  refine ⟨fun hw hu => hw.seated hu, fun {w t c es f} hs hc hr hes ho hf => ?_⟩
  obtain ⟨base, hb⟩ := head_user hr.user
  have g := stage_of_invoke hr.user hs hc
  rw [hb] at g
  -- a call that comes back was refused before it did anything, or it was granted
  refine ((g.run hes).back (hr.back.trans hb)).resolve_left fun hn => ?_
  rw [ho] at hn
  cases f <;> first | exact hf rfl | cases hn

/-- The service is there, with a mutex and a condition. -/
def equipped : List Event :=
  .invoke 0 (.establish {}) :: turns 0 5 ++
    .invoke 0 (.mutex 0 .raw (.create "m")) :: turns 0 3 ++
    .invoke 0 (.cond 0 .raw (.create "c")) :: turns 0 3

/-- A record stands in the roster to which no thread has been bound, requested already or not. -/
def vacant (requested : Bool) : World :=
  (((World.initial 1).run equipped).addRecord
    { ThreadRecord.create 2 0 "vacant" normalPriority 0 false with requested }).modRoster 0
      fun g => g.insert 2 1

theorem seated_vacant (b : Bool) : Seated (vacant b) 0 := by
  refine ⟨by cases b <;> decide +kernel, fun {s r} hr => ?_⟩
  have hs : (vacant b).selfIn 0 s = if 0 = s then some 0 else none := by
    cases b <;> rfl
  rw [hs] at hr
  split at hr
  next h =>
    subst h
    cases hr
    exact ⟨1, by cases b <;> decide +kernel⟩
  next => cases hr

/-- The system takes no priority, and gives no thread for a reason other than a shortage. -/
def unwilling : List Event := equipped ++ [.system { thread := .refused .other, takesPriority := false }]

/-- The first thread makes the call `c`, comes back after `k` turns with the fault `f`, and nothing has
changed but that there may be new records. -/
def ComesToNothing (w : World) (c : Call) (k : Nat) (f : Fault) : Prop :=
  ((w.step (.invoke 0 c)).run (turns 0 k)).outcomeOf 0 = .fault f ∧
    ((w.step (.invoke 0 c)).run (turns 0 k)).books = w.books ∧
    ∃ new, ((w.step (.invoke 0 c)).run (turns 0 k)).records = w.records ++ new

/-- The caller waits with a mutex that it does not own, and is refused in the middle of two guards; it
stops a record that has no thread; and the system takes no priority of its own, and gives it no
thread. -/
theorem refused_wait_stop_rank_and_spawn :
    ComesToNothing ((World.initial 1).run equipped) (.condWait 0 0 0 none) 20 .notOwner ∧
      (∀ b, ComesToNothing (vacant b) (.suspend 0 2) 12 .unknownHandle) ∧
      ComesToNothing ((World.initial 1).run unwilling) (.inquire 0 1 (.setPriority 7)) 7
        .unsupported ∧
      ComesToNothing ((World.initial 1).run unwilling) (.spawn 0 {}) 3
        (.badArgument .nativeThread) := by
  have nothing {w : World} {c : Call} {k : Nat} {f : Fault} (hs : Seated w 0)
      (hc : c.isAllOrNothing = true) (hr : w.Returns 0 c (turns 0 k))
      (hk : ∀ e ∈ turns 0 k, e.isOwn 0 = true)
      (ho : ((w.step (.invoke 0 c)).run (turns 0 k)).outcomeOf 0 = .fault f) (hf : f ≠ .timeout) :
      ComesToNothing w c k f := by
    obtain ⟨hrecords, hbooks⟩ := refused_call_leaves_no_trace.2 hs hc hr hk ho hf
    exact ⟨ho, hbooks, hrecords⟩
  have equippedLawful : Lawful 1 ((World.initial 1).run equipped) :=
    ⟨equipped, by decide +kernel, rfl⟩
  have unwillingLawful : Lawful 1 ((World.initial 1).run unwilling) :=
    ⟨unwilling, by decide +kernel, rfl⟩
  have hs₁ : Seated ((World.initial 1).run equipped) 0 :=
    refused_call_leaves_no_trace.1 equippedLawful (by decide +kernel)
  have hs₂ : Seated ((World.initial 1).run unwilling) 0 :=
    refused_call_leaves_no_trace.1 unwillingLawful (by decide +kernel)
  refine ⟨?wait, fun b => ?stop, ?rank, ?spawn⟩
  case wait =>
    exact nothing hs₁ rfl ⟨by decide +kernel, by decide, by decide +kernel⟩ (by decide)
      (by decide +kernel) (by decide)
  case stop =>
    refine nothing (seated_vacant b) rfl ⟨?_, by decide, ?_⟩ (by decide) ?_ (by decide) <;>
      cases b <;> decide +kernel
  case rank =>
    exact nothing hs₂ rfl ⟨by decide +kernel, by decide, by decide +kernel⟩ (by decide)
      (by decide +kernel) (by decide)
  case spawn =>
    exact nothing hs₂ rfl ⟨by decide +kernel, by decide, by decide +kernel⟩ (by decide)
      (by decide +kernel) (by decide)

end Standstill
