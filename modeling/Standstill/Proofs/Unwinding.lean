import Standstill.Proofs.CallStages
import Standstill.Proofs.OpenGuards
import Standstill.Proofs.Pursuit

/-!
What a thread has still to undo. While it is in a call, its guards have raised its level and the
phases that it has noted have given way to others; the scopes that it has open tell what closing them
will bring back. Guards, locks and the clock leave the records that are to come back as they are, and a
thread that parks on the way stays parked for as long as its request stands.
-/
namespace Standstill

open World

variable {w w' : World} {t t' : ThreadId} {r b : RecordId} {i j : Instr} {k : ParkInstr}
  {s : ServiceId} {base top rest : List Instr} {x : Scope} {xs : List Scope} {rs : List ThreadRecord}
  {e : Event}

/-! The records once the scopes are closed. -/

/-- What closing the scope does to the records. -/
def Scope.undo (rs : List ThreadRecord) : Scope → List ThreadRecord
  | .guard (some r) _ previous => rs.modify r fun c => { c with level := previous }
  | .phase (some r) previous => rs.modify r fun c => { c with phase := previous }
  | _ => rs

/-- The records after the scopes have been closed, the first one first. -/
def unwind (xs : List Scope) (rs : List ThreadRecord) : List ThreadRecord := xs.foldl Scope.undo rs

/-- The records as they will be once thread `t` has closed its scopes. -/
def World.unwound (w : World) (t : ThreadId) : List ThreadRecord := unwind (w.scopesOf t) w.records

theorem unwind_cons : unwind (x :: xs) rs = unwind xs (x.undo rs) := rfl

section Modify

variable {f : ThreadRecord → ThreadRecord}

/-- A change of something else than level and phase can be made before the scope is closed or after. -/
theorem Scope.undo_modify (x : Scope) (hl : ∀ c l, f { c with level := l } = { f c with level := l })
    (hp : ∀ c p, f { c with phase := p } = { f c with phase := p }) :
    x.undo (rs.modify r f) = (x.undo rs).modify r f := by
  have swap {b : RecordId} {g : ThreadRecord → ThreadRecord} (hg : g ∘ f = f ∘ g) :
      (rs.modify r f).modify b g = (rs.modify b g).modify r f := by
    by_cases hb : r = b
    · subst hb
      rw [List.modify_modify_eq, List.modify_modify_eq, hg]
    · exact List.modify_modify_ne _ _ _ hb
  cases x with
  | guard b _ l =>
    cases b with
    | none => rfl
    | some b => exact swap (funext fun c => (hl c l).symm)
  | phase b p =>
    cases b with
    | none => rfl
    | some b => exact swap (funext fun c => (hp c p).symm)

theorem unwind_modify (hl : ∀ c l, f { c with level := l } = { f c with level := l })
    (hp : ∀ c p, f { c with phase := p } = { f c with phase := p }) :
    unwind xs (rs.modify r f) = (unwind xs rs).modify r f := by
  induction xs generalizing rs with
  | nil => rfl
  | cons x xs ih => rw [unwind_cons, x.undo_modify hl hp, ih, unwind_cons]

theorem Scope.undo_modify_of_ne (hx : x.record? ≠ some r) :
    x.undo (rs.modify r f) = (x.undo rs).modify r f := by
  have hne {b : RecordId} (h : x.record? = some b) : r ≠ b := by
    rintro rfl
    exact hx h
  cases x with
  | guard b _ l =>
    cases b with
    | none => rfl
    | some b => exact List.modify_modify_ne _ _ _ (hne rfl)
  | phase b p =>
    cases b with
    | none => rfl
    | some b => exact List.modify_modify_ne _ _ _ (hne rfl)

/-- Any change of a record that none of the scopes is about can be made before they are closed or
after. -/
theorem unwind_modify_of_ne (hx : ∀ x ∈ xs, x.record? ≠ some r) :
    unwind xs (rs.modify r f) = (unwind xs rs).modify r f := by
  induction xs generalizing rs with
  | nil => rfl
  | cons x xs ih =>
    obtain ⟨hx, hxs⟩ := List.forall_mem_cons.mp hx
    rw [unwind_cons, Scope.undo_modify_of_ne hx, ih hxs, unwind_cons]

/-- A record that none of the scopes is about is not changed. -/
theorem getElem?_unwind_of_ne (hx : ∀ x ∈ xs, x.record? ≠ some r) : (unwind xs rs)[r]? = rs[r]? := by
  induction xs generalizing rs with
  | nil => rfl
  | cons x xs ih =>
    obtain ⟨hx, hxs⟩ := List.forall_mem_cons.mp hx
    rw [unwind_cons, ih hxs]
    have same {b : RecordId} {f : ThreadRecord → ThreadRecord} (h : x.record? = some b) :
        (rs.modify b f)[r]? = rs[r]? := by
      have hn : b ≠ r := by
        rintro rfl
        exact hx h
      rw [List.getElem?_modify]
      simp [hn]
    cases x with
    | guard b =>
      cases b with
      | none => rfl
      | some b => exact same rfl
    | phase b =>
      cases b with
      | none => rfl
      | some b => exact same rfl

theorem modify_self {n : Nat} (h : ∀ c, rs[n]? = some c → f c = c) : rs.modify n f = rs := by
  refine List.ext_getElem? fun k => ?_
  rw [List.getElem?_modify]
  by_cases hk : n = k
  · subst hk
    cases hc : rs[n]? with
    | none => rfl
    | some c => simp [h c hc]
  · cases rs[k]? <;> simp [hk]

end Modify

theorem Scope.length_undo (x : Scope) : (x.undo rs).length = rs.length := by
  cases x with
  | guard b => cases b <;> simp [Scope.undo]
  | phase b => cases b <;> simp [Scope.undo]

theorem modify_append_of_lt {f : ThreadRecord → ThreadRecord} (hr : r < rs.length)
    (cs : List ThreadRecord) : (rs ++ cs).modify r f = rs.modify r f ++ cs := by
  refine List.ext_getElem? fun k => ?_
  rw [List.getElem?_modify]
  by_cases hk : k < rs.length
  · rw [List.getElem?_append_left hk, List.getElem?_append_left (by simpa using hk),
      List.getElem?_modify]
  · have hn : r ≠ k := Nat.ne_of_lt (Nat.lt_of_lt_of_le hr (Nat.le_of_not_lt hk))
    rw [List.getElem?_append_right (Nat.le_of_not_lt hk),
      List.getElem?_append_right (by simpa using hk), List.length_modify]
    cases cs[k - rs.length]? <;> simp [hn]

/-- Records that are made while the scopes are open are in none of them. -/
theorem unwind_append (hx : ∀ x ∈ xs, ∀ r, x.record? = some r → r < rs.length)
    (cs : List ThreadRecord) : unwind xs (rs ++ cs) = unwind xs rs ++ cs := by
  induction xs generalizing rs with
  | nil => rfl
  | cons x xs ih =>
    obtain ⟨hx, hxs⟩ := List.forall_mem_cons.mp hx
    have hu : x.undo (rs ++ cs) = x.undo rs ++ cs := by
      cases x with
      | guard b =>
        cases b with
        | none => rfl
        | some b => exact modify_append_of_lt (hx b rfl) cs
      | phase b =>
        cases b with
        | none => rfl
        | some b => exact modify_append_of_lt (hx b rfl) cs
    rw [unwind_cons, hu, ih (by rwa [x.length_undo]), unwind_cons]

/-! A thread amid a call. -/

/-- Nothing but nested instructions comes before the instruction. -/
def Instr.isPrompt : Instr → Bool
  | .park _ | .guard (.setPhase ..) => true
  | _ => false

theorem unprompted_of_plain {code : List Instr} (h : code.all Instr.isPlain = true) :
    ∀ j ∈ code, j.isPrompt = false := by
  intro j hj
  have hp := List.all_eq_true.mp h j hj
  cases j with
  | guard g => cases g <;> first | rfl | cases hp
  | park x => simp [Instr.isPlain, Instr.isUrgent] at hp
  | _ => rfl

/-- The thread is about to look whether it has to park, and what it has looked at already has said
that it has to. -/
def ParkInstr.IsLook (w : World) : ParkInstr → Prop
  | .check tests _ r =>
    (.request ∉ tests → w.isRequested r = true) ∧ (.level ∉ tests → w.levelOf r = .noBlock)
  | _ => False

/-- Thread `t` has `top` left to do of a call that it has made from `base`. -/
structure InCall (w : World) (t : ThreadId) (base top : List Instr) : Prop where
  code : w.codeOf t = top ++ base
  inner : .user ∉ top
  /-- What is left closes all scopes that are open. -/
  fits : ∃ hs, Fits [] top hs ∧ w.kindsOf t = hs.filterMap Hold.scope?
  prompt : Topped Instr.isPrompt Instr.isNested top
  /-- The phase before has been noted when another is set. -/
  noted : ∀ {r p}, .guard (.setPhase r p) ∈ top → ∃ q xs, w.scopesOf t = .phase (some r) q :: xs

/-- And nobody has moved since who could make the thread look in vain. -/
structure Amid (w : World) (t : ThreadId) (base top : List Instr) : Prop
    extends InCall w t base top where
  looks : ∀ {k}, .park k ∈ top → k.IsLook w
  known : ∀ x ∈ w.scopesOf t, ∀ r, x.record? = some r → r < w.records.length

/-- Thread `t` is bound for a park loop above `base`, and its request stands. -/
def Detained (w : World) (t : ThreadId) (base : List Instr) : Prop :=
  ∃ r, Pinned false w t r base ∧ w.isRequested r = true

theorem topped_of_nested (h : top.all Instr.isNested = true)
    (hr : Topped Instr.isPrompt Instr.isNested rest) :
    Topped Instr.isPrompt Instr.isNested (top ++ rest) :=
  List.pairwise_append.mpr
    ⟨List.pairwise_of_forall_mem_list fun i hi _ _ _ => List.all_eq_true.mp h i hi, hr,
      fun i hi _ _ _ => List.all_eq_true.mp h i hi⟩

/-- The thread has come to the end of the call with nothing left open. -/
theorem InCall.scopesOf_of_nil (m : InCall w t base []) : w.scopesOf t = [] := by
  obtain ⟨hs, hf, hk⟩ := m.fits
  obtain rfl : hs = [] := hf
  exact List.map_eq_nil_iff.mp hk

theorem InCall.unwound_of_nil (m : InCall w t base []) : w.unwound t = w.records := by
  rw [unwound, m.scopesOf_of_nil]
  rfl

/-- What a thread in a call can run is part of the call. -/
theorem InCall.of_ready (m : InCall w t (.user :: base) top) (h : w.codeOf t = i :: rest)
    (hready : i.isReady w t = true) : ∃ top', top = i :: top' ∧ rest = top' ++ .user :: base := by
  have hc := h.symm.trans m.code
  cases top with
  | nil =>
    obtain ⟨rfl, -⟩ := List.cons.inj hc
    cases hready
  | cons j top =>
    obtain ⟨rfl, rfl⟩ := List.cons.inj hc
    exact ⟨top, rfl, rfl⟩

/-! What the guards do. -/

theorem unwound_setCode (w : World) (t : ThreadId) (rest : List Instr) :
    (w.setCode t rest).unwound t' = w.unwound t' := by
  rw [unwound, scopesOf_setCode]
  rfl

theorem unwound_proceed :
    (w.proceed t i rest).unwound t' = (i.run t (w.setCode t rest)).1.unwound t' := by
  rw [unwound, scopesOf_proceed]
  rfl

theorem unwound_of_cons (hx : w.scopesOf t = x :: xs) :
    w.unwound t = unwind xs (x.undo w.records) := by
  rw [unwound, hx, unwind_cons]

theorem unwound_openScope (ht : t < w.threads.length) :
    (w.openScope t x).unwound t = unwind (w.scopesOf t) (x.undo w.records) := by
  rw [unwound, scopesOf_openScope ht]
  rfl

theorem unwound_closeScope (hx : w.scopesOf t = x :: xs) :
    (w.closeScope t).unwound t = unwind xs w.records := by
  rw [unwound, scopesOf_closeScope, if_pos rfl, hx]
  rfl

/-- The instruction sets no level but for the time of a guard. -/
def GuardInstr.isScoped : GuardInstr → Bool
  | .disable _ | .enable _ | .disableFast _ | .enableFast _ => false
  | _ => true

/-- A scope that is opened brings back what it has found, and one that is closed has done so. -/
theorem GuardInstr.unwound_run (g : GuardInstr) (hg : g.isScoped = true) (ht : t < w.threads.length)
    (hk : ∃ hs, w.kindsOf t = g.closes ++ hs)
    (hn : ∀ r p, g = .setPhase r p → ∃ q xs, w.scopesOf t = .phase (some r) q :: xs) :
    (g.run t w).1.unwound t = w.unwound t := by
  cases g with
  | raise s l =>
    simp only [GuardInstr.run]
    split
    · exact unwound_openScope ht
    next r _ =>
      -- closing at once would bring back the level found
      have hu : (Scope.guard (some r) l (w.levelOf r)).undo (w.setLevel r l).records =
          w.records := by
        simp only [Scope.undo, World.setLevel, modRecord, List.modify_modify_eq]
        refine modify_self fun c hc => ?_
        simp [levelOf, hc]
      rw [unwound_openScope (w := w.setLevel r l) ht, hu]
      rfl
  | enter s p =>
    simp only [GuardInstr.run]
    split
    · exact unwound_openScope ht
    next r _ =>
      have hu : (Scope.phase (some r) (w.phaseOf r)).undo w.records = w.records := by
        refine modify_self fun c hc => ?_
        simp [phaseOf, hc]
      rw [unwound_openScope ht, hu]
      rfl
  | lower s =>
    obtain ⟨hs, hk⟩ := hk
    obtain ⟨x, xs, hx, hh, -⟩ := List.map_eq_cons_iff.mp hk
    cases x with
    | phase => cases hh
    | guard b l p =>
      rw [unwound_of_cons hx]
      simp only [GuardInstr.run, innermost_eq, hx, List.head?_cons]
      cases b with
      | none => exact unwound_closeScope hx
      | some b => exact unwound_closeScope (w := w.setLevel b p) hx
  | leave =>
    obtain ⟨hs, hk⟩ := hk
    obtain ⟨x, xs, hx, hh, -⟩ := List.map_eq_cons_iff.mp hk
    cases x with
    | guard => cases hh
    | phase b p =>
      rw [unwound_of_cons hx]
      simp only [GuardInstr.run, innermost_eq, hx, List.head?_cons]
      cases b with
      | none => exact unwound_closeScope hx
      | some b => exact unwound_closeScope (w := w.setPhase b p) hx
  | setPhase b p =>
    -- the phase goes anyway when the scope is closed in which it has been noted
    obtain ⟨q, xs, hx⟩ := hn b p rfl
    have hs : (w.setPhase b p).scopesOf t = w.scopesOf t := rfl
    rw [unwound, unwound, GuardInstr.run, hs, hx, unwind_cons, unwind_cons]
    simp only [Scope.undo, World.setPhase, modRecord, List.modify_modify_eq]
    rfl
  | mask s | unmask s =>
    simp only [GuardInstr.run, setMaskFor]
    split
    · simp [unwound, scopesOf, World.setMask, ofThread_modThread]
    · rfl
  | setMask m => simp [GuardInstr.run, unwound, scopesOf, World.setMask, ofThread_modThread]
  | _ => cases hg

/-! Steps of others. -/

theorem ParkInstr.IsLook.congr (h : k.IsLook w) (hq : ∀ r, w'.isRequested r = w.isRequested r)
    (hl : ∀ r, w'.levelOf r = w.levelOf r) : k.IsLook w' := by
  cases k with
  | check tests entry r =>
    refine ⟨fun hx => ?_, fun hx => ?_⟩
    · rw [hq]
      exact h.1 hx
    · rw [hl]
      exact h.2 hx
  | _ => exact h

theorem InCall.frame (m : InCall w t base top) (hc : w'.codeOf t = w.codeOf t)
    (hs : w'.scopesOf t = w.scopesOf t) : InCall w' t base top where
  code := hc.trans m.code
  inner := m.inner
  fits := by
    rw [kindsOf, hs]
    exact m.fits
  prompt := m.prompt
  noted hx := by
    rw [hs]
    exact m.noted hx

/-- A thread stays amid its call while another does nothing about its code, levels and requests. -/
theorem Amid.frame (m : Amid w t base top) (hc : w'.codeOf t = w.codeOf t)
    (hs : w'.scopesOf t = w.scopesOf t) (hq : ∀ r, w'.isRequested r = w.isRequested r)
    (hl : ∀ r, w'.levelOf r = w.levelOf r) (hn : w.records.length ≤ w'.records.length) :
    Amid w' t base top where
  toInCall := m.toInCall.frame hc hs
  looks hx := (m.looks hx).congr hq hl
  known := by
    rw [hs]
    exact fun x hx r hr => Nat.lt_of_lt_of_le (m.known x hx r hr) hn

theorem Detained.frame (d : Detained w t base) (hc : w'.codeOf t = w.codeOf t)
    (hq : ∀ r, w'.isRequested r = w.isRequested r) (hl : ∀ r, w'.levelOf r = w.levelOf r) :
    Detained w' t base := by
  obtain ⟨r, ⟨hr, top, k, mid, h, ht⟩, hreq⟩ := d
  exact ⟨r, ⟨(hl r).trans hr, top, k, mid, hc.trans h, ht⟩, (hq r).trans hreq⟩

/-! One step of the thread itself. -/

/-- What running an instruction makes of the scopes: those that there were, and one that is about the
record which stands for the thread. -/
theorem GuardInstr.known_run (g : GuardInstr) (ht : t < w.threads.length)
    (hx : x ∈ (g.run t w).1.scopesOf t) :
    x ∈ w.scopesOf t ∨ ∀ r, x.record? = some r → r < w.records.length := by
  -- a scope is opened only about the record that stands for the thread
  have opened {w' : World} {y : Scope} (hs : w'.scopesOf t = w.scopesOf t)
      (ht : t < w'.threads.length) (hx : x ∈ (w'.openScope t y).scopesOf t)
      (hy : ∀ r, y.record? = some r → ∃ s, w.selfIn t s = some r) :
      x ∈ w.scopesOf t ∨ ∀ r, x.record? = some r → r < w.records.length := by
    rw [scopesOf_openScope ht, hs] at hx
    rcases List.mem_cons.mp hx with rfl | hx
    · right
      intro r hr
      obtain ⟨s, hs⟩ := hy r hr
      exact homeOf_isSome.mp (by rw [(selfIn_eq_some.mp hs).2]; rfl)
    · exact Or.inl hx
  have same (hs : (g.run t w).1.scopesOf t = w.scopesOf t) :
      x ∈ w.scopesOf t ∨ ∀ r, x.record? = some r → r < w.records.length := Or.inl (hs ▸ hx)
  cases g with
  | raise s l | enter s p =>
    simp only [GuardInstr.run] at hx
    split at hx
    · exact opened rfl ht hx fun r hr => by cases hr
    next r hr => exact opened rfl (by simpa [World.setLevel] using ht) hx fun b hb => ⟨s, hb ▸ hr⟩
  | lower s | leave =>
    simp only [GuardInstr.run] at hx
    split at hx <;> exact Or.inl (mem_scopesOf_closeScope hx)
  | mask s | unmask s =>
    apply same
    simp only [GuardInstr.run, setMaskFor]
    split
    · simp [scopesOf, World.setMask, ofThread_modThread]
    · rfl
  | setMask m => exact same (by simp [GuardInstr.run, scopesOf, World.setMask, ofThread_modThread])
  | setPhase b p => exact same rfl
  | _ =>
    apply same
    simp only [GuardInstr.run]
    split
    · simp [scopesOf, fail, say, ofThread_modThread]
    · rfl

theorem known_proceed (h : w.codeOf t = i :: rest) (hx : x ∈ (w.proceed t i rest).scopesOf t) :
    x ∈ w.scopesOf t ∨ ∀ r, x.record? = some r → r < w.records.length := by
  rw [scopesOf_proceed] at hx
  have hs : (w.setCode t rest).scopesOf t = w.scopesOf t := scopesOf_setCode
  by_cases hg : ∃ g, i = .guard g
  · obtain ⟨g, rfl⟩ := hg
    have hk := g.known_run (lt_setCode h) hx
    rwa [hs] at hk
  · rw [scopesOf_run_of_not_guard i (fun g he => hg ⟨g, he⟩), hs] at hx
    exact Or.inl hx

theorem scopesOf_proceed_of_not_guard (hi : ∀ g, i ≠ .guard g) :
    (w.proceed t i rest).scopesOf t' = w.scopesOf t' := by
  rw [scopesOf_proceed, scopesOf_run_of_not_guard i hi]
  exact scopesOf_setCode

theorem scopesOf_proceed_of_nested (hi : i.isNested = true) :
    (w.proceed t i rest).scopesOf t' = w.scopesOf t' := by
  by_cases hg : ∃ g, i = .guard g
  · obtain ⟨g, rfl⟩ := hg
    have hs : (w.setCode t rest).scopesOf t' = w.scopesOf t' := scopesOf_setCode
    rw [scopesOf_proceed, ← hs]
    cases g with
    | setMask m => simp [Instr.run, GuardInstr.run, scopesOf, World.setMask, ofThread_modThread]
    | _ => cases hi
  · exact scopesOf_proceed_of_not_guard fun g he => hg ⟨g, he⟩

section InCall

variable (m : InCall w t base (i :: top))
include m

theorem InCall.ne_user : i ≠ .user := fun h => m.inner (h ▸ List.mem_cons_self)

/-- A step that leaves only what a call may have before it, and notes a phase before it sets one. -/
theorem InCall.proceed (hp : Topped Instr.isPrompt Instr.isNested (w.remainder t i (top ++ base)))
    (hn : ∀ r p, .guard (.setPhase r p) ∈ w.remainder t i (top ++ base) →
      ∃ q xs, (w.proceed t i (top ++ base)).scopesOf t = .phase (some r) q :: xs) :
    InCall (w.proceed t i (top ++ base)) t base (w.remainder t i (top ++ base) ++ top) := by
  have h : w.codeOf t = i :: (top ++ base) := m.code
  have hu := m.ne_user
  constructor
  case code => rw [codeOf_proceed h, List.append_assoc]
  case inner =>
    intro hx
    rcases List.mem_append.mp hx with hx | hx
    · cases groundless_of_sequel (run_sequel i hu) _ hx
    · exact m.inner (List.mem_cons_of_mem _ hx)
  case fits =>
    obtain ⟨hs, ⟨fs, rfl, hb, hf⟩, hk⟩ := m.fits
    exact ⟨i.leaves ++ fs, (fits_run i hu hb).append hf, kindsOf_proceed_own h hk⟩
  case prompt =>
    -- above a prompt instruction all is nested, and what a nested one leaves is nested too
    refine List.pairwise_append.mpr
      ⟨hp, (List.pairwise_cons.mp m.prompt).2, fun a ha j hj hpj => ?_⟩
    exact List.all_eq_true.mp (run_nested (m.prompt.head hj hpj)) a ha
  case noted =>
    intro r p hx
    rcases List.mem_append.mp hx with hx | hx
    · exact hn r p hx
    · have hi : i.isNested = true := m.prompt.head hx rfl
      rw [scopesOf_proceed_of_nested hi]
      exact m.noted (List.mem_cons_of_mem _ hx)

/-- The scopes of the thread are those that the guard at the head of its code closes, and others. -/
theorem InCall.kinds_of_guard {g : GuardInstr} (hi : i = .guard g) :
    ∃ ks, w.kindsOf t = g.closes ++ ks := by
  subst hi
  obtain ⟨hs, ⟨fs, rfl, -, -⟩, hk⟩ := m.fits
  refine ⟨fs.filterMap Hold.scope?, ?_⟩
  rw [hk, List.filterMap_append]
  cases g <;> rfl

/-- What a guard leaves may come before the rest of the call. -/
theorem InCall.proceed_guard {g : GuardInstr} (hi : i = .guard g) :
    InCall (w.proceed t i (top ++ base)) t base (w.remainder t i (top ++ base) ++ top) := by
  subst hi
  have h : w.codeOf t = .guard g :: (top ++ base) := m.code
  refine m.proceed ?_ fun r p hx => ?_
  · simp only [remainder, Instr.run]
    cases g <;> simp only [GuardInstr.run] <;> repeat' split
    all_goals simp [Topped, Instr.isPrompt, stopIfDue]
  · cases g with
    | enter s q =>
      have hs : w.selfIn t s = some r := by
        simp only [remainder, Instr.run, GuardInstr.run, selfIn_setCode] at hx
        split at hx
        · cases hx
        next b hb =>
          obtain ⟨rfl, -⟩ : r = b ∧ p = q := by simpa using hx
          exact hb
      refine ⟨w.phaseOf r, w.scopesOf t, ?_⟩
      have hsc : (w.setCode t (top ++ base)).scopesOf t = w.scopesOf t := scopesOf_setCode
      rw [scopesOf_proceed, ← hsc]
      simp only [Instr.run, GuardInstr.run, selfIn_setCode, hs]
      exact scopesOf_openScope (lt_setCode h) _
    | _ =>
      simp only [remainder, Instr.run, GuardInstr.run] at hx
      repeat' split at hx
      all_goals simp [stopIfDue] at hx

/-- A guard that sets a level for its own time only leaves the records that are to come back. -/
theorem InCall.unwound_guard {g : GuardInstr} (hi : i = .guard g) (hg : g.isScoped = true) :
    (w.proceed t i (top ++ base)).unwound t = w.unwound t := by
  obtain ⟨ks, hk⟩ := m.kinds_of_guard hi
  subst hi
  have h : w.codeOf t = .guard g :: (top ++ base) := m.code
  refine unwound_proceed.trans (Eq.trans ?_ (unwound_setCode w t (top ++ base)))
  refine g.unwound_run hg (lt_setCode h) ⟨ks, ?_⟩ fun r p he => ?_
  · rw [kindsOf_setCode, hk]
  · subst he
    rw [scopesOf_setCode]
    exact m.noted List.mem_cons_self

end InCall

section Proceed

variable (m : Amid w t base (i :: top))
include m

/-- And it looks at nothing in vain. -/
theorem Amid.proceed (hp : Topped Instr.isPrompt Instr.isNested (w.remainder t i (top ++ base)))
    (hn : ∀ r p, .guard (.setPhase r p) ∈ w.remainder t i (top ++ base) →
      ∃ q xs, (w.proceed t i (top ++ base)).scopesOf t = .phase (some r) q :: xs)
    (hl : ∀ k, .park k ∈ w.remainder t i (top ++ base) → k.IsLook (w.proceed t i (top ++ base))) :
    Amid (w.proceed t i (top ++ base)) t base (w.remainder t i (top ++ base) ++ top) := by
  have h : w.codeOf t = i :: (top ++ base) := m.code
  refine ⟨m.toInCall.proceed hp hn, fun {k} hx => ?_, fun x hx r hr => ?_⟩
  · rcases List.mem_append.mp hx with hx | hx
    · exact hl k hx
    · have hi : i.isNested = true := m.prompt.head hx rfl
      exact (m.looks (List.mem_cons_of_mem _ hx)).congr
        (fun _ => isRequested_proceed_of_nested hi) fun _ => levelOf_proceed_of_nested hi
  · rcases known_proceed h hx with hx | hx
    · exact Nat.lt_of_lt_of_le (m.known x hx r hr) World.records_length_proceed
    · exact Nat.lt_of_lt_of_le (hx r hr) World.records_length_proceed

/-- An instruction that has nothing to do with parking goes on to others of its kind. -/
theorem Amid.proceed_of_unprompted (hp : ∀ j ∈ w.remainder t i (top ++ base), j.isPrompt = false) :
    Amid (w.proceed t i (top ++ base)) t base (w.remainder t i (top ++ base) ++ top) := by
  refine m.proceed (topped_of_none fun j hj => by simp [hp j hj]) (fun r p hx => ?_) fun k hx => ?_
  · cases hp _ hx
  · cases hp _ hx

omit m in
theorem detained_of_check {entry : Entry} {below : List Instr} (ht : .user ∉ below)
    (h : w.codeOf t = .park (.check [] entry r) :: (below ++ base))
    (hq : w.isRequested r = true) (hl : w.levelOf r = .noBlock) :
    Detained (w.proceed t (.park (.check [] entry r)) (below ++ base)) t base := by
  have hp : Pinned false w t r base :=
    ⟨hl, [], _, below, h, rfl, ⟨rfl, fun h => by cases h⟩, rfl, ht⟩
  exact ⟨r, hp.proceed_own hq h, (isRequested_proceed_of_nested rfl).trans hq⟩

/-- A thread that looks whether it has to park goes on looking, gives it up, or is bound to park. -/
theorem Amid.proceed_park (hi : i = .park k) :
    Amid (w.proceed t i (top ++ base)) t base (w.remainder t i (top ++ base) ++ top) ∧
      (w.proceed t i (top ++ base)).records = w.records ∨
    Detained (w.proceed t i (top ++ base)) t base := by
  subst hi
  have hlook : k.IsLook w := m.looks List.mem_cons_self
  cases k with
  | check tests entry r =>
    cases tests with
    | nil =>
      -- all tests have been passed, and the request still stands
      right
      refine detained_of_check ?_ m.code (hlook.1 List.not_mem_nil) (hlook.2 List.not_mem_nil)
      exact fun hx => m.inner (List.mem_cons_of_mem _ hx)
    | cons x tests =>
      left
      have hpass : (w.setCode t (top ++ base)).passes r x = w.passes r x := by cases x <;> rfl
      refine ⟨m.proceed ?_ (fun b p hx => ?_) fun k hx => ?_, rfl⟩
      · exact List.pairwise_of_forall_mem_list fun a ha _ _ _ =>
          List.all_eq_true.mp (run_nested rfl) a ha
      · cases List.all_eq_true.mp (run_nested (i := .park (.check (x :: tests) entry r)) rfl) _ hx
      · have hk : w.passes r x = true ∧ k = .check tests entry r := by
          simp only [remainder, Instr.run, ParkInstr.run, hpass] at hx
          split at hx
          next hp => exact ⟨hp, by simpa using hx⟩
          next => cases hx
        obtain ⟨hp, rfl⟩ := hk
        refine ParkInstr.IsLook.congr (w := w) ⟨fun hn => ?_, fun hn => ?_⟩ (fun _ => rfl) fun _ => rfl
        · by_cases hx : x = .request
          · subst hx
            exact hp
          · exact hlook.1 (by simp [hn, Ne.symm hx])
        · by_cases hx : x = .level
          · subst hx
            simpa [passes] using hp
          · exact hlook.2 (by simp [hn, Ne.symm hx])
  | _ => exact hlook.elim

/-- A guard that is lowered has the thread look whether it has to park. -/
theorem Amid.proceed_guard {g : GuardInstr} (hi : i = .guard g) (hg : g.isScoped = true) :
    Amid (w.proceed t i (top ++ base)) t base (w.remainder t i (top ++ base) ++ top) ∧
      (w.proceed t i (top ++ base)).unwound t = w.unwound t := by
  refine ⟨?_, m.toInCall.unwound_guard hi hg⟩
  have c := m.toInCall.proceed_guard hi
  subst hi
  have h : w.codeOf t = .guard g :: (top ++ base) := m.code
  refine m.proceed ?_ (fun r p hx => c.noted (List.mem_append_left _ hx)) fun k hx => ?_
  · exact (List.pairwise_append.mp c.prompt).1
  · rcases g.park_of_run hx with ⟨c, r, -, rfl⟩ | ⟨s, c, r, rfl, -, -⟩
    · exact ⟨fun hn => absurd List.mem_cons_self hn, fun hn => absurd (by simp) hn⟩
    · cases hg

/-- A silent instruction leaves the records that are to come back as they are. -/
theorem Amid.proceed_silent (hi : i.isSilent = true) :
    Amid (w.proceed t i (top ++ base)) t base (w.remainder t i (top ++ base) ++ top) ∧
      (w.proceed t i (top ++ base)).unwound t = w.unwound t ∨
    Detained (w.proceed t i (top ++ base)) t base := by
  cases i with
  | sync k =>
    left
    obtain ⟨_, _, he⟩ := k.run_fst (w := w.setCode t (top ++ base)) (t := t)
    refine ⟨m.proceed_of_unprompted ?_, ?_⟩
    · simp only [remainder, Instr.run]
      cases k <;> simp [SyncInstr.run, Instr.isPrompt]
    · refine unwound_proceed.trans (Eq.trans ?_ (unwound_setCode w t (top ++ base)))
      rw [Instr.run, he]
      rfl
  | guard g =>
    refine Or.inl (m.proceed_guard rfl ?_)
    cases g <;> first | rfl | cases hi
  | park k =>
    rcases m.proceed_park rfl with ⟨m', hr⟩ | d
    · left
      refine ⟨m', ?_⟩
      rw [unwound, unwound, scopesOf_proceed_of_nested rfl, hr]
    · exact Or.inr d
  | _ => cases hi

end Proceed

/-- A thread that is in a call is not moved by an event in which no instruction is run, but for the
stop signal, whose handler goes on top. -/
theorem InCall.undisturbed (m : InCall w t base top) (u : Undisturbed w e w')
    (he : e.isBy t = false) :
    ∃ new, (new = [] ∨ new = w.handlerCode t ++ [.guard (.setMask false)]) ∧
      InCall w' t base (new ++ top) := by
  rcases u.code t with hc | hc
  · exact ⟨[], Or.inl rfl, m.frame hc (u.scopes t)⟩
  generalize hcode : w'.codeOf t = code at hc
  cases hc with
  | interrupt hi =>
    have hn := handler_nested (w := w) (t := t)
    refine ⟨_, Or.inr rfl, ⟨?_, ?_, ?_, topped_of_nested hn m.prompt, ?_⟩⟩
    · rw [hcode, m.code, List.append_assoc _ top]
    · intro hx
      rcases List.mem_append.mp hx with hx | hx
      · cases List.all_eq_true.mp hn _ hx
      · exact m.inner hx
    · obtain ⟨hs, hf, hk⟩ := m.fits
      refine ⟨hs, ?_, ?_⟩
      · rw [List.append_assoc]
        exact handlerCode_fits.append ⟨hs, rfl, Or.inl rfl, hf⟩
      · rw [kindsOf, u.scopes]
        exact hk
    · intro r p hx
      rw [u.scopes]
      rcases List.mem_append.mp hx with hx | hx
      · cases List.all_eq_true.mp hn _ hx
      · exact m.noted hx
  | invoke c h => simp [Event.isBy] at he
  | finish p h => simp [Event.isBy] at he

/-- The handler has not looked at anything yet. -/
theorem looks_of_handler (hk : .park k ∈ w.handlerCode t) : k.IsLook w' := by
  rw [handlerCode_eq] at hk
  split at hk
  · cases hk
  · obtain rfl : k = _ := by simpa using hk
    exact ⟨fun hn => absurd List.mem_cons_self hn, fun hn => absurd (by simp) hn⟩

theorem Amid.undisturbed (m : Amid w t base top) (u : Undisturbed w e w') (he : e.isBy t = false) :
    ∃ new, new.all Instr.isNested = true ∧ Amid w' t base (new ++ top) ∧
      w'.unwound t = w.unwound t := by
  obtain ⟨new, hnew, m'⟩ := m.toInCall.undisturbed u he
  refine ⟨new, ?_, ⟨m', fun {k} hk => ?_, ?_⟩, by rw [unwound, unwound, u.scopes, u.records]⟩
  · rcases hnew with rfl | rfl
    · rfl
    · exact handler_nested
  · rcases List.mem_append.mp hk with hk | hk
    · rcases hnew with rfl | rfl
      · cases hk
      · exact looks_of_handler (by simpa using hk)
    · exact (m.looks hk).congr (fun _ => u.ofRecord) fun _ => u.ofRecord
  · rw [u.scopes, u.records]
    exact m.known

theorem Detained.undisturbed (d : Detained w t base) (u : Undisturbed w e w') :
    Detained w' t base := by
  obtain ⟨r, hp, hq⟩ := d
  exact ⟨r, hp.undisturbed u, u.ofRecord.trans hq⟩

/-- What a detained thread runs is nested. -/
theorem Detained.nested (d : Detained w t base) (h : w.codeOf t = i :: rest) : i.isNested = true := by
  obtain ⟨r, ⟨-, top, k, mid, hc, ht, -⟩, -⟩ := d
  rw [h] at hc
  cases top with
  | nil =>
    obtain ⟨rfl, -⟩ := List.cons.inj hc
    rfl
  | cons x top =>
    obtain ⟨rfl, -⟩ := List.cons.inj hc
    exact List.all_eq_true.mp ht i List.mem_cons_self

theorem Detained.proceed (d : Detained w t base) (h : w.codeOf t = i :: rest) :
    Detained (w.proceed t i rest) t base := by
  have hi := d.nested h
  obtain ⟨r, hp, hq⟩ := d
  exact ⟨r, hp.proceed_own hq h, (isRequested_proceed_of_nested hi).trans hq⟩

/-- A thread that is detained has not come to the end of its call. -/
theorem Detained.codeOf_ne (d : Detained w t base) : w.codeOf t ≠ base := by
  obtain ⟨r, ⟨-, top, k, mid, hc, -⟩, -⟩ := d
  rw [hc]
  intro h
  have hl := congrArg List.length h
  simp at hl
  omega

/-! What is in the books of the services and pools. -/

/-- A service without its counts of what has been done. -/
def Service.uncounted (v : Service) : Service := { v with counters := {} }

/-- Rosters with their census, the slots of both pools, and what lies in them. -/
def World.books (w : World) : List Service × List PoolLock × List PoolCondition :=
  (w.services.map Service.uncounted, w.mutexes, w.conds)

section Books

@[simp] theorem books_modThread (f : Thread → Thread) : (w.modThread t f).books = w.books := rfl

@[simp] theorem books_modRecord (f : ThreadRecord → ThreadRecord) :
    (w.modRecord r f).books = w.books := rfl

@[simp] theorem books_count (x : Tally) : (w.count s x).books = w.books := by
  have hm := map_modify_of_comp w.services s (fun v => { v with counters := v.counters.add x })
    Service.uncounted fun _ => rfl
  rw [books, books, ← hm]
  rfl

theorem books_run_of_silent (h : i.isSilent = true) : (i.run t w).1.books = w.books := by
  cases i with
  | sync k =>
    obtain ⟨_, _, he⟩ := k.run_fst (w := w) (t := t)
    rw [Instr.run, he]
    rfl
  | guard g =>
    cases g <;> simp only [Instr.isSilent, Instr.isMute] at h <;>
      simp only [Instr.run, GuardInstr.run, setMaskFor] <;> repeat' split
    all_goals rfl
  | park k =>
    cases k with
    | check tests entry r =>
      rcases tests with _ | ⟨x, tests⟩
      · rcases entry with _ | _ | _ <;> simp only [Instr.run, ParkInstr.run]
        split <;> rfl
      · rfl
    | _ => rfl
  | _ => cases h

/-- What a service has besides its counts is in the books. -/
theorem service_of_books {α : Type} {f : Service → α} (h : w'.books = w.books)
    (hf : ∀ v, f v.uncounted = f v) : w'.services[s]?.map f = w.services[s]?.map f := by
  have hs : (w'.services.map Service.uncounted)[s]? = (w.services.map Service.uncounted)[s]? :=
    congrArg (fun b : List Service × _ => b.1[s]?) h
  have hm := congrArg (Option.map f) hs
  simpa only [List.getElem?_map, Option.map_map, Function.comp_def, hf] using hm

theorem roster_of_books (h : w'.books = w.books) : w'.roster s = w.roster s := by
  have hr (w : World) : w.roster s = (w.services[s]?.map Service.roster).getD {} := by
    simp only [roster]
    cases w.services[s]? <;> rfl
  rw [hr, hr, service_of_books h fun _ => rfl]

theorem mechanism_of_books (h : w'.books = w.books) : w'.mechanism s = w.mechanism s := by
  have hm (w : World) :
      w.mechanism s = (w.services[s]?.map (·.settings.mechanism)).getD .safepoint := by
    simp only [mechanism]
    cases w.services[s]? <;> rfl
  rw [hm, hm, service_of_books h fun _ => rfl]

theorem mutex_of_books (h : w'.books = w.books) (m : MutexRef) : w'.mutex m = w.mutex m := by
  have hm : w'.mutexes = w.mutexes := congrArg (fun b : _ × List PoolLock × _ => b.2.1) h
  simp only [mutex, hm]

end Books

/-! Instructions that count at most. -/

/-- The instruction leaves the records to come back alone, and counts at most. -/
def Instr.isNeutral : Instr → Bool
  | .stop (.countSuspend _) | .stop (.countResume _) | .stop (.watchEnd _) => true
  | i => i.isSilent

theorem neutral_of_silent (h : i.isSilent = true) : i.isNeutral = true := by
  cases i with
  | sync | guard | park => exact h
  | _ => cases h

theorem run_neutral (h : i.isNeutral = true) : (i.run t w).2.all Instr.isSilent = true := by
  cases i with
  | stop k => cases k <;> first | rfl | cases h
  | sync | guard | park => exact run_silent h
  | _ => cases h

theorem books_run_of_neutral (h : i.isNeutral = true) : (i.run t w).1.books = w.books := by
  cases i with
  | stop k => cases k <;> first | exact books_count _ | cases h
  | sync | guard | park => exact books_run_of_silent h
  | _ => cases h

/-- A neutral instruction leaves the records that are to come back as they are, or its thread parks for
good. -/
theorem Amid.proceed_neutral (m : Amid w t base (i :: top)) (hi : i.isNeutral = true) :
    Amid (w.proceed t i (top ++ base)) t base (w.remainder t i (top ++ base) ++ top) ∧
      (w.proceed t i (top ++ base)).unwound t = w.unwound t ∨
    Detained (w.proceed t i (top ++ base)) t base := by
  cases i with
  | stop k =>
    have hr : w.remainder t (.stop k) (top ++ base) = [] := by
      cases k <;> first | rfl | cases hi
    refine Or.inl ⟨m.proceed_of_unprompted fun j hj => ?_, unwound_proceed.trans ?_⟩
    · rw [hr] at hj
      cases hj
    · rw [← unwound_setCode w t (top ++ base)]
      cases k <;> first | rfl | cases hi
  | sync | guard | park => exact m.proceed_silent hi
  | _ => cases hi

theorem undisturbed_step (he : ∀ t, e ≠ .advance t) : Undisturbed w e (w.step e) :=
  (w.step_cases e).resolve_left fun ⟨t, _, _, h, _⟩ => he t h

theorem books_step (he : ∀ t, e ≠ .advance t) : (w.step e).books = w.books := by
  cases e with
  | advance t => exact absurd rfl (he t)
  | interrupt t =>
    simp only [World.step, interrupt]
    split <;> rfl
  | invoke t c =>
    simp only [World.step, invoke]
    repeat' split
    all_goals rfl
  | finish t p =>
    simp only [World.step, finish]
    split <;> rfl
  | stir q t => rfl
  | tick | system => rfl

/-! The beginning of a call. -/

theorem Call.code_unprompted (c : Call) (hc : ∀ s, c ≠ .safePoint s) :
    ∀ j ∈ c.code w t, j.isPrompt = false := by
  rcases c.code_plain (w := w) (t := t) with h | ⟨s, _, he, _⟩
  · exact unprompted_of_plain h
  · exact absurd he (hc s)

theorem scopesOf_invoke {c : Call} : (w.step (.invoke t c)).scopesOf t' = w.scopesOf t' :=
  (undisturbed_invoke w t c).scopes t'

theorem unwound_invoke {c : Call} (hs : w.scopesOf t = []) :
    (w.step (.invoke t c)).unwound t = w.records := by
  have u := undisturbed_invoke w t c
  rw [unwound, scopesOf_invoke, hs]
  exact u.records

/-- A call that is refused for its arguments leaves nothing to do. -/
theorem invoke_refused {c : Call} {f : Fault} (hr : c.refusal? = some f) :
    (w.step (.invoke t c)).codeOf t = w.codeOf t := by
  simp only [World.step, invoke, hr]
  split
  · simp [codeOf, fail, say, ofThread_modThread]
  · rfl

theorem inCall_nil (hs : w.scopesOf t = []) : InCall w t (w.codeOf t) [] where
  code := rfl
  inner := List.not_mem_nil
  fits := ⟨[], rfl, by rw [kindsOf, hs]; rfl⟩
  prompt := List.Pairwise.nil
  noted hx := absurd hx List.not_mem_nil

theorem amid_nil (hs : w.scopesOf t = []) : Amid w t (w.codeOf t) [] where
  toInCall := inCall_nil hs
  looks hx := absurd hx List.not_mem_nil
  known := by
    rw [hs]
    exact fun _ hx => absurd hx List.not_mem_nil

/-- A thread that makes a call from its own code has all of it left to do. -/
theorem inCall_of_invoke {c : Call} (hu : w.inUser t = true) (hs : w.scopesOf t = [])
    (hr : c.refusal? = none) : InCall (w.step (.invoke t c)) t (w.codeOf t) (c.code w t) := by
  have hscopes : (w.step (.invoke t c)).scopesOf t = [] := scopesOf_invoke.trans hs
  constructor
  case code => exact (invoke_admitted hu hr).1
  case inner =>
    intro hx
    cases c.code_groundless _ hx
  case fits => exact ⟨[], c.code_fits, by rw [kindsOf, hscopes]; rfl⟩
  case prompt =>
    rcases c.code_plain (w := w) (t := t) with h | ⟨s, b, _, _, h⟩
    · exact topped_of_none fun j hj => by simp [unprompted_of_plain h j hj]
    · simp [h, Topped]
  case noted =>
    intro r p hx
    rcases c.code_plain (w := w) (t := t) with h | ⟨s, b, _, _, h⟩
    · cases unprompted_of_plain h _ hx
    · simp [h] at hx

theorem amid_of_invoke {c : Call} (hu : w.inUser t = true) (hs : w.scopesOf t = [])
    (hr : c.refusal? = none) (hc : ∀ s, c ≠ .safePoint s) :
    Amid (w.step (.invoke t c)) t (w.codeOf t) (c.code w t) where
  toInCall := inCall_of_invoke hu hs hr
  looks hx := by cases c.code_unprompted hc _ hx
  known := by
    intro x hx
    rw [scopesOf_invoke, hs] at hx
    cases hx

end Standstill
