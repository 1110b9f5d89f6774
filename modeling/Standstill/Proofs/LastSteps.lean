import Standstill.Proofs.Hiring
import Standstill.Proofs.Shutdown
import Standstill.Proofs.StoppedWorld

/-!
The last steps of a thread that a service has started. It leaves in a section on the roster; when it has
given up the lock, it takes none any more but its own park lock.
-/
namespace Standstill

open World

variable {n : Nat} {w w' : World} {t : ThreadId} {s b : ServiceId} {l : Lock} {i : Instr}
  {top code : List Instr} {e : Event} {es : List Event} {hs : List Hold} {out : Bool}

/-- What a thread may have left to do when it has taken its record out of the roster of service `s`; if it
is not `out` yet, it may have the lock to give up. -/
def Instr.isTrailing (s : ServiceId) (out : Bool) : Instr → Bool
  | .sync (.release (.roster b)) => !out && b == s
  | .sync (.notifyAll (.roster _)) | .member (.unbind _) => true
  | i => i.isNested

theorem stretch_trailing (s : ServiceId) (out : Bool) : Stretch (Instr.isTrailing s out) where
  nested {i} h := by
    cases i with
    | sync k =>
      cases k with
      | release l => cases l <;> first | exact h | cases h
      | notifyAll q => cases q <;> cases h
      | _ => exact h
    | member => cases h
    | _ => exact h
  run {w t i} h := by
    cases i with
    | sync k =>
      cases k with
      | release l | notifyAll q | acquire l | resting q d => rfl
      | wait q l d =>
        cases q <;> cases l <;> first | rfl | cases h
      | _ => cases h
    | guard g => cases g <;> first | rfl | cases h
    -- what parks leaves nested code, which neither gives the roster back nor calls on it
    | park k =>
      refine all_imp (fun {j} hj => ?_) (run_nested (i := .park k) rfl)
      cases j with
      | sync m =>
        cases m with
        | release l => cases l <;> first | exact hj | cases hj
        | notifyAll q => cases q <;> cases hj
        | _ => exact hj
      | member => cases hj
      | _ => exact hj
    | member k =>
      cases k with
      | unbind =>
        simp only [Instr.run, MemberInstr.run]
        repeat' split
        all_goals rfl
      | _ => cases h
    | _ => cases h

/-- Nested code gives back no lock but its thread's own park lock. -/
theorem park_of_nested (h : i.isNested = true) (hl : .lock l ∈ i.closes) : ∃ r, l = .park r := by
  have own {r : RecordId} (hl : Hold.lock l ∈ [.lock (.park r)]) : ∃ r, l = .park r :=
    ⟨r, Hold.lock.inj (List.mem_singleton.mp hl)⟩
  cases i with
  | sync k =>
    cases k with
    | release b | wait q b d =>
      cases b with
      | park r => exact own hl
      | _ => first | cases h | (cases q <;> cases h)
    | notifyAll => cases h
    | _ => cases hl
  | guard g =>
    cases g with
    | setMask => cases hl
    | _ => cases h
  | park k =>
    cases k with
    | retestRequest r | retestLevel r => exact own hl
    | _ => cases hl
  | _ => cases h

theorem park_of_trailing (h : i.isTrailing s true = true) (hl : .lock l ∈ i.closes) :
    ∃ r, l = .park r := by
  by_cases hn : i.isNested = true
  · exact park_of_nested hn hl
  cases i with
  | sync k =>
    cases k with
    | notifyAll q =>
      cases q with
      | roster => cases hl
      | _ => exact absurd h hn
    | release b =>
      cases b with
      | roster => cases h
      | _ => exact absurd h hn
    | _ => exact absurd h hn
  | member k =>
    cases k with
    | unbind => cases hl
    | _ => exact absurd h hn
  | _ => exact absurd h hn

/-- Such code finds no lock taken but the thread's own park lock, once the thread is out. -/
theorem holds_of_trailing (h : Fits [] code hs) (hc : code.all (Instr.isTrailing s true) = true)
    (hl : .lock l ∈ hs) : ∃ r, l = .park r := by
  induction code generalizing hs with
  | nil =>
    obtain rfl : hs = [] := h
    cases hl
  | cons i code ih =>
    obtain ⟨fs, rfl, -, hf⟩ := h
    rw [List.all_cons, Bool.and_eq_true] at hc
    rcases List.mem_append.mp hl with hl | hl
    · exact park_of_trailing hc.1 hl
    · exact ih hf hc.2 (List.mem_append_right _ hl)

/-- Who is past its last section takes the lock of the roster no more. -/
theorem closes_of_trailing (h : i.isTrailing s out = true) (ho : .lock (.roster b) ∈ i.opens) :
    .lock (.roster b) ∈ i.closes := by
  by_cases hn : i.isNested = true
  · exact closes_of_nested hn ho
  cases i with
  | sync k =>
    cases k with
    | notifyAll q =>
      cases q with
      | roster => cases ho
      | _ => exact absurd h hn
    | release => cases ho
    | _ => exact absurd h hn
  | member k =>
    cases k with
    | unbind => cases ho
    | _ => exact absurd h hn
  | _ => exact absurd h hn

/-- Thread `t` is out of the roster of service `s`, and has given up the lock. -/
def World.HasLeft (w : World) (s : ServiceId) (t : ThreadId) : Prop :=
  (w.codeOf t).all (Instr.isTrailing s true) = true

/-- Code that is all on the way out is no code of the thread's own. -/
theorem not_inUser_of_trailing (h : (w.codeOf t).all (Instr.isTrailing s out) = true) :
    w.inUser t ≠ true := by
  intro hu
  obtain ⟨rest, hr⟩ := head_user hu
  rw [hr] at h
  cases h

theorem World.HasLeft.step (h : w.HasLeft s t)
    (hl : t < w.threads.length ∨ (w.step e).threads.length = w.threads.length) :
    (w.step e).HasLeft s t := by
  by_cases ht : t < w.threads.length
  · exact (stretch_trailing s true).all_step h (fun hu => absurd hu (not_inUser_of_trailing h))
      (.inl ht)
  · have hle := (hl.resolve_left ht).trans_le (Nat.le_of_not_lt ht)
    rw [HasLeft, codeOf, ofThread_of_le _ _ hle]
    rfl

/-- A thread that is out holds no lock but its own park lock. -/
theorem Keeping.park_of_hasLeft (k : Keeping w) (hc : w.HasLeft s t) (hl : (l, t) ∈ w.held) :
    ∃ r, l = .park r := by
  obtain ⟨hs, hk⟩ := k.keeps t
  rw [← mem_locksOf, hk.locks] at hl
  obtain ⟨x, hx, hxl⟩ := List.mem_filterMap.mp hl
  cases x with
  | lock b =>
    obtain rfl := Option.some.inj hxl
    exact holds_of_trailing hk.code hc hx
  | guard | phase => cases hxl

/-- Where nobody else can have the lock of the roster, a thread past its last section has given it up. -/
theorem Keeping.hasLeft (k : Keeping w)
    (hc : (w.codeOf t).all (Instr.isTrailing s false) = true) (hl : (.roster s, t) ∉ w.held) :
    w.HasLeft s t := by
  rw [HasLeft, List.all_eq_true]
  intro j hj
  have htrail := List.all_eq_true.mp hc j hj
  by_cases hr : j = .sync (.release (.roster s))
  · -- what it gives up it holds, for it takes nothing before
    refine absurd ?_ hl
    obtain ⟨hs, hk⟩ := k.keeps t
    obtain ⟨top, below, he⟩ := List.append_of_mem hj
    have hf := hk.code
    rw [he] at hf hc
    rw [List.all_append, Bool.and_eq_true] at hc
    rw [← mem_locksOf, hk.locks]
    refine List.mem_filterMap.mpr ⟨.lock (.roster s), mem_of_fits hf (fun m hm ho => ?_) ?_, rfl⟩
    · exact closes_of_trailing (List.all_eq_true.mp hc.1 m hm) ho
    · rw [hr]
      exact List.mem_singleton_self _
  · cases j with
    | sync k =>
      cases k with
      | release b =>
        cases b with
        | roster b =>
          obtain rfl : b = s := by simpa [Instr.isTrailing] using htrail
          exact absurd rfl hr
        | _ => exact htrail
      | notifyAll q => cases q <;> exact htrail
      | _ => exact htrail
    | member k => cases k <;> exact htrail
    | _ => exact htrail

/-! How a thread comes to its end. -/

theorem lt_of_daemonOf {r : RecordId} (h : w.daemonOf r = false) : r < w.records.length := by
  by_contra hr
  rw [daemonOf, ofRecord_of_le _ _ (Nat.le_of_not_lt hr)] at h
  cases h

/-- How far thread `t`, which service `s` has started and which is no daemon, is from its end. -/
inductive World.Departing (w : World) (s : ServiceId) (t : ThreadId) : Prop
  | due (top : List Instr) (r : RecordId) (hc : w.codeOf t = top ++ [.member (.exitRaise s r)])
      (hd : w.daemonOf r = false)
  | last (top : List Instr) (r : RecordId) (hc : w.codeOf t = top ++ [.member (.exitRemove s r)])
      (hd : w.daemonOf r = false)
  | past (hc : (w.codeOf t).all (Instr.isTrailing s false) = true)

theorem World.Departing.of_le (h : w.threads.length ≤ t) : w.Departing s t := by
  refine .past ?_
  rw [codeOf, ofThread_of_le _ _ h]
  rfl

theorem epilogue_eq (panicked : Bool) (code : List Instr) :
    ∃ pre, epilogue panicked code = pre ++ code := by
  unfold epilogue
  split
  · exact ⟨_, rfl⟩
  · exact ⟨[], rfl⟩

/-- What is at the bottom of a thread's code stays there until the thread runs it. -/
theorem bottom_step (hc : w.codeOf t = top ++ [i]) (hi : i ≠ .user) (e : Event) :
    (∃ top', (w.step e).codeOf t = top' ++ [i]) ∨
      w.codeOf t = [i] ∧ w.step e = w.proceed t i [] := by
  rcases w.step_cases e with ⟨q, j, below, -, h, -, hs⟩ | u
  · by_cases hq : t = q
    · subst hq
      -- with nothing above it, the instruction at the bottom is the one that runs
      cases top with
      | nil =>
        obtain ⟨rfl, rfl⟩ := List.cons.inj (h.symm.trans hc)
        exact .inr ⟨hc, hs⟩
      | cons k top =>
        obtain ⟨rfl, rfl⟩ := List.cons.inj (h.symm.trans hc)
        refine .inl ⟨w.remainder t j (top ++ [i]) ++ top, ?_⟩
        rw [hs, codeOf_proceed h]
        exact (List.append_assoc _ top [i]).symm
    · have hl : t < w.threads.length := lt_of_codeOf (by rw [hc]; simp)
      exact .inl ⟨top, by rw [hs, codeOf_proceed_of_ne h hq hl, hc]⟩
  · left
    rcases u.code t with hc' | hc'
    · exact ⟨top, hc'.trans hc⟩
    · generalize (w.step e).codeOf t = code at hc'
      cases hc' with
      | interrupt | invoke => exact ⟨_, by rw [hc, ← List.append_assoc]⟩
      -- what goes is the thread's own code at the head, and that is not at the bottom
      | finish p hu =>
        obtain ⟨rest, hr⟩ := head_user hu
        cases top with
        | nil => exact absurd (List.cons.inj (hc.symm.trans hr)).1 hi
        | cons k top =>
          obtain ⟨pre, hp⟩ := epilogue_eq p (top ++ [i])
          exact ⟨pre ++ top, by rw [hc, List.append_assoc]; exact hp⟩

theorem World.Departing.step (a : w.Departing s t) (ht : t < w.threads.length) (e : Event) :
    (w.step e).Departing s t := by
  cases a with
  | due top r hc hd =>
    have hd' := (daemonOf_step e (lt_of_daemonOf hd)).trans hd
    rcases bottom_step hc nofun e with ⟨top', hc'⟩ | ⟨h, hs⟩
    · exact .due top' r hc' hd'
    -- with the record raised, only the masking and the lock of the roster come before the last step
    · refine .last ((if (w.setCode t []).levelOf r = .blocking then [] else [.guard (.mask s)]) ++
        [.sync (.acquire (.roster s))]) r ?_ hd'
      rw [hs, codeOf_proceed h, List.append_nil, List.append_assoc]
      rfl
  | last top r hc hd =>
    have hd' := (daemonOf_step e (lt_of_daemonOf hd)).trans hd
    rcases bottom_step hc nofun e with ⟨top', hc'⟩ | ⟨h, hs⟩
    · exact .last top' r hc' hd'
    · refine .past ?_
      rw [hs, codeOf_proceed h, List.append_nil, remainder]
      simp only [Instr.run, MemberInstr.run]
      split <;> simp [Instr.isTrailing]
  | past hc =>
    exact .past ((stretch_trailing s false).all_step hc
      (fun hu => absurd hu (not_inUser_of_trailing hc)) (.inl ht))

end Standstill
