import Standstill.Proofs.Unwinding

/-!
Instructions that can refuse a call. Before them nothing has been done that is not taken back on the
way out; each of them refuses the call, goes on to another one, or sees to it that the call will be
carried out.
-/
namespace Standstill

open World

variable {w w' : World} {t t' : ThreadId} {s : ServiceId} {r : RecordId} {i : Instr}
  {code pre post rest : List Instr} {rs : List ThreadRecord} {e : Event}

/-- The call was not carried out, and not because its time was over. -/
def Outcome.isRefusal : Outcome → Bool
  | .fault .timeout => false
  | .fault _ => true
  | _ => false

/-- Record `r` of thread `t` is found in service `s` under its handle. -/
def World.Lists (w : World) (t : ThreadId) (s : ServiceId) (r : RecordId) : Prop :=
  ∃ h, w.handleOf r = some h ∧ (w.roster s).lookup h = some r ∧ w.ownerOf r = some t

/-! What is left to take back of a request. -/

/-- What the instruction still takes back of a request that its thread has raised. -/
def Instr.amend (rs : List ThreadRecord) : Instr → List ThreadRecord
  | .stop (.readLevel _ r _ already) | .stop (.deliver _ r _ already) =>
    if already then rs else rs.modify r fun c => { c with requested := false }
  | .stop (.withdraw r) => rs.modify r fun c => { c with requested := false }
  | _ => rs

/-- The records after the code has taken back what it can. -/
def amended (code : List Instr) (rs : List ThreadRecord) : List ThreadRecord :=
  code.foldl Instr.amend rs

theorem amended_append : amended (pre ++ post) rs = amended post (amended pre rs) :=
  List.foldl_append

theorem amended_cons : amended (i :: code) rs = amended code (i.amend rs) := rfl

theorem amend_of_neutral (h : i.isNeutral = true) : i.amend rs = rs := by
  cases i with
  | stop k => cases k <;> first | rfl | cases h
  | _ => rfl

theorem amended_of_silent (h : code.all Instr.isSilent = true) : amended code rs = rs := by
  induction code generalizing rs with
  | nil => rfl
  | cons i code ih =>
    rw [List.all_cons, Bool.and_eq_true] at h
    rw [amended_cons, amend_of_neutral (neutral_of_silent h.1), ih h.2]

/-! Instructions before which a call can still be refused, and those after which it cannot. -/

/-- The instruction can refuse the call, or goes on to one that can. -/
def Instr.isDoubtful : Instr → Bool
  | .stop (.suspendFind ..) | .stop (.readEpoch ..) | .stop (.request ..) | .stop (.readLevel ..)
  | .stop (.deliver ..) => true
  | .pool (.mutexAllot ..) | .pool (.mutexFind ..) | .pool (.tryTake _) | .pool (.take ..)
  | .pool (.giveUp _) | .pool (.mutexDispose ..) | .pool (.mutexIdle ..) | .pool (.condAllot ..)
  | .pool (.condFind ..) | .pool (.condDispose ..) | .pool (.condIdle ..)
  | .pool (.waitOwner ..) => true
  | .member (.spawn ..) | .member (.spawnRecord ..) | .member (.spawnNative ..)
  | .member (.noThread _) => true
  | .read (.find _ _ (.setPriority _)) | .read (.setPriority ..) => true
  | _ => false

/-- A doubtful instruction, or a thread's leaving a service in which its record is found. -/
def Instr.IsPoised (w : World) (t : ThreadId) : Instr → Prop
  | .member (.detach s) => ∀ r, w.selfIn t s = some r → w.Lists t s r
  | i => i.isDoubtful = true

/-- The instruction does not refuse the call, and leads to none that does. -/
def Instr.isSafe : Instr → Bool
  | .stop (.watchStart ..) | .stop (.watchEpoch _) | .stop (.watchPhase _) | .stop (.watchRequest _)
  | .stop (.watchLevel _) | .stop (.watchClock _) | .stop (.watchEnd _) => true
  | .pool (.retake ..) | .pool (.mutexFree ..) | .pool (.signal _) | .pool (.broadcast _)
  | .pool (.condFree ..) => true
  | .member (.spawnWait ..) | .member (.unbind _) | .member (.clearRequest _)
  | .member (.setLevel ..) => true
  | i => i.isSilent

/-- The instruction could refuse the call in another world, but not in this one: who waits on a
condition owns the mutex until it gives it up, and who leaves a service is found there. -/
def Instr.IsSure (w : World) (t : ThreadId) : Instr → Prop
  | .pool (.waitClock _ _ m _) => (w.mutex m).isOwnedBy t = true
  | .pool (.waitRegister x) | .pool (.waitGiveUp x _) => (w.mutex x.mutex).isOwnedBy t = true
  | .pool (.waitCheck x _) | .pool (.waitRetire x) => (w.mutex x.mutex).isOwnedBy t = false
  | .pool (.take _ m) => (w.mutex m).isOwnedBy t = false
  | .member (.detachRaise s r) | .member (.detachRemove s r _) => w.Lists t s r
  | _ => False

/-- Code that does not refuse the call. -/
inductive Assured (w : World) (t : ThreadId) : List Instr → Prop
  | safe {code : List Instr} (h : code.all Instr.isSafe = true) : Assured w t code
  | sure (pre : List Instr) (i : Instr) (post : List Instr) (hpre : pre.all Instr.isSilent = true)
    (hi : i.IsSure w t) (hpost : post.all Instr.isSafe = true) : Assured w t (pre ++ i :: post)

theorem safe_of_silent (h : i.isSilent = true) : i.isSafe = true := by
  cases i with
  | sync | guard | park => exact h
  | _ => cases h

theorem Assured.append (h : Assured w t code) (hp : post.all Instr.isSafe = true) :
    Assured w t (code ++ post) := by
  cases h with
  | safe h => exact .safe (by rw [List.all_append, h, hp]; rfl)
  | sure pre i mid hpre hi hmid =>
    rw [List.append_assoc]
    exact .sure pre i (mid ++ post) hpre hi (by rw [List.all_append, hmid, hp]; rfl)

theorem Assured.prepend {new : List Instr} (h : Assured w t code)
    (hn : new.all Instr.isSilent = true) :
    Assured w t (new ++ code) := by
  cases h with
  | safe h => exact .safe (by rw [List.all_append, all_imp safe_of_silent hn, h]; rfl)
  | sure pre i post hpre hi hpost =>
    rw [← List.append_assoc]
    exact .sure (new ++ pre) i post (by rw [List.all_append, hn, hpre]; rfl) hi hpost

section Safe

attribute [local simp] Instr.isSafe Instr.isSilent Instr.isMute leaveRoster guarded locked sleeping
  takeCode

theorem run_safe (h : i.isSafe = true) : (i.run t w).2.all Instr.isSafe = true := by
  cases i with
  | sync | guard | park => exact all_imp safe_of_silent (run_silent h)
  | stop k =>
    cases k <;> simp only [Instr.isSafe, Instr.isSilent, Instr.isMute] at h <;>
      simp only [Instr.run, StopInstr.run] <;> repeat' split
    all_goals simp at h ⊢
  | pool k =>
    cases k <;> simp only [Instr.isSafe, Instr.isSilent] at h <;>
      simp only [Instr.run, PoolInstr.run] <;> repeat' split
    all_goals simp at h ⊢
  | member k =>
    cases k <;> simp only [Instr.isSafe, Instr.isSilent, Instr.isMute] at h <;>
      simp only [Instr.run, MemberInstr.run] <;> repeat' split
    all_goals simp at h ⊢
  | _ => cases h

attribute [local simp] World.setLevel World.setRequest World.setBinding World.count
  World.setMutexSlots World.setCondSlots ofThread_modThread

theorem outcomeOf_run_of_safe (h : i.isSafe = true) : (i.run t w).1.outcomeOf t' = w.outcomeOf t' := by
  cases i with
  | sync | park => exact outcomeOf_run_of_mute rfl fun j h => by cases h
  | guard g => exact outcomeOf_run_of_mute h fun j h => by cases h
  | stop k =>
    cases k <;> simp only [Instr.isSafe, Instr.isSilent, Instr.isMute] at h <;>
      simp only [Instr.run, StopInstr.run, outcomeOf_eq] <;> repeat' split
    all_goals simp at h ⊢
  | pool k =>
    cases k <;> simp only [Instr.isSafe, Instr.isSilent] at h <;>
      simp only [Instr.run, PoolInstr.run, outcomeOf_eq] <;> repeat' split
    all_goals first | rfl | simp at h ⊢
  | member k =>
    cases k <;> simp only [Instr.isSafe, Instr.isSilent, Instr.isMute] at h <;>
      simp only [Instr.run, MemberInstr.run, outcomeOf_eq] <;> repeat' split
    all_goals simp at h ⊢
  | _ => cases h

end Safe

theorem isRefusal_say {o : Outcome} (ho : o.isRefusal = false) :
    ((w.say t o).outcomeOf t).isRefusal = false := by
  by_cases h : t < w.threads.length
  · rw [outcomeOf_say h]
    exact ho
  · rw [outcomeOf_eq, ofThread_of_le _ _ (by simpa [say] using h)]
    rfl

/-! Steps that leave alone what a refusal rests on. -/

/-- Nothing differs in the books, nor in whom the records stand for. -/
structure Alike (w w' : World) : Prop where
  books : w'.books = w.books
  handles : ∀ r, w'.handleOf r = w.handleOf r
  owners : ∀ r, w'.ownerOf r = w.ownerOf r
  selves : ∀ t s, w'.selfIn t s = w.selfIn t s

theorem Alike.trans {w₁ w₂ : World} (a : Alike w w₁) (b : Alike w₁ w₂) : Alike w w₂ :=
  ⟨b.books.trans a.books, fun r => (b.handles r).trans (a.handles r),
    fun r => (b.owners r).trans (a.owners r), fun t s => (b.selves t s).trans (a.selves t s)⟩

theorem handleOf_eq : w.handleOf r = w.ofRecord r none fun c => some c.handle := by
  simp only [handleOf, ofRecord]
  cases w.records[r]? <;> rfl

theorem selfIn_congr (hb : w'.bindingOf t = w.bindingOf t) (hh : ∀ r, w'.homeOf r = w.homeOf r)
    (s : ServiceId) : w'.selfIn t s = w.selfIn t s := by
  refine Option.ext fun r => ?_
  rw [selfIn_eq_some, selfIn_eq_some, hb, hh]

theorem alike_setCode (w : World) (t : ThreadId) (code : List Instr) :
    Alike w (w.setCode t code) :=
  ⟨rfl, fun _ => rfl, fun _ => rfl, fun _ => selfIn_congr (ofThread_setCode fun _ _ => rfl) fun _ => rfl⟩

theorem alike_push : Alike w (w.push t code) :=
  ⟨rfl, fun _ => rfl, fun _ => rfl,
    fun _ => selfIn_congr (ofThread_push (fun _ _ => rfl) code) fun _ => rfl⟩

theorem ofRecord_run_of_neutral {α : Type} {d : α} {f : ThreadRecord → α} (h : i.isNeutral = true)
    (hf : ∀ c, f c.core = f c) (hl : ∀ c l, f { c with level := l } = f c)
    (hp : ∀ c p, f { c with phase := p } = f c) :
    (i.run t w).1.ofRecord r d f = w.ofRecord r d f := by
  cases i with
  | sync k =>
    obtain ⟨_, _, he⟩ := k.run_fst (w := w) (t := t)
    rw [Instr.run, he]
    rfl
  | guard g => exact g.ofRecord_run hl hp
  | park k => exact k.ofRecord_run hf hp
  | stop k => cases k <;> first | rfl | cases h
  | _ => cases h

theorem bindingOf_run_of_neutral (h : i.isNeutral = true) :
    (i.run t w).1.bindingOf t' = w.bindingOf t' :=
  bindingOf_run_of_not_binder i fun k he => by
    subst he
    cases h

theorem alike_run_of_neutral (h : i.isNeutral = true) : Alike w (i.run t w).1 where
  books := books_run_of_neutral h
  handles r := by
    rw [handleOf_eq, handleOf_eq]
    exact ofRecord_run_of_neutral h (fun _ => rfl) (fun _ _ => rfl) fun _ _ => rfl
  owners _ := ofRecord_run_of_neutral h (fun _ => rfl) (fun _ _ => rfl) fun _ _ => rfl
  selves _ := selfIn_congr (bindingOf_run_of_neutral h) fun _ =>
    ofRecord_run_of_neutral h (fun _ => rfl) (fun _ _ => rfl) fun _ _ => rfl

theorem alike_proceed_of_neutral (h : i.isNeutral = true) : Alike w (w.proceed t i rest) :=
  ((alike_setCode w t rest).trans (alike_run_of_neutral h)).trans alike_push

theorem alike_step (he : ∀ t, e ≠ .advance t) : Alike w (w.step e) := by
  have u := undisturbed_step (w := w) he
  exact ⟨books_step he, fun r => by simp only [handleOf, u.records], fun _ => u.ofRecord,
    fun t => selfIn_congr (u.binding t) fun _ => u.ofRecord⟩

theorem Alike.lists (a : Alike w w') (h : w.Lists t s r) : w'.Lists t s r := by
  rw [World.Lists, a.handles, a.owners, roster_of_books a.books]
  exact h

theorem Alike.sure (a : Alike w w') (h : i.IsSure w t) : i.IsSure w' t := by
  cases i with
  | pool k =>
    cases k <;> simp only [Instr.IsSure, mutex_of_books a.books] at h ⊢ <;> exact h
  | member k => cases k <;> first | exact a.lists h | exact h
  | _ => exact h

theorem Alike.assured (a : Alike w w') (h : Assured w t code) : Assured w' t code := by
  cases h with
  | safe h => exact .safe h
  | sure pre i post hpre hi hpost => exact .sure pre i post hpre (a.sure hi) hpost

theorem Alike.poised (a : Alike w w') (h : i.IsPoised w t) : i.IsPoised w' t := by
  cases i with
  | member k =>
    cases k <;> first | exact fun r hr => a.lists (h r (a.selves t _ ▸ hr)) | exact h
  | _ => exact h

/-! What comes of an instruction that is sure. -/

theorem removeBy_of_lists {h : Handle} (hl : w.Lists t s r) (hh : w.handleOf r = some h) :
    (w.roster s).removeBy w.ownerOf t h = .ok (r, (w.roster s).erase h) := by
  obtain ⟨k, hk, hr, ho⟩ := hl
  obtain rfl : h = k := Option.some.inj (hh.symm.trans hk)
  simp only [Roster.removeBy, hr, ho, if_true]

theorem owner_of_giveUp {m : PoolLock} {x : PoolLock} (h : m.giveUp t = .ok x) : x.owner = none := by
  simp only [PoolLock.giveUp] at h
  split at h
  · cases h
    rfl
  · cases h

theorem not_owned_of_given_up {m : MutexRef} {x : PoolLock} (hx : x.owner = none)
    (t : ThreadId) : ((w.modMutex m fun _ => x).mutex m).isOwnedBy t = false := by
  simp only [mutex, modMutex, List.getElem?_modify]
  cases w.mutexes[m]? <;> simp [PoolLock.isOwnedBy, hx]

theorem assured_run (hi : i.IsSure w t) (hn : (w.outcomeOf t).isRefusal = false) :
    Assured (i.run t w).1 t (i.run t w).2 ∧ ((i.run t w).1.outcomeOf t).isRefusal = false := by
  cases i with
  | pool k =>
    cases k with
    | waitClock s c m micros => exact ⟨.sure [_] _ [] rfl hi rfl, hn⟩
    | waitRegister x => exact ⟨.sure [_] _ [] rfl hi rfl, hn⟩
    | waitGiveUp x ticket =>
      simp only [Instr.run, PoolInstr.run]
      split
      next f hf =>
        -- who owns the mutex cannot be refused to give it up
        have ho : (w.mutex x.mutex).isOwnedBy t = true := hi
        simp [PoolLock.giveUp, ho] at hf
      next y hy => exact ⟨.sure [_, _] _ [] rfl (not_owned_of_given_up (owner_of_giveUp hy) t) rfl, hn⟩
    | waitCheck x ticket =>
      simp only [Instr.run, PoolInstr.run]
      split
      · exact ⟨.sure [] _ [] rfl hi rfl, hn⟩
      split
      · exact ⟨.sure [] _ [] rfl hi rfl, isRefusal_say rfl⟩
      · exact ⟨.sure [_] _ [] rfl hi rfl, hn⟩
    | waitRetire x => exact ⟨.sure [_, _] _ [_] rfl hi rfl, hn⟩
    | take s m =>
      have ho : (w.mutex m).isOwnedBy t = false := hi
      simp only [Instr.run, PoolInstr.run, ho]
      split
      next h => cases h
      split
      · exact ⟨.safe rfl, hn⟩
      · exact ⟨.safe rfl, hn⟩
    | _ => cases hi
  | member k =>
    cases k with
    | detachRaise s r =>
      refine ⟨.sure [_] _ [] rfl ?_ rfl, hn⟩
      have hh : (w.setLevel r .critical).handleOf r = w.handleOf r := by
        simp only [handleOf, World.setLevel, modRecord, List.getElem?_modify]
        cases w.records[r]? <;> simp
      have ho : (w.setLevel r .critical).ownerOf r = w.ownerOf r := by
        simp [ownerOf_eq, World.setLevel, ofRecord_modRecord]
      have hl : w.Lists t s r := hi
      rw [World.Lists, ← hh, ← ho] at hl
      exact hl
    | detachRemove s r l =>
      have hl : w.Lists t s r := hi
      simp only [Instr.run, MemberInstr.run]
      split
      · exact ⟨.safe rfl, hn⟩
      next h hh =>
        rw [removeBy_of_lists hl hh]
        exact ⟨.safe rfl, hn⟩
    | _ => cases hi
  | _ => cases hi

/-! What comes of a doubtful instruction. -/

/-- Still to come: what takes the call back and leaves nothing behind. -/
def Instr.isBackingOut : Instr → Bool
  | .stop (.withdraw _) => true
  | i => i.isSilent

/-- What the effect of instruction `i` has done to the records is taken back by the code that it
leaves, but for new records. -/
def TakesBack (w : World) (i : Instr) (e : Effect) : Prop :=
  e.1.books = w.books ∧ ∃ new, ∀ xs, (∀ x ∈ xs, ∀ r, Scope.record? x = some r → r < w.records.length) →
    amended e.2 (unwind xs e.1.records) = i.amend (unwind xs w.records) ++ new

/-- An instruction that could refuse the call goes on to another such, refuses the call, or sees to it
that the call will be carried out. -/
inductive Resolves (w : World) (t : ThreadId) (i : Instr) : Effect → Prop
  | on {w' : World} (pre : List Instr) (j : Instr) (post : List Instr)
    (hpre : pre.all Instr.isSilent = true) (hj : j.isDoubtful = true)
    (hpost : post.all Instr.isSilent = true) (hb : TakesBack w i (w', pre ++ j :: post))
    (ho : w'.outcomeOf t = w.outcomeOf t) : Resolves w t i (w', pre ++ j :: post)
  | no {w' : World} {code : List Instr} (hc : code.all Instr.isBackingOut = true)
    (hb : TakesBack w i (w', code)) : Resolves w t i (w', code)
  | assured {w' : World} {code : List Instr} (hc : Assured w' t code)
    (ho : (w'.outcomeOf t).isRefusal = false) : Resolves w t i (w', code)

theorem takesBack_of_eq {e : Effect} (hb : e.1.books = w.books) (hr : e.1.records = w.records)
    (hi : ∀ rs, i.amend rs = rs) (hc : ∀ rs, amended e.2 rs = rs) : TakesBack w i e :=
  ⟨hb, [], fun xs _ => by rw [hr, hi, hc, List.append_nil]⟩

theorem backingOut_of_silent (h : i.isSilent = true) : i.isBackingOut = true := by
  cases i with
  | sync | guard | park => exact h
  | _ => cases h

/-- Nothing has been done yet, and the next doubtful instruction comes. -/
theorem Resolves.go (pre : List Instr) (j : Instr) (post : List Instr) (hi : ∀ rs, i.amend rs = rs)
    (hj : ∀ rs, j.amend rs = rs) (hd : j.isDoubtful = true) (hpre : pre.all Instr.isSilent = true)
    (hpost : post.all Instr.isSilent = true) : Resolves w t i (w, pre ++ j :: post) := by
  refine .on pre j post hpre hd hpost (takesBack_of_eq rfl rfl hi fun rs => ?_) rfl
  rw [amended_append, amended_of_silent hpre, amended_cons, hj, amended_of_silent hpost]

/-- The call is refused before anything has been done. -/
theorem Resolves.refuse {o : Outcome} (hi : ∀ rs, i.amend rs = rs)
    (hc : code.all Instr.isSilent = true) : Resolves w t i (w.say t o, code) :=
  .no (all_imp backingOut_of_silent hc)
    (takesBack_of_eq (by rfl) (by rfl) hi fun _ => amended_of_silent hc)

theorem unwind_request {b : Bool} {xs : List Scope}
    (h : ∀ c, rs[r]? = some c → c.requested = b) :
    (unwind xs rs).modify r (fun c => { c with requested := b }) = unwind xs rs := by
  rw [← unwind_modify (fun _ _ => rfl) fun _ _ => rfl, modify_self fun c hc => ?_]
  rw [← h c hc]

theorem StopInstr.resolves (k : StopInstr) (hk : (Instr.stop k).isDoubtful = true)
    (hn : (w.outcomeOf t).isRefusal = false) : Resolves w t (.stop k) (k.run t w) := by
  cases k with
  | suspendFind s h =>
    simp only [StopInstr.run]
    split
    · exact .refuse (fun _ => rfl) rfl
    · exact .go [] _ [] (fun _ => rfl) (fun _ => rfl) rfl rfl rfl
  | readEpoch s r =>
    simp only [StopInstr.run]
    split
    · exact .assured (.safe rfl) hn
    · exact .go [] _ [] (fun _ => rfl) (fun _ => rfl) rfl rfl rfl
  | request s r c =>
    refine .on [] _ [] rfl rfl rfl ⟨rfl, [], fun xs _ => ?_⟩ rfl
    have hu : unwind xs (w.setRequest r true).records =
        (unwind xs w.records).modify r fun c => { c with requested := true } :=
      unwind_modify (fun _ _ => rfl) fun _ _ => rfl
    have hq (c : ThreadRecord) (hc : w.records[r]? = some c) : c.requested = w.isRequested r := by
      simp [isRequested, hc]
    simp only [List.nil_append, amended_cons, Instr.amend, hu, List.append_nil]
    -- a request that stood already is not withdrawn on the way out
    cases ha : w.isRequested r
    · rw [if_neg Bool.false_ne_true, List.modify_modify_eq]
      exact unwind_request fun c hc => (hq c hc).trans ha
    · rw [if_pos rfl]
      exact unwind_request fun c hc => (hq c hc).trans ha
  | readLevel s r c a =>
    simp only [StopInstr.run]
    split
    · exact .on [] _ [] rfl rfl rfl ⟨rfl, [], fun xs _ => (List.append_nil _).symm⟩ rfl
    · exact .assured (.safe rfl) hn
  | deliver s r c a =>
    simp only [StopInstr.run]
    split
    · refine .no ?_ ⟨rfl, [], fun xs _ => ?_⟩
      · cases a <;> rfl
      · cases a <;> exact (List.append_nil _).symm
    · refine .assured (.safe rfl) ?_
      split
      · rw [signalOwner]
        split
        · rw [outcomeOf_eq, sendSignal, ofThread_modThread]
          simpa [outcomeOf_eq] using hn
        · exact hn
      · exact hn
  | _ => cases hk

theorem PoolInstr.resolves (k : PoolInstr) (hk : (Instr.pool k).isDoubtful = true)
    (hn : (w.outcomeOf t).isRefusal = false) : Resolves w t (.pool k) (k.run t w) := by
  have go (pre : List Instr) (j : Instr) (post : List Instr) (hj : ∀ rs, j.amend rs = rs)
      (hd : j.isDoubtful = true) (hpre : pre.all Instr.isSilent = true)
      (hpost : post.all Instr.isSilent = true) : Resolves w t (.pool k) (w, pre ++ j :: post) :=
    .go pre j post (fun _ => rfl) hj hd hpre hpost
  have refuse {o : Outcome} {code : List Instr} (hc : code.all Instr.isSilent = true) :
      Resolves w t (.pool k) (w.say t o, code) := .refuse (fun _ => rfl) hc
  cases k with
  | mutexAllot s name | condAllot s name =>
    simp only [PoolInstr.run]
    split
    · exact refuse rfl
    · exact .assured (.safe rfl) (isRefusal_say rfl)
  -- the search passes its doubt on to the one instruction of the use that can still be refused
  | mutexFind s i use =>
    simp only [PoolInstr.run]
    split
    · exact refuse (by cases use <;> rfl)
    next m _ =>
      cases use with
      | lock => exact go [_, _, _, _, _] (.pool (.take s m)) [_, _, _] (fun _ => rfl) rfl rfl rfl
      | rawLock => exact go [_, _] (.pool (.take s m)) [_] (fun _ => rfl) rfl rfl rfl
      | tryLock => exact go [_, _] (.pool (.tryTake m)) [_] (fun _ => rfl) rfl rfl rfl
      | unlock => exact go [_, _] (.pool (.giveUp m)) [] (fun _ => rfl) rfl rfl rfl
      | wait c micros =>
        exact go [_, _, _, _, _] (.pool (.waitOwner s c m micros)) [_, _] (fun _ => rfl) rfl rfl rfl
  | tryTake m =>
    simp only [PoolInstr.run]
    split
    · exact refuse rfl
    · exact .assured (.safe rfl) hn
  | take s m =>
    simp only [PoolInstr.run]
    split
    · exact refuse rfl
    split
    · exact .assured (.safe rfl) hn
    · exact .assured (.safe rfl) hn
  | giveUp m =>
    simp only [PoolInstr.run]
    split
    · exact refuse rfl
    · exact .assured (.safe rfl) hn
  | mutexDispose s i =>
    simp only [PoolInstr.run]
    split
    · exact refuse rfl
    next m _ => exact go [_] (.pool (.mutexIdle s i m)) [] (fun _ => rfl) rfl rfl rfl
  | mutexIdle s i m | condIdle s i m =>
    simp only [PoolInstr.run]
    split
    · exact refuse rfl
    · exact .assured (.safe rfl) hn
  | condFind s i use =>
    simp only [PoolInstr.run]
    split
    · exact refuse (by cases use <;> rfl)
    next c _ =>
      cases use with
      | signal | broadcast => exact .assured (.safe rfl) hn
      | wait m micros =>
        exact go [_, _] (.pool (.mutexFind s m (.wait c micros))) [] (fun _ => rfl) rfl rfl rfl
  | condDispose s i =>
    simp only [PoolInstr.run]
    split
    · exact refuse rfl
    next c _ => exact go [_] (.pool (.condIdle s i c)) [] (fun _ => rfl) rfl rfl rfl
  -- the last doubt of a wait: a thread that owns the mutex is not refused when it gives it up
  | waitOwner s c m micros =>
    simp only [PoolInstr.run]
    split
    next ho => exact .assured (.sure [_] _ [] rfl ho rfl) hn
    · exact refuse rfl
  | _ => cases hk

theorem MemberInstr.resolves (k : MemberInstr) (hk : (Instr.member k).IsPoised w t)
    (hn : (w.outcomeOf t).isRefusal = false) : Resolves w t (.member k) (k.run t w) := by
  cases k with
  | detach s =>
    simp only [MemberInstr.run]
    split
    · exact .refuse (fun _ => rfl) rfl
    next r hr =>
      split
      · exact .refuse (fun _ => rfl) rfl
      · exact .assured (.sure [] _ [] rfl (hk r hr) rfl) hn
  | spawn s o =>
    simp only [MemberInstr.run]
    repeat' split
    · exact .refuse (fun _ => rfl) rfl
    · exact .assured (.safe rfl) hn
    · exact .go [] _ [] (fun _ => rfl) (fun _ => rfl) rfl rfl rfl
    · exact .refuse (fun _ => rfl) rfl
    · exact .go [] _ [] (fun _ => rfl) (fun _ => rfl) rfl rfl rfl
  | spawnRecord s o size =>
    exact .on [] _ [] rfl rfl rfl ⟨rfl, [_], fun xs hx => unwind_append hx _⟩ rfl
  -- where the system is short of something the call goes on to its refusal
  | spawnNative s r =>
    simp only [MemberInstr.run]
    split
    next c x _ _ =>
      split
      · exact .assured (.safe rfl) (isRefusal_say rfl)
      split
      · split
        · exact .go [_, _] _ [_, _] (fun _ => rfl) (fun _ => rfl) rfl rfl rfl
        · exact .refuse (fun _ => rfl) rfl
      · exact .assured (.safe rfl) (isRefusal_say rfl)
    · exact .assured (.safe rfl) hn
  | noThread s => exact .refuse (fun _ => rfl) rfl
  | _ => cases hk

theorem ReadInstr.resolves (k : ReadInstr) (hk : (Instr.read k).isDoubtful = true)
    (hn : (w.outcomeOf t).isRefusal = false) : Resolves w t (.read k) (k.run t w) := by
  cases k with
  | find s h q =>
    cases q with
    | setPriority p =>
      simp only [ReadInstr.run]
      split
      · exact .refuse (fun _ => rfl) rfl
      next r _ =>
        exact .go [_, _] (.read (.setPriority r p)) [] (fun _ => rfl) (fun _ => rfl) rfl rfl rfl
    | _ => cases hk
  | setPriority r p =>
    simp only [ReadInstr.run]
    split
    · exact .refuse (fun _ => rfl) rfl
    split
    · exact .assured (.safe rfl) hn
    · exact .refuse (fun _ => rfl) rfl
  | _ => cases hk

theorem resolves_of_poised (hi : i.IsPoised w t) (hn : (w.outcomeOf t).isRefusal = false) :
    Resolves w t i (i.run t w) := by
  cases i with
  | stop k => exact k.resolves hi hn
  | pool k => exact k.resolves hi hn
  | member k => exact k.resolves hi hn
  | read k => exact k.resolves hi hn
  | _ => cases hi

end Standstill
