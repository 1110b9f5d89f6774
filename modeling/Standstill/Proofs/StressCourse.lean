import Standstill.Proofs.MutexSlots
import Standstill.Proofs.PoolTables
import Standstill.Scenario.Stress

/-!
A stress worker, call by call. Nobody else has anything to do with the mutex and the condition that a
worker has made, so no call on them is refused, and a wait ends by a wake-up or in time. What the worker
has in hand changes by the four instructions that hand a slot out or take it back.
-/
namespace Standstill.Stress

open World

/-- What a worker has in hand, by the numbers of the slots. -/
inductive Lot
  | poor
  /-- It was refused a condition. -/
  | refused
  | half (cond : Nat)
  /-- It was refused a mutex when it had a condition. -/
  | stranded (cond : Nat)
  | equipped (cond mutex : Nat)
  /-- It has given the mutex back. -/
  | spent (cond : Nat)
  | gone (failed : Bool)
  deriving DecidableEq

namespace Lot

def cond? : Lot → Option Nat
  | .half c | .stranded c | .equipped c _ | .spent c => some c
  | _ => none

def mutex? : Lot → Option Nat
  | .equipped _ m => some m
  | _ => none

/-- What is left in hand when the worker comes back from the call: at a refusal it gives up. -/
def back : Lot → Lot
  | .refused | .stranded _ => .gone true
  | l => l

/-- The condition that is in no hand any more when the worker has come back, though in its slot. -/
def lost : Lot → List Nat
  | .stranded c => [c]
  | _ => []

end Lot

namespace Stage

/-- What a worker has in hand between its calls. -/
def lot : Stage → Lot
  | .createCond => .poor
  | .createMutex c => .half c
  | .lock c m _ | .wait c m _ | .unlock c m _ _ | .poll c m _ | .destroyMutex c m => .equipped c m
  | .destroyCond c => .spent c
  | .over failed => .gone failed

/-- What it has in hand in the middle of a call, when it is doing `d` and the answer will be `o`. -/
def lotIn (d : Option PoolInstr) (o : Outcome) : Stage → Lot
  | .createCond =>
    match o with
    | .value (.number c) => .half c
    | .value _ => .poor
    | _ => .refused
  | .createMutex c =>
    match o with
    | .value (.number m) => .equipped c m
    | .value _ => .half c
    | _ => .stranded c
  | .destroyMutex c m => if d.isSome then .equipped c m else .spent c
  | .destroyCond c => if d.isSome then .spent c else .gone false
  | x => x.lot

end Stage

/-- What a worker sees of the things in its hand. -/
structure View where
  cond : Option CondRef := none
  mutex : Option MutexRef := none
  owner : Option ThreadId := none
  waiters : Nat := 0

def Lot.view (w : World) (l : Lot) : View :=
  let cond := l.cond?.bind (w.condAt service)
  let mutex := l.mutex?.bind (w.mutexAt service)
  { cond, mutex
    owner := mutex.bind fun r => (w.mutex r).owner
    waiters := cond.elim 0 fun k => (w.cond k).waiters }

/-- How a wait may end. -/
def IsWaited (o : Outcome) : Prop := o = .value .unit ∨ o = .fault .timeout

/-- What the worker that is thread `t` sees between its calls. -/
inductive Rest (t : ThreadId) : Stage → View → Prop
  | createCond : Rest t .createCond {}
  | createMutex (c k) : Rest t (.createMutex c) { cond := some k }
  | lock (c m left k r) : Rest t (.lock c m left) ⟨some k, some r, none, 0⟩
  | wait (c m left k r) : Rest t (.wait c m left) ⟨some k, some r, some t, 0⟩
  | unlock (c m left k r waited) (hw : IsWaited waited) :
      Rest t (.unlock c m left waited) ⟨some k, some r, some t, 0⟩
  | poll (c m left k r) : Rest t (.poll c m left) ⟨some k, some r, none, 0⟩
  | destroyMutex (c m k r) : Rest t (.destroyMutex c m) ⟨some k, some r, none, 0⟩
  | destroyCond (c k) : Rest t (.destroyCond c) { cond := some k }
  | gone (failed) : Rest t (.over failed) {}

/-- How far the worker that is thread `t` has come in the call of its stage: what it is doing on the
pools, what it is going to answer, and what it sees. -/
inductive Course (t : ThreadId) : Stage → Option PoolInstr → Outcome → View → Prop
  | condAllot (name) : Course t .createCond (some (.condAllot service name)) (.value .unit) {}
  | condGiven (c k) : Course t .createCond none (.value (.number c)) { cond := some k }
  | condRefused (f) : Course t .createCond none (.fault f) {}
  | mutexAllot (c k name) :
      Course t (.createMutex c) (some (.mutexAllot service name)) (.value .unit) { cond := some k }
  | mutexGiven (c k m r) :
      Course t (.createMutex c) none (.value (.number m)) ⟨some k, some r, none, 0⟩
  | mutexRefused (c k f) : Course t (.createMutex c) none (.fault f) { cond := some k }
  | lockFind (c m left k r) :
      Course t (.lock c m left) (some (.mutexFind service m .lock)) (.value .unit)
        ⟨some k, some r, none, 0⟩
  | lockTake (c m left k r) :
      Course t (.lock c m left) (some (.take service r)) (.value .unit) ⟨some k, some r, none, 0⟩
  | locked (c m left k r) :
      Course t (.lock c m left) none (.value .unit) ⟨some k, some r, some t, 0⟩
  | waitFindCond (c m left k r micros) :
      Course t (.wait c m left) (some (.condFind service c (.wait m micros))) (.value .unit)
        ⟨some k, some r, some t, 0⟩
  | waitFindMutex (c m left k r micros) :
      Course t (.wait c m left) (some (.mutexFind service m (.wait k micros))) (.value .unit)
        ⟨some k, some r, some t, 0⟩
  | waitOwner (c m left k r micros) :
      Course t (.wait c m left) (some (.waitOwner service k r micros)) (.value .unit)
        ⟨some k, some r, some t, 0⟩
  | waitClock (c m left k r micros) :
      Course t (.wait c m left) (some (.waitClock service k r micros)) (.value .unit)
        ⟨some k, some r, some t, 0⟩
  | waitRegister (c m left k r d) :
      Course t (.wait c m left) (some (.waitRegister ⟨service, k, r, d⟩)) (.value .unit)
        ⟨some k, some r, some t, 0⟩
  | waitGiveUp (c m left k r d ticket) :
      Course t (.wait c m left) (some (.waitGiveUp ⟨service, k, r, d⟩ ticket)) (.value .unit)
        ⟨some k, some r, some t, 1⟩
  | waitCheck (c m left k r d ticket) :
      Course t (.wait c m left) (some (.waitCheck ⟨service, k, r, d⟩ ticket)) (.value .unit)
        ⟨some k, some r, none, 1⟩
  | waitRetire (c m left k r d o) (ho : IsWaited o) :
      Course t (.wait c m left) (some (.waitRetire ⟨service, k, r, d⟩)) o
        ⟨some k, some r, none, 1⟩
  | waitTake (c m left k r o) (ho : IsWaited o) :
      Course t (.wait c m left) (some (.take service r)) o ⟨some k, some r, none, 0⟩
  | waited (c m left k r o) (ho : IsWaited o) :
      Course t (.wait c m left) none o ⟨some k, some r, some t, 0⟩
  | unlockFind (c m left k r waited) (hw : IsWaited waited) :
      Course t (.unlock c m left waited) (some (.mutexFind service m .unlock)) (.value .unit)
        ⟨some k, some r, some t, 0⟩
  | unlockGiveUp (c m left k r waited) (hw : IsWaited waited) :
      Course t (.unlock c m left waited) (some (.giveUp r)) (.value .unit)
        ⟨some k, some r, some t, 0⟩
  | unlocked (c m left k r waited) (hw : IsWaited waited) :
      Course t (.unlock c m left waited) none (.value .unit) ⟨some k, some r, none, 0⟩
  | poll (c m left k r) : Course t (.poll c m left) none (.value .unit) ⟨some k, some r, none, 0⟩
  | mutexDispose (c m k r) :
      Course t (.destroyMutex c m) (some (.mutexDispose service m)) (.value .unit)
        ⟨some k, some r, none, 0⟩
  | mutexIdle (c m k r) :
      Course t (.destroyMutex c m) (some (.mutexIdle service m r)) (.value .unit)
        ⟨some k, some r, none, 0⟩
  | mutexFree (c m k r) :
      Course t (.destroyMutex c m) (some (.mutexFree service m)) (.value .unit)
        ⟨some k, some r, none, 0⟩
  | mutexGone (c m k) : Course t (.destroyMutex c m) none (.value .unit) { cond := some k }
  | condDispose (c k) :
      Course t (.destroyCond c) (some (.condDispose service c)) (.value .unit) { cond := some k }
  | condIdle (c k) :
      Course t (.destroyCond c) (some (.condIdle service c k)) (.value .unit) { cond := some k }
  | condFree (c k) :
      Course t (.destroyCond c) (some (.condFree service c)) (.value .unit) { cond := some k }
  | condGone (c) : Course t (.destroyCond c) none (.value .unit) {}

/-- What an instruction does to what its worker has in hand. -/
inductive Trade (w : World) : PoolInstr → Lot → Lot → Prop
  | same (j l) (h : j.writesTable = false) : Trade w j l l
  | condGiven (name c p) (h : (w.condSlots service).allocate name w.conds.length = .ok (c, p)) :
      Trade w (.condAllot service name) .poor (.half c)
  | condRefused (name f)
      (h : (w.condSlots service).allocate name w.conds.length = .error f) :
      Trade w (.condAllot service name) .poor .refused
  | mutexGiven (c name m p)
      (h : (w.mutexSlots service).allocate name w.mutexes.length = .ok (m, p)) :
      Trade w (.mutexAllot service name) (.half c) (.equipped c m)
  | mutexRefused (c name f)
      (h : (w.mutexSlots service).allocate name w.mutexes.length = .error f) :
      Trade w (.mutexAllot service name) (.half c) (.stranded c)
  | mutexFreed (c m) : Trade w (.mutexFree service m) (.equipped c m) (.spent c)
  | condFreed (c) : Trade w (.condFree service c) (.spent c) (.gone false)

variable {n i left : Nat} {w w' : World} {t t' : ThreadId} {p : Plan} {stage : Stage} {v : View}
  {d : Option PoolInstr} {o : Outcome} {o' : Option ThreadId} {x : Nat} {j : PoolInstr} {l l' : Lot} {c m : Nat} {k : CondRef}
  {r : MutexRef} {call : Call} {code rest : List Instr} {e : Event}

/-! The beginning of a call and its end. -/

theorem call_mute (h : stage.call? p service i = some call) :
    (call.code w t).all Instr.isMute = true ∧ call.refusal? = none := by
  cases stage with
  | poll =>
    obtain rfl := Option.some.inj h
    refine ⟨?_, rfl⟩
    simp only [Call.code]
    split <;> rfl
  | _ =>
    first
    | cases h; done
    | obtain rfl := Option.some.inj h
      exact ⟨Call.code_mute _ rfl, rfl⟩

theorem Rest.begin (a : Rest t stage v) (h : stage.call? p service i = some call) :
    Course t stage (firstPool (call.code w t)) (.value .unit) v ∧
      stage.lotIn (firstPool (call.code w t)) (.value .unit) = stage.lot := by
  cases a with
  | createCond =>
    obtain rfl := Option.some.inj h
    exact ⟨.condAllot _, rfl⟩
  | createMutex c k =>
    obtain rfl := Option.some.inj h
    exact ⟨.mutexAllot c k _, rfl⟩
  | lock c m left k r =>
    obtain rfl := Option.some.inj h
    exact ⟨.lockFind c m left k r, rfl⟩
  | wait c m left k r =>
    obtain rfl := Option.some.inj h
    exact ⟨.waitFindCond c m left k r _, rfl⟩
  | unlock c m left k r waited hw =>
    obtain rfl := Option.some.inj h
    exact ⟨.unlockFind c m left k r waited hw, rfl⟩
  | poll c m left k r =>
    obtain rfl := Option.some.inj h
    have hn : firstPool (Call.code w t (.safePoint service)) = none := by
      simp only [Call.code]
      split <;> rfl
    rw [hn]
    exact ⟨.poll c m left k r, rfl⟩
  | destroyMutex c m k r =>
    obtain rfl := Option.some.inj h
    exact ⟨.mutexDispose c m k r, rfl⟩
  | destroyCond c k =>
    obtain rfl := Option.some.inj h
    exact ⟨.condDispose c k, rfl⟩
  | gone => cases h

theorem Stage.rest_turn (c m left : Nat) : Rest t (Stage.turn c m left) ⟨some k, some r, none, 0⟩ ∧
    (Stage.turn c m left).lot = .equipped c m := by
  cases left with
  | zero => exact ⟨.destroyMutex c m k r, rfl⟩
  | succ left => exact ⟨.lock c m left k r, rfl⟩

theorem Rest.of_view (a : Rest t stage v) (hv : stage.lot.view w = v) :
    Rest t stage (stage.lot.view w) := by
  rw [hv]
  exact a

/-- What the worker has and sees when it is back. -/
theorem Course.back (a : Course t stage none o ((stage.lotIn none o).view w)) :
    (stage.next p o).lot = (stage.lotIn none o).back ∧
      Rest t (stage.next p o) ((stage.next p o).lot.view w) := by
  generalize hv : (stage.lotIn none o).view w = v at a
  cases a with
  | condGiven c k => exact ⟨rfl, (Rest.createMutex c k).of_view hv⟩
  | condRefused f => exact ⟨rfl, .gone true⟩
  | mutexGiven c k m r =>
    obtain ⟨hr, hl⟩ := Stage.rest_turn (t := t) (k := k) (r := r) c m p.steps
    exact ⟨hl, hr.of_view (hl ▸ hv)⟩
  | mutexRefused c k f => exact ⟨rfl, .gone true⟩
  | locked c m left k r => exact ⟨rfl, (Rest.wait c m left k r).of_view hv⟩
  | waited c m left k r o ho => exact ⟨rfl, (Rest.unlock c m left k r o ho).of_view hv⟩
  | unlocked c m left k r waited hw =>
    rcases hw with rfl | rfl
    · exact ⟨rfl, (Rest.poll c m left k r).of_view hv⟩
    · exact ⟨rfl, (Rest.poll c m left k r).of_view hv⟩
  | poll c m left k r =>
    obtain ⟨hr, hl⟩ := Stage.rest_turn (t := t) (k := k) (r := r) c m left
    exact ⟨hl, hr.of_view (hl ▸ hv)⟩
  | mutexGone c m k => exact ⟨rfl, (Rest.destroyCond c k).of_view hv⟩
  | condGone c => exact ⟨rfl, .gone false⟩

/-! The call goes on. -/

theorem Lot.view_equipped : (Lot.equipped c m).view w = ⟨some k, some r, o', x⟩ ↔
    w.condAt service c = some k ∧ w.mutexAt service m = some r ∧ (w.mutex r).owner = o' ∧
      (w.cond k).waiters = x := by
  simp only [Lot.view, Lot.cond?, Lot.mutex?, View.mk.injEq, Option.bind_some]
  constructor
  · rintro ⟨hc, hm, ho, hx⟩
    rw [hm] at ho
    rw [hc] at hx
    exact ⟨hc, hm, ho, hx⟩
  · rintro ⟨hc, hm, ho, hx⟩
    rw [hc, hm]
    exact ⟨rfl, rfl, ho, hx⟩

/-- A lot with a condition and no mutex. -/
theorem Lot.view_half (hc : l.cond? = some c) (hm : l.mutex? = none) :
    l.view w = { cond := some k } ↔ w.condAt service c = some k ∧ (w.cond k).waiters = 0 := by
  simp only [Lot.view, hc, hm, View.mk.injEq, Option.bind_some, Option.bind_none, true_and]
  constructor
  · rintro ⟨hc, hx⟩
    rw [hc] at hx
    exact ⟨hc, hx⟩
  · rintro ⟨hc, hx⟩
    rw [hc]
    exact ⟨rfl, hx⟩

theorem Lot.view_bare (hc : l.cond? = none) (hm : l.mutex? = none) : l.view w = {} := by
  simp [Lot.view, hc, hm]

/-- The instruction `j` brings the worker on in its call. -/
def Goes (w : World) (t : ThreadId) (stage : Stage) (j : PoolInstr) : Prop :=
  let d := firstPool (j.run t w).2
  let w' := (j.run t w).1
  Course t stage d (w'.outcomeOf t) ((stage.lotIn d (w'.outcomeOf t)).view w') ∧
    Trade w j (stage.lotIn (some j) (w.outcomeOf t)) (stage.lotIn d (w'.outcomeOf t))

theorem goes (hj : j.run t w = (w', code)) (ho : w'.outcomeOf t = o)
    (hv : (stage.lotIn (firstPool code) o).view w' = v) (a : Course t stage (firstPool code) o v)
    (ht : Trade w j (stage.lotIn (some j) (w.outcomeOf t)) (stage.lotIn (firstPool code) o)) :
    Goes w t stage j := by
  unfold Goes
  rw [hj]
  simp only [ho, hv]
  exact ⟨a, ht⟩

/-- Where there is no service there is no slot to be had. -/
theorem lt_of_condSlots {name : String} {y : Nat × Slots CondRef}
    (h : (w.condSlots service).allocate name k = .ok y) : service < w.services.length := by
  by_contra hs
  have hn : w.services[service]? = none := List.getElem?_eq_none (Nat.le_of_not_lt hs)
  rw [condSlots, hn] at h
  cases h

theorem lt_of_mutexSlots {name : String} {y : Nat × Slots MutexRef}
    (h : (w.mutexSlots service).allocate name r = .ok y) : service < w.services.length := by
  by_contra hs
  have hn : w.services[service]? = none := List.getElem?_eq_none (Nat.le_of_not_lt hs)
  rw [mutexSlots, hn] at h
  cases h

section Run

variable (rf : Referring w) (ho : w.outcomeOf t = o)
include rf ho

/-- The mutex is free, so the worker takes it at once. -/
theorem goes_take (hv : (Lot.equipped c m).view w = ⟨some k, some r, none, 0⟩)
    (hs : ∀ d o, stage.lotIn d o = .equipped c m)
    (a : Course t stage none o ⟨some k, some r, some t, 0⟩) :
    Goes w t stage (.take service r) := by
  obtain ⟨hc, hm, hf, hx⟩ := Lot.view_equipped.mp hv
  have hj : PoolInstr.run t w (.take service r) = (w.modMutex r fun x => x.take t, []) := by
    simp [PoolInstr.run, PoolLock.isOwnedBy, PoolLock.isTaken, hf]
  have hown : ((w.modMutex r fun x => x.take t).mutex r).owner = some t := by
    rw [mutex_modMutex _ (rf.mutexSlot hm), if_pos rfl]
    rfl
  have hv' : (Lot.equipped c m).view (w.modMutex r fun x => x.take t) =
      ⟨some k, some r, some t, 0⟩ := Lot.view_equipped.mpr ⟨hc, hm, hown, hx⟩
  refine goes hj ho ((hs _ _).symm ▸ hv') a ?_
  rw [hs, hs]
  exact .same _ _ rfl

theorem Course.run_lock (hv : (Lot.equipped c m).view w = v)
    (a : Course t (.lock c m left) (some j) o v) : Goes w t (.lock c m left) j := by
  cases a with
  | lockFind c m left k r =>
    obtain ⟨_, hm, _, _⟩ := Lot.view_equipped.mp hv
    have hj : PoolInstr.run t w (.mutexFind service m .lock) =
        (w, .sync (.release (.mutexTable service)) :: MutexUse.lock.found service r) := by
      simp only [PoolInstr.run, Slots.get_eq_ok.mpr hm]
    exact goes hj ho hv (.lockTake c m left k r) (.same _ _ rfl)
  | lockTake c m left k r => exact goes_take rf ho hv (fun _ _ => rfl) (.locked c m left k r)

/-- On the way into the wait: the worker owns the mutex, and nobody waits yet. -/
theorem Course.run_enter (hv : (Lot.equipped c m).view w = ⟨some k, some r, some t, 0⟩)
    (a : Course t (.wait c m left) (some j) o ⟨some k, some r, some t, 0⟩) :
    Goes w t (.wait c m left) j := by
  obtain ⟨hc, hm, hown, hx⟩ := Lot.view_equipped.mp hv
  cases a with
  | waitFindCond _ _ _ _ _ micros =>
    have hj : PoolInstr.run t w (.condFind service c (.wait m micros)) =
        (w, .sync (.release (.condTable service)) ::
          (CondUse.wait m micros).found service k) := by
      simp only [PoolInstr.run, Slots.get_eq_ok.mpr hc]
    exact goes hj ho hv (.waitFindMutex c m left k r micros) (.same _ _ rfl)
  | waitFindMutex _ _ _ _ _ micros =>
    have hj : PoolInstr.run t w (.mutexFind service m (.wait k micros)) =
        (w, .sync (.release (.mutexTable service)) ::
          (MutexUse.wait k micros).found service r) := by
      simp only [PoolInstr.run, Slots.get_eq_ok.mpr hm]
    exact goes hj ho hv (.waitOwner c m left k r micros) (.same _ _ rfl)
  | waitOwner _ _ _ _ _ micros =>
    have hj : PoolInstr.run t w (.waitOwner service k r micros) =
        (w, [.sync (.release (.mutexState r)), .pool (.waitClock service k r micros)]) := by
      simp [PoolInstr.run, PoolLock.isOwnedBy, hown]
    exact goes hj ho hv (.waitClock c m left k r micros) (.same _ _ rfl)
  | waitClock _ _ _ _ _ micros =>
    exact goes rfl ho hv (.waitRegister c m left k r (micros.map (w.clock + ·))) (.same _ _ rfl)
  | waitRegister _ _ _ _ _ d =>
    have hx' : ((w.modCond k fun x => x.register).cond k).waiters = 1 := by
      rw [cond_modCond _ (rf.condSlot hc), if_pos rfl, PoolCondition.register, hx]
    exact goes rfl ho (Lot.view_equipped.mpr ⟨hc, hm, hown, hx'⟩)
      (.waitGiveUp c m left k r d _) (.same _ _ rfl)

theorem Course.run_wait (hl : t < w.threads.length) (hv : (Lot.equipped c m).view w = v)
    (a : Course t (.wait c m left) (some j) o v) : Goes w t (.wait c m left) j := by
  cases a with
  | waitGiveUp _ _ _ k r d ticket =>
    obtain ⟨hc, hm, hown, hx⟩ := Lot.view_equipped.mp hv
    have hg : (w.mutex r).giveUp t = .ok { owner := none } := by
      simp [PoolLock.giveUp, PoolLock.isOwnedBy, hown]
    have hj : PoolInstr.run t w (.waitGiveUp ⟨service, k, r, d⟩ ticket) =
        (w.modMutex r fun _ => { owner := none },
          [.sync (.release (.mutexState r)), .sync (.notifyOne (.mutex r)),
            .pool (.waitCheck ⟨service, k, r, d⟩ ticket)]) := by
      simp only [PoolInstr.run, hg]
    have hown' : ((w.modMutex r fun _ => { owner := none }).mutex r).owner = none := by
      rw [mutex_modMutex _ (rf.mutexSlot hm), if_pos rfl]
    exact goes hj ho (Lot.view_equipped.mpr ⟨hc, hm, hown', hx⟩)
      (.waitCheck c m left k r d ticket) (.same _ _ rfl)
  | waitCheck _ _ _ k r d ticket =>
    obtain ⟨hc, hm, hown, hx⟩ := Lot.view_equipped.mp hv
    -- it is woken, or its time is up, or it sleeps on
    by_cases hw : (w.cond k).mayWake ticket = true
    · have hj : PoolInstr.run t w (.waitCheck ⟨service, k, r, d⟩ ticket) =
          (w.modCond k fun x => x.consume, [.pool (.waitRetire ⟨service, k, r, d⟩)]) := by
        simp only [PoolInstr.run, hw, if_true]
      have hx' : ((w.modCond k fun x => x.consume).cond k).waiters = 1 := by
        rw [cond_modCond _ (rf.condSlot hc), if_pos rfl, PoolCondition.consume, hx]
      exact goes hj ho (Lot.view_equipped.mpr ⟨hc, hm, hown, hx'⟩)
        (.waitRetire c m left k r d _ (Or.inl rfl)) (.same _ _ rfl)
    · by_cases hd : w.isDue d = true
      · have hj : PoolInstr.run t w (.waitCheck ⟨service, k, r, d⟩ ticket) =
            (w.fail t .timeout, [.pool (.waitRetire ⟨service, k, r, d⟩)]) := by
          simp only [PoolInstr.run, hw, hd, if_true, Bool.false_eq_true, if_false]
        exact goes hj (outcomeOf_say hl) (Lot.view_equipped.mpr ⟨hc, hm, hown, hx⟩)
          (.waitRetire c m left k r d _ (Or.inr rfl)) (.same _ _ rfl)
      · have hj : PoolInstr.run t w (.waitCheck ⟨service, k, r, d⟩ ticket) =
            (w, [.sync (.wait (.cond k) (.condState k) d),
              .pool (.waitCheck ⟨service, k, r, d⟩ ticket)]) := by
          simp only [PoolInstr.run, hw, hd, Bool.false_eq_true, if_false]
        exact goes hj ho hv (.waitCheck c m left k r d ticket) (.same _ _ rfl)
  | waitRetire _ _ _ k r d o hw =>
    obtain ⟨hc, hm, hown, hx⟩ := Lot.view_equipped.mp hv
    have hx' : ((w.modCond k fun x => x.retire).cond k).waiters = 0 := by
      rw [cond_modCond _ (rf.condSlot hc), if_pos rfl, PoolCondition.retire, hx]
    exact goes rfl ho (Lot.view_equipped.mpr ⟨hc, hm, hown, hx'⟩)
      (.waitTake c m left k r o hw) (.same _ _ rfl)
  | waitTake _ _ _ k r o hw => exact goes_take rf ho hv (fun _ _ => rfl) (.waited c m left k r o hw)
  | waitFindCond _ _ _ k r micros => exact Course.run_enter rf ho hv (.waitFindCond ..)
  | waitFindMutex _ _ _ k r micros => exact Course.run_enter rf ho hv (.waitFindMutex ..)
  | waitOwner _ _ _ k r micros => exact Course.run_enter rf ho hv (.waitOwner ..)
  | waitClock _ _ _ k r micros => exact Course.run_enter rf ho hv (.waitClock ..)
  | waitRegister _ _ _ k r d => exact Course.run_enter rf ho hv (.waitRegister ..)

theorem Course.run_unlock {waited : Outcome} (hv : (Lot.equipped c m).view w = v)
    (a : Course t (.unlock c m left waited) (some j) o v) :
    Goes w t (.unlock c m left waited) j := by
  cases a with
  | unlockFind _ _ _ k r _ hw =>
    obtain ⟨_, hm, _, _⟩ := Lot.view_equipped.mp hv
    have hj : PoolInstr.run t w (.mutexFind service m .unlock) =
        (w, .sync (.release (.mutexTable service)) :: MutexUse.unlock.found service r) := by
      simp only [PoolInstr.run, Slots.get_eq_ok.mpr hm]
    exact goes hj ho hv (.unlockGiveUp c m left k r waited hw) (.same _ _ rfl)
  | unlockGiveUp _ _ _ k r _ hw =>
    obtain ⟨hc, hm, hown, hx⟩ := Lot.view_equipped.mp hv
    have hg : (w.mutex r).giveUp t = .ok { owner := none } := by
      simp [PoolLock.giveUp, PoolLock.isOwnedBy, hown]
    have hj : PoolInstr.run t w (.giveUp r) = (w.modMutex r fun _ => { owner := none },
        [.sync (.release (.mutexState r)), .sync (.notifyOne (.mutex r))]) := by
      simp only [PoolInstr.run, hg]
    have hown' : ((w.modMutex r fun _ => { owner := none }).mutex r).owner = none := by
      rw [mutex_modMutex _ (rf.mutexSlot hm), if_pos rfl]
    exact goes hj ho (Lot.view_equipped.mpr ⟨hc, hm, hown', hx⟩)
      (.unlocked c m left k r waited hw) (.same _ _ rfl)

omit rf in
theorem Course.run_createCond (hl : t < w.threads.length)
    (a : Course t .createCond (some j) o v) : Goes w t .createCond j := by
  cases a with
  | condAllot name =>
    cases h : (w.condSlots service).allocate name w.conds.length with
    | error f =>
      have hj : PoolInstr.run t w (.condAllot service name) = (w.fail t f, []) := by
        simp only [PoolInstr.run, h]
      exact goes hj (outcomeOf_say hl) (Lot.view_bare rfl rfl) (.condRefused f)
        (ho ▸ .condRefused name f h)
    | ok x =>
      obtain ⟨c, p⟩ := x
      have hj : PoolInstr.run t w (.condAllot service name) =
          ((({ w with conds := w.conds ++ [({} : PoolCondition)] }).setCondSlots service p).answer t
            (.number c), []) := by
        simp only [PoolInstr.run, h]
      have hc : (w.setCondSlots service p).condAt service c = some w.conds.length := by
        rw [condAt_setCondSlots, if_pos ⟨rfl, lt_of_condSlots h⟩]
        exact (Slots.cell_allocate h).2.1
      have hx : ({ w with conds := w.conds ++ [({} : PoolCondition)] }.cond w.conds.length).waiters
          = 0 := by
        simp [World.cond]
      exact goes hj (outcomeOf_say hl) ((Lot.view_half rfl rfl).mpr ⟨hc, hx⟩)
        (.condGiven c w.conds.length) (ho ▸ .condGiven name c p h)

omit rf in
theorem Course.run_createMutex (hl : t < w.threads.length) (hv : (Lot.half c).view w = v)
    (a : Course t (.createMutex c) (some j) o v) :
    Goes w t (.createMutex c) j := by
  cases a with
  | mutexAllot _ k name =>
    obtain ⟨hc, hx⟩ := (Lot.view_half rfl rfl).mp hv
    cases h : (w.mutexSlots service).allocate name w.mutexes.length with
    | error f =>
      have hj : PoolInstr.run t w (.mutexAllot service name) = (w.fail t f, []) := by
        simp only [PoolInstr.run, h]
      exact goes hj (outcomeOf_say hl) ((Lot.view_half rfl rfl).mpr ⟨hc, hx⟩)
        (.mutexRefused c k f) (ho ▸ .mutexRefused c name f h)
    | ok y =>
      obtain ⟨m, p⟩ := y
      have hj : PoolInstr.run t w (.mutexAllot service name) =
          ((({ w with mutexes := w.mutexes ++ [({} : PoolLock)] }).setMutexSlots service p).answer t
            (.number m), []) := by
        simp only [PoolInstr.run, h]
      have hc' : (w.setMutexSlots service p).condAt service c = some k := by
        rw [condAt_setMutexSlots]
        exact hc
      have hm : (w.setMutexSlots service p).mutexAt service m = some w.mutexes.length := by
        rw [mutexAt_setMutexSlots, if_pos ⟨rfl, lt_of_mutexSlots h⟩]
        exact (Slots.cell_allocate h).2.1
      have hf : ({ w with mutexes := w.mutexes ++ [({} : PoolLock)] }.mutex
          w.mutexes.length).owner = none := by
        simp [World.mutex]
      exact goes hj (outcomeOf_say hl) (Lot.view_equipped.mpr ⟨hc', hm, hf, hx⟩)
        (.mutexGiven c k m w.mutexes.length) (ho ▸ .mutexGiven c name m p h)

omit rf in
theorem Course.run_destroyMutex (hv : (Lot.equipped c m).view w = v)
    (a : Course t (.destroyMutex c m) (some j) o v) : Goes w t (.destroyMutex c m) j := by
  cases a with
  | mutexDispose _ _ k r =>
    obtain ⟨_, hm, _, _⟩ := Lot.view_equipped.mp hv
    have hj : PoolInstr.run t w (.mutexDispose service m) =
        (w, [.sync (.acquire (.mutexState r)), .pool (.mutexIdle service m r)]) := by
      simp only [PoolInstr.run, Slots.get_eq_ok.mpr hm]
    exact goes hj ho hv (.mutexIdle c m k r) (.same _ _ rfl)
  | mutexIdle _ _ k r =>
    obtain ⟨_, _, hf, _⟩ := Lot.view_equipped.mp hv
    have hj : PoolInstr.run t w (.mutexIdle service m r) =
        (w, [.sync (.release (.mutexState r)), .pool (.mutexFree service m)]) := by
      simp [PoolInstr.run, PoolLock.isTaken, hf]
    exact goes hj ho hv (.mutexFree c m k r) (.same _ _ rfl)
  | mutexFree _ _ k r =>
    obtain ⟨hc, _, _, hx⟩ := Lot.view_equipped.mp hv
    have hc' : (w.setMutexSlots service ((w.mutexSlots service).free m)).condAt service c =
        some k := by
      rw [condAt_setMutexSlots]
      exact hc
    exact goes rfl ho ((Lot.view_half rfl rfl).mpr ⟨hc', hx⟩) (.mutexGone c m k) (.mutexFreed c m)

omit rf in
theorem Course.run_destroyCond (hv : (Lot.spent c).view w = v)
    (a : Course t (.destroyCond c) (some j) o v) : Goes w t (.destroyCond c) j := by
  cases a with
  | condDispose _ k =>
    obtain ⟨hc, _⟩ := (Lot.view_half rfl rfl).mp hv
    have hj : PoolInstr.run t w (.condDispose service c) =
        (w, [.sync (.acquire (.condState k)), .pool (.condIdle service c k)]) := by
      simp only [PoolInstr.run, Slots.get_eq_ok.mpr hc]
    exact goes hj ho hv (.condIdle c k) (.same _ _ rfl)
  | condIdle _ k =>
    obtain ⟨_, hx⟩ := (Lot.view_half rfl rfl).mp hv
    have hj : PoolInstr.run t w (.condIdle service c k) =
        (w, [.sync (.release (.condState k)), .pool (.condFree service c)]) := by
      simp [PoolInstr.run, hx]
    exact goes hj ho hv (.condFree c k) (.same _ _ rfl)
  | condFree _ k => exact goes rfl ho (Lot.view_bare rfl rfl) (.condGone c) (.condFreed c)

end Run

/-- What the worker runs on the pools brings it on in its call. -/
theorem Course.run (hl : t < w.threads.length) (rf : Referring w)
    (a : Course t stage (some j) (w.outcomeOf t)
      ((stage.lotIn (some j) (w.outcomeOf t)).view w)) : Goes w t stage j := by
  generalize ho : w.outcomeOf t = o at a
  cases stage with
  | createCond => exact a.run_createCond ho hl
  | createMutex c =>
    generalize hv : (Stage.lotIn (some j) o (.createMutex c)).view w = v at a
    cases a with
    | mutexAllot _ k name => exact Course.run_createMutex ho hl hv (.mutexAllot c k name)
  | lock c m left => exact a.run_lock rf ho rfl
  | wait c m left => exact a.run_wait rf ho hl rfl
  | unlock c m left waited => exact a.run_unlock rf ho rfl
  | destroyMutex c m => exact a.run_destroyMutex ho rfl
  | destroyCond c => exact a.run_destroyCond ho rfl
  | poll c m left => cases a
  | _ => cases a

/-! What others do leaves the worker's things alone, if it is about other things. -/

theorem Lot.view_congr (h : w'.pools = w.pools) (l : Lot) : l.view w' = l.view w := by
  simp only [Lot.view, condAt_congr h, mutexAt_congr h, mutex_congr h, cond_congr h]

theorem onCond_of_ne (h : j.cond? ≠ some k) (x : PoolCondition) : j.onCond k x = x := by
  have hne {b : CondRef} (hb : j.cond? = some b) : b ≠ k := fun hk => h (hk ▸ hb)
  cases j with
  | signal b | broadcast b => exact if_neg (hne rfl)
  | waitRegister y | waitRetire y => exact if_neg (hne rfl)
  | waitCheck y ticket => exact if_neg fun hk => hne rfl hk.1
  | _ => rfl

theorem mutex_of_takes (h : j.takes r = true) : j.mutex? = some r := by
  cases j <;> simp_all [PoolInstr.takes, PoolInstr.mutex?]

theorem mutex_of_givesUp (h : j.givesUp r = true) : j.mutex? = some r := by
  cases j <;> simp_all [PoolInstr.givesUp, PoolInstr.mutex?]

theorem Lot.view_run (hp : PoolRun w t (.pool j) rest w') (rf : Referring w)
    (hc : ∀ c, l.cond? = some c → j ≠ .condFree service c ∧
      ∃ k, w.condAt service c = some k ∧ j.cond? ≠ some k)
    (hm : ∀ m, l.mutex? = some m → j ≠ .mutexFree service m ∧
      ∃ r, w.mutexAt service m = some r ∧ j.mutex? ≠ some r) : l.view w' = l.view w := by
  -- an instruction of another worker is on none of the things of this lot
  have cond (c : Nat) (hl : l.cond? = some c) : w'.condAt service c = w.condAt service c ∧
      ∀ k, w.condAt service c = some k → w'.cond k = w.cond k := by
    obtain ⟨hf, k, hk, hj⟩ := hc c hl
    constructor
    · rw [condAt_congr hp.pools]
      rcases j.condAt_run (t := t) (w := w) service c with he | ⟨_, _, _, _, hn, _⟩ | ⟨he, _⟩
      · exact he
      · rw [hk] at hn
        cases hn
      · exact absurd he hf
    · intro k' hk'
      obtain rfl := Option.some.inj (hk.symm.trans hk')
      rw [hp.cond rf, onCond_of_ne hj]
  have mutex (m : Nat) (hl : l.mutex? = some m) : w'.mutexAt service m = w.mutexAt service m ∧
      ∀ r, w.mutexAt service m = some r → w'.mutex r = w.mutex r := by
    obtain ⟨hf, r, hr, hj⟩ := hm m hl
    constructor
    · rcases hp.mutexAt service m with he | ⟨_, hn⟩ | he
      · exact he
      · rw [hr] at hn
        cases hn
      · exact absurd he hf
    · intro r' hr'
      obtain rfl := Option.some.inj (hr.symm.trans hr')
      rcases hp.mutex rf r with he | ⟨j', hj', ⟨hx, _⟩ | ⟨hx, _⟩⟩
      · exact he
      · obtain rfl := Instr.pool.inj hj'
        exact absurd (mutex_of_takes hx) hj
      · obtain rfl := Instr.pool.inj hj'
        exact absurd (mutex_of_givesUp hx) hj
  have hc' : l.cond?.bind (w'.condAt service) = l.cond?.bind (w.condAt service) :=
    Option.bind_congr fun c hl => (cond c hl).1
  have hm' : l.mutex?.bind (w'.mutexAt service) = l.mutex?.bind (w.mutexAt service) :=
    Option.bind_congr fun m hl => (mutex m hl).1
  -- so the view reads the same slots, and the same things in them
  have hx : (l.cond?.bind (w.condAt service)).elim 0 (fun k => (w'.cond k).waiters) =
      (l.cond?.bind (w.condAt service)).elim 0 fun k => (w.cond k).waiters := by
    cases hk : l.cond?.bind (w.condAt service) with
    | none => rfl
    | some k =>
      obtain ⟨c, hl, hk⟩ := Option.bind_eq_some_iff.mp hk
      exact congrArg PoolCondition.waiters ((cond c hl).2 k hk)
  have ho : (l.mutex?.bind (w.mutexAt service)).bind (fun r => (w'.mutex r).owner) =
      (l.mutex?.bind (w.mutexAt service)).bind fun r => (w.mutex r).owner := by
    refine Option.bind_congr fun r hr => ?_
    obtain ⟨m, hl, hr⟩ := Option.bind_eq_some_iff.mp hr
    exact congrArg PoolLock.owner ((mutex m hl).2 r hr)
  simp only [Lot.view, hc', hm', hx, ho]

/-- What a worker runs on the pools is about nothing but what it has in hand. -/
theorem Course.about (a : Course t stage (some j) o ((stage.lotIn (some j) o).view w)) :
    (∀ k, j.cond? = some k → ∃ c, (stage.lotIn (some j) o).cond? = some c ∧
      w.condAt service c = some k) ∧
    (∀ r, j.mutex? = some r → ∃ m, (stage.lotIn (some j) o).mutex? = some m ∧
      w.mutexAt service m = some r) ∧
    (∀ c, j = .condFree service c → (stage.lotIn (some j) o).cond? = some c) ∧
    ∀ m, j = .mutexFree service m → (stage.lotIn (some j) o).mutex? = some m := by
  generalize hv : (stage.lotIn (some j) o).view w = v at a
  have seen : (∀ k, j.cond? = some k → v.cond = some k) ∧
      (∀ r, j.mutex? = some r → v.mutex = some r) ∧
      (∀ c, j = .condFree service c → (stage.lotIn (some j) o).cond? = some c) ∧
      ∀ m, j = .mutexFree service m → (stage.lotIn (some j) o).mutex? = some m := by
    cases a <;> simp [PoolInstr.cond?, PoolInstr.mutex?, Stage.lotIn, Lot.cond?, Lot.mutex?]
  obtain ⟨hc, hm, hfree⟩ := seen
  subst hv
  exact ⟨fun k hk => Option.bind_eq_some_iff.mp (hc k hk),
    fun r hr => Option.bind_eq_some_iff.mp (hm r hr), hfree⟩

end Standstill.Stress
