import Standstill.Proofs.Handles
import Standstill.Proofs.ParkRound
import Standstill.Proofs.Noticed
import Standstill.Proofs.Unparked

/-!
A thread is stopped by another, and let go again, while nobody else does anything. The one that stops
does not come back before the other has parked, if it parks at all, nor the one that lets go before it
has taken up its phase again. Main statement: afterwards all records, rosters and pools are as before,
but that the thread has parked once more.
-/
namespace Standstill

open World

variable {n : Nat} {w : World} {a t : ThreadId} {s : ServiceId} {r : RecordId} {c : ThreadRecord}
  {i : Instr} {top post rest : List Instr} {q q' : Bool} {x x' : Round} {e : Event} {es : List Event}

/-- Thread `actor` is going to stop thread `target` of a service, whose record is found there under
its handle and has not been asked to stop. -/
structure Scene where
  start : World
  actor : ThreadId
  target : ThreadId
  service : ServiceId
  handle : Handle
  record : RecordId
  state : ThreadRecord
  apart : target ≠ actor
  free : start.inUser actor = true
  known : start.records[record]? = some state
  listed : (start.roster service).lookup handle = some record
  unasked : state.requested = false

namespace Scene

variable (S : Scene)

def mechanism : Mechanism := S.start.mechanism S.service

/-- What the actor is doing when it makes its calls. -/
def home : List Instr := S.start.codeOf S.actor

/-- What the target is doing. -/
def work : List Instr := S.start.codeOf S.target

theorem home_eq : ∃ base, S.home = .user :: base := head_user S.free

/-- The record of the target in round `x`, asked to stop or not. -/
def now (q : Bool) (x : Round) : ThreadRecord := { x.record S.state with requested := q }

end Scene

/-! How far the actor has come. -/

inductive Leg
  /-- It is going to raise the request. -/
  | seeking
  /-- It has raised the request, and waits for the target to park. -/
  | pursuing
  /-- The target parks, if it ever does. -/
  | stopped
  /-- The request is gone, and the actor waits for the target to go on. -/
  | freed
  /-- The target has gone on. -/
  | settled
  deriving DecidableEq, Repr

/-- The leg with which the call ends. -/
def Leg.goal : Leg → Leg
  | seeking | pursuing => stopped
  | _ => settled

/-- The thread has read as suspended. -/
def Round.isIn : Round → Bool
  | marked | counted | released | back => true
  | _ => false

/-- What is known of the request and of the target's round in each leg. -/
def Leg.Allows (c : ThreadRecord) : Leg → Bool → Round → Prop
  | seeking, q, x => q = false ∧ x = .calm
  | pursuing, q, x => q = true ∧ x.isOut = false
  | stopped, q, x => q = true ∧ x.isOut = false ∧ (c.CanPark → x.isIn = true)
  | freed, q, x => q = false ∧ (c.CanPark → x.isIn = true)
  | settled, q, x => q = false ∧ (c.level = .noBlock → x = .back)

/-- What the actor asks of the target in each leg. -/
inductive Asks (S : Scene) : Leg → StopInstr → Prop
  | suspendFind : Asks S .seeking (.suspendFind S.service S.handle)
  | readEpoch : Asks S .seeking (.readEpoch S.service S.record)
  | request : Asks S .seeking (.request S.service S.record S.state.epoch)
  | readLevel (b : Bool) : Asks S .pursuing (.readLevel S.service S.record S.state.epoch b)
  | deliver (b : Bool) : Asks S .pursuing (.deliver S.service S.record S.state.epoch b)
  | watchStart : Asks S .pursuing (.watchStart S.service S.record S.state.epoch)
  | watchEpoch (y : Watch) (hr : y.record = S.record) (he : y.epoch = S.state.epoch) :
    Asks S .pursuing (.watchEpoch y)
  | watchPhase (y : Watch) (hr : y.record = S.record) (he : y.epoch = S.state.epoch) :
    Asks S .pursuing (.watchPhase y)
  | watchRequest (y : Watch) (hr : y.record = S.record) (he : y.epoch = S.state.epoch) :
    Asks S .pursuing (.watchRequest y)
  | watchLevel (y : Watch) (hr : y.record = S.record) (he : y.epoch = S.state.epoch) :
    Asks S .pursuing (.watchLevel y)
  | watchClock (y : Watch) (hr : y.record = S.record) (he : y.epoch = S.state.epoch) :
    Asks S .pursuing (.watchClock y)
  | resumeFind : Asks S .stopped (.resumeFind S.service S.handle)
  | resumeClear : Asks S .stopped (.resumeClear S.service S.record)
  | resumeLevel : Asks S .freed (.resumeLevel S.service S.record)
  | resumeWake : Asks S .freed (.resumeWake S.service S.record)
  | resumePhase : Asks S .freed (.resumePhase S.record)
  | resumeRequest : Asks S .freed (.resumeRequest S.record)

/-- What the actor has still to do of a call that ends with leg `goal`. -/
inductive Errand (S : Scene) (goal : Leg) : Leg → List Instr → Prop
  | on (leg : Leg) (pre : List Instr) (k : StopInstr) (post : List Instr)
    (hpre : pre.all Instr.isNeutral = true) (hk : Asks S leg k) (hg : leg.goal = goal)
    (hpost : post.all Instr.isNeutral = true) : Errand S goal leg (pre ++ .stop k :: post)
  | done (top : List Instr) (ht : top.all Instr.isNeutral = true) : Errand S goal goal top

section Errand

variable {S : Scene} {goal leg : Leg}

theorem Errand.append (g : Errand S goal leg top) (hp : post.all Instr.isNeutral = true) :
    Errand S goal leg (top ++ post) := by
  cases g with
  | on leg pre k mid hpre hk hg hmid =>
    rw [List.append_assoc]
    exact .on leg pre k (mid ++ post) hpre hk hg (by rw [List.all_append, hmid, hp]; rfl)
  | done top ht => exact .done _ (by rw [List.all_append, ht, hp]; rfl)

theorem Errand.prepend {pre : List Instr} (g : Errand S goal leg top)
    (hp : pre.all Instr.isNeutral = true) : Errand S goal leg (pre ++ top) := by
  cases g with
  | on leg mid k post hmid hk hg hpost =>
    rw [← List.append_assoc]
    exact .on leg (pre ++ mid) k post (by rw [List.all_append, hp, hmid]; rfl) hk hg hpost
  | done top ht => exact .done _ (by rw [List.all_append, hp, ht]; rfl)

theorem Errand.eq_of_nil (g : Errand S goal leg []) : leg = goal := by
  generalize htop : ([] : List Instr) = top at g
  cases g with
  | on leg pre k post => simp at htop
  | done top ht => rfl

end Errand

/-- As the target goes on, what is known in a leg stays true. -/
theorem Leg.Allows.moves {leg : Leg} (g : leg.Allows c q x) (m : Moves q x x') :
    leg.Allows c q x' := by
  cases m with
  | stay => exact g
  | next hc hr =>
    cases leg with
    | seeking =>
      obtain ⟨rfl, rfl⟩ := g
      cases hc rfl
    | pursuing =>
      -- while the request stands, the target does not get beyond its sleep
      obtain ⟨rfl, hx⟩ := g
      refine ⟨rfl, ?_⟩
      cases x <;> first | rfl | cases hr rfl | cases hx
    | stopped =>
      obtain ⟨rfl, hx, hin⟩ := g
      refine ⟨rfl, ?_, fun hp => ?_⟩
      · cases x <;> first | rfl | cases hr rfl | cases hx
      · have := hin hp
        cases x <;> first | rfl | cases this
    | freed =>
      obtain ⟨rfl, hin⟩ := g
      refine ⟨rfl, fun hp => ?_⟩
      have := hin hp
      cases x <;> first | rfl | cases this
    | settled =>
      obtain ⟨rfl, hb⟩ := g
      refine ⟨rfl, fun hl => ?_⟩
      rw [hb hl]
      rfl

theorem Leg.Allows.not_asked {leg : Leg} (g : leg.Allows c q x) (hx : x = .back) : q = false := by
  subst hx
  cases leg with
  | seeking => exact g.1
  | pursuing => cases g.2
  | stopped => cases g.2.1
  | freed => exact g.1
  | settled => exact g.1

/-! One instruction of the actor. -/

/-- What the instruction leaves: another leg, and nothing changed but the request. -/
structure Carries (S : Scene) (w : World) (goal : Leg) (x : Round) (e : Effect) : Prop where
  leg : ∃ leg q, leg.Allows S.state q x ∧ Errand S goal leg e.2 ∧
    e.1.records = (w.setRequest S.record q).records
  books : e.1.books = w.books

section Run

variable {S : Scene} {leg : Leg} {k : StopInstr}

theorem books_signalOwner : (w.signalOwner r).books = w.books := by
  rw [signalOwner]
  split <;> rfl

theorem records_signalOwner : (w.signalOwner r).records = w.records := by
  rw [signalOwner]
  split <;> rfl

variable (hk : Asks S leg k) (hx : leg.Allows S.state q x)
  (hable : x.isUnderWay = true → S.state.CanPark) (hrec : w.records[S.record]? = some (S.now q x))
  (hbooks : w.books = S.start.books) (howner : w.ownerOf S.record = some S.target)

include hk hx hable hrec hbooks howner

/-- What the actor asks leads on to the next thing, or to the end of its call. -/
theorem Asks.run : Carries S w leg.goal x (k.run a w) := by
  have hlookup : (w.roster S.service).lookup S.handle = some S.record := by
    rw [roster_of_books hbooks]
    exact S.listed
  have hlevel : w.levelOf S.record = S.state.level := by
    simp only [levelOf, hrec, Scene.now]
    cases x <;> rfl
  have hphase : w.phaseOf S.record = (x.record S.state).phase := by
    simp only [phaseOf, hrec, Scene.now]
  have hreq : w.isRequested S.record = q := by
    simp only [isRequested, hrec, Scene.now]
  have hreach : w.isOutOfReach S.service S.record = false := by
    simp [isOutOfReach, howner]
  have same : w.records = (w.setRequest S.record q).records := by
    refine (modify_self fun c hc => ?_).symm
    rw [hrec] at hc
    cases hc
    rfl
  have go (leg' : Leg) {w' : World} {code : List Instr} (hl : leg'.Allows S.state q x)
      (hcode : Errand S leg.goal leg' code) (hr : w'.records = w.records) (hb : w'.books = w.books) :
      Carries S w leg.goal x (w', code) := ⟨⟨leg', q, hl, hcode, hr.trans same⟩, hb⟩
  have ask {leg' : Leg} (pre : List Instr) {k : StopInstr} (hk : Asks S leg' k)
      (hg : leg'.goal = leg.goal) (hp : pre.all Instr.isNeutral = true) :
      Errand S leg.goal leg' (pre ++ [.stop k]) := .on leg' pre k [] hp hk hg rfl
  cases hk with
  | suspendFind =>
    simp only [StopInstr.run, hlookup]
    exact go .seeking hx (ask [] .readEpoch rfl rfl) rfl rfl
  | readEpoch =>
    obtain ⟨rfl, rfl⟩ := hx
    simp only [StopInstr.run, hrec]
    exact go .seeking ⟨rfl, rfl⟩ (ask [] .request rfl rfl) rfl rfl
  | request =>
    obtain ⟨rfl, rfl⟩ := hx
    exact ⟨⟨.pursuing, true, ⟨rfl, rfl⟩, ask [] (.readLevel _) rfl rfl, rfl⟩, rfl⟩
  | readLevel b =>
    simp only [StopInstr.run, hlevel]
    split
    · exact go .pursuing hx (ask [] (.deliver b) rfl rfl) rfl rfl
    next hn =>
      -- it will not park before its level is lowered, and nobody lowers it
      exact go .stopped ⟨hx.1, hx.2, fun hp => absurd hp.1 hn⟩ (.done _ rfl) rfl rfl
  | deliver b =>
    simp only [StopInstr.run, hreach, Bool.false_eq_true, if_false]
    refine go .pursuing hx (ask (leaveRoster S.service) .watchStart rfl rfl) ?_ ?_
    · split
      · exact records_signalOwner
      · rfl
    · split
      · exact books_signalOwner
      · rfl
  | watchStart => exact go .pursuing hx (ask [] (.watchEpoch _ rfl rfl) rfl rfl) rfl rfl
  | watchEpoch y hr he =>
    simp only [StopInstr.run, hr, hrec]
    split
    · exact go .pursuing hx (ask [] (.watchPhase y hr he) rfl rfl) rfl rfl
    next hn =>
      -- the count of parks has gone up, so that the target is asleep
      refine go .stopped ⟨hx.1, hx.2, fun _ => ?_⟩ (.done _ rfl) rfl rfl
      rw [he] at hn
      cases x <;> first | rfl | exact absurd rfl hn
  | watchPhase y hr he =>
    simp only [StopInstr.run, hr, hphase]
    split
    next hs =>
      -- it reads as suspended: it did before, or it has parked
      refine go .stopped ⟨hx.1, hx.2, fun hp => ?_⟩ (.done _ rfl) rfl rfl
      cases x <;> first | rfl | exact absurd hs hp.2
    · exact go .pursuing hx (ask [] (.watchRequest y hr he) rfl rfl) rfl rfl
  | watchRequest y hr he =>
    obtain ⟨rfl, hout⟩ := hx
    simp only [StopInstr.run, hr, hreq, if_true]
    exact go .pursuing ⟨rfl, hout⟩ (ask [] (.watchLevel y hr he) rfl rfl) rfl rfl
  | watchLevel y hr he =>
    simp only [StopInstr.run, hr, hlevel]
    split
    · exact go .pursuing hx (ask [] (.watchClock y hr he) rfl rfl) rfl rfl
    next hn =>
      exact go .stopped ⟨hx.1, hx.2, fun hp => absurd hp.1 hn⟩ (.done _ rfl) rfl rfl
  | watchClock y hr he =>
    simp only [StopInstr.run]
    split
    · exact go .pursuing hx (ask (guarded y.service .critical (locked (.name y.record) []))
        (.watchEpoch _ hr he) rfl rfl) rfl rfl
    · exact go .pursuing hx (ask [] (.watchEpoch y hr he) rfl rfl) rfl rfl
  | resumeFind =>
    simp only [StopInstr.run, hlookup]
    exact go .stopped hx (ask [] .resumeClear rfl rfl) rfl rfl
  | resumeClear =>
    exact ⟨⟨.freed, false, ⟨rfl, hx.2.2⟩, ask [] .resumeLevel rfl rfl, rfl⟩, rfl⟩
  | resumeLevel =>
    simp only [StopInstr.run, hlevel]
    split
    · exact go .freed hx (ask [] .resumeWake rfl rfl) rfl rfl
    next hn => exact go .settled ⟨hx.1, fun hl => absurd hl hn⟩ (.done _ rfl) rfl rfl
  | resumeWake =>
    simp only [StopInstr.run, hreach, Bool.false_eq_true, if_false]
    split
    · exact go .freed hx (ask (leaveRoster S.service) .resumePhase rfl rfl) records_signalOwner
        books_signalOwner
    · exact go .freed hx (ask (ringPark S.record ++ leaveRoster S.service) .resumePhase rfl rfl)
        rfl rfl
  | resumePhase =>
    simp only [StopInstr.run, hphase]
    split
    · exact go .freed hx (ask [] .resumeRequest rfl rfl) rfl rfl
    next hn =>
      refine go .settled ⟨hx.1, fun hl => ?_⟩ (.done _ rfl) rfl rfl
      -- if it was suspended before, it has not parked since
      have hp : S.state.phase ≠ .suspended := by
        intro hs
        cases x <;> first | exact hn hs | exact (hable rfl).2 hs
      have hin := hx.2 ⟨hl, hp⟩
      cases x <;> first | rfl | exact absurd rfl hn | cases hin
  | resumeRequest =>
    obtain ⟨rfl, hin⟩ := hx
    simp only [StopInstr.run, hreq, Bool.false_eq_true, if_false]
    exact go .freed ⟨rfl, hin⟩ (ask [] .resumePhase rfl rfl) rfl rfl

end Run

/-! Both threads, step by step. -/

/-- The actor has `top` left to do of a call, and the target has come to round `x`; apart from the
target's record, all records will be as at the start when the actor is back. -/
structure Going (S : Scene) (n : Nat) (w : World) (q : Bool) (x : Round) (top : List Instr) :
    Prop where
  reach : Reachable n w
  there : S.target < w.threads.length
  amid : Amid w S.actor S.home top
  course : Course w S.target S.state S.record S.mechanism S.work x
  records : w.unwound S.actor = S.start.records.set S.record (S.now q x)
  books : w.books = S.start.books
  owner : w.ownerOf S.record = some S.target
  self : ∀ b, w.bindingOf S.target = some b → b = S.record

theorem modify_set {L : List ThreadRecord} {f : ThreadRecord → ThreadRecord} :
    (L.set r c).modify r f = L.set r (f c) := by
  refine List.ext_getElem? fun k => ?_
  rw [List.getElem?_modify]
  by_cases hk : r = k
  · subst hk
    by_cases hr : r < L.length
    all_goals simp [hr]
  · simp [List.getElem?_set_ne hk, hk]

section Going

variable {S : Scene} {leg goal : Leg}

theorem Going.apart (g : Going S n w q x top) :
    ∀ y ∈ w.scopesOf S.actor, y.record? ≠ some S.record := by
  intro y hy hr
  have ho := g.reach.custody.opened hy hr
  rw [g.owner] at ho
  exact S.apart (Option.some.inj ho)

theorem Going.record (g : Going S n w q x top) : w.records[S.record]? = some (S.now q x) := by
  have hr : (w.unwound S.actor)[S.record]? = w.records[S.record]? := getElem?_unwind_of_ne g.apart
  have hlt := (List.getElem?_eq_some_iff.mp S.known).1
  rw [← hr, g.records, List.getElem?_set_self hlt]

theorem Going.levelOf (g : Going S n w q x top) : w.levelOf S.record = S.state.level := by
  simp only [World.levelOf, g.record, Scene.now]
  cases x <;> rfl

theorem Going.phaseOf (g : Going S n w q x top) :
    w.phaseOf S.record = (x.record S.state).phase := by
  simp only [World.phaseOf, g.record, Scene.now]

theorem Going.isRequested (g : Going S n w q x top) : w.isRequested S.record = q := by
  simp only [World.isRequested, g.record, Scene.now]

theorem Going.lt (g : Going S n w q x top) : S.actor < w.threads.length := by
  apply lt_of_codeOf
  obtain ⟨base, hb⟩ := S.home_eq
  rw [g.amid.code, hb]
  simp

/-- Thread `S.target` has nothing but nested instructions above what it did before. -/
def Scene.Obeys (S : Scene) (w : World) : Prop :=
  ∃ top, top.all Instr.isNested = true ∧ w.codeOf S.target = top ++ S.work

theorem Scene.Obeys.head (o : S.Obeys w) (h : w.codeOf S.target = i :: rest)
    (hne : w.codeOf S.target ≠ S.work) :
    i.isNested = true ∧ ∃ top, top.all Instr.isNested = true ∧ rest = top ++ S.work := by
  obtain ⟨top, hn, hc⟩ := o
  cases top with
  | nil => exact absurd hc hne
  | cons j top =>
    obtain ⟨rfl, rfl⟩ := List.cons.inj (h.symm.trans hc)
    rw [List.all_cons, Bool.and_eq_true] at hn
    exact ⟨hn.1, top, hn.2, rfl⟩

/-- Where both threads are in a call that ends with leg `goal`. -/
inductive On (S : Scene) (n : Nat) (goal : Leg) (w : World) : Prop
  | going (leg : Leg) (q : Bool) (x : Round) (top : List Instr) (hx : leg.Allows S.state q x)
    (he : Errand S goal leg top) (g : Going S n w q x top)
  /-- The actor will not come back, unless another lets it go. -/
  | detained (ha : S.actor < w.threads.length) (ht : S.target < w.threads.length)
    (d : Detained w S.actor S.home) (o : S.Obeys w)

/-! The actor's steps. -/

section Actor

variable (g : Going S n w q x (i :: top)) (hu : i.isReady w S.actor = true)
include g

theorem On.of_actor_detained (d : Detained (w.proceed S.actor i (top ++ S.home)) S.actor S.home) :
    On S n goal (w.proceed S.actor i (top ++ S.home)) := by
  refine .detained (Nat.lt_of_lt_of_le g.lt threads_length_proceed)
    (Nat.lt_of_lt_of_le g.there threads_length_proceed) d ?_
  obtain ⟨above, hn, hc⟩ := g.course.place.nested
  exact ⟨above, hn, (codeOf_proceed_of_ne g.amid.code S.apart g.there).trans hc⟩

include hu

/-- A step of the actor leaves the target where it is. -/
theorem Going.proceed_actor {top' : List Instr}
    (m : Amid (w.proceed S.actor i (top ++ S.home)) S.actor S.home top')
    (hr : (w.proceed S.actor i (top ++ S.home)).unwound S.actor =
      S.start.records.set S.record (S.now q' x))
    (hb : (w.proceed S.actor i (top ++ S.home)).books = w.books) :
    Going S n (w.proceed S.actor i (top ++ S.home)) q' x top' where
  reach := by
    have h : w.codeOf S.actor = i :: (top ++ S.home) := g.amid.code
    rw [← step_of_code h hu]
    exact g.reach.step _
  there := Nat.lt_of_lt_of_le g.there threads_length_proceed
  amid := m
  course := by
    -- the target's code and its mask are its own
    refine g.course.congr (codeOf_proceed_of_ne g.amid.code S.apart g.there) ?_
    rw [isMasked_proceed, isMasked_run_of_ne _ S.apart, isMasked_setCode]
    rw [threads_length_setCode]
    exact g.there
  records := hr
  books := hb.trans g.books
  owner := g.reach.custody.ownerOf_proceed g.amid.code g.owner
  self := by
    rw [bindingOf_proceed_of_ne S.apart]
    exact g.self

theorem On.of_neutral (hx : leg.Allows S.state q x) (hi : i.isNeutral = true)
    (he : Errand S goal leg top) : On S n goal (w.proceed S.actor i (top ++ S.home)) := by
  rcases g.amid.proceed_neutral hi with ⟨m, hs⟩ | d
  · have hr : (w.remainder S.actor i (top ++ S.home)).all Instr.isNeutral = true :=
      all_imp neutral_of_silent (run_neutral hi)
    exact .going leg q x _ hx (he.prepend hr)
      (g.proceed_actor hu m (hs.trans g.records) (books_run_of_neutral hi))
  · exact On.of_actor_detained g d

theorem On.of_asks {k : StopInstr} (hi : i = .stop k) (hk : Asks S leg k)
    (hx : leg.Allows S.state q x) (hpost : top.all Instr.isNeutral = true) :
    On S n leg.goal (w.proceed S.actor i (top ++ S.home)) := by
  subst hi
  have hc := hk.run (w := w.setCode S.actor (top ++ S.home)) (a := S.actor) hx g.course.able
    g.record g.books g.owner
  obtain ⟨leg', q', hx', he, hrec⟩ := hc.leg
  have m := g.amid.proceed_of_unprompted fun j hj => unprompted_of_plain k.run_plain j hj
  refine .going leg' q' x _ hx' (he.append hpost) (g.proceed_actor hu m ?_ hc.books)
  have hset : (w.proceed S.actor (.stop k) (top ++ S.home)).records =
      w.records.modify S.record fun c => { c with requested := q' } := hrec
  -- the request is nothing that a scope brings back
  calc (w.proceed S.actor (.stop k) (top ++ S.home)).unwound S.actor
      = unwind (w.scopesOf S.actor)
          (w.records.modify S.record fun c => { c with requested := q' }) := by
        rw [unwound, scopesOf_proceed_of_not_guard (fun j hj => by cases hj), hset]
    _ = (w.unwound S.actor).modify S.record fun c => { c with requested := q' } :=
        unwind_modify (fun _ _ => rfl) fun _ _ => rfl
    _ = S.start.records.set S.record (S.now q' x) := by
        rw [g.records, modify_set]
        rfl

/-- The actor takes a step. -/
theorem On.proceed_actor (hx : leg.Allows S.state q x) (he : Errand S goal leg (i :: top)) :
    On S n goal (w.proceed S.actor i (top ++ S.home)) := by
  generalize hcode : i :: top = code at he
  cases he with
  | on leg pre k post hpre hk hg hpost =>
    cases pre with
    | nil =>
      obtain ⟨hi, rfl⟩ := List.cons.inj hcode
      subst hg
      exact On.of_asks g hu hi hk hx hpost
    | cons j pre =>
      obtain ⟨rfl, rfl⟩ := List.cons.inj hcode
      rw [List.all_cons, Bool.and_eq_true] at hpre
      exact On.of_neutral g hu hx hpre.1 (.on leg pre k post hpre.2 hk hg hpost)
  | done code ht =>
    subst hcode
    rw [List.all_cons, Bool.and_eq_true] at ht
    exact On.of_neutral g hu hx ht.1 (.done top ht.2)

end Actor

/-! The target's steps. -/

/-- The target goes on from where it stands, above what it did before. -/
theorem Going.proceed_target (g : Going S n w q x top) (hx : leg.Allows S.state q x)
    (h : w.codeOf S.target = i :: rest) (hu : i.isReady w S.target = true)
    (hne : w.codeOf S.target ≠ S.work) :
    ∃ x', leg.Allows S.state q x' ∧ Going S n (w.proceed S.target i rest) q x' top := by
  have hn : i.isNested = true := (Scene.Obeys.head g.course.place.nested h hne).1
  obtain ⟨x', hm, p⟩ :=
    g.course.proceed h g.isRequested g.levelOf g.phaseOf hx.not_asked g.self hne
  obtain ⟨f, hf, hfx⟩ := p.records
  refine ⟨x', hx.moves hm, ?_⟩
  constructor
  case reach =>
    rw [← step_of_code h hu]
    exact g.reach.step _
  case there => exact Nat.lt_of_lt_of_le g.there threads_length_proceed
  case amid =>
    exact g.amid.frame (codeOf_proceed_of_ne h S.apart.symm g.lt) (scopesOf_proceed_of_nested hn)
      (fun _ => isRequested_proceed_of_nested hn) (fun _ => levelOf_proceed_of_nested hn)
      World.records_length_proceed
  case course => exact p.course
  case records =>
    -- no scope of the actor is about the target's record
    calc (w.proceed S.target i rest).unwound S.actor
        = unwind (w.scopesOf S.actor) (w.records.modify S.record f) := by
          rw [unwound, scopesOf_proceed_of_nested hn, hf]
      _ = (w.unwound S.actor).modify S.record f := unwind_modify_of_ne g.apart
      _ = S.start.records.set S.record (f (S.now q x)) := by rw [g.records, modify_set]
      _ = S.start.records.set S.record (S.now q x') := congrArg _ (hfx q)
  case books => exact (books_run_of_silent (silent_of_nested hn)).trans g.books
  case owner => exact g.reach.custody.ownerOf_proceed h g.owner
  case self =>
    rw [bindingOf_proceed_of_nested hn]
    exact g.self

/-! Other events. -/

/-- Thread `a` alone does something at the event, or thread `t` does no more than it must: it goes on
with what it has above its code `base`, it takes the stop signal where threads are stopped by that, it
comes to a safe point where they are stopped there. -/
def Heeds (a t : ThreadId) (s : ServiceId) (base : List Instr) (w : World) : Event → Prop
  | .advance p => p = a ∨ p = t ∧ w.codeOf t ≠ base
  | .interrupt p => p = a ∨ p = t ∧ w.mechanism s = .signal
  | .invoke p c => p = t ∧ c = .safePoint s ∧ w.mechanism s = .safepoint
  | .finish .. => False
  | .stir .. | .tick _ | .system _ => True

instance decidableHeeds (a t : ThreadId) (s : ServiceId) (base : List Instr) (w : World) :
    (e : Event) → Decidable (Heeds a t s base w e)
  | .advance p => inferInstanceAs (Decidable (p = a ∨ p = t ∧ w.codeOf t ≠ base))
  | .interrupt p => inferInstanceAs (Decidable (p = a ∨ p = t ∧ w.mechanism s = .signal))
  | .invoke p c => inferInstanceAs (Decidable (p = t ∧ c = .safePoint s ∧ w.mechanism s = .safepoint))
  | .finish .. => inferInstanceAs (Decidable False)
  | .stir .. | .tick _ | .system _ => inferInstanceAs (Decidable True)

theorem World.Takes.eq_of_interrupt {p : ThreadId} {code : List Instr}
    (h : Takes w t (.interrupt p) code) : p = t := by
  cases h
  rfl

theorem World.Takes.eq_of_invoke {p : ThreadId} {call : Call} {code : List Instr}
    (h : Takes w t (.invoke p call) code) : p = t := by
  cases h
  rfl

section Events

variable (ha : ∀ p, e ≠ .advance p)
include ha

/-- A call that the actor makes, or any event in which no instruction is run. -/
theorem Going.renew {top' : List Instr} (g : Going S n w q x top)
    (m : Amid (w.step e) S.actor S.home top') (hs : (w.step e).unwound S.actor = w.unwound S.actor)
    (hc : Course (w.step e) S.target S.state S.record S.mechanism S.work x) :
    Going S n (w.step e) q x top' where
  reach := g.reach.step e
  there := by
    rw [(undisturbed_step ha).length]
    exact g.there
  amid := m
  course := hc
  records := hs.trans g.records
  books := (books_step ha).trans g.books
  owner := (undisturbed_step ha).ofRecord.trans g.owner
  self := by
    rw [(undisturbed_step ha).binding]
    exact g.self

theorem Going.course_of_not_takes (g : Going S n w q x top)
    (hn : ¬Takes w S.target e ((w.step e).codeOf S.target)) :
    Course (w.step e) S.target S.state S.record S.mechanism S.work x := by
  have u := undisturbed_step (w := w) ha
  refine g.course.congr ((u.code S.target).resolve_right hn) ?_
  rcases u.signals S.target with ⟨-, h, -⟩ | ⟨-, -, h⟩
  · exact h
  · exact absurd h hn

variable (hq : Heeds S.actor S.target S.service S.work w e)
include hq

/-- In an event in which no instruction is run the target stays in its round. -/
theorem Going.course_step (g : Going S n w q x top) :
    Course (w.step e) S.target S.state S.record S.mechanism S.work x := by
  have hm : w.mechanism S.service = S.mechanism := mechanism_of_books g.books
  have other := g.course_of_not_takes ha
  cases e with
  | advance p => exact absurd rfl (ha p)
  | stir | tick | system => exact other nofun
  | finish p k => cases hq
  | interrupt p =>
    rcases hq with rfl | ⟨rfl, hs⟩
    · exact other fun h => S.apart h.eq_of_interrupt.symm
    · have gc := g.course
      rw [← hm, hs] at gc ⊢
      exact gc.interrupt g.self
  | invoke p c =>
    obtain ⟨rfl, rfl, hs⟩ := hq
    have gc := g.course
    rw [← hm, hs] at gc ⊢
    exact gc.poll hs g.self

theorem Scene.Obeys.undisturbed (o : S.Obeys w) : S.Obeys (w.step e) := by
  obtain ⟨top, hn, hc⟩ := o
  rcases (undisturbed_step ha).code S.target with h | h
  · exact ⟨top, hn, h.trans hc⟩
  generalize hcode : (w.step e).codeOf S.target = code at h
  cases h with
  | interrupt h =>
    refine ⟨w.handlerCode S.target ++ [.guard (.setMask false)] ++ top, ?_, ?_⟩
    · rw [List.all_append, handler_nested, hn]
      rfl
    · rw [hcode, hc, List.append_assoc _ top]
  | invoke c h =>
    obtain ⟨-, rfl, -⟩ := hq
    refine ⟨Call.code w S.target (.safePoint S.service) ++ top, ?_, ?_⟩
    · rw [List.all_append, hn, Bool.and_true]
      simp only [Call.code]
      split <;> rfl
    · rw [hcode, hc, List.append_assoc]
  | finish p h => cases hq

theorem On.undisturbed (o : On S n goal w) (he : e.isBy S.actor = false) :
    On S n goal (w.step e) := by
  have u := undisturbed_step (w := w) ha
  cases o with
  | going leg q x top hx herr g =>
    obtain ⟨new, hn, m, hs⟩ := g.amid.undisturbed u he
    refine .going leg q x (new ++ top) hx (herr.prepend ?_) (g.renew ha m hs (g.course_step ha hq))
    exact all_imp neutral_of_silent (all_imp silent_of_nested hn)
  | detained ht ha' d o =>
    exact .detained (u.length ▸ ht) (u.length ▸ ha') (d.undisturbed u) (o.undisturbed ha hq)

end Events

/-- An instruction is run, by the actor or by the target. -/
theorem On.proceed {p : ThreadId} (o : On S n goal w) (h : w.codeOf p = i :: rest)
    (hu : i.isReady w p = true) (hq : Heeds S.actor S.target S.service S.work w (.advance p)) :
    On S n goal (w.proceed p i rest) := by
  cases o with
  | going leg q x top hx he g =>
    rcases hq with rfl | ⟨rfl, hne⟩
    · cases top with
      | nil =>
        obtain ⟨base, hb⟩ := S.home_eq
        -- the call is over, and the actor waits for another
        obtain ⟨rfl, -⟩ := List.cons.inj (h.symm.trans (g.amid.code.trans hb))
        exact absurd rfl (ne_user_of_ready hu)
      | cons j top =>
        obtain ⟨rfl, rfl⟩ := List.cons.inj (h.symm.trans g.amid.code)
        exact On.proceed_actor g hu hx he
    · obtain ⟨x', hx', g'⟩ := g.proceed_target hx h hu hne
      exact .going leg q x' top hx' he g'
  | detained ha ht d o =>
    have hle : w.threads.length ≤ (w.proceed p i rest).threads.length := threads_length_proceed
    have ha' := Nat.lt_of_lt_of_le ha hle
    have ht' := Nat.lt_of_lt_of_le ht hle
    rcases hq with rfl | ⟨rfl, hne⟩
    · obtain ⟨top, hn, hc⟩ := o
      exact .detained ha' ht' (d.proceed h)
        ⟨top, hn, (codeOf_proceed_of_ne h S.apart ht).trans hc⟩
    · obtain ⟨hn, top, htop, rfl⟩ := o.head h hne
      refine .detained ha' ht' (d.frame (codeOf_proceed_of_ne h S.apart.symm ha)
        (fun _ => isRequested_proceed_of_nested hn) fun _ => levelOf_proceed_of_nested hn)
        ⟨w.remainder S.target i (top ++ S.work) ++ top, ?_, ?_⟩
      · rw [List.all_append, htop, Bool.and_true]
        exact run_nested hn
      · rw [codeOf_proceed h, List.append_assoc]

/-- Whatever the two threads do, the actor comes closer to the end of its call, or it is held up. -/
theorem On.step (o : On S n goal w) (he : e.isBy S.actor = false)
    (hq : Heeds S.actor S.target S.service S.work w e) : On S n goal (w.step e) := by
  by_cases ha : ∃ p, e = .advance p
  · obtain ⟨p, rfl⟩ := ha
    rcases w.advance_cases p with hs | ⟨i, rest, h, hu, hs⟩
    · rw [World.step, hs]
      exact o
    · rw [World.step, hs]
      exact o.proceed h hu hq
  · exact o.undisturbed (fun p hp => ha ⟨p, hp⟩) hq he

theorem On.run (o : On S n goal w) (he : ∀ e ∈ es, e.isBy S.actor = false)
    (hq : w.Along (Heeds S.actor S.target S.service S.work) es) : On S n goal (w.run es) := by
  induction es generalizing w with
  | nil => exact o
  | cons e es ih =>
    obtain ⟨he, hes⟩ := List.forall_mem_cons.mp he
    exact ih (o.step he hq.1) hes hq.2

/-- When the actor is back, it has come to the end of its call. -/
theorem On.back (o : On S n goal w) (hc : w.codeOf S.actor = S.home) :
    ∃ q x, goal.Allows S.state q x ∧ Going S n w q x [] := by
  cases o with
  | going leg q x top hx he g =>
    obtain rfl : top = [] := by simpa using g.amid.code.symm.trans hc
    exact ⟨q, x, he.eq_of_nil ▸ hx, g⟩
  | detained ha ht d o => exact absurd hc d.codeOf_ne

theorem Scene.suspends (S : Scene) :
    Errand S .stopped .seeking ((Call.suspend S.service S.handle).code w a) :=
  .on .seeking [_, _, _] _ [] rfl .suspendFind rfl rfl

theorem Scene.resumes (S : Scene) :
    Errand S .settled .stopped ((Call.resume S.service S.handle).code w a) :=
  .on .stopped [_, _, _] _ [] rfl .resumeFind rfl rfl

/-- The actor makes a call, from which it is back when it has come to the end of it. -/
theorem Going.call {call : Call} (g : Going S n w q x [])
    (he : Errand S goal leg (call.code w S.actor)) (hx : leg.Allows S.state q x)
    (hr : call.refusal? = none) (hs : ∀ s, call ≠ .safePoint s) (hcall : w.Returns S.actor call es)
    (hq : (w.step (.invoke S.actor call)).Along (Heeds S.actor S.target S.service S.work) es) :
    ∃ q x, goal.Allows S.state q x ∧
      Going S n ((w.step (.invoke S.actor call)).run es) q x [] := by
  have hcode : w.codeOf S.actor = S.home := g.amid.code
  have hclosed := g.amid.scopesOf_of_nil
  have m := amid_of_invoke hcall.user hclosed hr hs
  rw [hcode] at m
  have g' : Going S n (w.step (.invoke S.actor call)) q x (call.code w S.actor) := by
    have ha (p : ThreadId) : Event.invoke S.actor call ≠ .advance p := by simp
    refine g.renew ha m ((unwound_invoke hclosed).trans g.amid.unwound_of_nil.symm) ?_
    exact g.course_of_not_takes ha fun h => S.apart h.eq_of_invoke.symm
  exact ((On.going leg q x _ hx he g').run hcall.busy hq).back (hcall.back.trans hcode)

end Going

/-! The beginning and the end. -/

/-- In a world with one service, no other record stands for the owner of a registered one. -/
theorem eq_of_bound {b : RecordId} (hw : Alone n w) (hr : r ∈ w.members s)
    (ho : w.ownerOf r = some t) (hb : w.bindingOf t = some b) : b = r := by
  have hl := hw.lawful
  rcases bound_of_listed hw hl hr ho with h | h
  · exact Option.some.inj (hb.symm.trans h)
  have hown := hl.reachable.custody.bound hb
  obtain ⟨s', hs'⟩ := Option.isSome_iff_exists.mp (homeOf_isSome.mpr (lt_of_ownerOf hown))
  have same {c : RecordId} (hc : w.ownerOf c = some t) : w.homeOf c = some 0 := by
    obtain ⟨s, hs⟩ := Option.isSome_iff_exists.mp (homeOf_isSome.mpr (lt_of_ownerOf hc))
    rw [hs, hw.homeOf_eq hs]
  have single {s : ServiceId} {c d : RecordId} (g : Joined w t s c) (hd : w.ownerOf d = some t) :
      d ≤ c := by
    by_contra hlt
    -- a later record would be with another service
    obtain ⟨k, -, -, hk, hn⟩ := hl.bound.since g hd (Nat.lt_of_not_le hlt)
    rw [same hk, ← same g.owner, g.homeOf hl] at hn
    exact hn rfl
  rcases hl.bound.bound hb hs' with g | hu
  · exact Nat.le_antisymm (single ⟨ho, Or.inl hr⟩ hown) (single g ho)
  · -- what is about to be bound does not stand in one stretch with what is about to go
    have hsealed := hl.reachable.sealed t
    obtain ⟨above, below, hcode⟩ := List.append_of_mem hu
    rw [hcode] at h hsealed
    obtain ⟨-, hbelow, habove⟩ := List.pairwise_append.mp hsealed
    rcases List.mem_append.mp h with h | h
    · cases habove _ h _ List.mem_cons_self
    · rcases List.mem_cons.mp h with h | h
      · cases h
      · cases Sealed.lets hbelow h

/-- The record of a thread that has been stopped and let go again. -/
def ThreadRecord.afterStop (c : ThreadRecord) : ThreadRecord :=
  if c.level = .noBlock then { c with epoch := c.epoch + 1, stackTop := .parked } else c

/-- A thread stops another one that a service has and lets it go again, while nobody else does
anything and the other does no more than it must: it takes the stop signal, or comes to a safe point,
and parks and comes back. The other may be at any level and in any phase, in its own code or amid a
call, but has not been asked to stop already. When both calls have come back, all is as before: every
record, the rosters with census and start gate, the mutexes, the conditions and the next handle. Only,
if its level let it be stopped, the other has parked once more and noted its stack. -/
theorem resume_undoes_suspend {n : Nat} {w : World} {a t : ThreadId} {s : ServiceId} {h : Handle}
    {r : RecordId} {c : ThreadRecord} {es fs : List Event} (hw : Alone n w) (hne : t ≠ a)
    (hl : (w.roster s).lookup h = some r) (hc : w.records[r]? = some c) (ho : w.ownerOf r = some t)
    (hq : c.requested = false) (hs : w.Returns a (.suspend s h) es)
    (hes : (w.step (.invoke a (.suspend s h))).Along (Heeds a t s (w.codeOf t)) es)
    (hr : ((w.step (.invoke a (.suspend s h))).run es).Returns a (.resume s h) fs)
    (hfs : (((w.step (.invoke a (.suspend s h))).run es).step (.invoke a (.resume s h))).Along
      (Heeds a t s (w.codeOf t)) fs) :
    let w' := (((w.step (.invoke a (.suspend s h))).run es).step (.invoke a (.resume s h))).run fs
    w'.records = w.records.modify r ThreadRecord.afterStop ∧ w'.books = w.books ∧
      w'.nextHandle = w.nextHandle := by
  have hreach := hw.lawful.reachable
  have hmem : r ∈ w.members s := ((hw.lawful.rostered.tagged s).eq_of_lookup hl).2
  let S : Scene :=
    { start := w, actor := a, target := t, service := s, handle := h, record := r, state := c,
      apart := hne, free := hs.user, known := hc, listed := hl, unasked := hq }
  have hnow : S.now false .calm = c := by
    rw [← hq]
    rfl
  have g : Going S n w false .calm [] :=
    { reach := hreach
      there := hw.lawful.bound.manned ho
      amid := amid_nil (hreach.scopesOf_of_user hs.user)
      course := ⟨nofun, .rest .calm rfl rfl⟩
      records := by
        rw [hnow, unwound, hreach.scopesOf_of_user hs.user]
        obtain ⟨hlt, he⟩ := List.getElem?_eq_some_iff.mp hc
        rw [← he, List.set_getElem_self]
        rfl
      books := rfl
      owner := ho
      self := fun b hb => eq_of_bound hw hmem ho hb }
  -- the target parks, if it is to be stopped at all
  obtain ⟨q₁, x₁, hx₁, g₁⟩ := g.call S.suspends ⟨rfl, rfl⟩ rfl (fun _ h => by cases h) hs hes
  -- and it goes on
  obtain ⟨q₂, x₂, hx₂, g₂⟩ := g₁.call S.resumes hx₁ rfl (fun _ h => by cases h) hr hfs
  obtain ⟨rfl, hback⟩ := hx₂
  have hend : S.now false x₂ = c.afterStop := by
    by_cases hlevel : c.level = .noBlock
    · rw [hback hlevel, ThreadRecord.afterStop, if_pos hlevel, ← hq]
      rfl
    · -- a thread whose level is raised has not begun to park
      have hstill : x₂.isUnderWay = false := by
        by_contra hn
        exact hlevel (g₂.course.able (by simpa using hn)).1
      rw [ThreadRecord.afterStop, if_neg hlevel, ← hnow]
      cases x₂ <;> first | rfl | cases hstill
  have hrec : _ = w.records.set r _ := g₂.amid.unwound_of_nil.symm.trans g₂.records
  rw [hend] at hrec
  refine ⟨?_, g₂.books, ?_⟩
  · rw [hrec, List.modify_eq_set_getElem?, hc]
    rfl
  · have hn := congrArg Prod.fst g₂.reach.numbering
    rw [hrec, List.length_set] at hn
    exact hn.trans (congrArg Prod.fst hreach.numbering).symm

/-- There is a service, and thread 1 has joined it; it may have had its level raised. -/
def colleague (m : Mechanism) (raised : Bool) : World :=
  (World.initial 2).run (.invoke 0 (.establish { mechanism := m }) :: turns 0 6 ++
    .invoke 1 (.attach 0 "worker") :: turns 1 12 ++
    if raised then .invoke 1 (.disableSuspend 0) :: turns 1 4 else [])

/-- Thread 1 comes to know that it is to stop, and parks. -/
def parks : Mechanism → List Event
  | .signal => .interrupt 1 :: turns 1 14
  | .safepoint => .invoke 1 (.safePoint 0) :: turns 1 14

def stops (m : Mechanism) (raised : Bool) : List Event :=
  turns 0 12 ++ (if raised then [] else parks m) ++ turns 0 12

def releases (raised : Bool) : List Event :=
  turns 0 14 ++ (if raised then [] else turns 1 5) ++ turns 0 12

/-- Thread 0 has stopped thread 1. -/
def colleagueStopped (m : Mechanism) (raised : Bool) : World :=
  ((colleague m raised).step (.invoke 0 (.suspend 0 2))).run (stops m raised)

/-- And it has let it go again. -/
def colleagueBack (m : Mechanism) (raised : Bool) : World :=
  ((colleagueStopped m raised).step (.invoke 0 (.resume 0 2))).run (releases raised)

theorem resume_undoes_suspend_of_colleague :
    ((colleagueBack .signal false).ofRecord 1 0 (·.epoch) = 1 ∧
      (colleagueBack .signal true).ofRecord 1 0 (·.epoch) = 0) ∧
    ∀ m raised, (colleagueBack m raised).records =
        (colleague m raised).records.modify 1 ThreadRecord.afterStop ∧
      (colleagueBack m raised).books = (colleague m raised).books ∧
      (colleagueBack m raised).nextHandle = (colleague m raised).nextHandle := by
  refine ⟨by decide +kernel, fun m raised => ?_⟩
  have hw : Alone 2 (colleague m raised) :=
    ⟨_, by cases m <;> cases raised <;> decide +kernel, rfl,
      by cases m <;> cases raised <;> decide +kernel⟩
  have hc : ∃ c, (colleague m raised).records[1]? = some c ∧ c.requested = false := by
    cases m <;> cases raised <;> exact ⟨_, rfl, by decide +kernel⟩
  obtain ⟨c, hc, hq⟩ := hc
  have hs : (colleague m raised).Returns 0 (.suspend 0 2) (stops m raised) := by
    cases m <;> cases raised <;> exact ⟨by decide +kernel, by decide, by decide +kernel⟩
  have hr : (colleagueStopped m raised).Returns 0 (.resume 0 2) (releases raised) := by
    cases m <;> cases raised <;> exact ⟨by decide +kernel, by decide, by decide +kernel⟩
  refine resume_undoes_suspend (t := 1) hw (by decide) ?_ hc ?_ hq hs ?_ hr ?_ <;>
    (cases m <;> cases raised <;> decide +kernel)

end Standstill
