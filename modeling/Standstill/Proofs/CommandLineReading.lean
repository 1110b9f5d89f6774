import Mathlib.Tactic
import Standstill.CommandLine.Arguments

/-!
Command lines that say what is wanted are read as what they say: the options stand in any order, those
that may stand on either side of the scenario's word stand on either, and what is said behind the word
counts before what is said in front of it.
-/
namespace Standstill.CommandLine

/-! How an option is written. -/

/-- The figures of a scenario. -/
inductive Figure
  | threads
  | steps
  | stepMs
  | workers
  | pauseMs
  deriving DecidableEq, Repr

namespace Figure

def name : Figure → String
  | .threads => "threads"
  | .steps => "steps"
  | .stepMs => "step-ms"
  | .workers => "workers"
  | .pauseMs => "pause-ms"

def setting : Figure → Setting
  | .threads => .threads
  | .steps => .steps
  | .stepMs => .stepMs
  | .workers => .workers
  | .pauseMs => .pauseMs

/-- The scenario that the figure belongs to. -/
def kind : Figure → ScenarioKind
  | .threads | .steps | .stepMs => .stress
  | .workers | .pauseMs => .stopTheWorld

/-- The steps are counted in a word of half the size. -/
def bound : Figure → Nat
  | .steps => 2 ^ 32
  | _ => 2 ^ 64

end Figure

/-- How an option is joined to its value: by its long name or its letter, the value in a word of its
own, behind an equals sign or, behind a letter, right there. -/
inductive Form
  | apart
  | equals
  | letterApart
  | letterEquals
  | letterJoined
  deriving DecidableEq, Repr

/-- An option as it is written, with its value. -/
inductive Phrase
  | config (path : String)
  | mechanism (f : Form) (how : Mechanism)
  | json
  | verbose
  | figure (isApart : Bool) (x : Figure) (n : Nat)
  deriving DecidableEq, Repr

namespace Phrase

def words : Phrase → List String
  | .config path => ["--config=" ++ path]
  | .mechanism .apart how => ["--mechanism", how.name]
  | .mechanism .equals how => ["--mechanism=" ++ how.name]
  | .mechanism .letterApart how => ["-m", how.name]
  | .mechanism .letterEquals how => ["-m=" ++ how.name]
  | .mechanism .letterJoined how => ["-m" ++ how.name]
  | .json => ["--json"]
  | .verbose => ["-v"]
  | .figure true x n => ["--" ++ x.name, toString n]
  | .figure false x n => ["--" ++ x.name ++ "=" ++ toString n]

def config? : Phrase → Option String
  | .config path => some path
  | _ => none

def mechanism? : Phrase → Option Mechanism
  | .mechanism _ how => some how
  | _ => none

def figure? (x : Figure) : Phrase → Option Nat
  | .figure _ y n => if y = x then some n else none
  | _ => none

/-- The phrase may be written there: figures have their places, and their bounds. -/
def Fits (place : Place) : Phrase → Prop
  | .figure _ x n => place = .after x.kind ∧ n < x.bound
  | _ => True

end Phrase

/-- The phrases, one after the other. -/
def wording (ps : List Phrase) : List String := ps.flatMap Phrase.words

/-- What the phrases of one side choose. -/
def chosen (ps : List Phrase) : Choices where
  config := ps.findSome? Phrase.config?
  mechanism := ps.findSome? Phrase.mechanism?
  json := ps.contains .json
  verbose := min 255 (ps.count .verbose)
  threads := ps.findSome? (Phrase.figure? .threads)
  steps := ps.findSome? (Phrase.figure? .steps)
  stepMs := ps.findSome? (Phrase.figure? .stepMs)
  workers := ps.findSome? (Phrase.figure? .workers)
  pauseMs := ps.findSome? (Phrase.figure? .pauseMs)

/-- What may stand on one side: phrases that fit there, none of them twice but for the flag that counts. -/
structure Proper (place : Place) (ps : List Phrase) : Prop where
  fits : ∀ p ∈ ps, p.Fits place
  config : (ps.filterMap Phrase.config?).length ≤ 1
  mechanism : (ps.filterMap Phrase.mechanism?).length ≤ 1
  json : ps.count .json ≤ 1
  figure : ∀ x, (ps.filterMap (Phrase.figure? x)).length ≤ 1

variable {place : Place} {p p' : Progress} {c c' : Choices} {s : Setting} {v name arg : String}
  {words rest : List String} {ps : List Phrase}

/-! Numbers. -/

theorem natural?_toString {b n : Nat} (h : n < b) : natural? b (toString n) = some n := by
  have hd : ∀ a ∈ Nat.toDigits 10 n, a.isDigit = true :=
    fun _ ha => Nat.isDigit_of_mem_toDigits (by decide) (by decide) ha
  have hr : digits? (Nat.toDigits 10 n) = some n := by
    rw [digits?, if_neg]
    · exact congrArg some (Nat.ofDigitChars_toDigits (by decide) (by decide))
    · simp only [Bool.or_eq_true, List.isEmpty_iff, Nat.toDigits_ne_nil, false_or,
        Bool.not_eq_true', List.all_eq_false]
      rintro ⟨a, ha, hn⟩
      exact hn (hd a ha)
  have hl : (toString n).toList = Nat.toDigits 10 n := Nat.toList_repr
  unfold natural?
  rw [hl]
  split
  next cs hc =>
    have := hd '+' (hc ▸ List.mem_cons_self)
    cases this
  next =>
    rw [hr]
    exact if_pos h

/-- No number begins with a dash. -/
theorem toString_ne_dash {n : Nat} {cs : List Char} : (toString n).toList ≠ '-' :: cs := by
  intro h
  have hl : (toString n).toList = Nat.toDigits 10 n := Nat.toList_repr
  have hd : '-' ∈ Nat.toDigits 10 n := hl ▸ h ▸ List.mem_cons_self
  have := Nat.isDigit_of_mem_toDigits (b := 10) (by decide) (by decide) hd
  cases this

theorem signed?_toString {b n : Nat} (h : n < b) : signed? b (toString n) = some n := by
  unfold signed?
  split
  next hc => exact absurd hc toString_ne_dash
  next => exact natural?_toString h

/-! One option after the other. -/

/-- All that has been read so far has been looked at, or can be, and comes to `c`. -/
structure Ready (p : Progress) (c : Choices) : Prop where
  awaits : p.isAwaiting = false
  resolves : p.resolve = .ok c

theorem ready_start : Ready {} {} := ⟨rfl, rfl⟩

/-- Whatever follows them, the words are read, and make `c'` of `c`. -/
def Reads (place : Place) (words : List String) (c c' : Choices) : Prop :=
  ∀ p rest, Ready p c → ∃ p', Ready p' c' ∧ side place p (words ++ rest) = side place p' rest

/-- A step that comes out goes on to the next. -/
theorem bind_ok {α β : Type} {x : Except UsageFault α} {a : α} {f : α → Except UsageFault β}
    (h : x = .ok a) : x >>= f = f a := h ▸ rfl

theorem Ready.set (h : Ready p c) (hc : c.set s v = .ok c') :
    ∃ p', p.set s v = .ok p' ∧ Ready p' c' := by
  refine ⟨{ choices := c' }, ?_, rfl, rfl⟩
  change (p.resolve >>= fun c => c.set s v >>= fun c => .ok ({ choices := c } : Progress)) = _
  rw [h.resolves]
  exact bind_ok hc

theorem Ready.raise {f : Flag} (h : Ready p c) (hc : c.raise f = .ok c') :
    ∃ p', p.raise f = .ok p' ∧ Ready p' c' := by
  refine ⟨{ choices := c' }, ?_, rfl, rfl⟩
  change (p.resolve >>= fun c => c.raise f >>= fun c => .ok ({ choices := c } : Progress)) = _
  rw [h.resolves]
  exact bind_ok hc

theorem Ready.await (h : Ready p c) :
    p.await s = .ok { choices := c, pending := some ⟨s, none⟩ } := by
  rw [Progress.await, h.resolves]
  rfl

/-- No scenario's word begins with a dash. -/
theorem keyword_of_dash {cs : List Char} (h : arg.toList = '-' :: cs) :
    Keyword.of? place arg = none := by
  unfold Keyword.of?
  split
  · cases h
  · cases h
  · cases h
  · rfl

section Words

variable {cs : List Char} (hr : Ready p c) (ha : arg.toList = '-' :: cs)
include hr ha

theorem side_long {v : Option String} (hs : Shape.of arg = .long name v)
    (hp : p.long place name v = .ok p') : side place p (arg :: rest) = side place p' rest := by
  simp only [side, hr.awaits, Bool.false_eq_true, if_false, keyword_of_dash ha, hs, hp]
  rfl

theorem side_short {as : List Char} (hs : Shape.of arg = .short as)
    (hp : p.short place as = .ok p') : side place p (arg :: rest) = side place p' rest := by
  simp only [side, hr.awaits, Bool.false_eq_true, if_false, keyword_of_dash ha, hs, hp]
  rfl

end Words

/-- The value that is awaited may be any word. -/
theorem side_value (hs : Shape.of v = .word) :
    side place { choices := c, pending := some ⟨s, none⟩ } (v :: rest) =
      side place { choices := c, pending := some ⟨s, some v⟩ } rest := by
  simp only [side, Progress.isAwaiting, if_true, hs]

section Options

variable {a : Char} (hc : c.set s v = .ok c')
include hc

theorem reads_long_equals (ho : Opt.ofLong? place name = some (.setting s))
    (hs : Shape.of ("--" ++ name ++ "=" ++ v) = .long name (some v)) :
    Reads place ["--" ++ name ++ "=" ++ v] c c' := by
  intro p rest hr
  obtain ⟨p', hp, hr'⟩ := hr.set hc
  have hw : ("--" ++ name ++ "=" ++ v).toList = '-' :: '-' :: (name ++ "=" ++ v).toList := by simp
  refine ⟨p', hr', side_long hr hw hs ?_⟩
  simp only [Progress.long, ho]
  exact hp

theorem ready_value : Ready { choices := c, pending := some ⟨s, some v⟩ } c' := ⟨rfl, hc⟩

theorem reads_long_apart (ho : Opt.ofLong? place name = some (.setting s))
    (hs : Shape.of ("--" ++ name) = .long name none) (hv : Shape.of v = .word) :
    Reads place ["--" ++ name, v] c c' := by
  intro p rest hr
  refine ⟨_, ready_value hc, ?_⟩
  have hp : p.long place name none = .ok { choices := c, pending := some ⟨s, none⟩ } := by
    simp only [Progress.long, ho]
    exact hr.await
  have hw : ("--" ++ name).toList = '-' :: '-' :: name.toList := by simp
  exact (side_long hr hw hs hp).trans (side_value hv)

theorem reads_letter_apart (ho : Opt.ofShort? place a = some (.setting s))
    (ha : arg.toList = ['-', a]) (hs : Shape.of arg = .short [a]) (hv : Shape.of v = .word) :
    Reads place [arg, v] c c' := by
  intro p rest hr
  refine ⟨_, ready_value hc, ?_⟩
  have hp : p.short place [a] = .ok { choices := c, pending := some ⟨s, none⟩ } := by
    simp only [Progress.short, ho]
    exact hr.await
  exact (side_short hr ha hs hp).trans (side_value hv)

theorem reads_letter_equals (ho : Opt.ofShort? place a = some (.setting s))
    (ha : arg.toList = '-' :: a :: '=' :: v.toList) (hs : Shape.of arg = .short (a :: '=' :: v.toList)) :
    Reads place [arg] c c' := by
  intro p rest hr
  obtain ⟨p', hp, hr'⟩ := hr.set hc
  refine ⟨p', hr', side_short hr ha hs ?_⟩
  simp only [Progress.short, ho, String.ofList_toList]
  exact hp

theorem reads_letter_joined {b : Char} {bs : List Char} (ho : Opt.ofShort? place a = some (.setting s))
    (hv : v.toList = b :: bs) (hb : b ≠ '=')
    (ha : arg.toList = '-' :: a :: v.toList) (hs : Shape.of arg = .short (a :: v.toList)) :
    Reads place [arg] c c' := by
  intro p rest hr
  obtain ⟨p', hp, hr'⟩ := hr.set hc
  refine ⟨p', hr', side_short hr ha hs ?_⟩
  have hp' : p.short place (a :: b :: bs) = p.set s (String.ofList (b :: bs)) := by
    simp only [Progress.short, ho]
    split
    next => contradiction
    next heq => exact absurd (List.cons.inj heq).1 hb
    next => rfl
  rw [hv, hp', ← hv, String.ofList_toList]
  exact hp

end Options

/-! The options that may stand on either side. -/

theorem ofLong_config : Opt.ofLong? place "config" = some (.setting .config) := by
  rcases place with _ | _ | _ <;> rfl

theorem ofLong_mechanism : Opt.ofLong? place "mechanism" = some (.setting .mechanism) := by
  rcases place with _ | _ | _ <;> rfl

theorem ofLong_json : Opt.ofLong? place "json" = some (.flag .json) := by
  rcases place with _ | _ | _ <;> rfl

theorem ofShort_mechanism : Opt.ofShort? place 'm' = some (.setting .mechanism) := by
  rcases place with _ | _ | _ <;> rfl

theorem ofShort_verbose : Opt.ofShort? place 'v' = some (.flag .verbose) := by
  rcases place with _ | _ | _ <;> rfl

theorem Figure.ofLong (x : Figure) :
    Opt.ofLong? (.after x.kind) x.name = some (.setting x.setting) := by
  cases x <;> rfl

/-- What a phrase makes of the choices before it. -/
def Phrase.choose (c : Choices) : Phrase → Except UsageFault Choices
  | .config path => c.set .config path
  | .mechanism _ how => c.set .mechanism how.name
  | .json => c.raise .json
  | .verbose => c.raise .verbose
  | .figure _ x n => c.set x.setting (toString n)

theorem shape_of_name (how : Mechanism) : Shape.of how.name = .word := by cases how <;> rfl

theorem shape_toString (n : Nat) : Shape.of (toString n) = .word := by
  unfold Shape.of
  split
  next h => exact absurd h toString_ne_dash
  next h => exact absurd h toString_ne_dash
  next h => rfl
  next h => exact absurd h toString_ne_dash
  next => rfl

theorem shape_figure (x : Figure) (v : String) :
    Shape.of ("--" ++ x.name ++ "=" ++ v) = .long x.name (some v) := by
  cases x <;> simp [Shape.of, String.toList_append, Figure.name]

/-- Each way to write an option is read as the option. -/
theorem Phrase.reads {x : Phrase} (hx : x.Fits place) (hc : x.choose c = .ok c') :
    Reads place x.words c c' := by
  cases x with
  | config path =>
    have hs : Shape.of ("--" ++ "config" ++ "=" ++ path) = .long "config" (some path) := by
      simp [Shape.of, String.toList_append]
    have h : Reads place ["--" ++ "config" ++ "=" ++ path] c c' :=
      reads_long_equals hc ofLong_config hs
    exact h
  | mechanism f how =>
    cases f with
    | apart =>
      have hs : Shape.of ("--" ++ "mechanism") = .long "mechanism" none := by rfl
      have h : Reads place ["--" ++ "mechanism", how.name] c c' :=
        reads_long_apart hc ofLong_mechanism hs (shape_of_name how)
      exact h
    | equals =>
      have hs : Shape.of ("--" ++ "mechanism" ++ "=" ++ how.name) =
          .long "mechanism" (some how.name) := by cases how <;> rfl
      have h : Reads place ["--" ++ "mechanism" ++ "=" ++ how.name] c c' :=
        reads_long_equals hc ofLong_mechanism hs
      exact h
    | letterApart => exact reads_letter_apart hc ofShort_mechanism rfl rfl (shape_of_name how)
    | letterEquals =>
      exact reads_letter_equals hc ofShort_mechanism (by cases how <;> rfl) (by cases how <;> rfl)
    | letterJoined =>
      cases how with
      | signal => exact reads_letter_joined hc ofShort_mechanism rfl (by decide) rfl rfl
      | safepoint => exact reads_letter_joined hc ofShort_mechanism rfl (by decide) rfl rfl
  -- a flag takes no value, so what comes behind it is left to the rest of the line
  | json =>
    intro p rest hr
    obtain ⟨p', hp, hr'⟩ := hr.raise (f := .json) hc
    have hw : "--json".toList = '-' :: "-json".toList := rfl
    have hs : Shape.of "--json" = .long "json" none := rfl
    refine ⟨p', hr', side_long hr hw hs ?_⟩
    simp only [Progress.long, ofLong_json]
    exact hp
  | verbose =>
    intro p rest hr
    obtain ⟨p', hp, hr'⟩ := hr.raise (f := .verbose) hc
    have hw : "-v".toList = '-' :: ['v'] := rfl
    have hs : Shape.of "-v" = .short ['v'] := rfl
    refine ⟨p', hr', side_short hr hw hs ?_⟩
    simp only [Progress.short, ofShort_verbose]
    exact bind_ok hp
  | figure isApart x n =>
    obtain ⟨rfl, -⟩ := hx
    cases isApart with
    | true => exact reads_long_apart hc x.ofLong (by cases x <;> rfl) (shape_toString n)
    | false =>
      exact reads_long_equals hc x.ofLong (shape_figure x _)

theorem Reads.append {words' : List String} {c'' : Choices} (h : Reads place words c c')
    (h' : Reads place words' c' c'') : Reads place (words ++ words') c c'' := by
  intro p rest hr
  obtain ⟨q, hq, he⟩ := h p (words' ++ rest) hr
  obtain ⟨q', hq', he'⟩ := h' q rest hq
  exact ⟨q', hq', by rw [List.append_assoc, he, he']⟩

/-! One side of the line. -/

theorem findSome_of_once {α β : Type} {f : α → Option β} {l : List α} {x : α} {b : β}
    (h : ((l ++ [x]).filterMap f).length ≤ 1) (hx : f x = some b) : l.findSome? f = none := by
  rw [List.filterMap_append, List.length_append, List.filterMap_cons_some hx] at h
  have hl : l.filterMap f = [] := List.length_eq_zero_iff.mp (Nat.le_zero.mp (Nat.le_of_succ_le_succ h))
  rw [← List.head?_filterMap, hl]
  rfl

theorem mechanism_ofName (how : Mechanism) : Mechanism.ofName? how.name = some how := by
  cases how <;> rfl

section Growth

attribute [local simp] Phrase.choose Choices.set Choices.raise Choices.has Choices.orElse chosen
  Phrase.config? Phrase.mechanism? Phrase.figure? Figure.setting List.findSome?_append

/-- What a side chooses grows with each phrase by what the phrase says. -/
theorem Proper.choose {x : Phrase} (h : Proper place (ps ++ [x])) :
    x.choose (chosen ps) = .ok (chosen (ps ++ [x])) := by
  cases x with
  | config path =>
    have hn := findSome_of_once h.config rfl
    simp [hn]
  | mechanism f how =>
    have hn := findSome_of_once h.mechanism rfl
    simp [hn, mechanism_ofName]
    rfl
  | json =>
    have hn : Phrase.json ∉ ps := by
      have hj := h.json
      rw [List.count_append, List.count_singleton_self] at hj
      exact List.count_eq_zero.mp (Nat.le_zero.mp (Nat.le_of_succ_le_succ hj))
    simp [hn]
  -- the count stops at what a byte can hold
  | verbose =>
    have hv : min 255 (min 255 (ps.count .verbose) + 1) = min 255 (ps.count .verbose + 1) := by
      omega
    simp [hv]
  | figure isApart x n =>
    have hn := findSome_of_once (f := Phrase.figure? x) (b := n) (h.figure x) (if_pos rfl)
    have hb := (h.fits (.figure isApart x n) (by simp)).2
    cases x with
    | steps =>
      have hr := signed?_toString (b := 0x100000000) hb
      rw [Nat.toString_eq_repr] at hr
      simp [hn, hr]
      rfl
    | threads | stepMs | workers | pauseMs =>
      have hr := natural?_toString (b := 0x10000000000000000) hb
      rw [Nat.toString_eq_repr] at hr
      simp [hn, hr]
      rfl

end Growth

theorem Proper.init {x : Phrase} (h : Proper place (ps ++ [x])) : Proper place ps where
  fits p hp := h.fits p (List.mem_append_left _ hp)
  config := le_trans (((List.sublist_append_left ps [x]).filterMap _).length_le) h.config
  mechanism := le_trans (((List.sublist_append_left ps [x]).filterMap _).length_le) h.mechanism
  json := le_trans ((List.sublist_append_left ps [x]).count_le _) h.json
  figure y := le_trans (((List.sublist_append_left ps [x]).filterMap _).length_le) (h.figure y)

/-- One side is read as what it chooses. -/
theorem Proper.reads (h : Proper place ps) : Reads place (wording ps) {} (chosen ps) := by
  induction ps using List.reverseRecOn with
  | nil => exact fun p rest hr => ⟨p, hr, rfl⟩
  | append_singleton ps x ih =>
    have hw : wording (ps ++ [x]) = wording ps ++ x.words := by simp [wording]
    rw [hw]
    exact (ih h.init).append (Phrase.reads (h.fits x (by simp)) h.choose)

/-- Both sides are read as what they choose, put together. -/
theorem parse_wording {k : ScenarioKind} {front after : List Phrase} (hf : Proper .front front)
    (ha : Proper (.after k) after) :
    parse (wording front ++ k.name :: wording after) =
      .ok (combine k (chosen front) (chosen after)) := by
  obtain ⟨p, hp, hs⟩ := hf.reads {} (k.name :: wording after) ready_start
  obtain ⟨q, hq, hs'⟩ := ha.reads {} [] ready_start
  have hk : Keyword.of? .front k.name = some (.scenario k) := by cases k <;> rfl
  have hw : side .front p (k.name :: wording after) = .ok (p, some (k, wording after)) := by
    simp only [side, hp.awaits, Bool.false_eq_true, if_false, hk]
  rw [List.append_nil] at hs'
  rw [parse, hs, bind_ok hw]
  simp only [hs', side]
  change (q.resolve >>= fun c => p.resolve >>= fun c' => .ok (combine k c' c)) = _
  rw [bind_ok hq.resolves, bind_ok hp.resolves]

/-! A whole line. -/

/-- The options that may stand on either side of the scenario's word. -/
inductive Global
  | config
  | mechanism
  | json
  | verbose
  deriving DecidableEq, Repr

namespace Scenario

def kind : Scenario → ScenarioKind
  | .stress .. => .stress
  | .stopTheWorld .. => .stopTheWorld

def figures : Scenario → List (Figure × Nat)
  | .stress threads steps stepMs => [(.threads, threads), (.steps, steps), (.stepMs, stepMs)]
  | .stopTheWorld workers pauseMs => [(.workers, workers), (.pauseMs, pauseMs)]

end Scenario

namespace Arguments

/-- The numbers fit into their words. -/
structure InRange (a : Arguments) : Prop where
  verbose : a.verbose ≤ 255
  figure : ∀ x ∈ a.scenario.figures, x.2 < x.1.bound

/-- How an option is said that may stand on either side. -/
def spoken (a : Arguments) (f : Form) : Global → List Phrase
  | .config => a.config.toList.map .config
  | .mechanism => a.mechanism.toList.map (.mechanism f)
  | .json => if a.json then [.json] else []
  | .verbose => List.replicate a.verbose .verbose

/-- The options that are said here, of those that may stand on either side. -/
def spokenOn (a : Arguments) (f : Form) (here : Global → Bool) : List Phrase :=
  [Global.config, .mechanism, .json, .verbose].flatMap fun g => if here g then a.spoken f g else []

/-- How the scenario's figures are said. -/
def spokenFigures (a : Arguments) (isApart : Figure → Bool) : List Phrase :=
  a.scenario.figures.map fun x => .figure (isApart x.1) x.1 x.2

variable {a : Arguments} {f : Form} {here : Global → Bool} {isApart : Figure → Bool} {g : Global}

theorem filterMap_spokenOn {β : Type} {φ : Phrase → Option β}
    (h : ∀ g', g' ≠ g → (a.spoken f g').filterMap φ = []) :
    (a.spokenOn f here).filterMap φ = if here g then (a.spoken f g).filterMap φ else [] := by
  have hall (g' : Global) : (if here g' then a.spoken f g' else []).filterMap φ =
      if g' = g then (if here g then (a.spoken f g).filterMap φ else []) else [] := by
    by_cases hg : g' = g
    · subst hg
      split <;> simp
    · split <;> simp [hg, h]
  cases g <;> simp [spokenOn, List.filterMap_append, hall]

theorem count_spokenOn {x : Phrase} (h : ∀ g', g' ≠ g → (a.spoken f g').count x = 0) :
    (a.spokenOn f here).count x = if here g then (a.spoken f g).count x else 0 := by
  have hall (g' : Global) : (if here g' then a.spoken f g' else []).count x =
      if g' = g then (if here g then (a.spoken f g).count x else 0) else 0 := by
    by_cases hg : g' = g
    · subst hg
      split <;> simp
    · split <;> simp [hg, h]
  cases g <;> simp [spokenOn, List.count_append, hall]

section Spoken

attribute [local simp] spoken Phrase.config? Phrase.mechanism? Phrase.figure? List.filterMap_map
  List.filterMap_replicate List.count_replicate Function.comp_def

theorem config_spokenOn : (a.spokenOn f here).filterMap Phrase.config? =
    if here .config then a.config.toList else [] := by
  rw [filterMap_spokenOn (g := .config)]
  · simp
  · rintro (_ | _ | _ | _) hg
    · contradiction
    all_goals simp

theorem mechanism_spokenOn : (a.spokenOn f here).filterMap Phrase.mechanism? =
    if here .mechanism then a.mechanism.toList else [] := by
  rw [filterMap_spokenOn (g := .mechanism)]
  · simp
  · rintro (_ | _ | _ | _) hg <;> simp at hg ⊢

theorem json_spokenOn : (a.spokenOn f here).count .json =
    if here .json && a.json then 1 else 0 := by
  rw [count_spokenOn (g := .json)]
  · cases here .json <;> cases hj : a.json <;> simp [hj]
  · rintro (_ | _ | _ | _) hg
    · cases hc : a.config <;> simp [hc]
    · cases hm : a.mechanism <;> simp [hm]
    · contradiction
    · simp

theorem verbose_spokenOn : (a.spokenOn f here).count .verbose =
    if here .verbose then a.verbose else 0 := by
  rw [count_spokenOn (g := .verbose)]
  · simp
  · rintro (_ | _ | _ | _) hg
    · cases hc : a.config <;> simp [hc]
    · cases hm : a.mechanism <;> simp [hm]
    · cases hj : a.json <;> simp [hj]
    · contradiction

theorem figure_spokenOn {x : Figure} : (a.spokenOn f here).filterMap (Phrase.figure? x) = [] := by
  rw [filterMap_spokenOn (g := .config)]
  · simp
  · rintro (_ | _ | _ | _) hg <;> simp at hg ⊢

theorem fits_of_spokenOn {x : Phrase} (h : x ∈ a.spokenOn f here) (place : Place) : x.Fits place := by
  cases x with
  | figure isApart x n =>
    have hm : n ∈ (a.spokenOn f here).filterMap (Phrase.figure? x) :=
      List.mem_filterMap.mpr ⟨_, h, if_pos rfl⟩
    rw [figure_spokenOn] at hm
    cases hm
  | _ => trivial

end Spoken

/-- The phrases of figures say nothing else. -/
theorem silent_spokenFigures (isApart : Figure → Bool) :
    (a.spokenFigures isApart).filterMap Phrase.config? = [] ∧
      (a.spokenFigures isApart).filterMap Phrase.mechanism? = [] ∧
      (a.spokenFigures isApart).count .json = 0 ∧ (a.spokenFigures isApart).count .verbose = 0 := by
  rcases hs : a.scenario <;>
    simp [spokenFigures, hs, Scenario.figures, Phrase.config?, Phrase.mechanism?]

theorem figure_spokenFigures {x : Figure} :
    (a.spokenFigures isApart).filterMap (Phrase.figure? x) =
      a.scenario.figures.filterMap fun y => if y.1 = x then some y.2 else none := by
  simp [spokenFigures, List.filterMap_map, Function.comp_def, Phrase.figure?]

theorem fits_of_spokenFigures (ha : a.InRange) {x : Phrase} (h : x ∈ a.spokenFigures isApart) :
    x.Fits (.after a.scenario.kind) := by
  obtain ⟨y, hy, rfl⟩ := List.mem_map.mp h
  refine ⟨?_, ha.figure y hy⟩
  cases hs : a.scenario with
  | stress | stopTheWorld =>
    rw [hs] at hy
    simp only [Scenario.figures, List.mem_cons, List.not_mem_nil, or_false] at hy
    rcases hy with rfl | rfl | rfl
    all_goals rfl

end Arguments

theorem filterMap_of_perm {α β : Type} {φ : α → Option β} {l l' : List α} (h : l.Perm l')
    (hl : (l'.filterMap φ).length ≤ 1) : l.filterMap φ = l'.filterMap φ := by
  have hp := h.filterMap φ
  rcases hn : l'.filterMap φ with _ | ⟨x, _ | ⟨y, xs⟩⟩
  · exact (hn ▸ hp).eq_nil
  · exact List.perm_singleton.mp (hn ▸ hp)
  · rw [hn] at hl
    simp at hl

theorem Proper.perm {ps' : List Phrase} (h : Proper place ps') (hp : ps.Perm ps') :
    Proper place ps where
  fits x hx := h.fits x (hp.mem_iff.mp hx)
  config := filterMap_of_perm hp h.config ▸ h.config
  mechanism := filterMap_of_perm hp h.mechanism ▸ h.mechanism
  json := hp.count_eq _ ▸ h.json
  figure x := filterMap_of_perm hp (h.figure x) ▸ h.figure x

/-- The order of the phrases is all the same. -/
theorem Proper.chosen_perm {ps' : List Phrase} (h : Proper place ps') (hp : ps.Perm ps') :
    chosen ps = chosen ps' := by
  have hsame {β : Type} {φ : Phrase → Option β} (hl : (ps'.filterMap φ).length ≤ 1) :
      ps.findSome? φ = ps'.findSome? φ := by
    rw [← List.head?_filterMap, ← List.head?_filterMap, filterMap_of_perm hp hl]
  have hj : ps.contains .json = ps'.contains .json := by
    rw [Bool.eq_iff_iff, List.contains_iff_mem, List.contains_iff_mem, hp.mem_iff]
  simp only [chosen, hsame h.config, hsame h.mechanism, hsame (h.figure _), hj, hp.count_eq]

/-- A phrase is among the others if it is counted. -/
theorem contains_json : ps.contains .json = decide (0 < ps.count .json) := by
  rw [Bool.eq_iff_iff, List.contains_iff_mem, decide_eq_true_iff, List.count_pos_iff]

section Lines

variable {a : Arguments} {f : Form} {here : Global → Bool} {isApart : Figure → Bool}

theorem length_toList_le {α : Type} (x : Option α) : x.toList.length ≤ 1 := by
  cases x <;> simp

theorem proper_spokenOn : Proper place (a.spokenOn f here) where
  fits x hx := a.fits_of_spokenOn hx place
  config := by
    rw [a.config_spokenOn]
    split
    · exact length_toList_le _
    · exact Nat.zero_le _
  mechanism := by
    rw [a.mechanism_spokenOn]
    split
    · exact length_toList_le _
    · exact Nat.zero_le _
  json := by
    rw [a.json_spokenOn]
    split <;> omega
  figure x := by
    rw [a.figure_spokenOn]
    exact Nat.zero_le _

/-- No figure is said twice. -/
theorem once_figures (x : Figure) :
    (a.scenario.figures.filterMap fun y => if y.1 = x then some y.2 else none).length ≤ 1 := by
  cases a.scenario <;> cases x <;> simp [Scenario.figures]

theorem proper_spoken (ha : a.InRange) (f : Form) (here : Global → Bool) (isApart : Figure → Bool) :
    Proper (.after a.scenario.kind) (a.spokenOn f here ++ a.spokenFigures isApart) := by
  obtain ⟨hc, hm, hj, -⟩ := a.silent_spokenFigures isApart
  have hp : Proper (.after a.scenario.kind) (a.spokenOn f here) := proper_spokenOn
  refine ⟨fun x hx => ?_, ?_, ?_, ?_, fun x => ?_⟩
  · rcases List.mem_append.mp hx with hx | hx
    · exact hp.fits x hx
    · exact a.fits_of_spokenFigures ha hx
  · rw [List.filterMap_append, hc, List.append_nil]
    exact hp.config
  · rw [List.filterMap_append, hm, List.append_nil]
    exact hp.mechanism
  · rw [List.count_append, hj]
    exact hp.json
  · rw [List.filterMap_append, a.figure_spokenOn, a.figure_spokenFigures, List.nil_append]
    exact once_figures x

/-- What is chosen where the options stand that may stand on either side. -/
theorem chosen_spokenOn (ha : a.InRange) (f : Form) (here : Global → Bool) {figures : List Phrase}
    (hs : figures.filterMap Phrase.config? = [] ∧ figures.filterMap Phrase.mechanism? = [] ∧
      figures.count .json = 0 ∧ figures.count .verbose = 0) :
    let c := chosen (a.spokenOn f here ++ figures)
    c.config = (if here .config then a.config else none) ∧
      c.mechanism = (if here .mechanism then a.mechanism else none) ∧
      c.json = (here .json && a.json) ∧ c.verbose = if here .verbose then a.verbose else 0 := by
  obtain ⟨hc, hm, hj, hv⟩ := hs
  refine ⟨?_, ?_, ?_, ?_⟩
  · simp only [chosen, ← List.head?_filterMap, List.filterMap_append, hc, a.config_spokenOn]
    split <;> simp
  · simp only [chosen, ← List.head?_filterMap, List.filterMap_append, hm, a.mechanism_spokenOn]
    split <;> simp
  · simp only [chosen, contains_json, List.count_append, hj, a.json_spokenOn]
    split <;> simp_all
  · have hb := ha.verbose
    simp only [chosen, List.count_append, hv, a.verbose_spokenOn]
    split <;> omega

theorem scenarioOf_spoken :
    scenarioOf a.scenario.kind (chosen (a.spokenOn f here ++ a.spokenFigures isApart)) =
      a.scenario := by
  have hf (x : Figure) : (a.spokenOn f here ++ a.spokenFigures isApart).findSome? (Phrase.figure? x) =
      (a.scenario.figures.filterMap fun y => if y.1 = x then some y.2 else none).head? := by
    rw [← List.head?_filterMap, List.filterMap_append, a.figure_spokenOn, a.figure_spokenFigures,
      List.nil_append]
  cases hs : a.scenario <;>
    simp [scenarioOf, Scenario.kind, chosen, hf, hs, Scenario.figures]

/-- The two sides together say what is meant, wherever the options stand. -/
theorem combine_spoken (ha : a.InRange) :
    combine a.scenario.kind (chosen (a.spokenOn f here))
      (chosen (a.spokenOn f (fun g => !here g) ++ a.spokenFigures isApart)) = a := by
  have hnil : ([] : List Phrase).filterMap Phrase.config? = [] ∧
      ([] : List Phrase).filterMap Phrase.mechanism? = [] ∧
      ([] : List Phrase).count .json = 0 ∧ ([] : List Phrase).count .verbose = 0 :=
    ⟨rfl, rfl, rfl, rfl⟩
  have hfront := chosen_spokenOn ha f here hnil
  rw [List.append_nil] at hfront
  obtain ⟨hc, hm, hj, hv⟩ := hfront
  obtain ⟨hc', hm', hj', hv'⟩ := chosen_spokenOn ha f (fun g => !here g)
    (a.silent_spokenFigures isApart)
  rw [combine, hc, hm, hj, hv, hc', hm', hj', hv', scenarioOf_spoken]
  obtain ⟨config, mechanism, json, verbose, scenario⟩ := a
  congr 1
  · cases here .config <;> simp
  · cases here .mechanism <;> simp
  · cases here .json <;> simp
  · cases here .verbose <;> simp_all

end Lines

theorem findSome_of_mem {α β : Type} {φ : α → Option β} {l : List α} {x : α} {b : β}
    (hl : (l.filterMap φ).length ≤ 1) (hx : x ∈ l) (hb : φ x = some b) : l.findSome? φ = some b := by
  have hm : b ∈ l.filterMap φ := List.mem_filterMap.mpr ⟨x, hx, hb⟩
  rw [← List.head?_filterMap]
  rcases hn : l.filterMap φ with _ | ⟨y, _ | ⟨z, ys⟩⟩
  · rw [hn] at hm
    cases hm
  · rw [hn] at hm
    rw [List.mem_singleton.mp hm]
    rfl
  · rw [hn] at hl
    simp at hl

/-- Whatever is meant, it is what is read, in whatever order the options stand, and on whichever side
of the scenario's word those stand that may stand on either. If a file, a mechanism or the flag that
counts stands on both sides, what is said behind the word decides alone. -/
theorem line_is_read_as_it_is_meant :
    (∀ (a : Arguments) (f : Form) (isApart : Figure → Bool) (before : Global → Bool)
      (front after : List Phrase), a.InRange → front.Perm (a.spokenOn f before) →
      after.Perm (a.spokenOn f (fun g => !before g) ++ a.spokenFigures isApart) →
      parse (wording front ++ a.scenario.kind.name :: wording after) = .ok a) ∧
    ∀ (k : ScenarioKind) (front after : List Phrase), Proper .front front → Proper (.after k) after →
      ∃ b, parse (wording front ++ k.name :: wording after) = .ok b ∧
        (∀ path, .config path ∈ after → b.config = some path) ∧
        (∀ f how, .mechanism f how ∈ after → b.mechanism = some how) ∧
        (.verbose ∈ after → b.verbose = min 255 (after.count .verbose)) := by
  refine ⟨fun a f isApart before front after ha hf hl => ?_, fun k front after hf hl => ?_⟩
  · have hpf : Proper .front (a.spokenOn f before) := proper_spokenOn
    have hpl := proper_spoken ha f (fun g => !before g) isApart
    -- a side means the same in whatever order its phrases stand
    rw [parse_wording (hpf.perm hf) (hpl.perm hl), hpf.chosen_perm hf, hpl.chosen_perm hl,
      combine_spoken ha]
  · refine ⟨_, parse_wording hf hl, fun path hm => ?_, fun f how hm => ?_, fun hm => ?_⟩
    · simp only [combine, chosen, findSome_of_mem hl.config hm rfl]
      rfl
    · simp only [combine, chosen, findSome_of_mem hl.mechanism hm rfl]
      rfl
    · have hpos := List.count_pos_iff.mpr hm
      have hne : min 255 (after.count .verbose) ≠ 0 := by omega
      exact if_neg hne

/-- A file whose name looks like an option, a flag on either side, and figures in both forms; and a
mechanism that is said twice. -/
theorem both_sides_are_read :
    (∃ a : Arguments, a.InRange ∧ a.config = some "-=" ∧
      parse (wording [.verbose, .config "-=", .verbose] ++ "stress" ::
        wording [.figure true .steps 2, .json, .figure false .threads 4, .figure false .stepMs 5]) =
          .ok a) ∧
      ∃ b, parse (wording [.mechanism .apart .signal, .verbose] ++ "stw" ::
        wording [.verbose, .mechanism .letterJoined .safepoint, .verbose]) = .ok b ∧
        b.mechanism = some .safepoint ∧ b.verbose = 2 := by
  constructor
  · have ha : Arguments.InRange
        { config := some "-=", json := true, verbose := 2, scenario := .stress 4 2 5 } :=
      ⟨by decide, by decide⟩
    exact ⟨_, ha, rfl, line_is_read_as_it_is_meant.1 _ .apart (· = .steps) (· ≠ .json) _ _ ha
      (by decide) (by decide)⟩
  · have hfront : Proper .front [.mechanism .apart .signal, .verbose] :=
      ⟨by simp [Phrase.Fits], by decide, by decide, by decide, fun _ => Nat.zero_le 1⟩
    have hafter : Proper (.after .stopTheWorld)
        [.verbose, .mechanism .letterJoined .safepoint, .verbose] :=
      ⟨by simp [Phrase.Fits], by decide, by decide, by decide, fun _ => Nat.zero_le 1⟩
    obtain ⟨b, hb, -, hm, hv⟩ :=
      line_is_read_as_it_is_meant.2 .stopTheWorld _ _ hfront hafter
    exact ⟨b, hb, hm .letterJoined _ (by simp), hv (by simp)⟩

end Standstill.CommandLine
