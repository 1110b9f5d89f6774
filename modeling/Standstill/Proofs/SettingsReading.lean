import Mathlib.Tactic
import Standstill.Proofs.TomlFigures
import Standstill.Proofs.TomlMembers
import Standstill.Proofs.TomlReading
import Standstill.SettingsFile

/-!
Reading settings from a document in which lines for the known members stand among lines and tables
that have nothing to do with them: each line counts, wherever it stands, and nothing else does.
-/
namespace Standstill.Settings

open Toml (Members Statement Document)

/-- The settings that are numbers. -/
inductive Figure
  | mutexCapacity
  | condCapacity
  | stackSize
  | warnAfterMs
  deriving DecidableEq, Repr

namespace Figure

def key : Figure → String
  | .mutexCapacity => "mutex_capacity"
  | .condCapacity => "cond_capacity"
  | .stackSize => "default_stack_size"
  | .warnAfterMs => "suspend_warn_after_ms"

def get (s : Settings) : Figure → Nat
  | .mutexCapacity => s.mutexCapacity
  | .condCapacity => s.condCapacity
  | .stackSize => s.stackSize
  | .warnAfterMs => s.warnAfterMs

def put (s : Settings) (n : Nat) : Figure → Settings
  | .mutexCapacity => { s with mutexCapacity := n }
  | .condCapacity => { s with condCapacity := n }
  | .stackSize => { s with stackSize := n }
  | .warnAfterMs => { s with warnAfterMs := n }

end Figure

/-- A known member with its value. -/
inductive Entry
  | figure (f : Figure) (n : Nat)
  | mechanism (m : Mechanism)
  deriving DecidableEq, Repr

namespace Entry

def key : Entry → String
  | .figure f _ => f.key
  | .mechanism _ => "stop_mechanism"

def value : Entry → Toml.Value
  | .figure _ n => .integer n
  | .mechanism m => .text m.name

/-- How the value is written: in decimal digits, or between quotes. -/
def written : Entry → String
  | .figure _ n => toString n
  | .mechanism m => "\"" ++ m.name ++ "\""

def text (e : Entry) : String := e.key ++ " = " ++ e.written

/-- A number fits into a word of 64 bits with a sign. -/
def InRange : Entry → Prop
  | .figure _ n => n < 2 ^ 63
  | .mechanism _ => True

def apply (s : Settings) : Entry → Settings
  | .figure f n => f.put s n
  | .mechanism m => { s with mechanism := m }

end Entry

/-- The settings with other values in the place of some. -/
def overlay (s : Settings) (es : List Entry) : Settings := es.foldl Entry.apply s

/-- The members that entries make. -/
def membersOf (es : List Entry) : Members := es.map fun e => (e.key, e.value)

section Values

variable {s : Settings} {e : Entry} {es : List Entry} {f : Figure} {ms : Members} {k : String}

theorem number?_of_lookup {ms' : Members} (h : ms.lookup k = ms'.lookup k) (d : Nat) :
    number? ms k d = number? ms' k d := by
  rw [number?, number?, h]

theorem get_apply_of_ne (h : e.key ≠ f.key) : f.get (e.apply s) = f.get s := by
  cases e with
  | mechanism m => cases f <;> rfl
  | figure g n => cases f <;> cases g <;> first | rfl | exact absurd rfl h

theorem mechanism_key_ne (f : Figure) : "stop_mechanism" ≠ f.key := by
  cases f <;> decide

theorem key_injective : Function.Injective Figure.key := by
  intro f g h
  cases f <;> cases g <;> first | rfl | exact absurd h (by decide)

theorem eq_figure_of_key (h : e.key = f.key) : ∃ n, e = .figure f n := by
  cases e with
  | figure g n =>
    cases key_injective h
    exact ⟨n, rfl⟩
  | mechanism m => exact absurd h (mechanism_key_ne f)

theorem get_overlay_of_ne (h : ∀ e ∈ es, e.key ≠ f.key) : f.get (overlay s es) = f.get s := by
  induction es generalizing s with
  | nil => rfl
  | cons e es ih =>
    calc f.get (overlay s (e :: es)) = f.get (e.apply s) := ih fun e' he' => h e' (by simp [he'])
      _ = f.get s := get_apply_of_ne (h e (by simp))

/-- A number is read as its entry says, or else as it was. -/
theorem number?_membersOf (hes : (es.map Entry.key).Nodup) :
    number? (membersOf es) f.key (f.get s) = some (f.get (overlay s es)) := by
  induction es generalizing s with
  | nil => rfl
  | cons e es ih =>
    obtain ⟨he, hes⟩ := List.nodup_cons.mp hes
    by_cases hk : e.key = f.key
    · obtain ⟨n, rfl⟩ := eq_figure_of_key hk
      have hrest : ∀ e' ∈ es, e'.key ≠ f.key := by
        rintro e' he' rfl'
        exact he (List.mem_map.mpr ⟨e', he', rfl'⟩)
      have hget : f.get (overlay s (.figure f n :: es)) = n := by
        refine (get_overlay_of_ne (s := f.put s n) hrest).trans ?_
        cases f <;> rfl
      have hlookup : (membersOf (.figure f n :: es)).lookup f.key = some (.integer n) := by
        simp [membersOf, Entry.key, Entry.value]
      rw [hget, number?, hlookup]
      simp
    · have hlookup : (membersOf (e :: es)).lookup f.key = (membersOf es).lookup f.key := by
        have hk' : (f.key == e.key) = false := beq_false_of_ne (Ne.symm hk)
        simp [membersOf, List.lookup_cons, hk']
      calc number? (membersOf (e :: es)) f.key (f.get s)
          = number? (membersOf es) f.key (f.get (e.apply s)) := by
            rw [number?_of_lookup hlookup, get_apply_of_ne hk]
        _ = some (f.get (overlay s (e :: es))) := ih hes

theorem mechanism_overlay_of_ne (h : ∀ e ∈ es, e.key ≠ "stop_mechanism") :
    (overlay s es).mechanism = s.mechanism := by
  induction es generalizing s with
  | nil => rfl
  | cons e es ih =>
    have he : (e.apply s).mechanism = s.mechanism := by
      cases e with
      | figure f n => cases f <;> rfl
      | mechanism m => exact absurd rfl (h (.mechanism m) (by simp))
    exact (ih fun e' he' => h e' (by simp [he'])).trans he

theorem mechanism?_membersOf (hes : (es.map Entry.key).Nodup) :
    mechanism? (membersOf es) s.mechanism = some (overlay s es).mechanism := by
  induction es generalizing s with
  | nil => rfl
  | cons e es ih =>
    obtain ⟨he, hes'⟩ := List.nodup_cons.mp hes
    cases e with
    | mechanism m =>
      have hrest : ∀ e' ∈ es, e'.key ≠ "stop_mechanism" := by
        intro e' he' hk
        exact he (List.mem_map.mpr ⟨e', he', hk⟩)
      have hget : (overlay s (.mechanism m :: es)).mechanism = m :=
        mechanism_overlay_of_ne (s := { s with mechanism := m }) hrest
      rw [hget]
      cases m <;> rfl
    | figure f n =>
      have hlookup : (membersOf (.figure f n :: es)).lookup "stop_mechanism" =
          (membersOf es).lookup "stop_mechanism" := by
        have hk : ("stop_mechanism" == f.key) = false := beq_false_of_ne (mechanism_key_ne f)
        simp only [membersOf, List.map_cons, List.lookup_cons, Entry.key, hk]
      have hmech : (f.put s n).mechanism = s.mechanism := by cases f <;> rfl
      calc mechanism? (membersOf (.figure f n :: es)) s.mechanism
          = mechanism? (membersOf es) (f.put s n).mechanism := by
            rw [mechanism?, hlookup, hmech]
            rfl
        _ = some (overlay s (.figure f n :: es)).mechanism := ih hes'

/-- Members that are, under the known names, those of some entries are read as the defaults with the
values of these entries. -/
theorem ofMembers?_eq_overlay (hes : (es.map Entry.key).Nodup)
    (hms : ∀ e : Entry, ms.lookup e.key = (membersOf es).lookup e.key) :
    ofMembers? ms = some (overlay {} es) := by
  have hnumber (f : Figure) : number? ms f.key (f.get {}) = some (f.get (overlay {} es)) :=
    (number?_of_lookup (hms (.figure f 0)) _).trans (number?_membersOf hes)
  have hmech : mechanism? ms ({} : Settings).mechanism = some (overlay {} es).mechanism := by
    have hlookup : ms.lookup "stop_mechanism" = (membersOf es).lookup "stop_mechanism" :=
      hms (.mechanism .signal)
    rw [← mechanism?_membersOf hes, mechanism?, mechanism?, hlookup]
  have h₁ := hnumber .mutexCapacity
  have h₂ := hnumber .condCapacity
  have h₃ := hnumber .stackSize
  have h₄ := hnumber .warnAfterMs
  simp only [Figure.key, Figure.get] at h₁ h₂ h₃ h₄
  simp only [ofMembers?, Option.bind_eq_bind, h₁, h₂, h₃, h₄, hmech, Option.bind_some]

end Values

section Texts

open Toml (EndsWord maxDepth line restOfLine)

variable {b rest : List Char} {e : Entry}

theorem value_written (he : e.InRange) (hb : EndsWord b) :
    Toml.value maxDepth (e.written.toList ++ b) = some (e.value, b) := by
  cases e with
  | mechanism m => cases m <;> rfl
  | figure f n =>
    have hdigits : (Entry.figure f n).written.toList = Nat.toDigits 10 n := Nat.toList_repr
    rw [hdigits]
    exact Toml.value_toDigits he hb

/-- A known key is a bare one. -/
theorem key_chars (e : Entry) :
    ∃ c w, e.key.toList = c :: w ∧ ∀ d ∈ c :: w, Toml.isBareKeyChar d := by
  have bare {k : String} (hk : e.key = k) (hne : k.toList ≠ [])
      (h : k.toList.all Toml.isBareKeyChar = true) :
      ∃ c w, e.key.toList = c :: w ∧ ∀ d ∈ c :: w, Toml.isBareKeyChar d := by
    obtain ⟨c, w, hcw⟩ := List.exists_cons_of_ne_nil hne
    exact ⟨c, w, by rw [hk, hcw], hcw ▸ List.all_eq_true.mp h⟩
  cases e with
  | mechanism m => exact bare (k := "stop_mechanism") rfl (by decide) (by decide)
  | figure f n =>
    cases f with
    | mutexCapacity => exact bare (k := "mutex_capacity") rfl (by decide) (by decide)
    | condCapacity => exact bare (k := "cond_capacity") rfl (by decide) (by decide)
    | stackSize => exact bare (k := "default_stack_size") rfl (by decide) (by decide)
    | warnAfterMs => exact bare (k := "suspend_warn_after_ms") rfl (by decide) (by decide)

theorem skipBlanks_written (e : Entry) (b : List Char) :
    Toml.skipBlanks (e.written.toList ++ b) = e.written.toList ++ b := by
  cases e with
  | mechanism m => cases m <;> rfl
  | figure f n =>
    have hdigits : (Entry.figure f n).written.toList = Nat.toDigits 10 n := Nat.toList_repr
    obtain ⟨c, t, hct⟩ := List.exists_cons_of_ne_nil (Nat.toDigits_ne_nil (b := 10) (n := n))
    have hc : c.isDigit := Toml.areDigits_toDigits n c (by simp [hct])
    have hbare : Toml.isBareKeyChar c := by simp [Toml.isBareKeyChar, Char.isAlphanum, hc]
    rw [hdigits, hct]
    exact Toml.skipBlanks_bare hbare

/-- An entry is a line, however this ends. -/
theorem line_entry (he : e.InRange) (hb : EndsWord b) (hrest : restOfLine b = some rest) :
    line (e.text.toList ++ b) = some (some (.assign [e.key] e.value), rest) := by
  obtain ⟨c, w, hcw, hbare⟩ := key_chars e
  have hkey : String.ofList (c :: w) = e.key := by rw [← hcw, String.ofList_toList]
  have htext : e.text.toList ++ b = c :: (w ++ ' ' :: '=' :: ' ' :: (e.written.toList ++ b)) := by
    simp [Entry.text, hcw]
  rw [htext, ← hkey]
  exact Toml.line_bare hbare (skipBlanks_written e b) (value_written he hb) hrest

end Texts

/-- A part of a document before its first header: an entry with what ends its line, or other text. -/
inductive Piece
  | known (e : Entry) (eol : String)
  | foreign (text : String)
  deriving DecidableEq, Repr

namespace Piece

def text : Piece → String
  | .known e eol => e.text ++ eol
  | .foreign t => t

/-- Before the text `rest` the piece is a line of its own, and what is foreign is no header. -/
def IsLine (rest : String) : Piece → Prop
  | .known e eol => e.InRange ∧ (eol = "\n" ∨ eol = "\r\n" ∨ eol = "" ∧ rest = "")
  | .foreign t =>
    t ≠ "" ∧ (Toml.EndsLine t.toList ∨ rest = "") ∧
      ∃ st, Toml.line t.toList = some (st, []) ∧ ∀ a ∈ st, ∃ key v, a = .assign key v

end Piece

/-- The pieces one after the other, and then the tables. -/
def document (tables : String) : List Piece → String
  | [] => tables
  | p :: ps => p.text ++ document tables ps

/-- The document without the lines of known members. -/
def remainder (tables : String) : List Piece → String
  | [] => tables
  | .known _ _ :: ps => remainder tables ps
  | .foreign t :: ps => t ++ remainder tables ps

def entries : List Piece → List Entry
  | [] => []
  | .known e _ :: ps => e :: entries ps
  | .foreign _ :: ps => entries ps

/-- Each piece is a line before those that come after it. -/
def AreLines (tables : String) : List Piece → Prop
  | [] => True
  | p :: ps => p.IsLine (document tables ps) ∧ AreLines tables ps

section Documents

variable {tables : String} {ps : List Piece}

theorem remainder_of_document (h : document tables ps = "") : remainder tables ps = "" := by
  induction ps with
  | nil => exact h
  | cons p ps ih =>
    obtain ⟨hp, hps⟩ := String.append_eq_empty_iff.mp h
    cases p with
    | known e eol => exact ih hps
    | foreign t =>
      rw [remainder, ih hps]
      exact (String.append_empty ..).trans hp

/-- The line of an entry before the rest of a document. -/
theorem line_known {e : Entry} {eol rest : String} (h : (Piece.known e eol).IsLine rest) :
    Toml.line ((e.text ++ eol).toList ++ rest.toList) =
      some (some (.assign [e.key] e.value), rest.toList) := by
  obtain ⟨he, heol⟩ := h
  rw [String.toList_append, List.append_assoc]
  obtain rfl | rfl | ⟨rfl, rfl⟩ := heol
  · refine line_entry he ?_ rfl
    rintro c ⟨⟩
    exact ⟨by decide, by decide⟩
  · refine line_entry he ?_ rfl
    rintro c ⟨⟩
    exact ⟨by decide, by decide⟩
  · refine line_entry he ?_ rfl
    rintro c ⟨⟩

theorem text_ne_nil (e : Entry) (eol : String) (b : List Char) :
    (e.text ++ eol).toList ++ b ≠ [] := by
  obtain ⟨c, w, hcw, -⟩ := key_chars e
  simp [Entry.text, hcw]

/-- Whatever document `sts` make at the root table, `sts'` make the same with other members beside,
and the entries are among these in the end. -/
def Adds (sts sts' : List Statement) (es : List Entry) : Prop :=
  ∀ {own : Members} {d d' e : Document}, d.current = [] → Document.Beside own d d' →
    sts.foldlM Document.take d = some e → (es.map Entry.key).Nodup →
    (∀ a ∈ es, own.lookup a.key = none ∧ e.root.lookup a.key = none) →
    (∀ k, e.root.lookup k ≠ none → own.lookup k = none) →
    ∃ e', sts'.foldlM Document.take d' = some e' ∧ Document.Beside (own ++ membersOf es) e e'

section Adds

variable {sts sts' : List Statement} {es : List Entry}

theorem adds_nil (sts : List Statement) : Adds sts sts [] := by
  intro own d d' e _ hd hsts _ _ hfree
  obtain ⟨e', he', hbeside⟩ := hd.foldlM hsts hfree
  exact ⟨e', he', by simpa [membersOf] using hbeside⟩

/-- An entry in front: its key is neither among the members that are there nor among those to come. -/
theorem Adds.entry (h : Adds sts sts' es) (a : Entry) :
    Adds sts (.assign [a.key] a.value :: sts') (a :: es) := by
  intro own d d' e hcur hd hsts hnodup hkeys hfree
  obtain ⟨ha, hnodup⟩ := List.nodup_cons.mp hnodup
  have hself := hkeys a (by simp)
  obtain ⟨d₁, hd₁, hbeside⟩ := hd.append (v := a.value) hcur hself.1
    (Document.lookup_eq_none_of_foldlM hsts hself.2)
  -- with this entry among the members, the keys of the others still have to be free
  have hkeys' : ∀ a' ∈ es, (own ++ [(a.key, a.value)] : Members).lookup a'.key = none ∧
      e.root.lookup a'.key = none := by
    intro a' ha'
    have hne : (a'.key == a.key) = false := by
      refine beq_false_of_ne fun hk => ha (List.mem_map.mpr ⟨a', ha', hk⟩)
    have := hkeys a' (by simp [ha'])
    simp [Members.lookup_append, List.lookup_cons, hne, this]
  have hfree' : ∀ k, e.root.lookup k ≠ none →
      (own ++ [(a.key, a.value)] : Members).lookup k = none := by
    intro k hk
    have hne : (k == a.key) = false := by
      refine beq_false_of_ne ?_
      rintro rfl
      exact hk hself.2
    simp [Members.lookup_append, List.lookup_cons, hne, hfree k hk]
  obtain ⟨e', he', hbeside'⟩ := h hcur hbeside hsts hnodup hkeys' hfree'
  refine ⟨e', ?_, ?_⟩
  · rw [List.foldlM_cons, hd₁]
    exact he'
  · rw [List.append_assoc] at hbeside'
    exact hbeside'

/-- The same member in front of both. -/
theorem Adds.assign (h : Adds sts sts' es) (key : List String) (v : Toml.Value) :
    Adds (.assign key v :: sts) (.assign key v :: sts') es := by
  intro own d d' e hcur hd hsts hnodup hkeys hfree
  obtain ⟨d₁, hd₁, hsts⟩ := Option.bind_eq_some_iff.mp hsts
  have hcur₁ : d₁.current = [] := by
    obtain ⟨root, -, hroot⟩ := Option.bind_eq_some_iff.mp hd₁
    cases hroot
    exact hcur
  obtain ⟨d₁', hd₁', hbeside⟩ := hd.take hd₁ fun k hk =>
    hfree k fun he => hk (Document.lookup_eq_none_of_foldlM hsts he)
  obtain ⟨e', he', hbeside'⟩ := h hcur₁ hbeside hsts hnodup hkeys hfree
  refine ⟨e', ?_, hbeside'⟩
  rw [List.foldlM_cons, hd₁']
  exact he'

end Adds

/-- With the lines of known members the document says what it says without them, and that these
members are there. -/
theorem document_beside (hlines : AreLines tables ps) {sts : List Statement}
    (h : Toml.statements? (remainder tables ps).toList = some sts) :
    ∃ sts', Toml.statements? (document tables ps).toList = some sts' ∧
      Adds sts sts' (entries ps) := by
  induction ps generalizing sts with
  | nil => exact ⟨sts, h, adds_nil sts⟩
  | cons p ps ih =>
    obtain ⟨hp, hps⟩ := hlines
    cases p with
    -- the line of a known member is one more statement before those of the rest
    | known a eol =>
      obtain ⟨sts', hsts', hadds⟩ := ih hps h
      refine ⟨.assign [a.key] a.value :: sts', ?_, hadds.entry a⟩
      rw [document, String.toList_append]
      exact (Toml.statements?_eq_some (text_ne_nil a eol _)).mpr
        ⟨_, _, _, line_known hp, hsts', rfl⟩
    -- any other piece is read as it would be without the known lines behind it
    | foreign t =>
      obtain ⟨hne, hends, st, hline, hassign⟩ := hp
      have hne' (b : List Char) : t.toList ++ b ≠ [] := by simp [hne]
      have hends' : Toml.EndsLine t.toList ∨ (remainder tables ps).toList = [] := by
        refine hends.imp id fun h => ?_
        rw [remainder_of_document h]
        rfl
      have hends'' : Toml.EndsLine t.toList ∨ (document tables ps).toList = [] := by
        refine hends.imp id fun h => ?_
        rw [h]
        rfl
      rw [remainder, String.toList_append, Toml.statements?_eq_some (hne' _)] at h
      obtain ⟨st', rest, sts₁, hline', hsts₁, rfl⟩ := h
      cases (Toml.line_before hends' hline).symm.trans hline'
      obtain ⟨sts', hsts', hadds⟩ := ih hps hsts₁
      refine ⟨st.toList ++ sts', ?_, ?_⟩
      · rw [document, String.toList_append, Piece.text]
        exact (Toml.statements?_eq_some (hne' _)).mpr
          ⟨st, _, sts', Toml.line_before hends'' hline, hsts', rfl⟩
      · cases st with
        | none => exact hadds
        | some a =>
          obtain ⟨key, v, rfl⟩ := hassign a rfl
          exact hadds.assign key v

/-- A line that can be read does not begin with a byte order mark. -/
theorem line_mark (s : List Char) : Toml.line ('\ufeff' :: s) = none := by
  have htext : Toml.lineText ('\ufeff' :: s) = none := by
    apply Toml.lineText_eq_none
    rintro d ⟨⟩
    exact ⟨by decide, by decide⟩
  have hpart : Toml.keyPart ('\ufeff' :: s) = none := by
    have hbare : Toml.isBareKeyChar '\ufeff' = false := by decide
    simp [Toml.keyPart, htext, List.span_eq_takeWhile_dropWhile, hbare]
  have hskip : Toml.skipBlanks ('\ufeff' :: s) = '\ufeff' :: s := rfl
  have hkey : Toml.key ('\ufeff' :: s) = none := by
    show Toml.keyParts (78 + 1) _ = none
    rw [Toml.keyParts, hskip, hpart]
    rfl
  have hassign : Toml.assignment ('\ufeff' :: s) = none := by
    rw [Toml.assignment, hkey]
    rfl
  have hstart : Toml.startsLine ('\ufeff' :: s) = false := by simp [Toml.startsLine_cons]
  rw [Toml.line_eq, Toml.saying_eq hskip, hassign, hstart]
  simp

theorem withoutMark_of_head {s : List Char} (h : s.head? ≠ some '\ufeff') :
    Toml.withoutMark s = s := by
  unfold Toml.withoutMark
  split
  · exact absurd rfl h
  · rfl

theorem head_foreign {t rest : String} (h : (Piece.foreign t).IsLine rest) (b : List Char) :
    (t.toList ++ b).head? ≠ some '\ufeff' := by
  obtain ⟨hne, -, st, hline, -⟩ := h
  cases ht : t.toList with
  | nil => exact absurd (String.toList_eq_nil_iff.mp ht) hne
  | cons c u =>
    rw [ht] at hline
    simp only [List.cons_append, List.head?_cons, ne_eq, Option.some.injEq]
    rintro rfl
    rw [line_mark] at hline
    cases hline

theorem head_document (hlines : AreLines tables ps)
    (htables : tables.toList.head? ≠ some '\ufeff') :
    (document tables ps).toList.head? ≠ some '\ufeff' := by
  cases ps with
  | nil => exact htables
  | cons p ps =>
    rw [document, String.toList_append]
    cases p with
    | foreign t => exact head_foreign hlines.1 _
    | known e eol =>
      obtain ⟨c, w, hcw, hbare⟩ := key_chars e
      have hc := Toml.bare_ne (hbare c (by simp)) (d := '\ufeff') (by decide)
      simp [Piece.text, Entry.text, hcw, hc]

theorem head_remainder (hlines : AreLines tables ps)
    (htables : tables.toList.head? ≠ some '\ufeff') :
    (remainder tables ps).toList.head? ≠ some '\ufeff' := by
  induction ps with
  | nil => exact htables
  | cons p ps ih =>
    cases p with
    | known e eol => exact ih hlines.2
    | foreign t =>
      rw [remainder, String.toList_append]
      exact head_foreign hlines.1 _

/-- The document is one, with the members that its pieces without the lines of known members make,
and with the known members beside them. -/
theorem parse?_document (hlines : AreLines tables ps)
    (htables : tables.toList.head? ≠ some '\ufeff') (hes : ((entries ps).map Entry.key).Nodup)
    {ms : Members} (hparse : Toml.parse? (remainder tables ps) = some ms)
    (hms : ∀ e : Entry, ms.lookup e.key = none) :
    ∃ ms', Toml.parse? (document tables ps) = some ms' ∧
      ∀ k, ms'.lookup k = ((membersOf (entries ps)).lookup k).or (ms.lookup k) := by
  obtain ⟨sts, hsts, h⟩ := Option.bind_eq_some_iff.mp hparse
  obtain ⟨d, hd, h⟩ := Option.bind_eq_some_iff.mp h
  cases h
  rw [withoutMark_of_head (head_remainder hlines htables)] at hsts
  obtain ⟨sts', hsts', hadds⟩ := document_beside hlines hsts
  have hempty : Document.Beside [] {} {} := ⟨rfl, fun _ => rfl⟩
  obtain ⟨e', he', hbeside⟩ := hadds rfl hempty hd hes
    (fun a _ => ⟨rfl, hms a⟩) fun _ _ => rfl
  refine ⟨e'.root, ?_, hbeside.lookup⟩
  rw [Toml.parse?, withoutMark_of_head (head_document hlines htables), hsts']
  show (Document.ofStatements sts').bind _ = _
  rw [Document.ofStatements, he']
  rfl

end Documents

/-- For lines of known members, each at most once and in any order, among lines and before tables that
are a document of their own without these members: what is read is the defaults with exactly the
values of the lines, unless these are of no use; then it is the first fault of them. And settings
that are read from any text have none of the faults for which a service is not established. -/
theorem known_members_override_the_defaults :
    (∀ (tables : String) (ps : List Piece) (ms : Members), AreLines tables ps →
      (∀ c, tables.toList.head? = some c → c = '[') →
      ((entries ps).map Entry.key).Nodup → Toml.parse? (remainder tables ps) = some ms →
      (∀ e : Entry, ms.lookup e.key = none) →
      let s := overlay {} (entries ps)
      read (document tables ps) =
        if s.mutexCapacity = 0 then .error (.unusable .noMutexes)
        else if s.condCapacity = 0 then .error (.unusable .noConds)
        else if s.stackSize < minStackSize then .error (.unusable .smallStack)
        else .ok s) ∧
      ∀ text s, read text = .ok s → s.fault? = none := by
  constructor
  -- the members of the document are those of the rest and the known ones beside them
  · intro tables ps ms hlines htables hes hparse hms s
    have hmark : tables.toList.head? ≠ some '\ufeff' := fun h => absurd (htables _ h) (by decide)
    obtain ⟨ms', hms', hlookup⟩ := parse?_document hlines hmark hes hparse hms
    have hread : ofMembers? ms' = some s :=
      ofMembers?_eq_overlay hes fun e => by rw [hlookup, hms, Option.or_none]
    rw [read, hms', Option.bind_some, hread]
    simp only [fault?]
    split_ifs <;> rfl
  -- settings come out of a text only if no fault was found with them
  · intro text s h
    unfold read at h
    split at h
    · cases h
    · split at h
      · cases h
      · next hnone =>
        cases h
        exact hnone

/-- Two known members and a foreign one before a table that has a known name for a member. -/
theorem safepoint_and_stack_are_read :
    read ("stop_mechanism = \"safepoint\"\r\ncolour.dark = [1,\n 2] # mine\n" ++
      "default_stack_size = 16384\n[other]\nmutex_capacity = 0\n") =
        .ok { stackSize := 16384, mechanism := .safepoint } ∧
      fault? { stackSize := 16384, mechanism := .safepoint } = none := by
  have hforeign : Toml.parse? "colour.dark = [1,\n 2] # mine\n[other]\nmutex_capacity = 0\n" =
      some [("colour", .table .dotted [("dark", .array [.integer 1, .integer 2])]),
        ("other", .table .header [("mutex_capacity", .integer 0)])] := by
    rfl
  have hnames (e : Entry) : List.lookup e.key
      [("colour", Toml.Value.table .dotted [("dark", .array [.integer 1, .integer 2])]),
        ("other", Toml.Value.table .header [("mutex_capacity", .integer 0)])] = none := by
    cases e with
    | figure f n => cases f <;> rfl
    | mechanism m => rfl
  have hstack : (Entry.figure .stackSize 16384).InRange := by
    show 16384 < 2 ^ 63
    decide
  have h := known_members_override_the_defaults.1 "[other]\nmutex_capacity = 0\n"
    [.known (.mechanism .safepoint) "\r\n", .foreign "colour.dark = [1,\n 2] # mine\n",
      .known (.figure .stackSize 16384) "\n"] _
    ⟨⟨trivial, .inr (.inl rfl)⟩,
      ⟨by decide, .inl rfl, some (.assign ["colour", "dark"] (.array [.integer 1, .integer 2])),
        rfl, fun a ha => ⟨_, _, (Option.some.inj ha).symm⟩⟩,
      ⟨hstack, .inl rfl⟩, trivial⟩
    (fun _ hc => (Option.some.inj hc).symm) (by decide) hforeign hnames
  exact ⟨h, known_members_override_the_defaults.2 _ _ h⟩

end Standstill.Settings
