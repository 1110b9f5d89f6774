import Mathlib.Data.List.TakeWhile
import Mathlib.Tactic
import Standstill.Toml.Document

/-!
Reading a document line by line: what has been read does not depend on what follows. If a text ends
with the end of a line, then a line in front of it is read as it is on its own.
-/
namespace Standstill.Toml

/-- The text ends with the end of a line. -/
def EndsLine (s : List Char) : Prop := s.getLast? = some '\n'

/-- A reader that has read `x` from `s` and left `rest` has come no further back. If `s` ends a line,
so does what is left, and with more text behind it all is the same. -/
def Leaves {α : Type} (r : Reader α) (s : List Char) (x : α) (rest : List Char) : Prop :=
  rest.length ≤ s.length ∧
    (EndsLine s → EndsLine rest ∧ ∀ b, r (s ++ b) = some (x, rest ++ b))

section Ends

variable {s rest : List Char} {c : Char} {p : Char → Bool}

theorem not_endsLine_nil : ¬EndsLine [] := by simp [EndsLine]

theorem EndsLine.ne_nil (h : EndsLine s) : s ≠ [] := by
  rintro rfl
  exact not_endsLine_nil h

theorem EndsLine.tail (h : EndsLine (c :: s)) (hs : s ≠ []) : EndsLine s := by
  simpa [EndsLine, List.getLast?_cons_of_ne_nil hs] using h

theorem EndsLine.tail_of_ne (h : EndsLine (c :: s)) (hc : c ≠ '\n') : EndsLine s := by
  refine h.tail ?_
  rintro rfl
  exact hc (by simpa [EndsLine] using h)

theorem EndsLine.of_suffix (h : EndsLine s) (hs : rest <:+ s) (hne : rest ≠ []) :
    EndsLine rest := by
  obtain ⟨front, rfl⟩ := hs
  simpa [EndsLine, List.getLast?_append_of_ne_nil front hne] using h

theorem startsLine_cons (c : Char) (s : List Char) :
    startsLine (c :: s) = (c == '\n' || (c == '\r' && s.head? == some '\n')) := by
  cases s <;> (unfold startsLine; split <;> simp_all)

theorem startsLine_append (h : EndsLine s) (b : List Char) :
    startsLine (s ++ b) = startsLine s := by
  match s, h with
  | [], h => exact absurd h not_endsLine_nil
  | [c], h =>
    have hc : c = '\n' := by simpa [EndsLine] using h
    simp [startsLine_cons, hc]
  | c :: d :: s, _ => simp [startsLine_cons]

theorem endsLine_dropWhile (hp : p '\n' = false) (h : EndsLine s) : EndsLine (s.dropWhile p) := by
  refine h.of_suffix (List.dropWhile_suffix p) fun hnil => ?_
  have hall := List.dropWhile_eq_nil_iff.mp hnil '\n' (List.mem_of_getLast? h)
  rw [hp] at hall
  cases hall

theorem dropWhile_append (hp : p '\n' = false) (h : EndsLine s) (b : List Char) :
    (s ++ b).dropWhile p = s.dropWhile p ++ b := by
  have hne := List.isEmpty_eq_false_iff.mpr (endsLine_dropWhile hp h).ne_nil
  rw [List.dropWhile_append, hne, if_neg Bool.false_ne_true]

theorem takeWhile_append (hp : p '\n' = false) (h : EndsLine s) (b : List Char) :
    (s ++ b).takeWhile p = s.takeWhile p := by
  have hne : (s.takeWhile p).length ≠ s.length := by
    intro hlen
    have hsplit := congrArg List.length (List.takeWhile_append_dropWhile (p := p) (l := s))
    rw [List.length_append] at hsplit
    have hpos := List.length_pos_of_ne_nil (endsLine_dropWhile hp h).ne_nil
    omega
  rw [List.takeWhile_append, if_neg hne]

theorem endsLine_skipBlanks (h : EndsLine s) : EndsLine (skipBlanks s) := endsLine_dropWhile rfl h

theorem skipBlanks_append (h : EndsLine s) (b : List Char) :
    skipBlanks (s ++ b) = skipBlanks s ++ b := dropWhile_append rfl h b

theorem length_skipBlanks_le (s : List Char) : (skipBlanks s).length ≤ s.length :=
  (List.dropWhile_suffix _).length_le

theorem lineAhead (h : EndsLine (c :: s)) (b : List Char) :
    startsLine (c :: (s ++ b)) = startsLine (c :: s) := startsLine_append h b

theorem gapAhead (h : EndsLine (c :: s)) (b : List Char) :
    startsLine (skipBlanks (c :: (s ++ b))) = startsLine (skipBlanks (c :: s)) := by
  rw [← List.cons_append, skipBlanks_append h, startsLine_append (endsLine_skipBlanks h)]

end Ends

section Leaving

variable {α β : Type} {r : Reader α} {s rest : List Char} {x : α} {c : Char}

/-- A reader that reads a character and then goes on as another does. -/
theorem Leaves.step {q : Reader α} (h : Leaves r s x rest) (hs : s ≠ [])
    (hq : EndsLine (c :: s) → ∀ b, q (c :: (s ++ b)) = r (s ++ b)) : Leaves q (c :: s) x rest := by
  refine ⟨Nat.le_succ_of_le h.1, fun he => ⟨(h.2 (he.tail hs)).1, fun b => ?_⟩⟩
  calc q (c :: s ++ b) = r (s ++ b) := hq he b
    _ = some (x, rest ++ b) := (h.2 (he.tail hs)).2 b

theorem Leaves.map {f : α → β} (h : Leaves r s x rest) :
    Leaves (fun s => (r s).map fun a => (f a.1, a.2)) s (f x) rest := by
  refine ⟨h.1, fun he => ⟨(h.2 he).1, fun b => ?_⟩⟩
  show ((r (s ++ b)).map fun a => (f a.1, a.2)) = _
  rw [(h.2 he).2 b]
  rfl

/-- Another reader that does the same on this text, with more text behind it or without. -/
theorem Leaves.congr {q : Reader α} (h : Leaves r s x rest)
    (hq : EndsLine s → ∀ b, q (s ++ b) = r (s ++ b)) : Leaves q s x rest :=
  ⟨h.1, fun he => ⟨(h.2 he).1, fun b => (hq he b).trans ((h.2 he).2 b)⟩⟩

end Leaving

section Strings

variable {x rest s : List Char} {a c quote : Char} {multi : Bool} {mark : Mark}

theorem push_eq_some {r : Option (List Char × List Char)} :
    push c r = some (x, rest) ↔ ∃ y, r = some (y, rest) ∧ x = c :: y := by
  cases r with
  | none => simp [push]
  | some p =>
    obtain ⟨y, s⟩ := p
    simp [push, and_comm, eq_comm]

theorem Leaves.push {q r : Reader (List Char)} (h : ∃ y, Leaves r s y rest ∧ x = a :: y)
    (hs : s ≠ []) (hq : EndsLine (c :: s) → ∀ b, q (c :: (s ++ b)) = Toml.push a (r (s ++ b))) :
    Leaves q (c :: s) x rest := by
  obtain ⟨y, h, rfl⟩ := h
  refine ⟨Nat.le_succ_of_le h.1, fun he => ⟨(h.2 (he.tail hs)).1, fun b => ?_⟩⟩
  calc q (c :: s ++ b) = Toml.push a (r (s ++ b)) := hq he b
    _ = some (a :: y, rest ++ b) := by rw [(h.2 (he.tail hs)).2 b]; rfl

theorem closes_append (hq : quote ≠ '\n') (h : EndsLine s) (b : List Char) :
    closes quote (s ++ b) = closes quote s := by
  match s, h with
  | [], h => exact absurd h not_endsLine_nil
  | [a], h =>
    have ha : a = '\n' := by simpa [EndsLine] using h
    subst ha
    cases b <;> simp [closes, hq.symm]
  | a :: a' :: s, _ => rfl

theorem closing_leaves (hq : quote ≠ '\n') (h : closing quote s = (x, rest)) :
    Leaves (fun s => some (closing quote s)) s x rest := by
  match s, h with
  | [], h => cases h; exact ⟨le_rfl, fun he => absurd he not_endsLine_nil⟩
  | [a], h =>
    by_cases ha : a = quote
    · subst ha
      refine ⟨by simp_all [closing], fun he => ?_⟩
      exact absurd (show a = '\n' by simpa [EndsLine] using he) hq
    · have hx : ([], [a]) = (x, rest) := by simpa [closing, ha] using h
      cases hx
      refine ⟨le_rfl, fun he => ⟨he, fun b => ?_⟩⟩
      cases b <;> simp [closing, ha]
  | a :: a' :: s, h =>
    by_cases ha : a = quote
    · subst ha
      by_cases ha' : a' = a
      · subst ha'
        have hx : ([a', a'], s) = (x, rest) := by simpa [closing] using h
        cases hx
        refine ⟨by simp only [List.length_cons]; omega, fun he => ?_⟩
        refine ⟨(he.tail_of_ne hq).tail_of_ne hq, fun b => ?_⟩
        simp [closing]
      · have hx : ([a], a' :: s) = (x, rest) := by simpa [closing, ha'] using h
        cases hx
        refine ⟨by simp, fun he => ⟨he.tail_of_ne hq, fun b => ?_⟩⟩
        simp [closing, ha']
    · have hx : ([], a :: a' :: s) = (x, rest) := by simpa [closing, ha] using h
      cases hx
      refine ⟨le_rfl, fun he => ⟨he, fun b => ?_⟩⟩
      simp [closing, ha]

theorem closes_eq_true (h : closes quote s) : ∃ t, s = quote :: quote :: t := by
  match s, h with
  | a :: a' :: t, h =>
    obtain ⟨rfl, rfl⟩ : a = quote ∧ a' = quote := by simpa [closes] using h
    exact ⟨t, rfl⟩

/-- The quotes that end a string on many lines, with those that still belong to it. -/
theorem closed_leaves (hq : quote ≠ '\n') (hc : closes quote s)
    (h : some (closing quote (s.drop 2)) = some (x, rest)) {q : Reader (List Char)}
    (hr : ∀ b, closes quote b → q (quote :: b) = some (closing quote (b.drop 2))) :
    Leaves q (quote :: s) x rest := by
  obtain ⟨t, rfl⟩ := closes_eq_true hc
  have ht : Leaves (fun s => some (closing quote s)) t x rest :=
    closing_leaves hq (Option.some.inj h)
  have hlen := ht.1
  refine ⟨by simp only [List.length_cons]; omega, fun he => ?_⟩
  have he' := ht.2 (((he.tail_of_ne hq).tail_of_ne hq).tail_of_ne hq)
  refine ⟨he'.1, fun b => (hr _ ?_).trans (he'.2 b)⟩
  simp [closes]

theorem ne_nil_of_quoted (h : quoted multi mark s = some (x, rest)) : s ≠ [] := by
  rintro rfl
  simp [quoted] at h

theorem quoted_leaves (h : quoted multi mark s = some (x, rest)) :
    Leaves (quoted multi mark) s x rest := by
  fun_induction quoted multi mark s generalizing x rest with
  | case1 | case6 | case7 | case10 | case18 => cases h
  -- After a backslash.
  | case2 c s hline ih =>
    exact (ih h).step (ne_nil_of_quoted h) fun he b => by simp [quoted, gapAhead he, hline]
  | case3 s hline ih =>
    exact (ih h).step (ne_nil_of_quoted h) fun he b => by simp [quoted, gapAhead he, hline]
  | case4 s hline hu ih =>
    exact (ih h).step (ne_nil_of_quoted h) fun he b => by simp [quoted, gapAhead he, hline]
  | case5 c s hline hu hU d hd ih =>
    obtain ⟨y, hy, hx⟩ := push_eq_some.mp h
    exact .push ⟨y, ih hy, hx⟩ (ne_nil_of_quoted hy) fun he b => by
      simp [quoted, gapAhead he, hline, hu, hU, hd]
  -- Within the number of a character.
  | case8 left value c s d hd value' hleft =>
    rename_i ih
    exact (ih h).step (ne_nil_of_quoted h) fun he b => by simp [quoted, hd, hleft, value']
  | case9 left value c s d hd value' hleft hvalid =>
    rename_i ih
    obtain ⟨y, hy, hx⟩ := push_eq_some.mp h
    exact .push ⟨y, ih hy, hx⟩ (ne_nil_of_quoted hy) fun he b => by
      simp [quoted, hd, hleft, hvalid, value']
  -- Anywhere else.
  | case11 mark c s hesc hnum hgap ih =>
    exact (ih h).step (ne_nil_of_quoted h) fun he b => by simp [quoted, lineAhead he, hgap]
  | case12 mark s hesc hnum hgap ih =>
    exact (ih h).step (ne_nil_of_quoted h) fun he b => by simp [quoted, lineAhead he, hgap]
  | case13 mark s hesc hnum hmulti hgap hback =>
    cases h
    refine ⟨by simp, fun he => ⟨he.tail_of_ne (by decide), fun b => ?_⟩⟩
    simp [quoted, lineAhead he, hgap, hmulti]
  | case14 mark s hesc hnum hmulti hclose hgap hback =>
    refine closed_leaves (by decide) hclose h fun b hb => ?_
    have hmulti : multi = true := by simpa using hmulti
    simp [quoted, startsLine_cons, isBlank, hmulti, hb]
  | case15 mark s hesc hnum hmulti hclose hgap hback ih =>
    obtain ⟨y, hy, hx⟩ := push_eq_some.mp h
    refine .push ⟨y, ih hy, hx⟩ (ne_nil_of_quoted hy) fun he b => ?_
    have hahead : closes '"' (s ++ b) = false := by
      rw [closes_append (by decide) (he.tail_of_ne (by decide))]
      simpa using hclose
    simp [quoted, lineAhead he, hgap, hmulti, hahead]
  | case16 mark c s hesc hnum hgap hback hquote hplain ih =>
    obtain ⟨y, hy, hx⟩ := push_eq_some.mp h
    exact .push ⟨y, ih hy, hx⟩ (ne_nil_of_quoted hy) fun he b => by
      simp [quoted, lineAhead he, hgap, hback, hquote, hplain]
  | case17 mark c s hesc hnum hgap hback hquote hplain hline ih =>
    exact (ih h).step (ne_nil_of_quoted h) fun he b => by
      simp [quoted, lineAhead he, hgap, hback, hquote, hplain, hline]

theorem ne_nil_of_literal (h : literal multi s = some (x, rest)) : s ≠ [] := by
  rintro rfl
  simp [literal] at h

theorem literal_leaves (h : literal multi s = some (x, rest)) : Leaves (literal multi) s x rest := by
  fun_induction literal multi s generalizing x rest with
  | case1 | case7 => cases h
  | case2 s hmulti =>
    cases h
    refine ⟨by simp, fun he => ⟨he.tail_of_ne (by decide), fun b => ?_⟩⟩
    simp [literal, hmulti]
  | case3 s hmulti hclose =>
    refine closed_leaves (by decide) hclose h fun b hb => ?_
    have hmulti : multi = true := by simpa using hmulti
    simp [literal, hmulti, hb]
  | case4 s hmulti hclose ih =>
    obtain ⟨y, hy, hx⟩ := push_eq_some.mp h
    refine .push ⟨y, ih hy, hx⟩ (ne_nil_of_literal hy) fun he b => ?_
    have hahead : closes '\'' (s ++ b) = false := by
      rw [closes_append (by decide) (he.tail_of_ne (by decide))]
      simpa using hclose
    simp [literal, hmulti, hahead]
  | case5 c s hquote hplain ih =>
    obtain ⟨y, hy, hx⟩ := push_eq_some.mp h
    exact .push ⟨y, ih hy, hx⟩ (ne_nil_of_literal hy) fun he b => by
      simp [literal, hquote, hplain]
  | case6 c s hquote hplain hline ih =>
    exact (ih h).step (ne_nil_of_literal h) fun he b => by
      simp [literal, hquote, hplain, lineAhead he, hline]

/-- A string of its own is a text: what a reader of characters leaves, the reader of it leaves. -/
theorem Leaves.toText {r : Reader (List Char)} {t : String}
    (hr : ∀ {y rest}, r s = some (y, rest) → Leaves r s y rest)
    (h : Toml.toText (r s) = some (t, rest)) : Leaves (fun s => Toml.toText (r s)) s t rest := by
  obtain ⟨⟨y, rest'⟩, hy, ht⟩ := Option.map_eq_some_iff.mp h
  cases ht
  exact (hr hy).map

theorem lineText_leaves {t : String} (h : lineText s = some (t, rest)) :
    Leaves lineText s t rest := by
  unfold lineText at h
  split at h
  · next s =>
    refine (Leaves.toText quoted_leaves h).step ?_ fun _ _ => rfl
    rintro rfl
    cases h
  · next s =>
    refine (Leaves.toText literal_leaves h).step ?_ fun _ _ => rfl
    rintro rfl
    cases h
  · cases h

theorem skipLineEnd_append (h : EndsLine s) (b : List Char) :
    skipLineEnd (s ++ b) = skipLineEnd s ++ b := by
  match s, h with
  | [], h => exact absurd h not_endsLine_nil
  | [c], h =>
    have hc : c = '\n' := by simpa [EndsLine] using h
    subst hc
    rfl
  | c :: d :: s, _ =>
    simp only [List.cons_append]
    unfold skipLineEnd
    split <;> simp_all

theorem skipLineEnd_suffix (s : List Char) : skipLineEnd s <:+ s := by
  unfold skipLineEnd
  split
  · exact List.suffix_cons _ _
  · exact (List.suffix_cons _ _).trans (List.suffix_cons _ _)
  · exact List.suffix_rfl

theorem Leaves.skipLineEnd {r : Reader (List Char)} (hne : Toml.skipLineEnd s ≠ [])
    (h : Leaves r (Toml.skipLineEnd s) x rest) :
    Leaves (fun s => r (Toml.skipLineEnd s)) s x rest := by
  refine ⟨h.1.trans (skipLineEnd_suffix s).length_le, fun he => ?_⟩
  have he' := h.2 (he.of_suffix (skipLineEnd_suffix s) hne)
  refine ⟨he'.1, fun b => ?_⟩
  show r (Toml.skipLineEnd (s ++ b)) = _
  rw [skipLineEnd_append he]
  exact he'.2 b

/-- Whether three of a quote come first can be seen in a text that ends a line. -/
theorem not_tripled (hq : quote ≠ '\n') (he : EndsLine s)
    (h : ∀ t, s = quote :: quote :: quote :: t → False) {b t : List Char} :
    s ++ b ≠ quote :: quote :: quote :: t := by
  intro e
  match s, he with
  | [], he => exact not_endsLine_nil he
  | [a], he =>
    have ha : a = '\n' := by simpa [EndsLine] using he
    exact hq (by rw [← (List.cons.inj e).1, ha])
  | [a, a'], he =>
    have ha : a' = '\n' := by simpa [EndsLine] using he
    exact hq (by rw [← (List.cons.inj (List.cons.inj e).2).1, ha])
  | a :: a' :: a'' :: s, _ =>
    simp only [List.cons_append, List.cons.injEq] at e
    obtain ⟨rfl, rfl, rfl, -⟩ := e
    exact h s rfl

/-- A string on many lines, after its opening quotes and the end of a line that may follow them. -/
theorem many_leaves {r : Reader (List Char)} {t : String} (hq : quote ≠ '\n')
    (hr : ∀ {u y rest}, r u = some (y, rest) → u ≠ [] ∧ Leaves r u y rest)
    (htext : ∀ b, text (quote :: quote :: quote :: b) = toText (r (skipLineEnd b)))
    (h : toText (r (skipLineEnd s)) = some (t, rest)) :
    Leaves text (quote :: quote :: quote :: s) t rest := by
  obtain ⟨⟨y, rest'⟩, hy, ht⟩ := Option.map_eq_some_iff.mp h
  cases ht
  have hl : Leaves (fun s => toText (r (skipLineEnd s))) s (String.ofList y) rest :=
    ((hr hy).2.skipLineEnd (hr hy).1).map
  refine ⟨by have hlen := hl.1; simp only [List.length_cons]; omega, fun he => ?_⟩
  have he' := hl.2 (((he.tail_of_ne hq).tail_of_ne hq).tail_of_ne hq)
  exact ⟨he'.1, fun b => (htext _).trans (he'.2 b)⟩

theorem text_leaves {t : String} (h : text s = some (t, rest)) : Leaves text s t rest := by
  unfold text at h
  split at h
  · exact many_leaves (by decide) (fun h => ⟨ne_nil_of_quoted h, quoted_leaves h⟩)
      (fun _ => rfl) h
  · exact many_leaves (by decide) (fun h => ⟨ne_nil_of_literal h, literal_leaves h⟩)
      (fun _ => rfl) h
  · next hdouble hsingle =>
    refine (lineText_leaves h).congr fun he b => ?_
    unfold text
    split
    · next e => exact absurd e (not_tripled (by decide) he hdouble)
    · next e => exact absurd e (not_tripled (by decide) he hsingle)
    · rfl

/-- What is no quote begins no string. -/
theorem text_eq_none (h : ∀ c, s.head? = some c → c ≠ '"' ∧ c ≠ '\'') : text s = none := by
  unfold text lineText
  split
  · exact absurd rfl (h _ rfl).1
  · exact absurd rfl (h _ rfl).2
  · split
    · exact absurd rfl (h _ rfl).1
    · exact absurd rfl (h _ rfl).2
    · rfl

theorem lineText_eq_none (h : ∀ c, s.head? = some c → c ≠ '"' ∧ c ≠ '\'') :
    lineText s = none := by
  unfold lineText
  split
  · exact absurd rfl (h _ rfl).1
  · exact absurd rfl (h _ rfl).2
  · rfl

end Strings

section Words

variable {s rest : List Char}

theorem span_append {p : Char → Bool} (hp : p '\n' = false) (h : EndsLine s) (b : List Char) :
    (s ++ b).span p = ((s.span p).1, (s.span p).2 ++ b) := by
  simp only [List.span_eq_takeWhile_dropWhile, takeWhile_append hp h, dropWhile_append hp h]

/-- A word ends within the line. -/
theorem scalar_append (h : EndsLine s) (b : List Char) :
    scalar (s ++ b) = (scalar s).map fun a => (a.1, a.2 ++ b) := by
  have hrest : EndsLine (s.span isWordChar).2 := by
    rw [List.span_eq_takeWhile_dropWhile]
    exact endsLine_dropWhile rfl h
  simp only [scalar, span_append (p := isWordChar) rfl h]
  generalize s.span isWordChar = word at hrest
  obtain ⟨w, rest⟩ := word
  match rest, hrest with
  | [], hrest => exact absurd hrest not_endsLine_nil
  | [c], hrest =>
    have hc : c = '\n' := by simpa [EndsLine] using hrest
    subst hc
    simp [Option.map_map, Function.comp_def]
  | c :: d :: t, hrest =>
    by_cases hc : c = ' '
    · subst hc
      have ht : EndsLine (d :: t) := hrest.tail_of_ne (by decide)
      simp only [List.cons_append]
      rw [← List.cons_append, span_append (p := isWordChar) rfl ht]
      split <;> [split; skip] <;> simp [Option.map_map, Function.comp_def]
    · simp [hc, Option.map_map, Function.comp_def]

/-- What is left after a word is what is left of some end of the text. -/
theorem scalar_rest {v : Value} (h : scalar s = some (v, rest)) :
    ∃ t, t <:+ s ∧ (s ≠ [] → t ≠ []) ∧ rest = t.dropWhile isWordChar := by
  have first {w : Option Value}
      (h : (w.map fun a => (a, s.dropWhile isWordChar)) = some (v, rest)) :
      ∃ t, t <:+ s ∧ (s ≠ [] → t ≠ []) ∧ rest = t.dropWhile isWordChar := by
    obtain ⟨a, -, e⟩ := Option.map_eq_some_iff.mp h
    cases e
    exact ⟨s, List.suffix_rfl, id, rfl⟩
  simp only [scalar, List.span_eq_takeWhile_dropWhile] at h
  split at h
  · next c t heq =>
    split at h
    · split at h
      · cases h
        have hsuffix : c :: t <:+ s :=
          (List.suffix_cons _ _).trans (heq ▸ List.dropWhile_suffix isWordChar)
        exact ⟨c :: t, hsuffix, fun _ => List.cons_ne_nil _ _, rfl⟩
      · cases h
    · exact first h
  · exact first h

theorem scalar_leaves {v : Value} (h : scalar s = some (v, rest)) : Leaves scalar s v rest := by
  obtain ⟨t, ht, hne, rfl⟩ := scalar_rest h
  refine ⟨((List.dropWhile_suffix _).trans ht).length_le, fun he => ⟨?_, fun b => ?_⟩⟩
  · exact endsLine_dropWhile rfl (he.of_suffix ht (hne he.ne_nil))
  · rw [scalar_append he, h]
    rfl

theorem word?_nil : word? [] = none := by decide +kernel

/-- A word has a character that may stand in a word, so no quote comes first. -/
theorem text_eq_none_of_scalar {v : Value} (h : scalar s = some (v, rest)) (b : List Char) :
    text (s ++ b) = none := by
  cases s with
  | nil => simp [scalar, word?_nil] at h
  | cons c t =>
    have hc : isWordChar c := by
      by_contra hc
      simp only [scalar, List.span_eq_takeWhile_dropWhile, List.takeWhile_cons, hc,
        if_false, word?_nil, Option.map_none, date?, two?] at h
      split at h <;> simp at h
    apply text_eq_none
    rintro d hd
    cases hd
    constructor
    · rintro rfl
      exact absurd hc (by decide)
    · rintro rfl
      exact absurd hc (by decide)

theorem keyPart_leaves {k : String} (h : keyPart s = some (k, rest)) : Leaves keyPart s k rest := by
  unfold keyPart at h
  split at h
  · next a ha =>
    cases h
    refine (lineText_leaves ha).congr fun he b => ?_
    unfold keyPart
    rw [((lineText_leaves ha).2 he).2 b]
  · next hnone =>
    simp only [List.span_eq_takeWhile_dropWhile] at h
    split at h
    · cases h
    · next hw =>
      cases h
      refine ⟨(List.dropWhile_suffix _).length_le, fun he => ?_⟩
      refine ⟨endsLine_dropWhile rfl he, fun b => ?_⟩
      -- A bare key does not begin with a quote, whatever follows it.
      have hquote : lineText (s ++ b) = none := by
        cases s with
        | nil => simp at hw
        | cons c t =>
          have hc : isBareKeyChar c := by
            by_contra hc
            simp [hc] at hw
          apply lineText_eq_none
          rintro d hd
          cases hd
          constructor
          · rintro rfl
            exact absurd hc (by decide)
          · rintro rfl
            exact absurd hc (by decide)
      unfold keyPart
      rw [hquote]
      simp only [span_append (p := isBareKeyChar) rfl he, List.span_eq_takeWhile_dropWhile]
      rw [if_neg hw]

theorem keyParts_leaves {n : Nat} {ks : List String} (h : keyParts n s = some (ks, rest)) :
    Leaves (keyParts n) s ks rest := by
  induction n generalizing s ks rest with
  | zero => cases h
  | succ n ih =>
    simp only [keyParts, Option.bind_eq_bind, Option.bind_eq_some_iff] at h
    obtain ⟨⟨part, s₁⟩, hpart, h⟩ := h
    have hp := keyPart_leaves hpart
    have hlen := hp.1.trans (length_skipBlanks_le s)
    have hlen' := length_skipBlanks_le s₁
    split at h
    · next s₂ hdot =>
      obtain ⟨⟨ks', s₃⟩, hks, h⟩ := Option.bind_eq_some_iff.mp h
      cases h
      have hk := ih hks
      rw [hdot, List.length_cons] at hlen'
      refine ⟨by have := hk.1; dsimp only; omega, fun he => ?_⟩
      have h₁ := hp.2 (endsLine_skipBlanks he)
      have h₂ : EndsLine s₂ := (hdot ▸ endsLine_skipBlanks h₁.1).tail_of_ne (by decide)
      refine ⟨(hk.2 h₂).1, fun b => ?_⟩
      simp only [keyParts, Option.bind_eq_bind, skipBlanks_append he, h₁.2 b,
        Option.bind_some, skipBlanks_append h₁.1, hdot, List.cons_append, (hk.2 h₂).2 b]
    -- the key ends here, and a dot in the text behind it does not carry it on
    · next hdot =>
      cases h
      refine ⟨hlen'.trans hlen, fun he => ?_⟩
      have h₁ := hp.2 (endsLine_skipBlanks he)
      have h₂ := endsLine_skipBlanks h₁.1
      refine ⟨h₂, fun b => ?_⟩
      simp only [keyParts, Option.bind_eq_bind, skipBlanks_append he, h₁.2 b,
        Option.bind_some, skipBlanks_append h₁.1]
      split
      · next s₂ hdot' =>
        cases hs : skipBlanks s₁ with
        | nil => exact absurd (hs ▸ h₂) not_endsLine_nil
        | cons c t =>
          rw [hs, List.cons_append] at hdot'
          rw [(List.cons.inj hdot').1] at hs
          exact absurd hs (hdot t)
      · rfl

theorem key_leaves {ks : List String} (h : key s = some (ks, rest)) : Leaves key s ks rest :=
  keyParts_leaves h

end Words

section Nested

variable {s rest : List Char} {item : Reader Value} {n m : Nat}

theorem skipFiller_suffix (inComment : Bool) (s : List Char) : skipFiller inComment s <:+ s := by
  fun_induction skipFiller inComment s with
  | case1 | case5 => exact List.suffix_rfl
  | case2 _ _ _ _ ih | case3 _ _ _ _ _ ih | case4 _ _ _ _ ih =>
    exact ih.trans (List.suffix_cons _ _)

theorem endsLine_skipFiller {inComment : Bool} (he : EndsLine s)
    (h : skipFiller inComment s ≠ []) : EndsLine (skipFiller inComment s) :=
  he.of_suffix (skipFiller_suffix _ _) h

/-- Filler that does not reach the end of the text is the same with more text behind it. -/
theorem skipFiller_append {inComment : Bool} (he : EndsLine s)
    (h : skipFiller inComment s ≠ []) (b : List Char) :
    skipFiller inComment (s ++ b) = skipFiller inComment s ++ b := by
  have tail {inComment : Bool} {s : List Char} (h : skipFiller inComment s ≠ []) : s ≠ [] := by
    rintro rfl
    exact h (by simp [skipFiller])
  fun_induction skipFiller inComment s with
  | case1 => exact absurd rfl h
  | case2 inComment c s hplain ih =>
    rw [List.cons_append, skipFiller, if_pos hplain]
    exact ih (he.tail (tail h)) h
  | case3 inComment c s hplain hblank ih =>
    rw [List.cons_append, skipFiller, if_neg hplain, lineAhead he, if_pos hblank]
    exact ih (he.tail (tail h)) h
  | case4 inComment s hplain hblank ih =>
    rw [List.cons_append, skipFiller, if_neg hplain, lineAhead he, if_neg hblank, if_pos rfl]
    exact ih (he.tail (tail h)) h
  | case5 inComment c s hplain hblank hhash =>
    rw [List.cons_append, skipFiller, if_neg hplain, lineAhead he, if_neg hblank, if_neg hhash]

/-- The items of an array: none, one, or one before a comma and the others after it. -/
theorem items_succ_eq_some {vs : List Value} : items item (n + 1) s = some (vs, rest) ↔
    (skipFiller false s = ']' :: rest ∧ vs = []) ∨
      (∀ t, skipFiller false s ≠ ']' :: t) ∧
        ∃ v s', item (skipFiller false s) = some (v, s') ∧
          ((skipFiller false s' = ']' :: rest ∧ vs = [v]) ∨
            ∃ t vs', skipFiller false s' = ',' :: t ∧ items item n t = some (vs', rest) ∧
              vs = v :: vs') := by
  rw [items]
  split
  · next t ht =>
    simp only [ht, Option.some.injEq, Prod.mk.injEq, List.cons.injEq, true_and]
    constructor
    · rintro ⟨rfl, rfl⟩
      exact .inl ⟨rfl, rfl⟩
    · rintro (⟨rfl, rfl⟩ | ⟨h, -⟩)
      · exact ⟨rfl, rfl⟩
      · exact absurd rfl (h t)
  -- the array does not close at once, so there is an item and then a bracket or a comma
  · next hclose =>
    have hclose' : ∀ t, skipFiller false s ≠ ']' :: t := fun t ht => hclose t ht
    simp only [Option.bind_eq_bind, Option.bind_eq_some_iff]
    constructor
    · rintro ⟨⟨v, s'⟩, hv, h⟩
      refine .inr ⟨hclose', v, s', hv, ?_⟩
      split at h
      · next t ht =>
        cases h
        exact .inl ⟨ht, rfl⟩
      · next t ht =>
        obtain ⟨⟨vs', rest'⟩, hvs, h⟩ := Option.bind_eq_some_iff.mp h
        cases h
        exact .inr ⟨t, vs', ht, hvs, rfl⟩
      · cases h
    · rintro (⟨h, -⟩ | ⟨-, v, s', hv, h⟩)
      · exact absurd h (hclose' _)
      · refine ⟨(v, s'), hv, ?_⟩
        obtain ⟨ht, rfl⟩ | ⟨t, vs', ht, hvs, rfl⟩ := h
        · simp only [ht]
        · simp only [ht, hvs, Option.bind_some]

theorem items_mono {vs : List Value} (h : items item n s = some (vs, rest)) (hnm : n ≤ m) :
    items item m s = some (vs, rest) := by
  induction n generalizing m s vs rest with
  | zero => cases h
  | succ n ih =>
    obtain ⟨m, rfl⟩ : ∃ k, m = k + 1 := ⟨m - 1, by omega⟩
    rw [items_succ_eq_some] at h ⊢
    obtain h | ⟨hclose, v, s', hv, h | ⟨t, vs', ht, hvs, hcons⟩⟩ := h
    · exact .inl h
    · exact .inr ⟨hclose, v, s', hv, .inl h⟩
    · exact .inr ⟨hclose, v, s', hv, .inr ⟨t, vs', ht, ih hvs (by omega), hcons⟩⟩

theorem append_ne_cons {c : Char} (hne : s ≠ []) (h : ∀ t, s ≠ c :: t) (b t : List Char) :
    s ++ b ≠ c :: t := by
  obtain ⟨d, s', rfl⟩ := List.exists_cons_of_ne_nil hne
  intro e
  rw [List.cons_append] at e
  exact h s' (by rw [(List.cons.inj e).1])

theorem items_leaves (hitem : ∀ {s v rest}, item s = some (v, rest) → Leaves item s v rest)
    {vs : List Value} (h : items item n s = some (vs, rest)) : Leaves (items item n) s vs rest := by
  induction n generalizing s vs rest with
  | zero => cases h
  | succ n ih =>
    have hlen := (skipFiller_suffix false s).length_le
    rw [items_succ_eq_some] at h
    obtain ⟨hs, rfl⟩ | ⟨hclose, v, s', hv, h⟩ := h
    · rw [hs, List.length_cons] at hlen
      refine ⟨by omega, fun he => ?_⟩
      have hne : skipFiller false s ≠ [] := by simp [hs]
      have he' := hs ▸ endsLine_skipFiller he hne
      refine ⟨he'.tail_of_ne (by decide), fun b => ?_⟩
      refine items_succ_eq_some.mpr (.inl ⟨?_, rfl⟩)
      rw [skipFiller_append he hne, hs]
      rfl
    · have hl := hitem hv
      have hlen' := (skipFiller_suffix false s').length_le
      -- After the item comes a bracket or a comma, so there is no filler up to the end.
      have hne' : skipFiller false s' ≠ [] := by
        obtain ⟨h, -⟩ | ⟨t, _, h, -⟩ := h <;> simp [h]
      have hne : skipFiller false s ≠ [] := by
        apply List.ne_nil_of_length_pos
        have hpos := List.length_pos_of_ne_nil hne'
        have := hl.1
        omega
      have hb (he : EndsLine s) := hl.2 (endsLine_skipFiller he hne)
      have hclose' (he : EndsLine s) (b t : List Char) :
          skipFiller false (s ++ b) ≠ ']' :: t := by
        rw [skipFiller_append he hne]
        exact append_ne_cons hne hclose b t
      have hitem' (he : EndsLine s) (b : List Char) :
          item (skipFiller false (s ++ b)) = some (v, s' ++ b) := by
        rw [skipFiller_append he hne]
        exact (hb he).2 b
      obtain ⟨hs', rfl⟩ | ⟨t, vs', ht, hvs, rfl⟩ := h
      · rw [hs', List.length_cons] at hlen'
        refine ⟨by have := hl.1; omega, fun he => ?_⟩
        have he' := hs' ▸ endsLine_skipFiller (hb he).1 hne'
        refine ⟨he'.tail_of_ne (by decide), fun b => items_succ_eq_some.mpr (.inr ?_)⟩
        refine ⟨hclose' he b, v, s' ++ b, hitem' he b, .inl ⟨?_, rfl⟩⟩
        rw [skipFiller_append (hb he).1 hne', hs']
        rfl
      · have hr := ih hvs
        rw [ht, List.length_cons] at hlen'
        refine ⟨by have := hl.1; have := hr.1; omega, fun he => ?_⟩
        have he' := ht ▸ endsLine_skipFiller (hb he).1 hne'
        have hr' := hr.2 (he'.tail_of_ne (by decide))
        refine ⟨hr'.1, fun b => items_succ_eq_some.mpr (.inr ?_)⟩
        refine ⟨hclose' he b, v, s' ++ b, hitem' he b, .inr ⟨t ++ b, vs', ?_, hr'.2 b, rfl⟩⟩
        rw [skipFiller_append (hb he).1 hne', ht]
        rfl

/-- The members between braces: the first, and the others after a comma. -/
theorem members_succ_eq_some {ms out : Members} :
    members item (n + 1) ms s = some (out, rest) ↔
      ∃ path s₁ v s₂ ms', key s = some (path, '=' :: s₁) ∧
        item (skipBlanks s₁) = some (v, s₂) ∧ ms.assign v path = some ms' ∧
        ((skipBlanks s₂ = '}' :: rest ∧ out = ms') ∨
          ∃ t, skipBlanks s₂ = ',' :: t ∧ members item n ms' t = some (out, rest)) := by
  simp only [members, Option.bind_eq_bind, Option.bind_eq_some_iff]
  constructor
  · rintro ⟨⟨path, s'⟩, hkey, h⟩
    split at h
    · next s₁ hs' =>
      simp only at hs'
      subst hs'
      obtain ⟨⟨v, s₂⟩, hv, h⟩ := Option.bind_eq_some_iff.mp h
      obtain ⟨ms', hms, h⟩ := Option.bind_eq_some_iff.mp h
      refine ⟨path, s₁, v, s₂, ms', hkey, hv, hms, ?_⟩
      split at h
      · next t ht =>
        cases h
        exact .inl ⟨ht, rfl⟩
      · next t ht => exact .inr ⟨t, ht, h⟩
      · cases h
    · cases h
  · rintro ⟨path, s₁, v, s₂, ms', hkey, hv, hms, h⟩
    refine ⟨(path, '=' :: s₁), hkey, ?_⟩
    simp only [hv, Option.bind_some, hms]
    obtain ⟨ht, rfl⟩ | ⟨t, ht, h⟩ := h
    · simp only [ht]
    · simp only [ht, h]

theorem members_mono {ms out : Members} (h : members item n ms s = some (out, rest))
    (hnm : n ≤ m) : members item m ms s = some (out, rest) := by
  induction n generalizing m s ms with
  | zero => cases h
  | succ n ih =>
    obtain ⟨m, rfl⟩ : ∃ k, m = k + 1 := ⟨m - 1, by omega⟩
    rw [members_succ_eq_some] at h ⊢
    obtain ⟨path, s₁, v, s₂, ms', hkey, hv, hms, h | ⟨t, ht, h⟩⟩ := h
    · exact ⟨path, s₁, v, s₂, ms', hkey, hv, hms, .inl h⟩
    · exact ⟨path, s₁, v, s₂, ms', hkey, hv, hms, .inr ⟨t, ht, ih h (by omega)⟩⟩

theorem members_leaves (hitem : ∀ {s v rest}, item s = some (v, rest) → Leaves item s v rest)
    {ms out : Members} (h : members item n ms s = some (out, rest)) :
    Leaves (members item n ms) s out rest := by
  induction n generalizing s ms with
  | zero => cases h
  | succ n ih =>
    rw [members_succ_eq_some] at h
    obtain ⟨path, s₁, v, s₂, ms', hkey, hv, hms, h⟩ := h
    have hk := key_leaves hkey
    have hl := hitem hv
    have hlen₁ := length_skipBlanks_le s₁
    have hlen₂ := length_skipBlanks_le s₂
    -- a key and a value are read, so less text is left
    have hlen : s₂.length < s.length := by
      have h₁ := hk.1
      have h₂ := hl.1
      rw [List.length_cons] at h₁
      omega
    have he₁ (he : EndsLine s) : EndsLine s₁ := (hk.2 he).1.tail_of_ne (by decide)
    have hb (he : EndsLine s) := hl.2 (endsLine_skipBlanks (he₁ he))
    have hv' (he : EndsLine s) (b : List Char) :
        item (skipBlanks (s₁ ++ b)) = some (v, s₂ ++ b) := by
      rw [skipBlanks_append (he₁ he)]
      exact (hb he).2 b
    -- behind the value the table is closed or goes on with a comma
    obtain ⟨hs₂, rfl⟩ | ⟨t, ht, h⟩ := h
    · rw [hs₂, List.length_cons] at hlen₂
      refine ⟨by omega, fun he => ?_⟩
      have he' := hs₂ ▸ endsLine_skipBlanks (hb he).1
      refine ⟨he'.tail_of_ne (by decide), fun b => members_succ_eq_some.mpr ?_⟩
      refine ⟨path, s₁ ++ b, v, s₂ ++ b, out, (hk.2 he).2 b, hv' he b, hms, .inl ⟨?_, rfl⟩⟩
      rw [skipBlanks_append (hb he).1, hs₂]
      rfl
    · have hr := ih h
      rw [ht, List.length_cons] at hlen₂
      refine ⟨by have := hr.1; omega, fun he => ?_⟩
      have he' := ht ▸ endsLine_skipBlanks (hb he).1
      have hr' := hr.2 (he'.tail_of_ne (by decide))
      refine ⟨hr'.1, fun b => members_succ_eq_some.mpr ?_⟩
      refine ⟨path, s₁ ++ b, v, s₂ ++ b, ms', (hk.2 he).2 b, hv' he b, hms, .inr ⟨t ++ b, ?_⟩⟩
      rw [skipBlanks_append (hb he).1, ht]
      exact ⟨rfl, hr'.2 b⟩

/-- A value that is no array and no table in braces. -/
theorem plain_leaves {v : Value}
    (h : (match text s with
      | some (t, s) => some (Value.text t, s)
      | none => scalar s) = some (v, rest)) :
    Leaves (fun s => match text s with
      | some (t, s) => some (Value.text t, s)
      | none => scalar s) s v rest := by
  split at h
  · next t s' ht =>
    cases h
    refine (text_leaves ht).map.congr fun he b => ?_
    simp only [((text_leaves ht).2 he).2 b, Option.map_some]
  · refine (scalar_leaves h).congr fun he b => ?_
    simp only [text_eq_none_of_scalar h b]

theorem value_leaves {depth : Nat} {v : Value} (h : value depth s = some (v, rest)) :
    Leaves (value depth) s v rest := by
  induction depth generalizing s v rest with
  | zero => exact plain_leaves h
  | succ depth ih =>
    unfold value at h
    split at h
    -- an array: its items are read with the depth that is left
    · next t =>
      obtain ⟨⟨vs, s'⟩, hvs, h⟩ := Option.bind_eq_some_iff.mp h
      cases h
      have hi := items_leaves ih hvs
      refine ⟨Nat.le_succ_of_le hi.1, fun he => ?_⟩
      have hi' := hi.2 (he.tail_of_ne (by decide))
      refine ⟨hi'.1, fun b => ?_⟩
      have hvs' := items_mono (hi'.2 b) (m := (t ++ b).length + 1) (by simp)
      simp only [List.cons_append, value, Option.bind_eq_bind, hvs', Option.bind_some]
    · next t =>
      split at h
      · next s' hs' =>
        cases h
        have hlen := length_skipBlanks_le t
        rw [hs', List.length_cons] at hlen
        refine ⟨by rw [List.length_cons]; omega, fun he => ?_⟩
        have het := he.tail_of_ne (by decide)
        have he' := hs' ▸ endsLine_skipBlanks het
        refine ⟨he'.tail_of_ne (by decide), fun b => ?_⟩
        simp only [List.cons_append, value, skipBlanks_append het, hs']
      -- with more text behind it, the table still does not close at once
      · next hclose =>
        obtain ⟨⟨ms, s'⟩, hms, h⟩ := Option.bind_eq_some_iff.mp h
        cases h
        have hm := members_leaves ih hms
        refine ⟨Nat.le_succ_of_le hm.1, fun he => ?_⟩
        have het := he.tail_of_ne (by decide)
        have hm' := hm.2 het
        refine ⟨hm'.1, fun b => ?_⟩
        have hms' := members_mono (hm'.2 b) (m := (t ++ b).length + 1) (by simp)
        simp only [List.cons_append, value, Option.bind_eq_bind]
        split
        · next u hu =>
          rw [skipBlanks_append het] at hu
          exact absurd hu
            (append_ne_cons (endsLine_skipBlanks het).ne_nil (fun t ht => hclose t ht) b u)
        · rw [hms', Option.bind_some]
    -- what begins with neither bracket does not begin with one when text is put behind it
    · next harray hbraces =>
      refine (plain_leaves h).congr fun he b => ?_
      have h₁ := append_ne_cons he.ne_nil (fun t ht => harray t ht) b
      have h₂ := append_ne_cons he.ne_nil (fun t ht => hbraces t ht) b
      unfold value
      split
      · next t ht => exact absurd ht (h₁ t)
      · next t ht => exact absurd ht (h₂ t)
      · rfl

end Nested

section Lines

variable {s rest : List Char}

theorem assignment_leaves {st : Statement} (h : assignment s = some (st, rest)) :
    Leaves assignment s st rest ∧ rest.length < s.length := by
  simp only [assignment, Option.bind_eq_bind, Option.bind_eq_some_iff] at h
  obtain ⟨⟨path, s'⟩, hkey, h⟩ := h
  split at h
  · next s₁ hs' =>
    simp only at hs'
    subst hs'
    obtain ⟨⟨v, s₂⟩, hv, h⟩ := Option.bind_eq_some_iff.mp h
    cases h
    have hk := key_leaves hkey
    have hl := value_leaves hv
    have hlen : s₂.length < s.length := by
      have h₁ := hk.1
      have h₂ := hl.1.trans (length_skipBlanks_le s₁)
      rw [List.length_cons] at h₁
      omega
    refine ⟨⟨hlen.le, fun he => ?_⟩, hlen⟩
    have he₁ : EndsLine s₁ := (hk.2 he).1.tail_of_ne (by decide)
    have hl' := hl.2 (endsLine_skipBlanks he₁)
    refine ⟨hl'.1, fun b => ?_⟩
    simp only [assignment, Option.bind_eq_bind, (hk.2 he).2 b, Option.bind_some,
      List.cons_append, skipBlanks_append he₁, hl'.2 b]
  · cases h

theorem header_leaves {st : Statement} (h : header s = some (st, rest)) :
    Leaves header s st rest := by
  unfold header at h
  split at h
  · next t =>
    simp only [Option.bind_eq_bind, Option.bind_eq_some_iff] at h
    obtain ⟨⟨path, s'⟩, hkey, h⟩ := h
    have hk := key_leaves hkey
    split at h
    · next u hu =>
      simp only at hu
      subst hu
      cases h
      have hlen := hk.1
      simp only [List.length_cons] at hlen
      refine ⟨by simp only [List.length_cons]; omega, fun he => ?_⟩
      have hk' := hk.2 (he.tail_of_ne (by decide))
      refine ⟨(hk'.1.tail_of_ne (by decide)).tail_of_ne (by decide), fun b => ?_⟩
      simp only [List.cons_append, header, Option.bind_eq_bind, hk'.2 b, Option.bind_some]
    · cases h
  -- a header in single brackets does not turn into one in double brackets by what comes behind it
  · next hdouble =>
    simp only [Option.bind_eq_bind, Option.bind_eq_some_iff] at h
    obtain ⟨⟨path, s'⟩, hkey, h⟩ := h
    have hk := key_leaves hkey
    split at h
    · next u hu =>
      simp only at hu
      subst hu
      cases h
      have hlen := hk.1
      simp only [List.length_cons] at hlen
      refine ⟨by omega, fun he => ?_⟩
      refine ⟨(hk.2 he).1.tail_of_ne (by decide), fun b => ?_⟩
      have hdouble' := append_ne_cons he.ne_nil (fun t ht => hdouble t ht) b
      unfold header
      split
      · next t ht => exact absurd ht (hdouble' t)
      · simp only [Option.bind_eq_bind, (hk.2 he).2 b, Option.bind_some, List.cons_append]
    · cases h

/-- What may stand before the end of a line: blanks, and a comment. -/
def dropComment (s : List Char) : List Char :=
  match skipBlanks s with
  | '#' :: s => s.dropWhile isPlain
  | s => s

theorem restOfLine_eq (s : List Char) : restOfLine s =
    if (dropComment s).isEmpty then some []
    else if startsLine (dropComment s) then some (skipLineEnd (dropComment s)) else none := rfl

theorem dropComment_suffix (s : List Char) : dropComment s <:+ s := by
  have hs : skipBlanks s <:+ s := List.dropWhile_suffix _
  unfold dropComment
  split
  · next t ht =>
    exact (List.dropWhile_suffix _).trans ((List.suffix_cons _ _).trans (ht ▸ hs))
  · exact hs

theorem endsLine_dropComment (he : EndsLine s) : EndsLine (dropComment s) := by
  have he' := endsLine_skipBlanks he
  unfold dropComment
  split
  · next t ht => exact endsLine_dropWhile rfl ((ht ▸ he').tail_of_ne (by decide))
  · exact he'

theorem dropComment_append (he : EndsLine s) (b : List Char) :
    dropComment (s ++ b) = dropComment s ++ b := by
  have he' := endsLine_skipBlanks he
  unfold dropComment
  rw [skipBlanks_append he]
  cases hs : skipBlanks s with
  | nil => exact absurd (hs ▸ he') not_endsLine_nil
  | cons c t =>
    by_cases hc : c = '#'
    · subst hc
      exact dropWhile_append rfl ((hs ▸ he').tail_of_ne (by decide)) b
    · simp [hc]

theorem length_skipLineEnd_lt (h : startsLine s) : (skipLineEnd s).length < s.length := by
  unfold startsLine at h
  split at h
  · simp [skipLineEnd]
  · simp only [skipLineEnd, List.length_cons]
    omega
  · cases h

theorem restOfLine_length (h : restOfLine s = some rest) :
    rest.length ≤ s.length ∧ (s ≠ [] → rest.length < s.length) := by
  have hlen := (dropComment_suffix s).length_le
  rw [restOfLine_eq] at h
  split at h
  · cases h
    exact ⟨Nat.zero_le _, fun hs => List.length_pos_of_ne_nil hs⟩
  · split at h
    · next hline =>
      cases h
      have := length_skipLineEnd_lt hline
      omega
    · cases h

/-- The end of a line is found in the text that it ends. -/
theorem restOfLine_append (he : EndsLine s) (h : restOfLine s = some rest) (b : List Char) :
    restOfLine (s ++ b) = some (rest ++ b) := by
  have he' := endsLine_dropComment he
  have hempty := List.isEmpty_eq_false_iff.mpr he'.ne_nil
  rw [restOfLine_eq, hempty, if_neg Bool.false_ne_true] at h
  split at h
  · next hline =>
    cases h
    have hempty' : (dropComment s ++ b).isEmpty = false := by
      simp [he'.ne_nil]
    rw [restOfLine_eq, dropComment_append he, hempty', if_neg Bool.false_ne_true,
      startsLine_append he', if_pos hline, skipLineEnd_append he']
  · cases h

/-- What a line says, before the rest of it. -/
def saying (s : List Char) : Option (Option Statement × List Char) :=
  match skipBlanks s with
  | [] => some (none, [])
  | '[' :: s => (header s).map fun a => (some a.1, a.2)
  | c :: s =>
    if c = '#' ∨ startsLine (c :: s) then some (none, c :: s)
    else (assignment (c :: s)).map fun a => (some a.1, a.2)

theorem line_eq (s : List Char) :
    line s = (saying s).bind fun a => (restOfLine a.2).bind fun s => some (a.1, s) := by
  unfold line saying
  match skipBlanks s with
  | [] => rfl
  | c :: t =>
    by_cases hc : c = '['
    · subst hc
      show ((header t).bind fun a => (some (some a.1, a.2)).bind fun a =>
          (restOfLine a.2).bind fun s => some (a.1, s)) =
        ((header t).map fun a => (some a.1, a.2)).bind fun a =>
          (restOfLine a.2).bind fun s => some (a.1, s)
      cases header t <;> rfl
    · by_cases hline : c = '#' ∨ startsLine (c :: t)
      · simp only [hline, if_true]
        rfl
      · simp only [hline, if_false]
        cases assignment (c :: t) <;> rfl

theorem saying_eq {c : Char} {t : List Char} (hs : skipBlanks s = c :: t) : saying s =
    if c = '[' then (header t).map fun a => (some a.1, a.2)
    else if c = '#' ∨ startsLine (c :: t) then some (none, c :: t)
    else (assignment (c :: t)).map fun a => (some a.1, a.2) := by
  unfold saying
  rw [hs]
  by_cases hc : c = '['
  · subst hc
    rfl
  · simp [hc]

/-- Lines that say something, or nothing. -/
theorem saying_leaves {st : Option Statement} (h : saying s = some (st, rest)) :
    Leaves saying s st rest := by
  have hlen := length_skipBlanks_le s
  -- the text is over, or the line is a header, says nothing, or is an assignment
  match hs : skipBlanks s with
  | [] =>
    have h' : (none, []) = (st, rest) := by simpa [saying, hs] using h
    cases h'
    exact ⟨Nat.zero_le _, fun he => absurd (hs ▸ endsLine_skipBlanks he) not_endsLine_nil⟩
  | c :: t =>
    have hahead (he : EndsLine s) (b : List Char) : skipBlanks (s ++ b) = c :: (t ++ b) := by
      rw [skipBlanks_append he, hs, List.cons_append]
    have hect (he : EndsLine s) : EndsLine (c :: t) := hs ▸ endsLine_skipBlanks he
    rw [hs, List.length_cons] at hlen
    rw [saying_eq hs] at h
    split at h
    · next hc =>
      obtain ⟨⟨st', s'⟩, hst, h⟩ := Option.map_eq_some_iff.mp h
      cases h
      have hl := header_leaves hst
      refine ⟨by have := hl.1; dsimp only; omega, fun he => ?_⟩
      have hl' := hl.2 ((hect he).tail_of_ne (hc ▸ by decide))
      refine ⟨hl'.1, fun b => ?_⟩
      rw [saying_eq (hahead he b), if_pos hc, hl'.2 b]
      rfl
    · next hc =>
      split at h
      · next hline =>
        cases h
        refine ⟨hlen, fun he => ⟨hect he, fun b => ?_⟩⟩
        rw [saying_eq (hahead he b), if_neg hc, lineAhead (hect he), if_pos hline]
        rfl
      · next hline =>
        obtain ⟨⟨st', s'⟩, hst, h⟩ := Option.map_eq_some_iff.mp h
        cases h
        have hl := (assignment_leaves hst).1
        refine ⟨by have := hl.1; simp only [List.length_cons] at this; dsimp only; omega,
          fun he => ?_⟩
        have hl' := hl.2 (hect he)
        refine ⟨hl'.1, fun b => ?_⟩
        rw [saying_eq (hahead he b), if_neg hc, lineAhead (hect he), if_neg hline,
          ← List.cons_append, hl'.2 b]
        rfl

theorem line_eq_some {st : Option Statement} : line s = some (st, rest) ↔
    ∃ s', saying s = some (st, s') ∧ restOfLine s' = some rest := by
  simp only [line_eq, Option.bind_eq_some_iff, Prod.exists, Option.some.injEq, Prod.mk.injEq]
  constructor
  · rintro ⟨st', s', h, rest', hrest, rfl, rfl⟩
    exact ⟨s', h, hrest⟩
  · rintro ⟨s', h, hrest⟩
    exact ⟨st, s', h, rest, hrest, rfl, rfl⟩

theorem length_line_lt {st : Option Statement} (hs : s ≠ []) (h : line s = some (st, rest)) :
    rest.length < s.length := by
  obtain ⟨s', hst, hrest⟩ := line_eq_some.mp h
  have hpos := List.length_pos_of_ne_nil hs
  have hle := (saying_leaves hst).1
  obtain ⟨hle', hlt⟩ := restOfLine_length hrest
  by_cases hnil : s' = []
  · subst hnil
    simp only [List.length_nil] at hle'
    omega
  · have := hlt hnil
    omega

/-- A line is read in the same way if more lines follow. -/
theorem line_append {st : Option Statement} (he : EndsLine s) (h : line s = some (st, rest))
    (b : List Char) : line (s ++ b) = some (st, rest ++ b) := by
  obtain ⟨s', hst, hrest⟩ := line_eq_some.mp h
  have hs' := (saying_leaves hst).2 he
  exact line_eq_some.mpr ⟨s' ++ b, hs'.2 b, restOfLine_append hs'.1 hrest b⟩

theorem lines_nil (n : Nat) : lines n [] = some [] := by cases n <;> rfl

theorem lines_succ_eq_some {n : Nat} {sts : List Statement} (hs : s ≠ []) :
    lines (n + 1) s = some sts ↔ ∃ st rest sts', line s = some (st, rest) ∧
      lines n rest = some sts' ∧ sts = st.toList ++ sts' := by
  obtain ⟨c, t, rfl⟩ := List.exists_cons_of_ne_nil hs
  simp only [lines, Option.bind_eq_bind, Option.bind_eq_some_iff, Prod.exists, Option.some.injEq]
  constructor
  · rintro ⟨st, rest, h, sts', h', rfl⟩
    exact ⟨st, rest, sts', h, h', rfl⟩
  · rintro ⟨st, rest, sts', h, h', rfl⟩
    exact ⟨st, rest, h, sts', h', rfl⟩

/-- A line takes at least one character, so there are no more lines than characters. -/
theorem lines_of_length_le {n m : Nat} {sts : List Statement} (h : lines n s = some sts)
    (hm : s.length ≤ m) : lines m s = some sts := by
  induction n generalizing m s sts with
  | zero =>
    cases s with
    | nil => exact (lines_nil m).trans h
    | cons c t => cases h
  | succ n ih =>
    by_cases hs : s = []
    · subst hs
      rw [lines_nil] at h ⊢
      exact h
    · have hpos := List.length_pos_of_ne_nil hs
      obtain ⟨m, rfl⟩ : ∃ k, m = k + 1 := ⟨m - 1, by omega⟩
      obtain ⟨st, rest, sts', hline, hrest, rfl⟩ := (lines_succ_eq_some hs).mp h
      have := length_line_lt hs hline
      exact (lines_succ_eq_some hs).mpr ⟨st, rest, sts', hline, ih hrest (by omega), rfl⟩

/-- A text that is not empty says what its first line says, and what the others do. -/
theorem statements?_eq_some {sts : List Statement} (hs : s ≠ []) :
    statements? s = some sts ↔ ∃ st rest sts', line s = some (st, rest) ∧
      statements? rest = some sts' ∧ sts = st.toList ++ sts' := by
  rw [statements?, lines_succ_eq_some hs]
  constructor
  · rintro ⟨st, rest, sts', hline, h, rfl⟩
    exact ⟨st, rest, sts', hline, lines_of_length_le h (Nat.le_succ _), rfl⟩
  · rintro ⟨st, rest, sts', hline, h, rfl⟩
    have := length_line_lt hs hline
    exact ⟨st, rest, sts', hline, lines_of_length_le h this.le, rfl⟩

/-- A line before some text, if the line is ended or nothing follows. -/
theorem line_before {st : Option Statement} {b : List Char} (he : EndsLine s ∨ b = [])
    (h : line s = some (st, [])) : line (s ++ b) = some (st, b) := by
  obtain he | rfl := he
  · exact line_append he h b
  · rwa [List.append_nil]

end Lines

end Standstill.Toml
