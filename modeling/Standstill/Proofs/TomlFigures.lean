import Mathlib.Data.List.TakeWhile
import Mathlib.Tactic
import Standstill.Proofs.TomlReading

/-!
Plain lines: a bare key, and behind the sign a value. A number in decimal digits is read as that
number, whatever stands behind it on the line.
-/
namespace Standstill.Toml

variable {w s : List Char} {c : Char} {n : Nat}

/-- The text consists of decimal digits. -/
def AreDigits (w : List Char) : Prop := ∀ c ∈ w, c.isDigit = true

theorem areDigits_toDigits (n : Nat) : AreDigits (Nat.toDigits 10 n) :=
  fun _ hc => Nat.isDigit_of_mem_toDigits (by decide) (by decide) hc

theorem AreDigits.of_suffix (hw : AreDigits w) (hs : s <:+ w) : AreDigits s :=
  fun c hc => hw c (hs.mem hc)

theorem AreDigits.tail (hw : AreDigits (c :: w)) : AreDigits w :=
  hw.of_suffix (List.suffix_cons c w)

theorem not_areDigits_cons (hc : c.isDigit = false) : ¬AreDigits (c :: w) := by
  intro hw
  rw [hw c (by simp)] at hc
  cases hc

theorem isWordChar_of_isDigit (hc : c.isDigit) : isWordChar c := by
  simp [isWordChar, Char.isAlphanum, hc]

theorem digitValue?_of_isDigit (hc : c.isDigit) :
    digitValue? 10 c = some (c.toNat - '0'.toNat) := by
  have hb : '0' ≤ c ∧ c ≤ '9' := by simpa [Char.isDigit, Char.le_def] using hc
  have hlt : c.toNat - '0'.toNat < 10 := by
    have h9 : c.toNat ≤ 57 := hb.2
    have h0 : '0'.toNat = 48 := rfl
    omega
  simp only [digitValue?, hb, and_self, if_true, hlt]

theorem digits?_of_areDigits (hw : AreDigits w) (hne : w ≠ []) :
    digits? 10 w = some (w.map fun c => c.toNat - '0'.toNat) := by
  fun_induction digits? 10 w with
  | case1 => exact absurd rfl hne
  | case2 c => rw [digitValue?_of_isDigit (hw c (by simp))]; rfl
  | case3 c s ih => exact absurd hw.tail (not_areDigits_cons (by decide))
  | case4 c s hnil hund ih =>
    have hs : s ≠ [] := fun h => hnil (by rw [h])
    rw [digitValue?_of_isDigit (hw c (by simp)), ih hw.tail hs]
    rfl

theorem ofDigits_map (w : List Char) :
    ofDigits 10 (w.map fun c => c.toNat - '0'.toNat) = Nat.ofDigitChars 10 w 0 := by
  rw [ofDigits, List.foldl_map]
  rfl

/-- The digits of a number begin with a zero only if the number is zero. -/
theorem eq_zero_of_toDigits (h : Nat.toDigits 10 n = '0' :: s) : n = 0 := by
  induction n using Nat.strongRecOn generalizing s with
  | ind n ih =>
    rw [Nat.toDigits_eq_if (by decide)] at h
    split at h
    · exact Nat.digitChar_eq_zero.mp (List.cons.inj h).1
    · next hn =>
      have hne : Nat.toDigits 10 (n / 10) ≠ [] := Nat.toDigits_ne_nil
      obtain ⟨c, t, ht⟩ := List.exists_cons_of_ne_nil hne
      rw [ht, List.cons_append] at h
      rw [(List.cons.inj h).1] at ht
      have := ih (n / 10) (by omega) ht
      omega

theorem whole?_toDigits (n : Nat) :
    (whole? (Nat.toDigits 10 n)).map (ofDigits 10) = some n := by
  have hw : whole? (Nat.toDigits 10 n) = digits? 10 (Nat.toDigits 10 n) := by
    unfold whole?
    split
    · next h =>
      have hn := eq_zero_of_toDigits h
      subst hn
      exact absurd h (by simp)
    · rfl
  rw [hw, digits?_of_areDigits (areDigits_toDigits n) Nat.toDigits_ne_nil, Option.map_some,
    ofDigits_map, Nat.ofDigitChars_toDigits (by decide) (by decide)]

theorem two?_eq_some {low high : Nat} (h : two? low high w = some (n, s)) : s <:+ w := by
  unfold two? at h
  split at h
  · next a b t =>
    simp only [Option.bind_eq_bind, Option.bind_eq_some_iff] at h
    obtain ⟨_, -, _, -, h⟩ := h
    split at h
    · cases h
      exact (List.suffix_cons _ _).trans (List.suffix_cons _ _)
    · cases h
  · cases h

theorem date?_of_areDigits (hw : AreDigits w) : date? w = none := by
  rw [Option.eq_none_iff_forall_ne_some]
  intro s h
  simp only [date?, Option.bind_eq_bind, Option.bind_eq_some_iff] at h
  obtain ⟨⟨_, s₁⟩, h₁, ⟨_, s₂⟩, h₂, h⟩ := h
  have hs₂ := (hw.of_suffix (two?_eq_some h₁)).of_suffix (two?_eq_some h₂)
  split at h
  · next hs =>
    dsimp only at hs
    rw [hs] at hs₂
    exact absurd hs₂ (not_areDigits_cons (by decide))
  · cases h

theorem time?_of_areDigits (hw : AreDigits w) : time? w = none := by
  rw [Option.eq_none_iff_forall_ne_some]
  intro s h
  simp only [time?, Option.bind_eq_bind, Option.bind_eq_some_iff] at h
  obtain ⟨⟨_, s₁⟩, h₁, h⟩ := h
  have hs₁ := hw.of_suffix (two?_eq_some h₁)
  split at h
  · next hs =>
    dsimp only at hs
    rw [hs] at hs₁
    exact absurd hs₁ (not_areDigits_cons (by decide))
  · cases h

theorem unsigned_of_areDigits (hw : AreDigits w) : unsigned w = (false, w) := by
  unfold unsigned
  split
  · exact absurd hw (not_areDigits_cons (by decide))
  · exact absurd hw (not_areDigits_cons (by decide))
  · rfl

theorem span_append_of_forall {p : Char → Bool} {b : List Char} (h : ∀ c ∈ w, p c)
    (hb : ∀ c, b.head? = some c → p c = false) : (w ++ b).span p = (w, b) := by
  rw [List.span_eq_takeWhile_dropWhile, List.takeWhile_append_of_pos h,
    List.dropWhile_append_of_pos h]
  cases b with
  | nil => simp
  | cons c b => simp [hb c rfl]

theorem span_of_forall {p : Char → Bool} (h : ∀ c ∈ w, p c) : w.span p = (w, []) := by
  simpa using span_append_of_forall (b := []) h (by simp)

theorem isDecimalFloat_of_areDigits (hw : AreDigits w) : isDecimalFloat w = false := by
  have hexp : ∀ c ∈ w, (c ≠ 'e' && c ≠ 'E') = true := by
    intro c hc
    have := hw c hc
    simp only [Bool.and_eq_true, decide_eq_true_eq]
    constructor <;> (rintro rfl; exact absurd this (by decide))
  have hdot : ∀ c ∈ w, decide (c ≠ '.') = true := by
    intro c hc
    have := hw c hc
    simp only [decide_eq_true_eq]
    rintro rfl
    exact absurd this (by decide)
  simp only [isDecimalFloat, unsigned_of_areDigits hw, span_of_forall hexp, span_of_forall hdot]
  simp

theorem isFloat_of_areDigits (hw : AreDigits w) : isFloat w = false := by
  have hword {d : Char} {v : List Char} (hd : d.isDigit = false) : w ≠ d :: v := by
    rintro rfl
    exact not_areDigits_cons hd hw
  have hinf : w ≠ ['i', 'n', 'f'] := hword (by decide)
  have hnan : w ≠ ['n', 'a', 'n'] := hword (by decide)
  simp [isFloat, unsigned_of_areDigits hw, hinf, hnan, isDecimalFloat_of_areDigits hw]

theorem bounded?_of_lt (hn : n < 2 ^ 63) : bounded? (n : Int) = some (n : Int) := by
  have hlow : -0x8000000000000000 ≤ (n : Int) := by omega
  have hhigh : (n : Int) < 0x8000000000000000 := by omega
  rw [bounded?, if_pos ⟨hlow, hhigh⟩]

theorem integer?_of_areDigits (hw : AreDigits w) :
    integer? w = (whole? w).bind fun ds => bounded? (ofDigits 10 ds : Nat) := by
  unfold integer?
  split
  · exact absurd hw.tail (not_areDigits_cons (by decide))
  · exact absurd hw.tail (not_areDigits_cons (by decide))
  · exact absurd hw.tail (not_areDigits_cons (by decide))
  · rw [unsigned_of_areDigits hw]
    rfl

theorem integer?_toDigits (hn : n < 2 ^ 63) : integer? (Nat.toDigits 10 n) = some (n : Int) := by
  obtain ⟨ds, hds, hof⟩ := Option.map_eq_some_iff.mp (whole?_toDigits n)
  rw [integer?_of_areDigits (areDigits_toDigits n), hds, Option.bind_some, hof]
  exact bounded?_of_lt hn

theorem word?_toDigits (hn : n < 2 ^ 63) :
    word? (Nat.toDigits 10 n) = some (.integer n) := by
  have hw := areDigits_toDigits n
  have hword {d : Char} {v : List Char} (hd : d.isDigit = false) : Nat.toDigits 10 n ≠ d :: v := by
    intro h
    exact not_areDigits_cons hd (h ▸ hw)
  have htrue : Nat.toDigits 10 n ≠ ['t', 'r', 'u', 'e'] := hword (by decide)
  have hfalse : Nat.toDigits 10 n ≠ ['f', 'a', 'l', 's', 'e'] := hword (by decide)
  have hmoment : isMoment (Nat.toDigits 10 n) = false := by
    simp [isMoment, date?_of_areDigits hw, time?_of_areDigits hw]
  simp [word?, htrue, hfalse, hmoment, isFloat_of_areDigits hw, integer?_toDigits hn]

/-- Nothing that could go on a word, or part a date from a time. -/
def EndsWord (b : List Char) : Prop := ∀ c, b.head? = some c → isWordChar c = false ∧ c ≠ ' '

theorem scalar_toDigits {b : List Char} (hn : n < 2 ^ 63) (hb : EndsWord b) :
    scalar (Nat.toDigits 10 n ++ b) = some (.integer n, b) := by
  have hword : ∀ c ∈ Nat.toDigits 10 n, isWordChar c :=
    fun c hc => isWordChar_of_isDigit (areDigits_toDigits n c hc)
  have hspan : (Nat.toDigits 10 n ++ b).span isWordChar = (Nat.toDigits 10 n, b) :=
    span_append_of_forall hword fun c hc => (hb c hc).1
  simp only [scalar, hspan, word?_toDigits hn, Option.map_some]
  split
  · exact absurd rfl (hb _ rfl).2
  · rfl

/-- A value that opens no bracket and no brace. -/
theorem value_of_plain {depth : Nat} {s : List Char} (h₁ : ∀ t, s ≠ '[' :: t)
    (h₂ : ∀ t, s ≠ '\x7b' :: t) : value (depth + 1) s = value 0 s := by
  unfold value
  split
  · next t => exact absurd rfl (h₁ t)
  · next t => exact absurd rfl (h₂ t)
  · rfl

/-- A number is read as a value. -/
theorem value_toDigits {depth : Nat} {b : List Char} (hn : n < 2 ^ 63) (hb : EndsWord b) :
    value (depth + 1) (Nat.toDigits 10 n ++ b) = some (.integer n, b) := by
  have hhead {d : Char} (hd : d.isDigit = false) (t : List Char) :
      Nat.toDigits 10 n ++ b ≠ d :: t := by
    obtain ⟨c, u, hcu⟩ := List.exists_cons_of_ne_nil (Nat.toDigits_ne_nil (b := 10) (n := n))
    rw [hcu, List.cons_append]
    intro h
    have hc := areDigits_toDigits n c (by simp [hcu])
    rw [(List.cons.inj h).1, hd] at hc
    cases hc
  have hscalar := scalar_toDigits hn hb
  have htext := text_eq_none_of_scalar hscalar []
  rw [List.append_nil] at htext
  rw [value_of_plain (hhead (by decide)) (hhead (by decide)), value, htext]
  exact hscalar

theorem bare_ne {d : Char} (hc : isBareKeyChar c) (hd : isBareKeyChar d = false) : c ≠ d := by
  rintro rfl
  rw [hc] at hd
  cases hd

/-- A bare key does not begin with a blank, so none is left out in front of it. -/
theorem skipBlanks_bare {b : List Char} (hc : isBareKeyChar c) :
    skipBlanks (c :: b) = c :: b := by
  have h₁ := bare_ne hc (d := ' ') (by decide)
  have h₂ := bare_ne hc (d := '\t') (by decide)
  simp [skipBlanks, isBlank, h₁, h₂]

theorem keyParts_bare (hw : ∀ d ∈ c :: w, isBareKeyChar d) (n : Nat) (b : List Char) :
    keyParts (n + 1) (c :: (w ++ ' ' :: '=' :: b)) =
      some ([String.ofList (c :: w)], '=' :: b) := by
  have hc : isBareKeyChar c := hw c (by simp)
  have htext : lineText (c :: (w ++ ' ' :: '=' :: b)) = none := by
    apply lineText_eq_none
    intro d hd
    cases hd
    exact ⟨bare_ne hc (by decide), bare_ne hc (by decide)⟩
  have hspan : (c :: (w ++ ' ' :: '=' :: b)).span isBareKeyChar = (c :: w, ' ' :: '=' :: b) := by
    refine span_append_of_forall hw fun d hd => ?_
    cases hd
    rfl
  have hpart : keyPart (c :: (w ++ ' ' :: '=' :: b)) =
      some (String.ofList (c :: w), ' ' :: '=' :: b) := by
    simp only [keyPart, htext, hspan]
    rfl
  rw [keyParts, skipBlanks_bare hc, hpart]
  rfl

/-- A bare key and a value with a sign between them are a line, however this ends. -/
theorem line_bare {b b' rest : List Char} {v : Value} (hw : ∀ d ∈ c :: w, isBareKeyChar d)
    (hb : skipBlanks b = b) (hv : value maxDepth b = some (v, b'))
    (hrest : restOfLine b' = some rest) :
    line (c :: (w ++ ' ' :: '=' :: ' ' :: b)) =
      some (some (.assign [String.ofList (c :: w)] v), rest) := by
  have hc : isBareKeyChar c := hw c (by simp)
  have hkey : key (c :: (w ++ ' ' :: '=' :: ' ' :: b)) =
      some ([String.ofList (c :: w)], '=' :: ' ' :: b) := keyParts_bare hw 78 (' ' :: b)
  have hskip : skipBlanks (' ' :: b) = b := hb
  have hassign : assignment (c :: (w ++ ' ' :: '=' :: ' ' :: b)) =
      some (.assign [String.ofList (c :: w)] v, b') := by
    simp only [assignment, Option.bind_eq_bind, hkey, Option.bind_some, hskip, hv]
  have hline : startsLine (c :: (w ++ ' ' :: '=' :: ' ' :: b)) = false := by
    have h₁ := bare_ne hc (d := '\n') (by decide)
    have h₂ := bare_ne hc (d := '\r') (by decide)
    simp [startsLine_cons, h₁, h₂]
  have hhash := bare_ne hc (d := '#') (by decide)
  refine line_eq_some.mpr ⟨b', ?_, hrest⟩
  rw [saying_eq (skipBlanks_bare hc), if_neg (bare_ne hc (by decide)), hline, hassign]
  simp [hhash]

end Standstill.Toml
