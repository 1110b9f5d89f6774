import Mathlib.Data.List.Infix
import Standstill.Label

/-!
How a name is cut. What is stored is the longest beginning of the name that ends between two characters
and has room; looking for that end backwards, byte by byte from the limit, leads to the same place and
never past the beginning.
-/
namespace Standstill.Label

variable {name : String} {cs ds : List Char} {c : Char} {room b e : Nat}

theorem utf8ByteSize_cons (c : Char) (cs : List Char) :
    (String.ofList (c :: cs)).utf8ByteSize = c.utf8Size + (String.ofList cs).utf8ByteSize := by
  rw [String.ofList_cons, String.utf8ByteSize_append, String.utf8ByteSize_singleton]

theorem utf8ByteSize_le_of_begins (h : cs <+: ds) :
    (String.ofList cs).utf8ByteSize ≤ (String.ofList ds).utf8ByteSize := by
  obtain ⟨es, rfl⟩ := h
  rw [String.ofList_append, String.utf8ByteSize_append]
  exact Nat.le_add_right _ _

theorem fit_begins (room : Nat) (cs : List Char) : fit room cs <+: cs := by
  induction cs generalizing room with
  | nil => exact List.prefix_rfl
  | cons c cs ih =>
    rw [fit]
    split
    · exact List.prefix_cons_inj c |>.mpr (ih _)
    · exact List.nil_prefix

theorem fit_has_room (room : Nat) (cs : List Char) :
    (String.ofList (fit room cs)).utf8ByteSize ≤ room := by
  induction cs generalizing room with
  | nil => exact Nat.zero_le _
  | cons c cs ih =>
    rw [fit]
    split
    next h =>
      rw [utf8ByteSize_cons]
      have := ih (room - c.utf8Size)
      omega
    next => exact Nat.zero_le _

/-- No beginning of the text that has room is longer. -/
theorem begins_fit (h : ds <+: cs) (hr : (String.ofList ds).utf8ByteSize ≤ room) :
    ds <+: fit room cs := by
  induction cs generalizing room ds with
  | nil => exact h
  | cons c cs ih =>
    cases ds with
    | nil => exact List.nil_prefix
    | cons d ds =>
      obtain ⟨rfl, ht⟩ := List.cons_prefix_cons.mp h
      rw [utf8ByteSize_cons] at hr
      have hd : d.utf8Size ≤ room := by omega
      rw [fit, if_pos hd]
      exact List.prefix_cons_inj d |>.mpr (ih ht (by omega))

theorem fit_eq_self (h : (String.ofList cs).utf8ByteSize ≤ room) : fit room cs = cs :=
  (fit_begins room cs).eq_of_length_le (begins_fit List.prefix_rfl h).length_le

/-! The label of a name. -/

theorem clamp_of_fits (h : name.utf8ByteSize ≤ capacity) : clamp name = name := if_pos h

theorem toList_clamp (name : String) : (clamp name).toList = fit capacity name.toList := by
  unfold clamp
  split
  next h => exact (fit_eq_self (by rwa [String.ofList_toList])).symm
  next => exact String.toList_ofList

theorem clamp_begins (name : String) : (clamp name).toList <+: name.toList :=
  toList_clamp name ▸ fit_begins _ _

theorem clamp_has_room (name : String) : (clamp name).utf8ByteSize ≤ capacity := by
  rw [← String.ofList_toList (s := clamp name), toList_clamp]
  exact fit_has_room _ _

theorem clamp_clamp (name : String) : clamp (clamp name) = clamp name :=
  clamp_of_fits (clamp_has_room name)

/-! Where a text can be cut. -/

/-- A text can be cut at byte `e` if a character begins there, or the text ends. -/
abbrev IsCut (name : String) (e : Nat) : Prop := (⟨e⟩ : String.Pos.Raw).IsValid name

theorem isCut_iff : IsCut name e ↔ ∃ cs, cs <+: name.toList ∧ e = (String.ofList cs).utf8ByteSize := by
  rw [IsCut, String.Pos.Raw.isValid_iff_exists_append]
  constructor
  · rintro ⟨a, z, rfl, h⟩
    refine ⟨a.toList, String.toList_append ▸ List.prefix_append _ _, ?_⟩
    rw [String.ofList_toList]
    exact congrArg String.Pos.Raw.byteIdx h
  · rintro ⟨cs, ⟨ds, hds⟩, rfl⟩
    refine ⟨String.ofList cs, String.ofList ds, ?_, rfl⟩
    rw [← String.ofList_append, hds, String.ofList_toList]

theorem isCut_clamp (name : String) : IsCut name (clamp name).utf8ByteSize :=
  isCut_iff.mpr ⟨_, clamp_begins name, by rw [String.ofList_toList]⟩

/-- There is no later cut that has room. -/
theorem le_clamp_of_isCut (h : IsCut name e) (he : e ≤ capacity) :
    e ≤ (clamp name).utf8ByteSize := by
  obtain ⟨cs, hcs, rfl⟩ := isCut_iff.mp h
  have hb := utf8ByteSize_le_of_begins (begins_fit hcs he)
  rwa [← toList_clamp, String.ofList_toList] at hb

/-- What is stored are the bytes of the name up to the cut. -/
theorem toByteArray_clamp (name : String) :
    (clamp name).toByteArray = name.toByteArray.extract 0 (clamp name).utf8ByteSize := by
  obtain ⟨ds, hds⟩ := clamp_begins name
  have hn : name = clamp name ++ String.ofList ds := by
    rw [← String.ofList_toList (s := clamp name), ← String.ofList_append, hds, String.ofList_toList]
  generalize clamp name = a at hn
  subst hn
  rw [String.toByteArray_append, ByteArray.extract_append_eq_left]
  rfl

/-- The last cut at byte `e` or before it, sought backwards; `none` if the search were to leave the
text. -/
def lastCut? (name : String) : Nat → Option Nat
  | 0 => if (⟨0⟩ : String.Pos.Raw).isValid name then some 0 else none
  | e + 1 => if (⟨e + 1⟩ : String.Pos.Raw).isValid name then some (e + 1) else lastCut? name e

theorem lastCut?_eq_some (h : IsCut name b) (hb : b ≤ e) (hl : ∀ d, IsCut name d → d ≤ e → d ≤ b) :
    lastCut? name e = some b := by
  induction e with
  | zero =>
    obtain rfl := Nat.le_zero.mp hb
    rw [lastCut?, if_pos (String.Pos.Raw.isValid_eq_true_iff.mpr h)]
  | succ e ih =>
    rw [lastCut?]
    split
    next hc =>
      have := hl (e + 1) (String.Pos.Raw.isValid_eq_true_iff.mp hc) (Nat.le_refl _)
      rw [Nat.le_antisymm this hb]
    next hc =>
      have hne : b ≠ e + 1 := by
        rintro rfl
        exact hc (String.Pos.Raw.isValid_eq_true_iff.mpr h)
      exact ih (by omega) fun d hd hde => hl d hd (Nat.le_succ_of_le hde)

/-- The search from the limit ends, and where it ends the name is cut. -/
theorem lastCut?_capacity (name : String) :
    lastCut? name capacity = some (clamp name).utf8ByteSize :=
  lastCut?_eq_some (isCut_clamp name) (clamp_has_room name) fun _ => le_clamp_of_isCut

/-- The label of a name, sought backwards from the limit: one of 30 letters and one more of two bytes. -/
example : lastCut? "aaaaaaaaaaaaaaaaaaaaaaaaaaaaaaé" capacity = some 30 := by decide +kernel

end Standstill.Label
