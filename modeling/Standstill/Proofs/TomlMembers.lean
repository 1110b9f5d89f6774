import Mathlib.Tactic
import Standstill.Toml.Document

/-!
Every statement of a document looks at one member of the root table and writes that one. So what
statements say about some names stands beside what others say about others.
-/
namespace Standstill.Toml

namespace Members

variable {ms : Members} {key k : String} {v : Value}

/-- Writes a value under a name, over the one that stands there or as a new member. -/
def write (ms : Members) (key : String) (v : Value) : Members :=
  if (ms.lookup key).isSome then ms.replace key v else ms ++ [(key, v)]

theorem write_of_none (h : ms.lookup key = none) : ms.write key v = ms ++ [(key, v)] := by
  rw [write, h]
  rfl

theorem write_of_some {u : Value} (h : ms.lookup key = some u) :
    ms.write key v = ms.replace key v := by
  rw [write, h]
  rfl

theorem put_of_none (h : ms.lookup key = none) : ms.put key v = some (ms.write key v) := by
  rw [write_of_none h, put, h]
  rfl

theorem put_of_some {u : Value} (h : ms.lookup key = some u) : ms.put key v = none := by
  rw [put, h]
  rfl

theorem lookup_append (ms ms' : Members) (k : String) :
    (ms ++ ms' : Members).lookup k = (ms.lookup k).or (ms'.lookup k) := by
  induction ms with
  | nil => rfl
  | cons m ms ih =>
    obtain ⟨key, v⟩ := m
    simp only [List.cons_append, List.lookup_cons]
    cases k == key with
    | true => rfl
    | false => exact ih

theorem lookup_replace_self {u : Value} (h : ms.lookup key = some u) :
    (ms.replace key v).lookup key = some v := by
  induction ms with
  | nil => cases h
  | cons m ms ih =>
    obtain ⟨name, w⟩ := m
    by_cases hn : name = key
    · simp [replace, hn]
    · have hn' : (key == name) = false := beq_false_of_ne (Ne.symm hn)
      simp only [List.lookup_cons, hn'] at h
      simp only [replace, List.map_cons, hn, if_false, List.lookup_cons, hn']
      exact ih h

theorem lookup_replace_of_ne (h : k ≠ key) : (ms.replace key v).lookup k = ms.lookup k := by
  induction ms with
  | nil => rfl
  | cons m ms ih =>
    obtain ⟨name, w⟩ := m
    by_cases hn : name = key
    · have hk : (k == key) = false := beq_false_of_ne h
      simp only [replace, List.map_cons, hn, if_true, List.lookup_cons, hk]
      exact ih
    · simp only [replace, List.map_cons, hn, if_false, List.lookup_cons]
      cases k == name with
      | true => rfl
      | false => exact ih

theorem lookup_write (ms : Members) (key k : String) (v : Value) :
    (ms.write key v).lookup k = if k = key then some v else ms.lookup k := by
  cases h : ms.lookup key with
  | none =>
    rw [write_of_none h, lookup_append]
    by_cases hk : k = key
    · subst hk
      simp [h]
    · have hk' : (k == key) = false := beq_false_of_ne hk
      simp [List.lookup_cons, hk, hk']
  | some u =>
    rw [write_of_some h]
    by_cases hk : k = key
    · subst hk
      rw [if_pos rfl, lookup_replace_self h]
    · rw [if_neg hk, lookup_replace_of_ne hk]

/-- What `f` does to a table depends on the member `key` and changes only that one. -/
def Touches (key : String) (f : Members → Option Members) : Prop :=
  ∃ g : Option Value → Option Value, ∀ ms, f ms = (g (ms.lookup key)).map (ms.write key)

variable {α : Type} {x : Option α} {f : α → Value}

theorem bind_put (h : ms.lookup key = none) :
    (x.bind fun a => ms.put key (f a)) = (x.map f).map (ms.write key) := by
  cases x with
  | none => rfl
  | some a => exact put_of_none h

theorem bind_replace {u : Value} (h : ms.lookup key = some u) :
    (x.bind fun a => some (ms.replace key (f a))) = (x.map f).map (ms.write key) := by
  cases x with
  | none => rfl
  | some a => exact congrArg some (write_of_some h).symm

/-- It is enough to say what `f` does for each state of the member. -/
theorem touches_of {f : Members → Option Members}
    (h : ∀ u, ∃ v : Option Value, ∀ ms, ms.lookup key = u → f ms = v.map (ms.write key)) :
    Touches key f := by
  choose g hg using h
  exact ⟨g, fun ms => hg _ ms rfl⟩

theorem put_touches (key : String) (v : Value) : Touches key (put · key v) := by
  refine touches_of fun u => ?_
  cases u with
  | none => exact ⟨some v, fun ms h => put_of_none h⟩
  | some u => exact ⟨none, fun ms h => put_of_some h⟩

theorem assign_touches (v : Value) (key : String) (path : List String) :
    Touches key (assign v (key :: path)) := by
  cases path with
  | nil => exact put_touches key v
  | cons next rest =>
    let deeper := assign v (next :: rest)
    let passing : Members → Option Members := if rest.isEmpty then fun _ => none else deeper
    refine touches_of fun u => ?_
    cases u with
    | none =>
      refine ⟨(deeper []).map (.table .dotted), fun ms h => ?_⟩
      simp only [assign, h]
      exact bind_put h
    | some u =>
      cases u with
      | table o inner =>
        cases o with
        | dotted =>
          refine ⟨(deeper inner).map (.table .dotted), fun ms h => ?_⟩
          simp only [assign, h]
          exact bind_replace h
        | passage =>
          refine ⟨(passing inner).map (.table .passage), fun ms h => ?_⟩
          simp only [assign, h]
          exact bind_replace h
        | braces | header => exact ⟨none, fun ms h => by simp only [assign, h]; rfl⟩
      | tables items =>
        refine ⟨(modifyLast passing items).map .tables, fun ms h => ?_⟩
        simp only [assign, h]
        exact bind_replace h
      | _ => exact ⟨none, fun ms h => by simp only [assign, h]; rfl⟩

theorem within_touches (f : Members → Option Members) (key : String) (path : List String) :
    Touches key (within f (key :: path)) := by
  refine touches_of fun u => ?_
  cases u with
  | none =>
    refine ⟨(within f path []).map (.table .passage), fun ms h => ?_⟩
    simp only [within, h]
    exact bind_put h
  | some u =>
    cases u with
    | table o inner =>
      by_cases hb : o = .braces
      · subst hb
        exact ⟨none, fun ms h => by simp only [within, h]; rfl⟩
      · refine ⟨(within f path inner).map (.table o), fun ms h => ?_⟩
        simp only [within, h]
        exact bind_replace h
    | tables items =>
      refine ⟨(modifyLast (within f path) items).map .tables, fun ms h => ?_⟩
      simp only [within, h]
      exact bind_replace h
    | _ => exact ⟨none, fun ms h => by simp only [within, h]; rfl⟩

theorem openTable_touches (key : String) : Touches key (openTable key) := by
  refine touches_of fun u => ?_
  cases u with
  | none =>
    refine ⟨some (.table .header []), fun ms h => ?_⟩
    simp only [openTable, h]
    exact put_of_none h
  | some u =>
    cases u with
    | table o inner =>
      cases o with
      | passage =>
        refine ⟨some (.table .header inner), fun ms h => ?_⟩
        simp only [openTable, h]
        exact congrArg some (write_of_some h).symm
      | braces | header | dotted => exact ⟨none, fun ms h => by simp only [openTable, h]; rfl⟩
    | _ => exact ⟨none, fun ms h => by simp only [openTable, h]; rfl⟩

theorem openNext_touches (key : String) : Touches key (openNext key) := by
  refine touches_of fun u => ?_
  cases u with
  | none =>
    refine ⟨some (.tables [[]]), fun ms h => ?_⟩
    simp only [openNext, h]
    exact put_of_none h
  | some u =>
    cases u with
    | tables items =>
      refine ⟨some (.tables (items ++ [[]])), fun ms h => ?_⟩
      simp only [openNext, h]
      exact congrArg some (write_of_some h).symm
    | _ => exact ⟨none, fun ms h => by simp only [openNext, h]; rfl⟩

/-- Whatever is changed at the end of a path, one member of the table at its beginning is. -/
theorem within_touches_head {f : Members → Option Members} {key : String} (hf : Touches key f)
    (path : List String) : ∃ head, Touches head (within f path) := by
  cases path with
  | nil => exact ⟨key, hf⟩
  | cons head rest => exact ⟨head, within_touches f head rest⟩

end Members

namespace Document

variable {key : String} {d d' e : Document} {st : Statement} {sts : List Statement}
  {own : Members}

theorem enter_touches {f : String → Members → Option Members}
    (hf : ∀ key, Members.Touches key (f key)) (cur path : List String) :
    (∀ root, enter ⟨root, cur⟩ f path = none) ∨
      ∃ key g, Members.Touches key g ∧
        ∀ root, enter ⟨root, cur⟩ f path = (g root).map fun root => ⟨root, path⟩ := by
  cases h : path.getLast? with
  | none => exact .inl fun root => by simp only [enter, h]
  | some last =>
    obtain ⟨head, hhead⟩ := Members.within_touches_head (hf last) path.dropLast
    refine .inr ⟨head, _, hhead, fun root => ?_⟩
    simp only [enter, h, Option.bind_eq_bind]
    cases Members.within (f last) path.dropLast root <;> rfl

/-- A statement is refused whatever stands in the root table, or it writes one member of it. -/
theorem take_touches (cur : List String) (st : Statement) :
    (∀ root, take ⟨root, cur⟩ st = none) ∨
      ∃ key g next, Members.Touches key g ∧
        ∀ root, take ⟨root, cur⟩ st = (g root).map fun root => ⟨root, next⟩ := by
  cases st with
  | assign key v =>
    cases key with
    | nil =>
      cases cur with
      | nil => exact .inl fun root => rfl
      | cons c rest =>
        refine .inr ⟨c, _, c :: rest, Members.within_touches (Members.assign v []) c rest,
          fun root => ?_⟩
        simp only [take, Option.bind_eq_bind]
        cases Members.within (Members.assign v []) (c :: rest) root <;> rfl
    | cons k path =>
      obtain ⟨head, hhead⟩ :=
        Members.within_touches_head (Members.assign_touches v k path) cur
      refine .inr ⟨head, _, cur, hhead, fun root => ?_⟩
      simp only [take, Option.bind_eq_bind]
      cases Members.within (Members.assign v (k :: path)) cur root <;> rfl
  | table path =>
    obtain h | ⟨key, g, hg, h⟩ := enter_touches Members.openTable_touches cur path
    · exact .inl h
    · exact .inr ⟨key, g, path, hg, h⟩
  | tables path =>
    obtain h | ⟨key, g, hg, h⟩ := enter_touches Members.openNext_touches cur path
    · exact .inl h
    · exact .inr ⟨key, g, path, hg, h⟩

/-- A statement that is taken writes some member; the others stay. -/
theorem take_eq_some (h : take d st = some e) :
    ∃ key v, e.root = d.root.write key v ∧
      ∀ d' : Document, d'.current = d.current → d'.root.lookup key = d.root.lookup key →
        take d' st = some ⟨d'.root.write key v, e.current⟩ := by
  obtain ⟨root, cur⟩ := d
  obtain hnone | ⟨key, g, next, ⟨g', hg⟩, htake⟩ := take_touches cur st
  · rw [hnone] at h
    cases h
  · rw [htake, hg, Option.map_map, Option.map_eq_some_iff] at h
    obtain ⟨v, hv, rfl⟩ := h
    refine ⟨key, v, rfl, ?_⟩
    rintro ⟨root', cur'⟩ hcur hkey
    cases hcur
    dsimp only at hkey
    rw [htake, hg, hkey, hv]
    rfl

theorem lookup_eq_none_of_take (h : take d st = some e) {k : String}
    (hk : e.root.lookup k = none) : d.root.lookup k = none := by
  obtain ⟨key, v, hroot, -⟩ := take_eq_some h
  rw [hroot, Members.lookup_write] at hk
  split at hk
  · cases hk
  · exact hk

theorem lookup_eq_none_of_foldlM (h : sts.foldlM take d = some e) {k : String}
    (hk : e.root.lookup k = none) : d.root.lookup k = none := by
  induction sts generalizing d with
  | nil =>
    cases h
    exact hk
  | cons st sts ih =>
    obtain ⟨d₁, h₁, h⟩ := Option.bind_eq_some_iff.mp h
    exact lookup_eq_none_of_take h₁ (ih h)

/-- The document `d'` has come about as `d` has, but for the members `own` of the root table, of
whose names there are none in `d`. -/
structure Beside (own : Members) (d d' : Document) : Prop where
  current : d'.current = d.current
  lookup : ∀ k, d'.root.lookup k = (own.lookup k).or (d.root.lookup k)

theorem Beside.take (h : Beside own d d') (hst : d.take st = some e)
    (hfree : ∀ k, e.root.lookup k ≠ none → own.lookup k = none) :
    ∃ e', d'.take st = some e' ∧ Beside own e e' := by
  obtain ⟨key, v, hroot, htake⟩ := take_eq_some hst
  have hkey : own.lookup key = none := by
    apply hfree
    rw [hroot, Members.lookup_write, if_pos rfl]
    exact Option.some_ne_none v
  have hsame : d'.root.lookup key = d.root.lookup key := by rw [h.lookup, hkey, Option.none_or]
  refine ⟨_, htake d' h.current hsame, rfl, fun k => ?_⟩
  show (d'.root.write key v).lookup k = _
  rw [hroot, Members.lookup_write, Members.lookup_write, h.lookup]
  by_cases hk : k = key
  · subst hk
    rw [if_pos rfl, if_pos rfl, hkey, Option.none_or]
  · rw [if_neg hk, if_neg hk]

theorem Beside.foldlM (h : Beside own d d') (hsts : sts.foldlM Document.take d = some e)
    (hfree : ∀ k, e.root.lookup k ≠ none → own.lookup k = none) :
    ∃ e', sts.foldlM Document.take d' = some e' ∧ Beside own e e' := by
  induction sts generalizing d d' with
  | nil =>
    cases hsts
    exact ⟨d', rfl, h⟩
  | cons st sts ih =>
    obtain ⟨d₁, hst, hsts⟩ := Option.bind_eq_some_iff.mp hsts
    obtain ⟨d₁', hst', h₁⟩ := h.take hst fun k hk =>
      hfree k fun he => hk (lookup_eq_none_of_foldlM hsts he)
    obtain ⟨e', hsts', h'⟩ := ih h₁ hsts
    refine ⟨e', ?_, h'⟩
    rw [List.foldlM_cons, hst']
    exact hsts'

/-- One more member of the root table, as long as no header has come. -/
theorem Beside.append {key : String} {v : Value} (h : Beside own d d') (hcur : d.current = [])
    (hown : own.lookup key = none) (hkey : d.root.lookup key = none) :
    ∃ e', d'.take (.assign [key] v) = some e' ∧ Beside (own ++ [(key, v)]) d e' := by
  have hcur' : d'.current = [] := h.current.trans hcur
  have hnone : d'.root.lookup key = none := by rw [h.lookup, hown, hkey]; rfl
  refine ⟨⟨d'.root.write key v, d'.current⟩, ?_, h.current, fun k => ?_⟩
  · rw [Document.take, hcur', Members.within, Members.assign, Members.put_of_none hnone]
    rfl
  · show (d'.root.write key v).lookup k = _
    rw [Members.lookup_write, Members.lookup_append, h.lookup]
    by_cases hk : k = key
    · subst hk
      simp [hown]
    · have hk' : (k == key) = false := beq_false_of_ne hk
      simp [hk, List.lookup_cons, hk']

end Document

end Standstill.Toml
