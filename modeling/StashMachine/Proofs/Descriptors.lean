import StashMachine.Closure
import Mathlib.Data.List.Basic

/-!
# StashMachine.Proofs.Descriptors — a descriptor names its parameter types

* `TypeName.Plain`: a type that is read back from its text, and whose text holds neither a comma nor an
  opening bracket.  Every type that is written in a source is of this kind.
* `descriptor_injective`: methods with plain parameter types share a descriptor only if they share the
  name and the types.
-/

namespace StashMachine

/-- A type that its text stands for, and that can be told from its neighbours in a list. -/
structure TypeName.Plain (t : TypeName) : Prop where
  read : TypeName.ofString t.text = t
  nonempty : t.text.toList ≠ []
  noComma : ',' ∉ t.text.toList
  noBracket : '(' ∉ t.text.toList

/-! ### Cutting lists of characters -/

section Cut

variable {a a' b b' : List Char} {c : Char}

theorem cut_at_last (hb : c ∉ b) (hb' : c ∉ b') (h : a ++ c :: b = a' ++ c :: b') :
    a = a' ∧ b = b' := by
  rcases List.append_eq_append_iff.mp h with ⟨d, rfl, hd⟩ | ⟨d, rfl, hd⟩
  · rcases List.cons_eq_append_iff.mp hd with ⟨rfl, hd⟩ | ⟨e, rfl, rfl⟩
    · exact ⟨by simp, by simpa [eq_comm] using hd⟩
    · exact absurd (by simp) hb
  · rcases List.cons_eq_append_iff.mp hd with ⟨rfl, hd⟩ | ⟨e, rfl, rfl⟩
    · exact ⟨by simp, by simpa [eq_comm] using hd⟩
    · exact absurd (by simp) hb'

theorem cut_at_first (ha : c ∉ a) (ha' : c ∉ a') (h : a ++ c :: b = a' ++ c :: b') :
    a = a' ∧ b = b' := by
  have h' := congrArg List.reverse h
  simp only [List.reverse_append, List.reverse_cons, List.append_assoc, List.singleton_append] at h'
  obtain ⟨hr, hl⟩ := cut_at_last (by simpa using ha) (by simpa using ha') h'
  exact ⟨List.reverse_injective hl, List.reverse_injective hr⟩

end Cut

/-! ### Joined texts -/

section Join

variable {xs ys : List String}

/-- A text that can stand in a list with commas. -/
def Segment (s : String) : Prop := s.toList ≠ [] ∧ ',' ∉ s.toList

theorem toList_join_cons_cons (x y : String) (rest : List String) :
    (Text.join "," (x :: y :: rest)).toList
      = x.toList ++ ',' :: (Text.join "," (y :: rest)).toList := by
  simp [Text.join]

theorem toList_join_ne_nil {x : String} (hx : Segment x) (rest : List String) :
    (Text.join "," (x :: rest)).toList ≠ [] := by
  cases rest with
  | nil => exact hx.1
  | cons y rest => simp [toList_join_cons_cons]

/-- Joining with commas loses nothing. -/
theorem join_injective (hx : ∀ x ∈ xs, Segment x) (hy : ∀ y ∈ ys, Segment y)
    (h : (Text.join "," xs).toList = (Text.join "," ys).toList) : xs = ys := by
  induction xs generalizing ys with
  | nil =>
    cases ys with
    | nil => rfl
    | cons y ys => exact absurd h.symm (toList_join_ne_nil (hy y (by simp)) ys)
  | cons x xs ih =>
    cases ys with
    | nil => exact absurd h (toList_join_ne_nil (hx x (by simp)) xs)
    | cons y ys =>
      have hcx := (hx x (by simp)).2
      have hcy := (hy y (by simp)).2
      cases xs with
      | nil =>
        cases ys with
        | nil => rw [show x = y from String.ext h]
        | cons y' ys =>
          -- the comma of the longer list would stand in the only text of the shorter one
          refine absurd ?_ hcx
          have h' : x.toList = _ := h.trans (toList_join_cons_cons y y' ys)
          simp [h']
      | cons x' xs =>
        cases ys with
        | nil =>
          refine absurd ?_ hcy
          have h' : y.toList = _ := h.symm.trans (toList_join_cons_cons x x' xs)
          simp [h']
        | cons y' ys =>
          rw [toList_join_cons_cons, toList_join_cons_cons] at h
          obtain ⟨hxy, hrest⟩ := cut_at_first hcx hcy h
          rw [String.ext hxy, ih (fun z hz => hx z (by simp [hz])) (fun z hz => hy z (by simp [hz])) hrest]

theorem notMem_join {c : Char} (hc : c ≠ ',') (hx : ∀ x ∈ xs, c ∉ x.toList) :
    c ∉ (Text.join "," xs).toList := by
  induction xs with
  | nil => simp [Text.join]
  | cons x xs ih =>
    have hc' := hx x (by simp)
    cases xs with
    | nil => exact hc'
    | cons y xs =>
      have hrest := ih (fun z hz => hx z (by simp [hz]))
      simp only [toList_join_cons_cons, List.mem_append, List.mem_cons, not_or]
      exact ⟨hc', hc, hrest⟩

end Join

/-! ### Descriptors -/

theorem toList_descriptor (name : String) (types : List TypeName) :
    (descriptor name types).toList
      = name.toList ++ '(' :: ((Text.join "," (types.map TypeName.text)).toList ++ [')']) := by
  simp [descriptor]

theorem text_injective_of_plain {t u : TypeName} (ht : t.Plain) (hu : u.Plain)
    (h : t.text = u.text) : t = u := by
  rw [← ht.read, ← hu.read, h]

/-- Descriptors of plain types differ if the names or the types do. -/
theorem descriptor_injective {m n : String} {ts us : List TypeName} (ht : ∀ t ∈ ts, t.Plain)
    (hu : ∀ u ∈ us, u.Plain) (h : descriptor m ts = descriptor n us) : m = n ∧ ts = us := by
  have hbracket : ∀ {vs : List TypeName}, (∀ v ∈ vs, v.Plain) →
      '(' ∉ (Text.join "," (vs.map TypeName.text)).toList ++ [')'] := by
    intro vs hv
    have hjoin : '(' ∉ (Text.join "," (vs.map TypeName.text)).toList := by
      refine notMem_join (by decide) (fun x hx => ?_)
      obtain ⟨v, hmem, rfl⟩ := List.mem_map.mp hx
      exact (hv v hmem).noBracket
    simpa using hjoin
  have hsegment : ∀ {vs : List TypeName}, (∀ v ∈ vs, v.Plain) →
      ∀ x ∈ vs.map TypeName.text, Segment x := by
    intro vs hv x hx
    obtain ⟨v, hmem, rfl⟩ := List.mem_map.mp hx
    exact ⟨(hv v hmem).nonempty, (hv v hmem).noComma⟩
  have h' := congrArg String.toList h
  rw [toList_descriptor, toList_descriptor] at h'
  obtain ⟨hname, htypes⟩ := cut_at_last (hbracket ht) (hbracket hu) h'
  have hmap := join_injective (hsegment ht) (hsegment hu) (List.append_cancel_right htypes)
  refine ⟨String.ext hname, ?_⟩
  clear h h' htypes
  induction ts generalizing us with
  | nil => simpa using hmap.symm
  | cons t ts ih =>
    cases us with
    | nil => simp at hmap
    | cons u us =>
      simp only [List.map_cons, List.cons.injEq] at hmap
      rw [text_injective_of_plain (ht t (by simp)) (hu u (by simp)) hmap.1,
        ih (fun v hv => ht v (by simp [hv])) (fun v hv => hu v (by simp [hv])) hmap.2]

end StashMachine
