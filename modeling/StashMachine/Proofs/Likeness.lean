import StashMachine.Proofs.Outcomes
import StashMachine.Proofs.Renaming
import Mathlib.Data.Option.Basic

/-!
# StashMachine.Proofs.Likeness — data of two runs that differ in the name of a parameter

The old run has the parameter `x` of some constructors, the new one has `y` in its place.

* `oldName x y b`, `newName x y b`: how the two runs spell a name.  In the code of these constructors (`b`) the
  names `x` and `y` both stand for the parameter.
* `Class.bare`, `Value.bare`: without the code of constructors and the names of their parameters.  Everything that
  is ever asked of a class or of a value comes out the same.
* `TextAlike x y`, `Fault.Alike x y`: the same texts and faults, but for `y` in the place of `x`; `Agree`: two
  computations with results that are related, or faults that are alike.
* `Value.Alike marks`, `Callable.Alike x y`, …: what the one run has where the other has its own.  Classes, objects
  and closures lie in frames outside of the calls in question, which are marked.
-/

namespace StashMachine

/-! ### Names -/

/-- How the old run spells a name. -/
def oldName (x y : String) (b : Bool) : String → String := bif b then instead y x else id

/-- How the new run spells a name. -/
def newName (x y : String) (b : Bool) : String → String := bif b then instead x y else id

section Names

variable {x y n n' : String} {b : Bool}

/-- Only the parameter is spelt in two ways. -/
theorem spelling (x y : String) (b : Bool) (n : String) :
    (oldName x y b n = n ∧ newName x y b n = n ∧ (b = true → n ≠ x ∧ n ≠ y)) ∨
      b = true ∧ oldName x y b n = x ∧ newName x y b n = y := by
  cases b with
  | false => exact .inl ⟨rfl, rfl, nofun⟩
  | true =>
    by_cases hx : n = x
    · refine .inr ⟨rfl, ?_, if_pos hx⟩
      by_cases hy : x = y <;> simp [oldName, instead, hx, hy]
    · by_cases hy : n = y
      · refine .inr ⟨rfl, if_pos hy, ?_⟩
        simp [newName, instead, hy]
      · exact .inl ⟨instead_of_ne hy, instead_of_ne hx, fun _ => ⟨hx, hy⟩⟩

theorem oldName_of_ne (hy : n ≠ y) : oldName x y b n = n := by
  cases b with
  | false => rfl
  | true => exact instead_of_ne hy

theorem newName_of_ne (hx : n ≠ x) : newName x y b n = n := by
  cases b with
  | false => rfl
  | true => exact instead_of_ne hx

/-- Names that the old run tells apart are told apart by the new one. -/
theorem oldName_eq_iff : oldName x y b n = oldName x y b n' ↔ newName x y b n = newName x y b n' := by
  cases b with
  | false => rfl
  | true =>
    simp only [oldName, newName, cond_true, instead]
    grind

end Names

/-! ### Classes -/

/-- The constructor without its code and the names of its parameters. -/
def ConstructorDecl.bare (c : ConstructorDecl) : ConstructorDecl :=
  { c with
    params := c.params.map (fun q => { q with name := "" })
    body := [] }

theorem ConstructorDecl.bare_rename (σ : String → String) (c : ConstructorDecl) : (c.rename σ).bare = c.bare := by
  simp [bare, rename, Function.comp_def]

theorem ConstructorDecl.paramTypes_bare (c : ConstructorDecl) :
    c.bare.params.map Param.type = c.params.map Param.type := by
  simp [bare, Function.comp_def]

/-- The class without the code of its constructors. -/
def ClassInfo.bare (c : ClassInfo) : ClassInfo :=
  { c with constructors := c.constructors.map ConstructorDecl.bare }

/-- The class and its ancestors without the code of their constructors. -/
def Class.bare (c : Class) : Class := ⟨c.toClassInfo.bare, c.ancestors.map ClassInfo.bare⟩

namespace Class

variable {c d : Class}

theorem name_bare (c : Class) : c.bare.name = c.name := rfl

theorem lineage_bare (c : Class) : c.bare.lineage = c.lineage.map ClassInfo.bare := rfl

theorem name_eq (h : c.bare = d.bare) : c.name = d.name := congrArg (fun c => c.name) h

theorem frame_eq (h : c.bare = d.bare) : c.frame = d.frame := congrArg (fun c => c.frame) h

theorem isSubclassOf_bare (c : Class) (x : String) : c.bare.isSubclassOf x = c.isSubclassOf x := by
  rw [isSubclassOf, isSubclassOf, lineage_bare, List.any_map]
  rfl

theorem hasMethod_bare (c : Class) (x : String) : c.bare.hasMethod x = c.hasMethod x := by
  rw [hasMethod, hasMethod, lineage_bare, List.any_map]
  rfl

theorem allInstanceVars_bare (c : Class) : c.bare.allInstanceVars = c.allInstanceVars := by
  rw [allInstanceVars, allInstanceVars, lineage_bare, List.flatMap_map]
  rfl

theorem superclass?_bare (c : Class) : c.bare.superclass? = c.superclass?.map ClassInfo.bare := by
  rw [superclass?, superclass?, bare, List.head?_map]

theorem repeatedField?_bare (c : Class) : c.bare.repeatedField? = c.repeatedField? := by
  rw [repeatedField?, repeatedField?, allInstanceVars_bare]

end Class

/-! ### Values -/

namespace Value

mutual

/-- The value with bare classes. -/
def bare : Value → Value
  | object c f => object c.bare f
  | array id t vs => array id t (bareAll vs)
  | void => void
  | null => null
  | boolean b => boolean b
  | char c => char c
  | number n => number n
  | string s => string s

/-- Several values with bare classes. -/
def bareAll : List Value → List Value
  | [] => []
  | v :: vs => v.bare :: bareAll vs

end

@[simp] theorem bareAll_eq_map (vs : List Value) : bareAll vs = vs.map bare := by
  induction vs with
  | nil => rfl
  | cons v vs ih => rw [bareAll, ih, List.map_cons]

variable {v w : Value}

/-- Values that are alike are equal, or two objects or arrays with classes that are alike. -/
theorem eq_or_of_bare (h : v.bare = w.bare) : w = v ∨
    (∃ c d f, v = object c f ∧ w = object d f ∧ c.bare = d.bare) ∨
    ∃ id t vs ws, v = array id t vs ∧ w = array id t ws ∧ vs.map bare = ws.map bare := by
  cases v with
  | object c f =>
    cases w with
    | object d g =>
      injection h with hc hf
      exact .inr (.inl ⟨c, d, f, rfl, by rw [hf], hc⟩)
    | _ => cases h
  | array id t vs =>
    cases w with
    | array id' t' ws =>
      simp only [bare, bareAll_eq_map, array.injEq] at h
      obtain ⟨rfl, rfl, h⟩ := h
      exact .inr (.inr ⟨id, t, vs, ws, rfl, rfl, h⟩)
    | _ => cases h
  | _ =>
    cases w <;> cases h
    exact .inl rfl

theorem type_bare (v : Value) : v.bare.type = v.type := by cases v <;> rfl

theorem number?_bare (v : Value) : v.bare.number? = v.number? := by cases v <;> rfl

theorem isString_bare (v : Value) : v.bare.isString = v.isString := by cases v <;> rfl

theorem same_bare (v w : Value) : v.bare.same w.bare = v.same w := by
  cases v <;> cases w <;> rfl

theorem equal_bare (v w : Value) : v.bare.equal w.bare = v.equal w := by
  rw [equal, equal, number?_bare, number?_bare, same_bare]

mutual

theorem text_bare : ∀ v : Value, v.bare.text = v.text
  | array id t vs => by rw [bare, text, text, texts_bareAll vs]
  | object c f => by rw [bare, text, text, objectText, objectText, Class.name_bare]
  | void | null | boolean _ | char _ | number _ | string _ => rfl

theorem texts_bareAll : ∀ vs : List Value, texts (bareAll vs) = texts vs
  | [] => rfl
  | v :: vs => by rw [bareAll, texts, texts, text_bare v, texts_bareAll vs]

end

mutual

theorem term_bare : ∀ v : Value, v.bare.term = v.term
  | array id t vs => by
    rw [bare]
    unfold term
    rw [terms_bareAll vs]
  | object c f => by
    rw [bare]
    unfold term
    rw [Class.name_bare]
  | void | null | boolean _ | char _ | number _ | string _ => rfl

theorem terms_bareAll : ∀ vs : List Value, terms (bareAll vs) = terms vs
  | [] => rfl
  | v :: vs => by rw [bareAll, terms, terms, term_bare v, terms_bareAll vs]

end

theorem binary_bare (op : BinaryOp) (v w : Value) : binary op v.bare w.bare = binary op v w := by
  have hbad : badOperands op v.bare w.bare = badOperands op v w := by
    rw [badOperands, badOperands, type_bare, type_bare]
  have hnumbers : ∀ f, onNumbers op v.bare w.bare f = onNumbers op v w f := by
    intro f
    rw [onNumbers, onNumbers, number?_bare, number?_bare, hbad]
  cases op with
  | and => cases v <;> cases w <;> rfl
  | or => cases v <;> cases w <;> rfl
  | eq => simp only [binary, equal_bare]
  | ne => simp only [binary, equal_bare]
  | add => simp only [binary, isString_bare, text_bare, hnumbers]
  | _ => simp only [binary, hnumbers]

theorem unary_bare (op : UnaryOp) (v : Value) : unary op v.bare = unary op v := by
  cases op <;> cases v <;> rfl

end Value

/-! ### Texts and faults -/

/-- The same text, but for `y` in one place where the first has `x`. -/
inductive TextAlike (x y : String) : String → String → Prop
  | same (s : String) : TextAlike x y s s
  | within (before after : String) : TextAlike x y (before ++ x ++ after) (before ++ y ++ after)

/-- The same fault, but for `y` in one place where the first has `x`. -/
inductive Fault.Alike (x y : String) : Fault → Fault → Prop
  | same (e : Fault) : Alike x y e e
  | undeclaredName {s t : String} : TextAlike x y s t → Alike x y (.undeclaredName s) (.undeclaredName t)
  | redeclaration {s t : String} : TextAlike x y s t → Alike x y (.redeclaration s) (.redeclaration t)
  | unassigned {s t : String} : TextAlike x y s t → Alike x y (.unassigned s) (.unassigned t)
  | undeclaredVariable {s t : String} : TextAlike x y s t →
    Alike x y (.undeclaredVariable s) (.undeclaredVariable t)
  | length {s t : String} : TextAlike x y s t → Alike x y (.nullPointer (.length s)) (.nullPointer (.length t))
  | field {f s t : String} : TextAlike x y s t →
    Alike x y (.nullPointer (.field f s)) (.nullPointer (.field f t))
  | target {s t : String} : TextAlike x y s t →
    Alike x y (.typeMismatch (.target s)) (.typeMismatch (.target t))
  | receiver {m s t : String} : TextAlike x y s t →
    Alike x y (.typeMismatch (.receiver m s)) (.typeMismatch (.receiver m t))
  | expected {w : Wanted} {s t : String} : TextAlike x y s t →
    Alike x y (.internal (.expected w s)) (.internal (.expected w t))
  | fieldOf {f s t : String} : TextAlike x y s t →
    Alike x y (.internal (.fieldOf f s)) (.internal (.fieldOf f t))
  | noInvocation {m s t : String} : TextAlike x y s t →
    Alike x y (.internal (.noInvocation s m)) (.internal (.noInvocation t m))

section Faults

variable {x y s s' : String}

theorem TextAlike.name : TextAlike x y x y := by simpa using TextAlike.within (x := x) (y := y) "" ""

theorem TextAlike.append (h : TextAlike x y s s') (after : String) : TextAlike x y (s ++ after) (s' ++ after) := by
  cases h with
  | same s => exact .same _
  | within before rest => simpa only [String.append_assoc] using TextAlike.within before (rest ++ after)

theorem TextAlike.prepend (h : TextAlike x y s s') (before : String) :
    TextAlike x y (before ++ s) (before ++ s') := by
  cases h with
  | same s => exact .same _
  | within start after => simpa only [String.append_assoc] using TextAlike.within (before ++ start) after

/-- Two computations give results that are related, or faults that are alike. -/
def Agree (x y : String) {α β : Type} (R : α → β → Prop) : Except Fault α → Except Fault β → Prop
  | .ok a, .ok b => R a b
  | .error e, .error e' => e.Alike x y e'
  | _, _ => False

namespace Agree

variable {α β γ δ : Type} {R : α → β → Prop} {S : γ → δ → Prop} {a : Except Fault α} {b : Except Fault β}

theorem self {R : α → α → Prop} {a : Except Fault α} (h : ∀ v, a = .ok v → R v v) : Agree x y R a a := by
  cases a with
  | ok v => exact h v rfl
  | error e => exact .same e

theorem cases (h : Agree x y R a b) :
    (∃ v w, a = .ok v ∧ b = .ok w ∧ R v w) ∨ ∃ e e', a = .error e ∧ b = .error e' ∧ e.Alike x y e' := by
  cases a with
  | ok v =>
    cases b with
    | ok w => exact .inl ⟨v, w, rfl, rfl, h⟩
    | error e => exact h.elim
  | error e =>
    cases b with
    | ok w => exact h.elim
    | error e' => exact .inr ⟨e, e', rfl, rfl, h⟩

theorem bind {f : α → Except Fault γ} {g : β → Except Fault δ} (h : Agree x y R a b)
    (hfg : ∀ a b, R a b → Agree x y S (f a) (g b)) : Agree x y S (a >>= f) (b >>= g) := by
  rcases h.cases with ⟨v, w, rfl, rfl, hR⟩ | ⟨e, e', rfl, rfl, he⟩
  · exact hfg v w hR
  · exact he

end Agree

end Faults

/-! ### Frames outside of the marked ones -/

/-- The frames of a class and of its ancestors are not marked. -/
def Class.Outside (marks : List Bool) (c : Class) : Prop := ∀ d ∈ c.lineage, marks[d.frame]? = some false

/-- The frames of all objects in a value, and of their classes, are not marked. -/
def Value.Outside (marks : List Bool) (v : Value) : Prop :=
  ∀ c o, Value.Part (.object c o) v → marks[o]? = some false ∧ c.Outside marks

theorem mark_append {marks : List Bool} {f : FrameId} {b : Bool} (h : marks[f]? = some b) (new : List Bool) :
    (marks ++ new)[f]? = some b := by
  rw [List.getElem?_append_left (List.getElem?_eq_some_iff.mp h).1, h]

theorem Class.Outside.append {marks : List Bool} {c : Class} (h : c.Outside marks) (new : List Bool) :
    c.Outside (marks ++ new) := fun d hd => mark_append (h d hd) new

theorem Value.Outside.append {marks : List Bool} {v : Value} (h : v.Outside marks) (new : List Bool) :
    v.Outside (marks ++ new) := fun c o ho => ⟨mark_append (h c o ho).1 new, (h c o ho).2.append new⟩

theorem Value.outside_of_isSimple {marks : List Bool} {v : Value} (h : v.isSimple = true) : v.Outside marks := by
  intro c o ho
  cases ho <;> cases h

theorem Value.outside_array {marks : List Bool} {id : Nat} {t : TypeName} {vs : List Value}
    (h : ∀ v ∈ vs, v.Outside marks) : (array id t vs).Outside marks := by
  intro c o ho
  cases ho with
  | element hv ho => exact h _ hv c o ho

/-! ### Classes and values that are alike -/

structure Class.Alike (marks : List Bool) (c d : Class) : Prop where
  bare : c.bare = d.bare
  outside : c.Outside marks

structure Value.Alike (marks : List Bool) (v w : Value) : Prop where
  bare : v.bare = w.bare
  outside : v.Outside marks

namespace Value

variable {x y : String} {marks : List Bool} {v w v' w' : Value}

theorem Alike.append (h : v.Alike marks w) (new : List Bool) : v.Alike (marks ++ new) w :=
  ⟨h.bare, h.outside.append new⟩

theorem alike_of_isSimple (h : v.isSimple = true) : v.Alike marks v := ⟨rfl, outside_of_isSimple h⟩

/-- Values that are alike are one simple value, two objects or two arrays. -/
theorem Alike.cases (h : v.Alike marks w) : v.isSimple = true ∧ w = v ∨
    (∃ c d f, v = object c f ∧ w = object d f ∧ c.Alike marks d ∧ marks[f]? = some false) ∨
    ∃ id t vs ws, v = array id t vs ∧ w = array id t ws ∧ vs.length = ws.length := by
  obtain ⟨hbare, houtside⟩ := h
  rcases eq_or_of_bare hbare with rfl | ⟨c, d, f, rfl, rfl, hc⟩ | ⟨id, t, vs, ws, rfl, rfl, hvs⟩
  · cases w with
    | object c f =>
      obtain ⟨hf, hc⟩ := houtside c f .refl
      exact .inr (.inl ⟨c, c, f, rfl, rfl, ⟨rfl, hc⟩, hf⟩)
    | array id t vs => exact .inr (.inr ⟨id, t, vs, vs, rfl, rfl, rfl⟩)
    | _ => exact .inl ⟨rfl, rfl⟩
  · obtain ⟨hf, hc'⟩ := houtside c f .refl
    exact .inr (.inl ⟨c, d, f, rfl, rfl, ⟨hc, hc'⟩, hf⟩)
  · have hlength := congrArg List.length hvs
    rw [List.length_map, List.length_map] at hlength
    exact .inr (.inr ⟨id, t, vs, ws, rfl, rfl, hlength⟩)

theorem Alike.type (h : v.Alike marks w) : w.type = v.type := by rw [← type_bare w, ← h.bare, type_bare]

theorem Alike.text (h : v.Alike marks w) : w.text = v.text := by rw [← text_bare w, ← h.bare, text_bare]

theorem Alike.term (h : v.Alike marks w) : w.term = v.term := by rw [← term_bare w, ← h.bare, term_bare]

theorem Alike.equal (h : v.Alike marks w) (u : Value) : u.equal w = u.equal v := by
  rw [← equal_bare u w, ← h.bare, equal_bare]

theorem agree_coercePrimitive (h : v.Alike marks w) (p : Primitive) :
    Agree x y (Alike marks) (v.coercePrimitive p) (w.coercePrimitive p) := by
  rcases h.cases with ⟨-, rfl⟩ | ⟨c, d, f, rfl, rfl, hc, -⟩ | ⟨id, t, vs, ws, rfl, rfl, -⟩
  · exact Agree.self (fun u hu => alike_of_isSimple (isSimple_of_isOf (isOf_coercePrimitive hu)))
  · have htype : (object d f).type = (object c f).type := h.type
    cases p <;> simp only [coercePrimitive, number?, htype] <;> exact Fault.Alike.same _
  · cases p <;> exact Fault.Alike.same _

theorem agree_coerce (h : v.Alike marks w) (t : TypeName) :
    Agree x y (Alike marks) (v.coerce t) (w.coerce t) := by
  cases t with
  | primitive p => exact agree_coercePrimitive h p
  | _ => exact h

theorem agree_narrow (h : v.Alike marks w) (t : TypeName) :
    Agree x y (Alike marks) (v.narrow t) (w.narrow t) := by
  rcases h.cases with ⟨hsimple, rfl⟩ | ⟨c, d, f, rfl, rfl, hc, -⟩ | ⟨id, t', vs, ws, rfl, rfl, -⟩
  · refine Agree.self (fun u hu => alike_of_isSimple ?_)
    rcases narrow_eq_or_isSimple hu with rfl | hu
    · exact hsimple
    · exact hu
  · exact agree_coerce h t
  · exact agree_coerce h t

theorem agree_binary (op : BinaryOp) (h : v.Alike marks w) (h' : v'.Alike marks w') :
    Agree x y (Alike marks) (binary op v v') (binary op w w') := by
  rw [← binary_bare op w w', ← h.bare, ← h'.bare, binary_bare]
  exact Agree.self (fun u hu => alike_of_isSimple (isSimple_binary hu))

theorem agree_unary (op : UnaryOp) (h : v.Alike marks w) :
    Agree x y (Alike marks) (unary op v) (unary op w) := by
  rw [← unary_bare op w, ← h.bare, unary_bare]
  exact Agree.self (fun u hu => alike_of_isSimple (isSimple_unary hu))

theorem agree_coerceAll (t : TypeName) {vs ws : List Value} (h : List.Forall₂ (Alike marks) vs ws) :
    Agree x y (List.Forall₂ (Alike marks)) (Step.coerceAll t vs) (Step.coerceAll t ws) := by
  induction h with
  | nil => exact .nil
  | cons hv _ ih => exact (agree_coerce hv t).bind (fun _ _ hv' => ih.bind (fun _ _ hvs' => .cons hv' hvs'))

theorem alike_array (id : Nat) (t : TypeName) {vs ws : List Value} (h : List.Forall₂ (Alike marks) vs ws) :
    (array id t vs).Alike marks (array id t ws) := by
  have hparts : vs.map bare = ws.map bare ∧ ∀ v ∈ vs, v.Outside marks := by
    induction h with
    | nil => exact ⟨rfl, nofun⟩
    | cons hv _ ih =>
      refine ⟨by rw [List.map_cons, List.map_cons, hv.bare, ih.1], fun u hu => ?_⟩
      rcases List.mem_cons.mp hu with rfl | hu
      · exact hv.outside
      · exact ih.2 u hu
  exact ⟨by rw [bare, bare, bareAll_eq_map, bareAll_eq_map, hparts.1], outside_array hparts.2⟩

end Value

/-! ### Optional data -/

section Rel

variable {α β γ δ : Type} {R : α → β → Prop} {S : γ → δ → Prop} {a : Option α} {b : Option β}

theorem rel_map {f : α → γ} {g : β → δ} (h : Option.Rel R a b) (hS : ∀ a b, R a b → S (f a) (g b)) :
    Option.Rel S (a.map f) (b.map g) := by
  cases h with
  | none => exact .none
  | some h => exact .some (hS _ _ h)

theorem rel_mono {R' : α → β → Prop} (h : Option.Rel R a b) (hR : ∀ a b, R a b → R' a b) : Option.Rel R' a b := by
  simpa using rel_map (f := id) (g := id) h hR

theorem rel_forall {R : Bool → α → β → Prop} (h : ∀ i, Option.Rel (R i) a b) :
    Option.Rel (fun a b => ∀ i, R i a b) a b := by
  cases a with
  | none =>
    cases h true
    exact .none
  | some a =>
    cases b with
    | none => exact nomatch h true
    | some b =>
      refine .some (fun i => ?_)
      cases h i
      assumption

end Rel

/-! ### Callables, variables and bindings -/

/-- Two callables that differ in the name of a parameter, or not at all. -/
def Callable.Alike (x y : String) (k k' : Callable) : Prop :=
  ∃ (t : Callable) (b : Bool), k = t.rename (oldName x y b) ∧ k' = t.rename (newName x y b) ∧
    (b = true → x ∈ k.params.map Param.name)

structure Closure.Alike (x y : String) (marks : List Bool) (k k' : Closure) : Prop where
  callable : k.callable.Alike x y k'.callable
  frame : k'.frame = k.frame
  className : k'.className = k.className
  outside : marks[k.frame]? = some false

structure Variable.Alike (x y : String) (marks : List Bool) (v v' : Variable) : Prop where
  name : TextAlike x y v.name v'.name
  type : v'.type = v.type
  value : Option.Rel (Value.Alike marks) v.value v'.value

inductive Binding.Alike (x y : String) (marks : List Bool) : Binding → Binding → Prop
  | var (id : VarId) : Alike x y marks (.var id) (.var id)
  | cls {c d : Class} : c.Alike marks d → Alike x y marks (.cls c) (.cls d)
  | closure {k k' : Closure} : k.Alike x y marks k' → Alike x y marks (.closure k) (.closure k')

inductive StashItem.Alike (x y : String) (marks : List Bool) : StashItem → StashItem → Prop
  | value {v w : Value} : v.Alike marks w → Alike x y marks (.value v) (.value w)
  | var (id : VarId) : Alike x y marks (.var id) (.var id)
  | cls {c d : Class} : c.Alike marks d → Alike x y marks (.cls c) (.cls d)
  | closure {k k' : Closure} : k.Alike x y marks k' → Alike x y marks (.closure k) (.closure k')
  | type (t : TypeName) : Alike x y marks (.type t) (.type t)

section Alike

variable {x y : String} {marks : List Bool}

namespace Callable.Alike

variable {k k' : Callable}

theorem refl (x y : String) (k : Callable) : k.Alike x y k :=
  ⟨k, false, (rename_id k).symm, (rename_id k).symm, nofun⟩

theorem name (h : k.Alike x y k') : k'.name = k.name := by
  obtain ⟨t, b, rfl, rfl, -⟩ := h
  simp

theorem isStatic (h : k.Alike x y k') : k'.isStatic = k.isStatic := by
  obtain ⟨t, b, rfl, rfl, -⟩ := h
  simp

theorem result (h : k.Alike x y k') : k'.result = k.result := by
  obtain ⟨t, b, rfl, rfl, -⟩ := h
  simp

theorem paramTypes (h : k.Alike x y k') : k'.paramTypes = k.paramTypes := by
  obtain ⟨t, b, rfl, rfl, -⟩ := h
  simp

theorem length_params (h : k.Alike x y k') : k'.params.length = k.params.length := by
  have hlength := congrArg List.length h.paramTypes
  rwa [Callable.paramTypes, Callable.paramTypes, List.length_map, List.length_map] at hlength

end Callable.Alike

theorem Closure.Alike.descriptor {k k' : Closure} (h : k.Alike x y marks k') : k'.descriptor = k.descriptor := by
  rw [Closure.descriptor, Closure.descriptor, Callable.descriptor, Callable.descriptor, h.callable.name,
    h.callable.paramTypes]

theorem Closure.Alike.text {k k' : Closure} (h : k.Alike x y marks k') : k'.text = k.text := by
  rw [Closure.text, Closure.text, h.className, h.descriptor]

theorem Variable.Alike.text {v v' : Variable} (h : v.Alike x y marks v') : TextAlike x y v.text v'.text := by
  obtain ⟨name, type, value⟩ := v
  obtain ⟨name', type', value'⟩ := v'
  obtain ⟨hname, rfl, hvalue⟩ := h
  cases hvalue with
  | none => exact (hname.prepend _).append _
  | some hv =>
    simp only [Variable.text, hv.text]
    exact ((hname.prepend _).append _).append _

end Alike

end StashMachine
