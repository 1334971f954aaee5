import StashMachine.Proofs.Registry
import Mathlib.Data.List.Forall2

/-!
# StashMachine.Proofs.Assignability — assignability is a partial order

* `Environment.Orderly`: every class is registered with its ancestors, up to the root.
* `Accepts`: assignability of types, case by case; `assignable_iff`.
* `accepts_trans`, `accepts_antisymm`: it is transitive, and no two types accept each other.
* `applicable_trans`, `applicable_antisymm`: the same for lists of parameters.
-/

namespace StashMachine

open Environment

/-- Every class is registered as it should be. -/
def Environment.Orderly (env : Environment) : Prop :=
  ∀ x c, env.findClass x = .ok c → Registered env x c

/-- A type accepts another one: the type itself, a primitive widening, `null` for a reference, any
reference for `Object`, and a class for an ancestor. -/
inductive Accepts (env : Environment) : TypeName → TypeName → Prop
  | same (t : TypeName) : Accepts env t t
  | widening {p q : Primitive} : p ∈ q.widenings → Accepts env (.primitive p) (.primitive q)
  | null {t : TypeName} : t.isReference = true → Accepts env t .null
  | object {s : TypeName} : s.isReference = true → Accepts env .object s
  | ancestor {x : String} {c : Class} {d : ClassInfo} : env.findClass x = .ok c → d ∈ c.lineage →
    Accepts env (.named d.name) (.named x)

/-! ### Primitive types -/

theorem Primitive.widenings_trans {p q r : Primitive} (h : p ∈ q.widenings) (h' : q ∈ r.widenings) :
    p ∈ r.widenings := by
  have key : ∀ q ∈ r.widenings, ∀ p ∈ q.widenings, p ∈ r.widenings := by cases r <;> decide
  exact key q h' p h

theorem Primitive.widenings_asymm {p q : Primitive} (h : p ∈ q.widenings) : q ∉ p.widenings := by
  have key : ∀ p ∈ q.widenings, q ∉ p.widenings := by cases q <;> decide
  exact key p h

/-! ### Lineages -/

section Lineage

variable {env : Environment} {x : String} {c : Class} {d : ClassInfo}

theorem Class.isSubclassOf_iff : c.isSubclassOf x = true ↔ ∃ d ∈ c.lineage, d.name = x := by
  simp [Class.isSubclassOf]

/-- Ancestors are registered under their names. -/
theorem Registered.word_of_mem (henv : env.Orderly) (h : Registered env x c) (hd : d ∈ c.lineage) :
    TypeName.ofString d.name = .named d.name := by
  obtain ⟨c', hc', -, -⟩ := h.lineage d hd
  exact (henv _ _ hc').word

/-- The root has no ancestors. -/
theorem Registered.eq_root (h : Registered env x c) (hx : x = rootName) (hd : d ∈ c.lineage) :
    d.name = rootName := by
  obtain ⟨before, o, hlineage, ho⟩ := h.root
  have hhead : c.name = rootName := h.name.trans hx
  cases before with
  | nil =>
    rw [hlineage] at hd
    obtain rfl := List.mem_singleton.mp hd
    exact ho
  | cons d₀ before =>
    -- the name of the root would stand at both ends
    have hnodup := h.nodup
    rw [hlineage] at hnodup
    have hd₀ : d₀ = c.toClassInfo := by
      rw [Class.lineage, List.cons_append] at hlineage
      exact (List.cons.inj hlineage).1.symm
    simp [hd₀, hhead, ho] at hnodup

/-- An ancestor of an ancestor is an ancestor. -/
theorem Registered.lineage_suffix (h : Registered env x c) (hd : d ∈ c.lineage) {c' : Class}
    (hc' : env.findClass d.name = .ok c') : c'.lineage <:+ c.lineage := by
  obtain ⟨c'', hc'', -, hsuffix⟩ := h.lineage d hd
  rw [hc'] at hc''
  cases hc''
  exact hsuffix

end Lineage

/-! ### Types -/

section Types

variable {env : Environment} {t m s : TypeName}

/-- A type whose text is the name of a class is that class. -/
theorem TypeName.eq_named {x : String} (ht : TypeName.ofString t.text = t) (hx : t.text = x)
    (hword : TypeName.ofString x = .named x) : t = .named x := by
  rw [← hword, ← hx, ht]

/-- Assignability of types that are read back from their texts. -/
theorem assignable_iff (henv : env.Orderly) (ht : TypeName.ofString t.text = t) (hs : TypeName.ofString s.text = s) :
    env.assignable t s = true ↔ Accepts env t s := by
  constructor
  · intro h
    unfold assignable at h
    split at h
    · rename_i heq
      exact heq ▸ .same t
    · split at h
      · exact .widening (by simpa using h)
      · cases h
      · cases h
      · rename_i hsp _
        split at h
        · rename_i hcase
          simp only [Bool.and_eq_true, bne_iff_ne, ne_eq] at h
          rcases hcase with rfl | rfl
          · exact .null h.1
          · refine .object ?_
            cases s with
            | primitive q => exact absurd rfl (hsp q)
            | void => exact absurd rfl h.2
            | _ => rfl
        · split at h
          · rename_i c hc
            obtain ⟨d, hd, hname⟩ := Class.isSubclassOf_iff.mp h
            have hreg := henv _ _ hc
            rw [TypeName.eq_named ht hname.symm (hreg.word_of_mem henv hd), TypeName.eq_named hs rfl hreg.word]
            exact .ancestor hc hd
          · cases h
  · intro h
    cases h with
    | same => simp [assignable]
    | @widening p q h =>
      have hne : p ≠ q := by
        rintro rfl
        exact Primitive.widenings_asymm h h
      simp [assignable, hne, h]
    | null h =>
      cases t <;> simp_all [assignable, TypeName.isReference]
    | object h =>
      cases s <;> simp_all [assignable, TypeName.isReference, TypeName.object]
    | @ancestor x c d hc hd =>
      have hsub : c.isSubclassOf d.name = true := Class.isSubclassOf_iff.mpr ⟨d, hd, rfl⟩
      simp [assignable, TypeName.isReference, TypeName.text, hc, hsub]

theorem isReference_of_accepts (h : Accepts env t m) (hm : m.isReference = true) :
    t.isReference = true := by
  cases h with
  | same => exact hm
  | widening => cases hm
  | null h => exact h
  | object => rfl
  | ancestor => rfl

/-- Only `Object` accepts `Object`. -/
theorem eq_object_of_accepts (henv : env.Orderly) (h : Accepts env t .object) : t = .object := by
  generalize hm : TypeName.object = m at h
  cases h with
  | same => rfl
  | widening => cases hm
  | null => cases hm
  | object => exact hm
  | ancestor hc hd =>
    cases hm
    rw [(henv _ _ hc).eq_root rfl hd]
    rfl

theorem accepts_trans (henv : env.Orderly) (h : Accepts env t m) (h' : Accepts env m s) :
    Accepts env t s := by
  cases h' with
  | same => exact h
  | null hm => exact .null (isReference_of_accepts h hm)
  | object hs =>
    rw [eq_object_of_accepts henv h]
    exact .object hs
  | widening hw' =>
    cases h with
    | same => exact .widening hw'
    | widening hw => exact .widening (Primitive.widenings_trans hw hw')
    | object hm => cases hm
  | @ancestor x c d hc hd =>
    generalize hm : TypeName.named d.name = m at h
    cases h with
    | same => exact hm ▸ .ancestor hc hd
    | widening => cases hm
    | null => cases hm
    | object => exact .object rfl
    | @ancestor y c' d' hc' hd' =>
      cases hm
      exact .ancestor hc (((henv _ _ hc).lineage_suffix hd hc').subset hd')

/-- No two types accept each other. -/
theorem accepts_antisymm (henv : env.Orderly) (h : Accepts env t s) (h' : Accepts env s t) :
    t = s := by
  cases h with
  | same => rfl
  | widening hw =>
    cases h' with
    | same => rfl
    | widening hw' => exact absurd hw' (Primitive.widenings_asymm hw)
  | null =>
    cases h' with
    | same => rfl
    | null => rfl
  | object => exact (eq_object_of_accepts henv h').symm
  | @ancestor x c d hc hd =>
    generalize ht : TypeName.named d.name = t at h'
    generalize hs : TypeName.named x = s at h'
    cases h' with
    | same => rfl
    | widening => cases ht
    | null => cases ht
    | object =>
      cases hs
      rw [← ht, (henv _ _ hc).eq_root rfl hd]
      rfl
    | @ancestor y c' d' hc' hd' =>
      cases ht
      cases hs
      -- each lineage ends with the other one
      have hle := (henv _ _ hc).lineage_suffix hd hc'
      have hge := (henv _ _ hc').lineage_suffix hd' hc
      have heq : c'.lineage = c.lineage := hle.eq_of_length_le hge.length_le
      have hname : c'.name = c.name := congrArg ClassInfo.name (List.cons.inj heq).1
      rw [(henv _ _ hc).name, (henv _ _ hc').name] at hname
      rw [hname]

end Types

/-! ### Lists of parameters -/

section Lists

variable {env : Environment} {ts ms ss : List TypeName}

variable (henv : env.Orderly) (hts : ∀ t ∈ ts, t.Plain)

include henv hts

theorem applicable_iff (hss : ∀ s ∈ ss, s.Plain) :
    env.applicable ts ss = true ↔ List.Forall₂ (Accepts env) ts ss := by
  induction ts generalizing ss with
  | nil => cases ss <;> simp [applicable]
  | cons t ts ih =>
    cases ss with
    | nil => simp [applicable]
    | cons s ss =>
      have hrest : env.applicable ts ss = true ↔ List.Forall₂ (Accepts env) ts ss :=
        ih (fun t ht => hts t (by simp [ht])) (fun s hs => hss s (by simp [hs]))
      simp only [applicable, Bool.and_eq_true, List.forall₂_cons, hrest,
        assignable_iff henv (hts t (by simp)).read (hss s (by simp)).read]

theorem applicable_refl : env.applicable ts ts = true := by
  rw [applicable_iff henv hts hts]
  exact List.forall₂_same.mpr (fun t _ => .same t)

theorem applicable_trans (hms : ∀ m ∈ ms, m.Plain) (hss : ∀ s ∈ ss, s.Plain)
    (h : env.applicable ts ms = true) (h' : env.applicable ms ss = true) :
    env.applicable ts ss = true := by
  rw [applicable_iff henv hts hms] at h
  rw [applicable_iff henv hms hss] at h'
  rw [applicable_iff henv hts hss]
  clear hts hms hss
  induction h generalizing ss with
  | nil => exact h'
  | cons ht _ ih =>
    cases h' with
    | cons hm hrest => exact .cons (accepts_trans henv ht hm) (ih hrest)

theorem applicable_antisymm (hss : ∀ s ∈ ss, s.Plain) (h : env.applicable ts ss = true)
    (h' : env.applicable ss ts = true) : ts = ss := by
  rw [applicable_iff henv hts hss] at h
  rw [applicable_iff henv hss hts] at h'
  clear hts hss
  induction h with
  | nil => rfl
  | cons ht _ ih =>
    cases h' with
    | cons hs hrest => rw [accepts_antisymm henv ht hs, ih hrest]

end Lists

end StashMachine
