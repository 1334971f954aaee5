import StashMachine.Proofs.Descent
import StashMachine.Proofs.Locals

/-!
# StashMachine.Proofs.Lookup — what a name stands for along a chain of frames

* `lookup?_of_chain`, `lookup?_eq_some_iff`: the closest frame that binds a name decides what it stands for.
* `variable_of_local`: the frames of calls and blocks bind variables; `not_closure_of_spells`: an identifier is
  never bound to a closure.
* `lookup?_of_call`: reserved words are looked up in the frame of the call; `nameType_this`: in the code of a call on an
  object, `this` is declared with the class of the closure.
-/

namespace StashMachine

open Environment Machine Grammar

/-! ### Chains -/

namespace Environment

variable {env : Environment} {x : String} {inner outer : List FrameId}

/-- Frames that do not bind a name are passed over. -/
theorem lookup?_of_chain (hchain : env.chain env.current = inner ++ outer)
    (hfree : ∀ f ∈ inner, env.bound? f x = none) :
    env.lookup? x = outer.findSome? (fun f => env.bound? f x) := by
  have hnone : inner.findSome? (fun f => env.bound? f x) = none := List.findSome?_eq_none_iff.mpr hfree
  have hlookup : env.lookup? x = (inner ++ outer).findSome? (fun f => env.bound? f x) :=
    congrArg (List.findSome? (fun f => env.bound? f x)) hchain
  rw [hlookup, List.findSome?_append, hnone]
  rfl

/-- A name stands for what the closest frame that binds it says. -/
theorem lookup?_eq_some_iff {b : Binding} : env.lookup? x = some b ↔
    ∃ inner f outer, env.chain env.current = inner ++ f :: outer ∧ env.bound? f x = some b ∧
      ∀ g ∈ inner, env.bound? g x = none :=
  List.findSome?_eq_some_iff

theorem findName_of_lookup? {b : Binding} (h : env.lookup? x = some b) : env.findName x = .ok b := by
  rw [findName, h]

/-- A variable has the type that it is declared with. -/
theorem nameType_var {id : VarId} {v : Variable} (h : env.lookup? x = some (.var id))
    (hv : env.var? id = some v) : env.nameType x = .ok v.type := by
  rw [nameType, findName_of_lookup? h]
  show Except.ok (((env.var? id).map Variable.type).getD .void) = _
  rw [hv]
  rfl

theorem nameType_cls {c : Class} (h : env.lookup? x = some (.cls c)) : env.nameType x = .ok (.named c.name) := by
  rw [nameType, findName_of_lookup? h]
  rfl

end Environment

/-! ### What frames bind -/

/-- All frames around a frame are in the store. -/
theorem Layout.lt_of_mem_chain {roles : List Role} {env : Environment} {f g : FrameId} (h : Layout roles env)
    (hf : f < env.frames.size) (hg : g ∈ env.chain f) : g < env.frames.size := by
  induction f using Nat.strongRecOn with
  | _ f ih =>
    by_cases hglobal : f = global
    · rw [hglobal, h.chain_global] at hg
      rw [List.mem_singleton.mp hg, ← hglobal]
      exact hf
    · obtain ⟨f', hlt, houter⟩ := h.rooted f hf hglobal
      rw [Environment.chain, houter] at hg
      rcases List.mem_cons.mp hg with rfl | hg
      · exact hf
      · exact ih f' hlt (Nat.lt_trans hlt hf) hg

/-- The global frame is around every frame. -/
theorem Layout.global_mem_chain {roles : List Role} {env : Environment} {f : FrameId} (h : Layout roles env)
    (hf : f < env.frames.size) : global ∈ env.chain f := by
  induction f using Nat.strongRecOn with
  | _ f ih =>
    by_cases hglobal : f = global
    · rw [hglobal, h.chain_global]
      exact .head _
    · obtain ⟨f', hlt, houter⟩ := h.rooted f hf hglobal
      rw [Environment.chain, houter]
      exact .tail _ (ih f' hlt (Nat.lt_trans hlt hf))

section Frames

variable {p : Program} {m : Machine} {f : FrameId} {x source : String} {b : Binding}

theorem lt_of_mem_chain (hm : Reached Natives.empty p m)
    (hf : f ∈ m.registers.env.chain m.registers.env.current) : f < m.registers.env.frames.size := by
  obtain ⟨roles, hscoped, -⟩ := exists_scoped hm
  obtain ⟨ρ, hρ, -⟩ := hscoped.current
  exact hscoped.layout.lt_of_mem_chain (hscoped.layout.lt_size hρ) hf

/-- Classes are seen from everywhere, unless something else of their name is closer. -/
theorem exists_lookup?_class {c : Class} (hm : Reached Natives.empty p m)
    (hc : m.registers.env.findClass c.name = .ok c) : ∃ b, m.registers.env.lookup? c.name = some b := by
  obtain ⟨roles, hscoped, -⟩ := exists_scoped hm
  obtain ⟨ρ, hρ, -⟩ := hscoped.current
  have hglobal := hscoped.layout.global_mem_chain (hscoped.layout.lt_size hρ)
  refine Option.isSome_iff_exists.mp (List.findSome?_isSome_iff.mpr ⟨global, hglobal, ?_⟩)
  rw [show (m.registers.env.frame global).get? c.name = some (.cls c) from findClass_eq_ok.mp hc]
  rfl

/-- A variable that is bound has been declared under its name. -/
theorem exists_variable (hp : ∀ d ∈ p, d.Plain) (hm : Reached Natives.empty p m) {id : VarId}
    (h : m.registers.env.bound? f x = some (.var id)) :
    ∃ v, m.registers.env.var? id = some v ∧ v.name = x := by
  obtain ⟨pend, hforming, -⟩ := (Phase.strict hp hm).exists_forming
  exact hforming.names trivial f x id h

/-- Frames other than those of classes and the global one bind variables only. -/
theorem variable_of_role {ρ : Role} (hm : Reached Natives.empty p m) (hf : Plays p f ρ)
    (hρ : ρ ≠ .global ∧ ∀ c, ρ ≠ .cls c) (h : m.registers.env.bound? f x = some b) : ∃ id, b = .var id := by
  obtain ⟨roles, hscoped, hplays⟩ := exists_scoped hm
  cases b with
  | var id => exact ⟨id, rfl⟩
  | closure k =>
    obtain ⟨c, hc, -⟩ := hscoped.layout.closures f x k h
    exact absurd (hf.unique (hplays f _ hc)) (hρ.2 c)
  | cls c =>
    obtain rfl := class_is_global hm h
    exact absurd (hf.unique (.inl ⟨rfl, rfl⟩)) hρ.1

theorem variable_of_local (hm : Reached Natives.empty p m) (hf : IsLocal p f)
    (h : m.registers.env.bound? f x = some b) : ∃ id, b = .var id := by
  rcases hf with hf | ⟨k, object, hf⟩
  · exact variable_of_role hm hf ⟨nofun, nofun⟩ h
  · exact variable_of_role hm hf ⟨nofun, nofun⟩ h

/-- Closures are bound under keys, which are no identifiers. -/
theorem not_closure_of_spells (hm : Reached Natives.empty p m) (hx : Rule.identifier.Spells x.toList)
    (k : Closure) : m.registers.env.bound? f x ≠ some (.closure k) := by
  intro h
  have hparen := isNameChar_of_spells hx _ (mem_of_closure_bound hm h)
  exact absurd hparen (by decide)

theorem spells_rootName : Rule.identifier.Spells rootName.toList :=
  ⟨⟨'O', ['b', 'j', 'e', 'c', 't'], rfl, by decide, List.all_eq_true.mp (by decide)⟩, by decide⟩

/-- Classes are named by identifiers. -/
theorem Program.Declares.spells {d : ClassDecl} (hparse : Program.parse source = .ok p) (hd : p.Declares d) :
    Rule.identifier.Spells d.name.toList := by
  rcases hd with hd | rfl
  · exact Program.parse_names hparse d hd
  · exact spells_rootName

/-- Fields are named by identifiers. -/
theorem Program.Declares.spells_field {d : ClassDecl} {fd : FieldDecl} {v : Declarator}
    (hparse : Program.parse source = .ok p) (hd : p.Declares d) (hfd : fd ∈ d.fields) (hv : v ∈ fd.vars) :
    Rule.identifier.Spells v.name.toList := by
  rcases hd with hd | rfl
  · exact Program.parse_fields hparse d hd fd hfd v hv
  · cases hfd

/-- Classes are registered under identifiers. -/
theorem spells_of_findClass (hparse : Program.parse source = .ok p) (hm : Reached Natives.empty p m)
    {c : Class} (hc : m.registers.env.findClass x = .ok c) : Rule.identifier.Spells x.toList := by
  obtain ⟨rfl, d, g, superclass, hd, rfl⟩ := (Origins.visited (.inl hm)).classes _ x c (findClass_eq_ok.mp hc)
  exact hd.spells hparse

/-- No block binds a reserved word. -/
theorem block_unbound {g : FrameId} (hparse : Program.parse source = .ok p) (hm : Reached Natives.empty p m)
    (hx : ¬ Rule.identifier.Spells x.toList) (hg : Plays p g .block) : m.registers.env.bound? g x = none := by
  cases hbound : m.registers.env.bound? g x with
  | none => rfl
  | some b =>
    obtain ⟨id, rfl⟩ := variable_of_local hm (.inl hg) hbound
    exact absurd (spells_of_block hparse hm hg hbound) hx

theorem not_spells_this : ¬ Rule.identifier.Spells thisName.toList := fun h => notMem_keywords h (by decide)

theorem not_spells_super : ¬ Rule.identifier.Spells superName.toList := fun h => notMem_keywords h (by decide)

/-- In the code of a call, the reserved words that the frame of the call binds are looked up there. -/
theorem lookup?_of_call {k : Closure} {object : Option (Class × FrameId)} (hparse : Program.parse source = .ok p)
    (hm : Reached Natives.empty p m) (hplays : Plays p f (.call k object))
    (hf : f ∈ m.registers.env.chain m.registers.env.current) (hx : ¬ Rule.identifier.Spells x.toList)
    (hb : m.registers.env.bound? f x = some b) : m.registers.env.lookup? x = some b := by
  obtain ⟨roles, hscoped, hroles⟩ := exists_scoped hm
  obtain ⟨blocks, ground, hchain, hblocks, hground⟩ := hscoped.layout.exists_ground hroles hscoped.current
  rw [hchain] at hf
  rcases List.mem_append.mp hf with hf | hf
  · cases hplays.unique (hblocks f hf)
  · cases ground with
    | nil => cases hf
    | cons f' rest =>
      -- only the first frame of the ground is that of a call
      have htail := hground.not_isCall_tail hscoped.layout hroles
      rcases List.mem_cons.mp hf with rfl | hf
      · exact lookup?_eq_some_iff.mpr ⟨blocks, f, rest, hchain, hb, fun g hg => block_unbound hparse hm hx (hblocks g hg)⟩
      · exact absurd ⟨k, object, hplays⟩ (htail f hf)

/-- In the code of a call on an object, `this` is declared with the class of the closure. -/
theorem nameType_this {blocks rest : List FrameId} {k : Closure} {object : Class × FrameId}
    (hparse : Program.parse source = .ok p) (hm : Reached Natives.empty p m)
    (hchain : m.registers.env.chain m.registers.env.current = blocks ++ f :: rest)
    (hf : Plays p f (.call k (some object))) : m.registers.env.nameType thisName = .ok (.named k.className) := by
  have hmem : f ∈ m.registers.env.chain m.registers.env.current := by
    rw [hchain]
    simp
  obtain ⟨id, v, hbound, hv, htype⟩ := this_of_call hm hf (lt_of_mem_chain hm hmem)
  rw [nameType_var (lookup?_of_call hparse hm hf hmem not_spells_this hbound) hv, htype]

end Frames

end StashMachine
