import StashMachine.Proofs.Places

/-!
# StashMachine.Proofs.Elaborated — the bodies that run

A class elaborates the bodies of its methods and constructors statement by statement, and adds some statements of
its own.

* `ConstructorDecl.mem_arrange`: what a constructor gets from its class.
* `Stmt.Inherited P`: `P` holds of the statements that are read from a source, and elaboration keeps it.
* `ClassDecl.Bodies P`: `P` holds of all bodies of a class; `Program.parse_bodies`: so it is in every program that
  is read from a source.
* `exists_decl_of_calls`: the closures that are called come from the classes of the program; `forall_of_calls`: so
  `P` holds of every body that a run enters.
-/

namespace StashMachine

open Environment Machine

/-- A property that the statements of a source have and that elaboration keeps. -/
structure Stmt.Inherited (P : Stmt → Prop) : Prop extends Stmt.Hereditary P where
  construct : ∀ who args, P (.construct who args)
  qualify : ∀ {s} q, P s → P (s.qualify q)
  returnThis : ∀ {s}, P s → P s.returnThis

/-- The property holds of all statements in the bodies of a class. -/
structure ClassDecl.Bodies (P : Stmt → Prop) (d : ClassDecl) : Prop where
  methods : ∀ m ∈ d.methods, ∀ body, m.body = some body → ∀ s ∈ body, P s
  constructors : ∀ k ∈ d.constructors, ∀ s ∈ k.body, P s

namespace ConstructorDecl

theorem mem_setFields {fields : List FieldDecl} {s : Stmt} :
    s ∈ setFields fields ↔ ∃ f ∈ fields, ∃ d ∈ f.vars,
      s = setField d.name (d.init.getD (.literal (Literal.default f.type))) := by
  simp [setFields, eq_comm]

/-- A constructor gets the call of the constructor of the superclass and the set-up of its fields from its class. -/
theorem mem_arrange {fields : List FieldDecl} {hasSuper : Bool} {body : List Stmt} {s : Stmt}
    (h : s ∈ arrange fields hasSuper body) : s ∈ body ∨ s = .construct .super [] ∨ s ∈ setFields fields := by
  unfold arrange at h
  split at h
  · exact .inl h
  · rcases List.mem_cons.mp h with rfl | h
    · exact .inl (.head _)
    · rcases List.mem_append.mp h with h | h
      · exact .inr (.inr h)
      · exact .inl (.tail _ h)
  · rcases List.mem_append.mp h with h | h
    · rcases List.mem_append.mp h with h | h
      · split at h
        · exact .inr (.inl (List.mem_singleton.mp h))
        · cases h
      · exact .inr (.inr h)
    · exact .inl h

end ConstructorDecl

section Bodies

variable {P : Stmt → Prop} {d : ClassDecl} {body : List Stmt} (hP : Stmt.Inherited P)

include hP

theorem MethodDecl.forall_elaborate {m : MethodDecl} {className : String}
    (hm : ∀ body, m.body = some body → ∀ s ∈ body, P s)
    (hbody : (Callable.method (m.elaborate className)).body? = some body) : ∀ s ∈ body, P s := by
  intro s hs
  rw [Callable.body?] at hbody
  split at hbody
  · cases hbody
  · obtain ⟨body₀, hbody₀, rfl⟩ := Option.map_eq_some_iff.mp hbody
    rcases Stmt.mem_withTrailing hs with hs | rfl
    · obtain ⟨s₀, hs₀, rfl⟩ := List.mem_map.mp hs
      exact hP.qualify _ (hm body₀ hbody₀ s₀ hs₀)
    · exact hP.ret _

theorem ConstructorDecl.forall_elaborate {c : ConstructorDecl} {fields : List FieldDecl} {hasSuper : Bool}
    (hc : ∀ s ∈ c.body, P s) : ∀ s ∈ (c.elaborate fields hasSuper).body, P s := by
  intro s hs
  rcases Stmt.mem_withTrailing hs with hs | rfl
  · obtain ⟨s₀, hs₀, rfl⟩ := List.mem_map.mp hs
    refine hP.returnThis (hP.qualify _ ?_)
    rcases ConstructorDecl.mem_arrange hs₀ with hs₀ | rfl | hs₀
    · exact hc s₀ hs₀
    · exact hP.construct _ _
    · obtain ⟨f, -, d, -, rfl⟩ := ConstructorDecl.mem_setFields.mp hs₀
      exact hP.expr _
  · exact hP.ret _

/-- Elaboration keeps the property. -/
theorem ClassDecl.Bodies.callables (hd : d.Bodies P) {f : FrameId} {superclass : Option Class} {k : Callable}
    (hk : k ∈ (d.elaborate f superclass).toClassInfo.callables) (hbody : k.body? = some body) :
    ∀ s ∈ body, P s := by
  simp only [ClassInfo.callables, ClassInfo.methods, ClassDecl.elaborate, List.map_append, List.mem_append,
    List.mem_map, List.mem_filter] at hk
  rcases hk with (⟨_, ⟨m, ⟨hm, -⟩, rfl⟩, rfl⟩ | ⟨_, ⟨m, ⟨hm, -⟩, rfl⟩, rfl⟩) | ⟨_, ⟨k, hk, rfl⟩, rfl⟩
  · exact MethodDecl.forall_elaborate hP (hd.methods m hm) hbody
  · exact MethodDecl.forall_elaborate hP (hd.methods m hm) hbody
  · cases hbody
    exact ConstructorDecl.forall_elaborate hP (hd.constructors k hk)

/-- The property holds of the bodies of every program that is read from a source. -/
theorem Program.parse_bodies {source : String} {p : Program} (h : Program.parse source = .ok p) :
    ∀ d ∈ p, d.Bodies P := by
  refine forall_of_parse h (fun t d ht _ hd => ⟨fun m hm body hbody => ?_, fun k hk => ?_⟩)
  · obtain ⟨t', ht', -, hread⟩ := exists_of_mem_methods ht hd hm
    exact forall_of_method hP.toHereditary ht' hread body hbody
  · rcases exists_of_mem_constructors ht hd hk with rfl | ⟨t', ht', hread⟩
    · exact nofun
    · rcases forall_of_constructor hP.toHereditary ht' hread with hall | ⟨who, args, rest, hbody, hrest⟩
      · exact hall
      · rw [hbody]
        exact List.forall_mem_cons.mpr ⟨hP.construct who args, hrest⟩

theorem Program.Declares.bodies {source : String} {p : Program} (hparse : Program.parse source = .ok p)
    (hd : p.Declares d) : d.Bodies P := by
  rcases hd with hd | rfl
  · exact Program.parse_bodies hP hparse d hd
  · refine ⟨nofun, fun k hk => ?_⟩
    obtain rfl := List.mem_singleton.mp hk
    exact nofun

end Bodies

/-! ### Calls -/

section Calls

variable {p : Program} {m : Machine} {i : Item} {c : List Item} {k : Closure} {object : Option (Class × FrameId)}

/-- The closures that are called come from the classes of the program. -/
theorem exists_decl_of_calls (hm : Reached Natives.empty p m)
    (hcalls : Calls { m.registers with control := c } i k object) :
    ∃ d g superclass, p.Declares d ∧ k.callable ∈ (d.elaborate g superclass).toClassInfo.callables := by
  obtain ⟨roles, hscoped, -⟩ := exists_scoped hm
  obtain ⟨n, args, rest, below, -, -, hstash, -⟩ := hcalls
  obtain ⟨f, y, hy⟩ := hscoped.closures k (by rw [show m.registers.stash = _ from hstash]; simp)
  obtain ⟨d, hd, -, -, -, hk⟩ := hscoped.layout.closures f y k hy
  obtain ⟨-, -, hfind, -⟩ := hscoped.layout.lies f _ hd
  obtain ⟨-, decl, g, superclass, hdecl, rfl⟩ :=
    (Origins.visited (.inl hm)).classes _ _ d (findClass_eq_ok.mp hfind)
  exact ⟨decl, g, superclass, hdecl, hk⟩

/-- The property holds of every body that is entered. -/
theorem forall_of_calls {P : Stmt → Prop} {source : String} {body : List Stmt} (hP : Stmt.Inherited P)
    (hparse : Program.parse source = .ok p) (hm : Reached Natives.empty p m)
    (hcalls : Calls { m.registers with control := c } i k object) (hbody : k.callable.body? = some body) :
    ∀ s ∈ body, P s := by
  obtain ⟨d, g, superclass, hd, hk⟩ := exists_decl_of_calls hm hcalls
  exact ClassDecl.Bodies.callables hP (Program.Declares.bodies hP hparse hd) hk hbody

end Calls

end StashMachine
