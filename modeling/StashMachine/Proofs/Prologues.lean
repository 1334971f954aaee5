import StashMachine.Proofs.Locals
import StashMachine.Proofs.Parts

/-!
# StashMachine.Proofs.Prologues — how the bodies of constructors begin

* `Stmt.Calm`: no explicit constructor call stands in a statement.
* `fieldVars`, `initStmt`: the fields that declarations declare, and the statement that sets one up.
* `Prologue inits hasSuper body`: the body begins with a call of another constructor of the class, or with the call of
  a constructor of the superclass and the set-up of the fields; everything else is calm.
* `prologue_of_findClass`: so do the constructors of every class in a run; `calm_of_calls`: and methods are calm.
-/

namespace StashMachine

open Environment Step Machine

/-! ### Statements that call no constructor -/

namespace Stmt

/-- No explicit constructor call stands in the statement. -/
def Calm (s : Stmt) : Prop := ∀ who args, .construct who args ∉ s.parts

variable {s : Stmt}

theorem calm_iff : s.Calm ↔ ∀ t ∈ s.parts, ∀ who args, t ≠ .construct who args := by
  constructor
  · rintro h t ht who args rfl
    exact h who args ht
  · exact fun h who args hmem => h _ hmem who args rfl

/-- In code no constructor is called explicitly. -/
theorem hereditary_calm : Hereditary Calm := by
  have h : Hereditary (fun s => ∀ t ∈ s.parts, ∀ who args, t ≠ .construct who args) :=
    hereditary_parts (fun _ _ h => h)
  simpa only [← calm_iff] using h

/-- Rebuilding a statement makes no constructor call of anything else. -/
theorem Calm.mapParts {onExpr : Expr → Expr} {onLeaf : Stmt → Stmt} (h : s.Calm)
    (hparts : (s.mapParts onExpr onLeaf).parts = s.parts.map (Stmt.mapParts onExpr onLeaf))
    (hleaf : ∀ s who args, onLeaf s = .construct who args → s = .construct who args) :
    (s.mapParts onExpr onLeaf).Calm := by
  intro who args hmem
  rw [hparts] at hmem
  obtain ⟨t, ht, heq⟩ := List.mem_map.mp hmem
  cases t with
  | construct who' args' => exact h who' args' ht
  | ret e =>
    cases e with
    | none => cases hleaf _ _ _ heq
    | some e => cases heq
  | breakOut => cases hleaf _ _ _ heq
  | continueLoop => cases hleaf _ _ _ heq
  | empty => cases hleaf _ _ _ heq
  | _ => cases heq

theorem Calm.qualify (h : s.Calm) (q : Path) : (s.qualify q).Calm :=
  h.mapParts (parts_qualify q s) (fun _ _ _ heq => heq)

theorem Calm.returnThis (h : s.Calm) : s.returnThis.Calm := by
  refine h.mapParts (parts_returnThis s) (fun s who args heq => ?_)
  unfold retThisLeaf at heq
  split at heq
  · cases heq
  · exact heq

end Stmt

/-! ### Bodies -/

/-- No statement of a body but the first one calls a constructor explicitly. -/
def OpensCalmly (body : List Stmt) : Prop :=
  (∀ s ∈ body, s.Calm) ∨ ∃ who args rest, body = .construct who args :: rest ∧ ∀ s ∈ rest, s.Calm

/-- The fields that declarations declare, one by one, with their types. -/
def fieldVars (fields : List FieldDecl) : List (TypeName × Declarator) :=
  fields.flatMap (fun f => f.vars.map (fun v => (f.type, v)))

/-- The statement that sets up a field, in a constructor that runs. -/
def initStmt (v : TypeName × Declarator) : Stmt :=
  .expr (.assign (.field (.simple thisName) v.2.name)
    ((v.2.init.getD (.literal (Literal.default v.1))).qualify (.simple thisName)))

theorem calm_initStmt (v : TypeName × Declarator) : (initStmt v).Calm := Stmt.hereditary_calm.expr _

/-- A constructor that runs either begins with a call of another one of its class, or it begins with a call of one of
the superclass, if there is one, and the set-up of the fields. -/
inductive Prologue (inits : List Stmt) (hasSuper : Bool) (rest : List Stmt) : List Stmt → Prop
  | this {args : List Expr} : Prologue inits hasSuper rest (.construct .this args :: rest)
  | super {args : List Expr} : Prologue inits hasSuper rest (.construct .super args :: (inits ++ rest))
  | root : hasSuper = false → Prologue inits hasSuper rest (inits ++ rest)

/-- The explicit constructor call that a body begins with. -/
def leadingCall? : List Stmt → Option Delegate
  | .construct who _ :: _ => some who
  | _ => none

/-- The number of statements before the set-up of the fields. -/
def lead (body : List Stmt) : Nat := (leadingCall? body).toList.length

/-- The fields that a body sets up: all of them, unless it calls another constructor of the class. -/
def setsUp {α : Type} (vars : List α) (body : List Stmt) : List α :=
  if leadingCall? body = some .this then [] else vars

theorem leadingCall?_eq_some {body : List Stmt} {who : Delegate} :
    leadingCall? body = some who ↔ ∃ args rest, body = .construct who args :: rest := by
  constructor
  · intro h
    unfold leadingCall? at h
    split at h
    · cases h
      exact ⟨_, _, rfl⟩
    · cases h
  · rintro ⟨args, rest, rfl⟩
    rfl

section Prologue

variable {vars : List (TypeName × Declarator)} {hasSuper : Bool} {body rest : List Stmt}

theorem calm_inits (hrest : ∀ s ∈ rest, s.Calm) : ∀ s ∈ vars.map initStmt ++ rest, s.Calm := by
  intro s hs
  rcases List.mem_append.mp hs with hs | hs
  · obtain ⟨v, -, rfl⟩ := List.mem_map.mp hs
    exact calm_initStmt v
  · exact hrest s hs

theorem leadingCall?_of_calm (h : ∀ s ∈ body, s.Calm) : leadingCall? body = none := by
  cases hbody : leadingCall? body with
  | none => rfl
  | some who =>
    obtain ⟨args, rest, rfl⟩ := leadingCall?_eq_some.mp hbody
    exact absurd (List.mem_singleton_self _) (h _ (.head _) who args)

theorem Prologue.opensCalmly (h : Prologue (vars.map initStmt) hasSuper rest body) (hrest : ∀ s ∈ rest, s.Calm) :
    OpensCalmly body := by
  cases h with
  | this => exact .inr ⟨.this, _, _, rfl, hrest⟩
  | super => exact .inr ⟨.super, _, _, rfl, calm_inits hrest⟩
  | root _ => exact .inl (calm_inits hrest)

/-- A body that calls no constructor first is one of the root. -/
theorem Prologue.isRoot (h : Prologue (vars.map initStmt) hasSuper rest body) (hnone : leadingCall? body = none) :
    hasSuper = false := by
  cases h with
  | this => cases hnone
  | super => cases hnone
  | root hroot => exact hroot

/-- Behind its call, a body sets up its fields. -/
theorem Prologue.drop_lead (h : Prologue (vars.map initStmt) hasSuper rest body) (hrest : ∀ s ∈ rest, s.Calm) :
    body.drop (lead body) = (setsUp vars body).map initStmt ++ rest := by
  cases h with
  | this => rfl
  | super => rfl
  | root _ =>
    have hcalm : ∀ s ∈ vars.map initStmt ++ rest, s.Calm := calm_inits hrest
    have hnone := leadingCall?_of_calm hcalm
    rw [lead, setsUp, hnone]
    rfl

end Prologue

namespace ConstructorDecl

variable {c : ConstructorDecl} {fields : List FieldDecl} {hasSuper : Bool}

/-- A statement of a constructor as it runs. -/
def running (s : Stmt) : Stmt := (s.qualify (.simple thisName)).returnThis

theorem running_setFields : (setFields fields).map running = (fieldVars fields).map initStmt := by
  simp only [setFields, fieldVars, List.map_flatMap, List.map_map]
  rfl

theorem exists_withTrailing (body : List Stmt) :
    ∃ more, Stmt.withTrailing Stmt.retThis body = body ++ more ∧ ∀ s ∈ more, s = Stmt.retThis := by
  unfold Stmt.withTrailing
  split
  · split
    · exact ⟨[], (List.append_nil _).symm, nofun⟩
    · exact ⟨[Stmt.retThis], rfl, fun s hs => List.mem_singleton.mp hs⟩
  · rename_i hnone
    rw [List.getLast?_eq_none_iff.mp hnone]
    exact ⟨[Stmt.retThis], rfl, fun s hs => List.mem_singleton.mp hs⟩

/-- The statements of a body other than an explicit constructor call at its beginning. -/
def ownStmts : List Stmt → List Stmt
  | .construct _ _ :: rest => rest
  | body => body

theorem calm_ownStmts (h : OpensCalmly c.body) : ∀ s ∈ ownStmts c.body, s.Calm := by
  rcases h with h | ⟨who, args, rest, hbody, hrest⟩
  · cases hbody : c.body with
    | nil => exact nofun
    | cons s rest =>
      rw [hbody] at h
      cases s with
      | construct who args => exact absurd (List.mem_singleton_self _) (h _ (.head _) who args)
      | _ => exact h
  · rw [hbody]
    exact hrest

/-- The constructor that runs begins with its prologue, behind which its own statements stand. -/
theorem prologue_elaborate (h : OpensCalmly c.body) : ∃ more, (∀ s ∈ more, s = Stmt.retThis) ∧
    Prologue ((fieldVars fields).map initStmt) hasSuper ((ownStmts c.body).map running ++ more)
      (c.elaborate fields hasSuper).body := by
  show ∃ more, _ ∧ Prologue _ _ _ (Stmt.withTrailing Stmt.retThis ((arrange fields hasSuper c.body).map running))
  obtain ⟨more, hmore, hall⟩ := exists_withTrailing ((arrange fields hasSuper c.body).map running)
  refine ⟨more, hall, ?_⟩
  rw [hmore]
  -- only the first statement may be a call, and the body is arranged around it
  rcases h with h | ⟨who, args, rest, hbody, -⟩
  · have hfirst : ∀ who args rest, c.body ≠ .construct who args :: rest := by
      intro who args rest heq
      exact absurd (List.mem_singleton_self _) (h (.construct who args) (by simp [heq]) who args)
    have harrange : arrange fields hasSuper c.body =
        (if hasSuper then [.construct .super []] else []) ++ setFields fields ++ c.body := by
      unfold arrange
      split
      · rename_i heq
        exact absurd heq (hfirst _ _ _)
      · rename_i heq
        exact absurd heq (hfirst _ _ _)
      · rfl
    have hown : ownStmts c.body = c.body := by
      unfold ownStmts
      split
      · rename_i heq
        exact absurd heq (hfirst _ _ _)
      · rfl
    rw [harrange, hown]
    cases hasSuper with
    | false =>
      rw [if_neg Bool.false_ne_true, List.nil_append, List.map_append, running_setFields, List.append_assoc]
      exact .root rfl
    | true =>
      rw [if_pos rfl, List.append_assoc, List.map_append, List.map_append, running_setFields, List.append_assoc,
        List.append_assoc]
      exact .super
  · rw [hbody]
    cases who with
    | this => exact .this
    | super =>
      rw [arrange, List.map_cons, List.map_append, running_setFields, List.cons_append, List.append_assoc]
      exact .super

theorem calm_rest (h : OpensCalmly c.body) {more : List Stmt} (hmore : ∀ s ∈ more, s = Stmt.retThis) :
    ∀ s ∈ (ownStmts c.body).map running ++ more, s.Calm := by
  intro s hs
  rcases List.mem_append.mp hs with hs | hs
  · obtain ⟨s₀, hs₀, rfl⟩ := List.mem_map.mp hs
    exact ((calm_ownStmts h s₀ hs₀).qualify _).returnThis
  · rw [hmore s hs]
    exact Stmt.hereditary_calm.ret _

end ConstructorDecl

/-! ### Classes -/

/-- The methods of a class are calm, and its constructors but for their first statements. -/
structure ClassDecl.Calm (d : ClassDecl) : Prop where
  methods : ∀ m ∈ d.methods, ∀ body, m.body = some body → ∀ s ∈ body, s.Calm
  constructors : ∀ k ∈ d.constructors, OpensCalmly k.body

/-- So are the classes of a program that is read from a source. -/
theorem Program.parse_calm {source : String} {p : Program} (h : Program.parse source = .ok p) : ∀ d ∈ p, d.Calm := by
  refine forall_of_parse h (fun t d ht _ hd => ⟨fun m hm body hbody => ?_, fun k hk => ?_⟩)
  · obtain ⟨t', ht', -, hread⟩ := exists_of_mem_methods ht hd hm
    exact forall_of_method Stmt.hereditary_calm ht' hread body hbody
  · rcases exists_of_mem_constructors ht hd hk with rfl | ⟨t', ht', hread⟩
    · exact .inl nofun
    · exact forall_of_constructor Stmt.hereditary_calm ht' hread

theorem Program.Declares.calm {source : String} {p : Program} {d : ClassDecl} (hparse : Program.parse source = .ok p)
    (hd : p.Declares d) : d.Calm := by
  rcases hd with hd | rfl
  · exact Program.parse_calm hparse d hd
  · refine ⟨nofun, fun k hk => ?_⟩
    obtain rfl := List.mem_singleton.mp hk
    exact .inl nofun

/-- The bodies of a class that runs. -/
theorem ClassDecl.Calm.callables {d : ClassDecl} (hd : d.Calm) {f : FrameId} {superclass : Option Class} {k : Callable}
    {body : List Stmt} (hk : k ∈ (d.elaborate f superclass).toClassInfo.callables) (hbody : k.body? = some body) :
    (∀ s ∈ body, s.Calm) ∨ ∃ c, k = .constructor c ∧ OpensCalmly body := by
  simp only [ClassInfo.callables, ClassInfo.methods, ClassDecl.elaborate, List.map_append, List.mem_append,
    List.mem_map, List.mem_filter] at hk
  have hmethod : ∀ m ∈ d.methods, k = .method (m.elaborate d.name) → ∀ s ∈ body, s.Calm := by
    rintro m hm rfl s hs
    rw [Callable.body?] at hbody
    split at hbody
    · cases hbody
    · obtain ⟨body₀, hbody₀, rfl⟩ := Option.map_eq_some_iff.mp hbody
      rcases Stmt.mem_withTrailing hs with hs | rfl
      · obtain ⟨s₀, hs₀, rfl⟩ := List.mem_map.mp hs
        exact (hd.methods m hm body₀ hbody₀ s₀ hs₀).qualify _
      · exact Stmt.hereditary_calm.ret _
  rcases hk with (⟨_, ⟨m, ⟨hm, -⟩, rfl⟩, rfl⟩ | ⟨_, ⟨m, ⟨hm, -⟩, rfl⟩, rfl⟩) | ⟨_, ⟨k, hk, rfl⟩, rfl⟩
  · exact .inl (hmethod m hm rfl)
  · exact .inl (hmethod m hm rfl)
  · cases hbody
    have hopens := hd.constructors k hk
    obtain ⟨more, hmore, hprologue⟩ := ConstructorDecl.prologue_elaborate hopens
    exact .inr ⟨_, rfl, hprologue.opensCalmly (ConstructorDecl.calm_rest hopens hmore)⟩

section Runs

variable {p : Program} {m : Machine} {source x : String}

/-- The constructors of the classes in a run begin with a prologue. -/
theorem prologue_of_findClass {c : Class} {d : ConstructorDecl} (hparse : Program.parse source = .ok p)
    (hm : Reached Natives.empty p m) (hc : m.registers.env.findClass x = .ok c) (hd : d ∈ c.constructors) :
    ∃ rest, (∀ s ∈ rest, s.Calm) ∧
      Prologue ((fieldVars c.instanceFields).map initStmt) c.superclass?.isSome rest d.body := by
  obtain ⟨-, decl, f, superclass, hdecl, rfl⟩ := (Origins.visited (.inl hm)).classes _ _ c (findClass_eq_ok.mp hc)
  obtain ⟨d₀, hd₀, rfl⟩ := List.mem_map.mp hd
  have hsuper : (decl.elaborate f superclass).superclass?.isSome = superclass.isSome := by
    cases superclass <;> rfl
  rw [hsuper]
  have hopens := (hdecl.calm hparse).constructors d₀ hd₀
  obtain ⟨more, hmore, hprologue⟩ := ConstructorDecl.prologue_elaborate hopens
  exact ⟨_, ConstructorDecl.calm_rest hopens hmore, hprologue⟩

/-- The bodies that are called are calm, but for the first statement of a constructor. -/
theorem calm_of_calls {i : Item} {control : List Item} {k : Closure} {object : Option (Class × FrameId)}
    {body : List Stmt} (hparse : Program.parse source = .ok p) (hm : Reached Natives.empty p m)
    (hcalls : Calls { m.registers with control := control } i k object) (hbody : k.callable.body? = some body) :
    (∀ s ∈ body, s.Calm) ∨ ∃ c, k.callable = .constructor c ∧ OpensCalmly body := by
  obtain ⟨d, g, superclass, hd, hk⟩ := exists_decl_of_calls hm hcalls
  exact (hd.calm hparse).callables hk hbody

end Runs

end StashMachine
