import StashMachine.Proofs.Parsed
import StashMachine.Proofs.ParallelRuns

/-!
# StashMachine.Proofs.Parameters — names of parameters and values of fields

* `Program.renameParameter`: the program with a parameter of one constructor renamed, in the list of parameters and in
  the constructor's own body.
* `renameParameter_alike`: if no initialiser that the constructor runs names it, the classes are alike.
* `Machine.Same`: machines that hold the same values, and objects with the same values of fields.
* `fields_ignore_parameter`: then both runs go through machines that are the same, or stop with the same fault.
  `parameter_captured`: an initialiser that names the parameter finds it, whatever it stands for where it is written.
-/

namespace StashMachine

open Environment Machine

/-! ### Renaming a parameter -/

/-- A member with the variables of a constructor renamed. -/
def Member.rename (σ : String → String) : Member → Member
  | .constructor k => .constructor (k.rename σ)
  | member => member

/-- The class with the variables of its member `j` renamed, if that is a constructor. -/
def ClassDecl.renameIn (d : ClassDecl) (j : Nat) (σ : String → String) : ClassDecl :=
  { d with body := d.body.modify j (Member.rename σ) }

/-- The program with `y` for `x` in member `j` of class `i`, if that is a constructor. -/
def Program.renameParameter (p : Program) (i j : Nat) (x y : String) : Program :=
  p.modify i (fun d => d.renameIn j (instead x y))

/-- The names in the initialisers that a constructor runs, given the fields of its objects. -/
def ConstructorDecl.initNames (fields : List FieldDecl) (k : ConstructorDecl) : List String :=
  if k.delegates then [] else fields.flatMap FieldDecl.initNames

section Renaming

variable {α : Type} {x y : String} {k : ConstructorDecl} {d : ClassDecl}

theorem forall₂_modify {R : α → α → Prop} (hrefl : ∀ a, R a a) {f : α → α} {l : List α} {i : Nat}
    (h : ∀ a, l[i]? = some a → R a (f a)) : List.Forall₂ R l (l.modify i f) := by
  induction l generalizing i with
  | nil =>
    rw [List.modify_nil]
    exact .nil
  | cons a l ih =>
    cases i with
    | zero => exact .cons (h a rfl) (List.forall₂_same.mpr (fun a _ => hrefl a))
    | succ i => exact .cons (hrefl a) (ih (fun a ha => h a (by simpa using ha)))

/-- Elaboration makes constructors that are alike. -/
theorem elaborate_alike {fields : List FieldDecl} (hxy : Ordinary x y) (hx : x ∈ k.params.map Param.name)
    (hy : y ∉ k.names) (hinit : x ∉ k.initNames fields ∧ y ∉ k.initNames fields) (hasSuper : Bool) :
    Callable.Alike x y (.constructor (k.elaborate fields hasSuper))
      (.constructor ((k.rename (instead x y)).elaborate fields hasSuper)) := by
  have hfixed : ∀ {z w : String}, z ∉ k.initNames fields →
      k.delegates = true ∨ ∀ f ∈ fields, ∀ n ∈ f.initNames, instead z w n = n := by
    intro z w hz
    unfold ConstructorDecl.initNames at hz
    cases hk : k.delegates with
    | true => exact .inl rfl
    | false =>
      rw [hk, if_neg Bool.false_ne_true] at hz
      refine .inr (fun f hf n hn => instead_of_ne ?_)
      rintro rfl
      exact hz (List.mem_flatMap.mpr ⟨f, hf, hn⟩)
  have hold : k.rename (instead y x) = k := by
    refine (ConstructorDecl.rename_of_names (fun n hn => ?_)).trans k.rename_id
    exact instead_of_ne (fun h => hy (h ▸ hn))
  refine ⟨.constructor (k.elaborate fields hasSuper), true, ?_, ?_, fun _ => hx⟩
  · show Callable.constructor _ = .constructor ((k.elaborate fields hasSuper).rename (instead y x))
    rw [← ConstructorDecl.elaborate_rename (instead_of_ne (hxy .this).2) (hfixed hinit.2), hold]
  · show Callable.constructor _ = .constructor ((k.elaborate fields hasSuper).rename (instead x y))
    rw [← ConstructorDecl.elaborate_rename (instead_of_ne (hxy .this).1) (hfixed hinit.1)]

/-- Two members that are the same, or constructors that are related. -/
inductive Member.Alike (S : ConstructorDecl → ConstructorDecl → Prop) : Member → Member → Prop
  | same (member : Member) : Alike S member member
  | constructor {k k' : ConstructorDecl} : S k k' → Alike S (.constructor k) (.constructor k')

theorem fields_eq {S : ConstructorDecl → ConstructorDecl → Prop} {d' : ClassDecl}
    (h : List.Forall₂ (Member.Alike S) d.body d'.body) : d'.fields = d.fields := by
  unfold ClassDecl.fields
  generalize d.body = body, d'.body = body' at h ⊢
  induction h with
  | nil => rfl
  | cons hm _ ih => cases hm <;> simp [List.filterMap_cons, ih]

theorem methods_eq {S : ConstructorDecl → ConstructorDecl → Prop} {d' : ClassDecl}
    (h : List.Forall₂ (Member.Alike S) d.body d'.body) : d'.methods = d.methods := by
  unfold ClassDecl.methods
  generalize d.body = body, d'.body = body' at h ⊢
  induction h with
  | nil => rfl
  | cons hm _ ih => cases hm <;> simp [List.filterMap_cons, ih]

theorem constructors_alike {S : ConstructorDecl → ConstructorDecl → Prop} (hS : ∀ k, S k k) {d' : ClassDecl}
    (h : List.Forall₂ (Member.Alike S) d.body d'.body) (hname : d'.name = d.name) :
    List.Forall₂ S d.constructors d'.constructors := by
  have hdeclared : List.Forall₂ S (d.body.filterMap (fun | .constructor c => some c | _ => none))
      (d'.body.filterMap (fun | .constructor c => some c | _ => none)) := by
    refine List.rel_filterMap (R := Member.Alike S) (fun member member' hm => ?_) h
    cases hm with
    | same =>
      cases member with
      | constructor k => exact .some (hS k)
      | _ => exact .none
    | constructor hk => exact .some hk
  unfold ClassDecl.constructors
  generalize d.body.filterMap _ = ks at hdeclared ⊢
  generalize d'.body.filterMap _ = ks' at hdeclared ⊢
  cases hdeclared with
  | nil =>
    rw [hname]
    exact .cons (hS _) .nil
  | cons hk hks => exact .cons hk hks

theorem mem_constructors {j : Nat} (hk : d.body[j]? = some (.constructor k)) : k ∈ d.constructors := by
  have hbody := List.mem_of_getElem? hk
  unfold ClassDecl.constructors
  split
  · rename_i hnil
    cases List.filterMap_eq_nil_iff.mp hnil _ hbody
  · exact List.mem_filterMap.mpr ⟨_, hbody, rfl⟩

theorem renameIn_alike (hxy : Ordinary x y) {j : Nat} (hk : d.body[j]? = some (.constructor k))
    (hx : x ∈ k.params.map Param.name) (hy : y ∉ k.names)
    (hinit : x ∉ k.initNames (d.fields.filter (fun f => !f.isStatic)) ∧
      y ∉ k.initNames (d.fields.filter (fun f => !f.isStatic))) :
    d.Alike x y (d.renameIn j (instead x y)) := by
  have hbody : List.Forall₂ (Member.Alike (fun c c' => ∀ hasSuper, Callable.Alike x y
      (.constructor (c.elaborate (d.fields.filter (fun f => !f.isStatic)) hasSuper))
      (.constructor (c'.elaborate (d.fields.filter (fun f => !f.isStatic)) hasSuper))))
      d.body (d.renameIn j (instead x y)).body := by
    refine forall₂_modify .same (fun member hmember => ?_)
    rw [hk] at hmember
    cases hmember
    exact .constructor (elaborate_alike hxy hx hy hinit)
  have hconstructors := constructors_alike (fun _ _ => Callable.Alike.refl x y _) hbody rfl
  exact ⟨rfl, rfl, fields_eq hbody, methods_eq hbody, fun hasSuper => hconstructors.imp (fun _ _ hk => hk hasSuper)⟩

theorem renameParameter_alike (hxy : Ordinary x y) {p : Program} {i j : Nat} (hd : p[i]? = some d)
    (hk : d.body[j]? = some (.constructor k)) (hx : x ∈ k.params.map Param.name) (hy : y ∉ k.names)
    (hinit : x ∉ k.initNames (d.fields.filter (fun f => !f.isStatic)) ∧
      y ∉ k.initNames (d.fields.filter (fun f => !f.isStatic))) :
    List.Forall₂ (ClassDecl.Alike x y) p (p.renameParameter i j x y) := by
  refine forall₂_modify .refl (fun d' hd' => ?_)
  rw [hd] at hd'
  cases hd'
  exact renameIn_alike hxy hk hx hy hinit

end Renaming

/-! ### Runs -/

/-- The value of a field of an object, which lies in the frame `o`. -/
def Environment.fieldValue? (env : Environment) (o : FrameId) (n : String) : Option Value :=
  match env.bound? o n with
  | some (.var id) => (env.var? id).bind Variable.value
  | _ => none

/-- Two machines in the same state, but for names of variables and the code of constructors: they have done as many
steps and have as much to do, hold the same values, and the objects that they hold have the same values in their
fields. -/
structure Machine.Same (m m' : Machine) : Prop where
  steps : m'.steps = m.steps
  height : m'.height = m.height
  output : m'.registers.output = m.registers.output
  stash : m'.registers.stash.map (fun item => item.value?.map Value.bare)
    = m.registers.stash.map (fun item => item.value?.map Value.bare)
  fields : ∀ v c o, Held m.registers v → Value.Part (.object c o) v → ∀ n,
    (m'.registers.env.fieldValue? o n).map Value.bare = (m.registers.env.fieldValue? o n).map Value.bare

section Runs

variable {x y : String} {marks : List Bool} {b : Bool} {m m' : Machine}

theorem Follows.length_eq {c c' : List Item} (h : Follows x y marks b c c') : c'.length = c.length := by
  induction h with
  | nil => rfl
  | marker _ ih | switch _ ih => exact congrArg (· + 1) (ih false)
  | code _ _ ih | branch _ _ _ ih | restore _ _ ih | callable _ _ ih | classDecl _ _ ih | program _ _ ih =>
    exact congrArg (· + 1) ih

/-- The objects that a run holds lie in frames that are not marked. -/
theorem outside_of_held {r r' : Registers} (h : r.Alike x y marks b r') {v : Value} (hv : Held r v) :
    v.Outside marks := by
  rcases hv with hv | ⟨id, w, hw, hv⟩
  · obtain ⟨i, hi⟩ := List.mem_iff_getElem?.mp hv
    have hitem := rel_getElem? h.stash i
    rw [hi] at hitem
    generalize r'.stash[i]? = item at hitem
    cases hitem with
    | some hitem =>
      cases hitem with
      | value hv => exact hv.outside
  · have hvar := h.env.alike.var id
    rw [hw] at hvar
    generalize r'.env.var? id = w' at hvar
    cases hvar with
    | some hvar =>
      have hvalue := hvar.value
      rw [hv] at hvalue
      generalize Variable.value _ = v' at hvalue
      cases hvalue with
      | some hv => exact hv.outside

theorem fieldValue?_alike {env env' : Environment} (h : env.Alike x y marks env') {o : FrameId}
    (ho : marks[o]? = some false) (n : String) :
    (env'.fieldValue? o n).map Value.bare = (env.fieldValue? o n).map Value.bare := by
  have hbound := h.bound_outside ho n
  unfold fieldValue?
  generalize env.bound? o n = old at hbound ⊢
  generalize env'.bound? o n = new at hbound ⊢
  cases hbound with
  | none => rfl
  | some hbinding =>
    cases hbinding with
    | var id =>
      have hvar := h.var id
      dsimp only
      generalize env.var? id = old at hvar ⊢
      generalize env'.var? id = new at hvar ⊢
      cases hvar with
      | none => rfl
      | some hvar =>
        have hvalue := hvar.value
        simp only [Option.bind_some]
        generalize Variable.value _ = old at hvalue ⊢
        generalize Variable.value _ = new at hvalue ⊢
        cases hvalue with
        | none => rfl
        | some hv => exact congrArg some hv.bare.symm
    | _ => rfl

/-- Machines whose registers are alike are the same. -/
theorem Machine.Same.of_alike (hsteps : m'.steps = m.steps) (h : m.registers.Alike x y marks b m'.registers) :
    m.Same m' := by
  refine ⟨hsteps, h.control.length_eq, h.output, ?_, fun v c o hv ho => ?_⟩
  · have hstash := h.stash
    generalize m.registers.stash = s, m'.registers.stash = s' at hstash ⊢
    induction hstash with
    | nil => rfl
    | cons hitem _ ih =>
      rw [List.map_cons, List.map_cons, ih]
      cases hitem with
      | value hv => exact congrArg (some · :: _) hv.bare.symm
      | _ => rfl
  · exact fieldValue?_alike h.env.alike (outside_of_held h hv c o ho).1

theorem initial_alike {p p' : Program} (hp : List.Forall₂ (ClassDecl.Alike x y) p p') :
    (initial.loadProgram p).registers.Alike x y [false] false (initial.loadProgram p').registers := by
  have hbound : ∀ f n, Environment.initial.bound? f n = none := bound?_initial
  have halike : Environment.initial.Alike x y [false] Environment.initial := by
    refine ⟨rfl, rfl, rfl, rfl, rfl, fun _ => rfl, fun _ => rfl, fun f b _ n => ?_, rfl, fun id => ?_⟩
    · rw [hbound, hbound]
      exact .none
    · exact .none
  have hsheltered : Sheltered x [false] Environment.initial := by
    intro f b hf
    cases f with
    | zero =>
      cases hf
      refine .outside (fun g hg => ?_)
      cases List.mem_singleton.mp hg
      rfl
    | succ f => cases hf
  exact ⟨⟨halike, hsheltered, rfl⟩, .nil, .program hp .nil, rfl⟩

/-- If no initialiser that a constructor runs names one of its parameters, then the name of that parameter is of no
consequence: after any number of steps both programs have come to the same state, with the same values in the fields of
their objects, or both have stopped with the same fault. -/
theorem fields_ignore_parameter {source : String} {p : Program} (hparse : Program.parse source = .ok p) {i j : Nat}
    {d : ClassDecl} (hd : p[i]? = some d) {k : ConstructorDecl} (hk : d.body[j]? = some (.constructor k))
    (hx : x ∈ k.params.map Param.name) (hthis : y ≠ thisName) (hsuper : y ≠ superName) (hy : y ∉ k.names)
    (hinit : x ∉ k.initNames (d.fields.filter (fun f => !f.isStatic)) ∧
      y ∉ k.initNames (d.fields.filter (fun f => !f.isStatic))) (n : Nat) :
    (∃ m m', evaluate Natives.empty n (initial.loadProgram p) = .ok () m ∧
      evaluate Natives.empty n (initial.loadProgram (p.renameParameter i j x y)) = .ok () m' ∧ m.Same m') ∨
    ∃ e e' m m', evaluate Natives.empty n (initial.loadProgram p) = .error e m ∧
      evaluate Natives.empty n (initial.loadProgram (p.renameParameter i j x y)) = .error e' m' ∧
      m'.steps = m.steps ∧ e.Alike x y e' := by
  have hxy : Ordinary x y := by
    obtain ⟨q, hq, rfl⟩ := List.mem_map.mp hx
    have hkeyword := notMem_keywords (Program.parse_params hparse d (List.mem_of_getElem? hd) k (mem_constructors hk) q hq)
    intro who
    refine ⟨fun h => hkeyword ?_, ?_⟩
    · rw [← h]
      cases who <;> decide
    · cases who with
      | this => exact hthis.symm
      | super => exact hsuper.symm
  have hp := renameParameter_alike hxy hd hk hx hy hinit
  rcases evaluate_alike hxy n ⟨_, _, initial_alike hp⟩ rfl with
    ⟨m, m', hm, hm', hsteps, marks, b, h⟩ | ⟨e, e', m, m', hm, hm', hsteps, he⟩
  · exact .inl ⟨m, m', hm, hm', .of_alike hsteps h⟩
  · exact .inr ⟨e, e', m, m', hm, hm', hsteps, he⟩

end Runs

/-! ### An initialiser that names a parameter -/

/-- A source whose class has a static field and a parameter of the same name, and a field with an initialiser. -/
def parameterSource (init : String) : String :=
  "class A \x7b static int n = 1; int x = " ++ init ++ "; A(int n) \x7b this.x = this.x + n; \x7d \x7d "
    ++ "class M \x7b static int r; public static void main(String[] a) \x7b A b = new A(5); r = b.x; \x7d \x7d"

/-- Member `j` of class `i`, if it is a constructor, and the class. -/
def Program.constructor? (p : Program) (i j : Nat) : Option (ClassDecl × ConstructorDecl) :=
  match p[i]? with
  | some d =>
    match d.body[j]? with
    | some (.constructor k) => some (d, k)
    | _ => none
  | none => none

theorem of_constructor? {p : Program} {i j : Nat} {d : ClassDecl} {k : ConstructorDecl}
    (h : p.constructor? i j = some (d, k)) : p[i]? = some d ∧ d.body[j]? = some (.constructor k) := by
  unfold Program.constructor? at h
  split at h
  · rename_i hd
    split at h
    · rename_i hk
      cases h
      exact ⟨hd, hk⟩
    · cases h
  · cases h

/-- The object on top of the stash after a number of steps: its frame, and the text of the value in one of its
fields. -/
def fieldAfter? (p : Program) (n : Nat) (x : String) : Option (FrameId × String) :=
  ((initial.loadProgram p).after? Natives.empty n).bind (fun m =>
    match m.registers.stash with
    | .value (.object _ o) :: _ => (m.registers.env.fieldValue? o x).map (fun v => (o, v.text))
    | _ => none)

theorem of_fieldAfter? {p : Program} {n : Nat} {x t : String} {o : FrameId} (h : fieldAfter? p n x = some (o, t)) :
    ∃ m c below, evaluate Natives.empty n (initial.loadProgram p) = .ok () m ∧
      m.registers.stash = .value (.object c o) :: below ∧
      (m.registers.env.fieldValue? o x).map Value.text = some t := by
  obtain ⟨m, hm, h⟩ := Option.bind_eq_some_iff.mp h
  split at h
  · rename_i hstash
    obtain ⟨v, hv, h⟩ := Option.map_eq_some_iff.mp h
    cases h
    exact ⟨m, _, _, after?_eq_some.mp hm, hstash, by rw [hv]; rfl⟩
  · cases h

/-- An initialiser that names the static field by its class gives the object the same value in both runs. -/
theorem fields_ignore_parameter_qualified : ∃ p d k m m' c o below,
    Program.parse (parameterSource "A.n") = .ok p ∧ p[0]? = some d ∧ d.body[2]? = some (.constructor k) ∧
    "n" ∈ k.params.map Param.name ∧ "q" ∉ k.names ∧
    ("n" ∉ k.initNames (d.fields.filter (fun f => !f.isStatic)) ∧
      "q" ∉ k.initNames (d.fields.filter (fun f => !f.isStatic))) ∧
    evaluate Natives.empty 82 (initial.loadProgram p) = .ok () m ∧
    evaluate Natives.empty 82 (initial.loadProgram (p.renameParameter 0 2 "n" "q")) = .ok () m' ∧ m.Same m' ∧
    m.registers.stash = .value (.object c o) :: below ∧
    (m.registers.env.fieldValue? o "x").map Value.text = some "6" ∧
    (m'.registers.env.fieldValue? o "x").map Value.bare = (m.registers.env.fieldValue? o "x").map Value.bare := by
  have hrun : (Program.parse (parameterSource "A.n")).toOption.any (fun p => (p.constructor? 0 2).any (fun (d, k) =>
      decide ("n" ∈ k.params.map Param.name) && decide ("q" ∉ k.names) &&
      decide ("n" ∉ k.initNames (d.fields.filter (fun f => !f.isStatic))) &&
      decide ("q" ∉ k.initNames (d.fields.filter (fun f => !f.isStatic))) &&
      fieldAfter? p 82 "x" == some (6, "6"))) = true := by
    rw [Program.parse_eq_parseDecoded?]
    decide +kernel
  obtain ⟨p, hp, hrun⟩ := (Option.any_eq_true _ _).mp hrun
  obtain ⟨⟨d, k⟩, hk, hrun⟩ := (Option.any_eq_true _ _).mp hrun
  simp only [Bool.and_eq_true, decide_eq_true_eq, beq_iff_eq] at hrun
  obtain ⟨⟨⟨⟨hx, hy⟩, hinit⟩, hinit'⟩, hfield⟩ := hrun
  obtain ⟨m, c, below, hm, hstash, hfield⟩ := of_fieldAfter? hfield
  obtain ⟨hd, hk⟩ := of_constructor? hk
  have hparse := eq_ok_of_toOption hp
  rcases fields_ignore_parameter hparse hd hk hx (by decide) (by decide) hy ⟨hinit, hinit'⟩ 82 with
    ⟨m₁, m', hm₁, hm', hsame⟩ | ⟨e, e', m₁, m', hm₁, -⟩
  · cases hm.symm.trans hm₁
    exact ⟨p, d, k, m, m', c, _, below, hparse, hd, hk, hx, hy, ⟨hinit, hinit'⟩, hm, hm', hsame, hstash, hfield,
      hsame.fields _ c _ (.inl (by rw [hstash]; exact .head _)) .refl "x"⟩
  · cases hm.symm.trans hm₁

/-- An initialiser that names the static field alone finds the parameter: with a new name for it, which stands nowhere
in the source, the object gets another value. -/
theorem parameter_captured : ∃ p d k m m' c c' o below below',
    Program.parse (parameterSource "n") = .ok p ∧ p[0]? = some d ∧ d.body[2]? = some (.constructor k) ∧
    "n" ∈ k.params.map Param.name ∧ 'q' ∉ (parameterSource "n").toList ∧
    evaluate Natives.empty 80 (initial.loadProgram p) = .ok () m ∧
    evaluate Natives.empty 80 (initial.loadProgram (p.renameParameter 0 2 "n" "q")) = .ok () m' ∧
    m.registers.stash = .value (.object c o) :: below ∧ m'.registers.stash = .value (.object c' o) :: below' ∧
    (m.registers.env.fieldValue? o "x").map Value.text = some "10" ∧
    (m'.registers.env.fieldValue? o "x").map Value.text = some "6" := by
  have hall : ((Program.parse (parameterSource "n")).toOption.any (fun p => (p.constructor? 0 2).any (fun (_, k) =>
      decide ("n" ∈ k.params.map Param.name) && fieldAfter? p 80 "x" == some (6, "10") &&
      fieldAfter? (p.renameParameter 0 2 "n" "q") 80 "x" == some (6, "6"))) &&
      decide ('q' ∉ (parameterSource "n").toList)) = true := by
    rw [Program.parse_eq_parseDecoded?, ← Text.decode_eq_toList]
    decide +kernel
  obtain ⟨hrun, hfresh⟩ := Bool.and_eq_true_iff.mp hall
  obtain ⟨p, hp, hrun⟩ := (Option.any_eq_true _ _).mp hrun
  obtain ⟨⟨d, k⟩, hk, hrun⟩ := (Option.any_eq_true _ _).mp hrun
  simp only [Bool.and_eq_true, decide_eq_true_eq, beq_iff_eq] at hrun
  obtain ⟨⟨hx, hfield⟩, hfield'⟩ := hrun
  obtain ⟨m, c, below, hm, hstash, hfield⟩ := of_fieldAfter? hfield
  obtain ⟨m', c', below', hm', hstash', hfield'⟩ := of_fieldAfter? hfield'
  obtain ⟨hd, hk⟩ := of_constructor? hk
  exact ⟨p, d, k, m, m', c, c', _, below, below', eq_ok_of_toOption hp, hd, hk, hx, of_decide_eq_true hfresh, hm, hm',
    hstash, hstash', hfield, hfield'⟩

end StashMachine
