import StashMachine.Proofs.Calls
import StashMachine.Proofs.StaticTypes

/-!
# StashMachine.Proofs.FieldTypes — static types of fields, and the variables that are found

The static type of a dotted name goes from declared type to declared type.  The look-up goes from object to
object, and finds a field of an object by its name alone.

* `Conforms env q`: where the dotted name `q` goes through an object, it is one of the declared class.
* `Place.HasType`: what a place is declared as.
* `hasType_of_names`: a dotted name that conforms has the type of the place that it leads to.
* `field_types_agree`: the look-up of a dotted name that conforms leaves a variable of its static type.
* `field_types_differ`: a variable may hold an object of another class, since only values of primitive types are
  checked when they are stored.
-/

namespace StashMachine

open Environment Step Machine Grammar

/-- The declared type has the field, and each object a variable of its own for it. -/
def IsOwnField (env : Environment) (t : TypeName) (x : String) : Prop :=
  ∃ c info, env.findClass t.text = .ok c ∧ c.findField? x = some info ∧ info.isStatic = false

/-- Where the dotted name goes from an object to one of its own fields, the object is of the declared class of
the variable that holds it, or of a subclass. -/
def Conforms (env : Environment) : Path → Prop
  | .simple _ => True
  | .field q x => Conforms env q ∧ ∀ id v c f, Names env q (.var id) → env.var? id = some v →
    v.value = some (.object c f) → IsOwnField env v.type x → c.isSubclassOf v.type.text = true

/-- What a place is declared as. -/
def Place.HasType (env : Environment) : Place → TypeName → Prop
  | .var id, t => ∃ v, env.var? id = some v ∧ v.type = t
  | .cls c, t => t = .named c.name ∧ env.findClass c.name = .ok c

section Types

variable {env : Environment} {t : TypeName} {x : String} {c : Class} {info : FieldInfo}

/-- The type of a field that a class finds. -/
theorem fieldType_of_findField? (hc : env.findClass t.text = .ok c) (ht : t.element? = none)
    (hinfo : c.findField? x = some info) : env.fieldType t x = .ok info.type := by
  have harray : ¬ (t.element?.isSome = true ∧ x = "length") := by
    rw [ht]
    exact fun h => Bool.false_ne_true h.1
  simp only [fieldType, if_neg harray, hc, bind, Except.bind, hinfo]
  rfl

theorem fieldType_length (ht : t.element?.isSome = true) : env.fieldType t "length" = .ok (.primitive .int) := by
  rw [fieldType, if_pos ⟨ht, rfl⟩]

/-- The type of a dotted name comes from the type of its qualifier. -/
theorem pathType_field {q : Path} (h : env.pathType q = .ok t) : env.pathType (.field q x) = env.fieldType t x := by
  rw [pathType, h]
  rfl

/-- An instance field that a class finds is one of the fields of its objects. -/
theorem mem_allInstanceVars (hinfo : c.findField? x = some info) (hstatic : info.isStatic = false) :
    (x, info.type) ∈ c.allInstanceVars := by
  obtain ⟨before, owner, after, hlineage, howner, -⟩ := List.findSome?_eq_some_iff.mp hinfo
  unfold ClassInfo.ownField? at howner
  split at howner
  · cases howner
    cases hstatic
  · obtain ⟨fd, hfd, rfl⟩ := Option.map_eq_some_iff.mp howner
    have hdeclares : fd.declares x = true := List.find?_some (p := fun f : FieldDecl => f.declares x) hfd
    obtain ⟨d, hd, hname⟩ := List.any_eq_true.mp hdeclares
    have hown : (x, fd.type) ∈ owner.instanceVars := by
      refine List.mem_flatMap.mpr ⟨fd, List.mem_of_find?_eq_some hfd, List.mem_map.mpr ⟨d, hd, ?_⟩⟩
      rw [beq_iff_eq.mp hname]
    exact List.mem_flatMap.mpr ⟨owner, hlineage ▸ List.mem_append_right _ (.head _), hown⟩

end Types

section Runs

variable {p : Program} {m m' : Machine} {source x : String} {t : TypeName} {c d : Class} {f : FrameId}
  {id : VarId} {v : Variable} {info : FieldInfo} {q : Path}

/-- Arrays are no classes. -/
theorem element?_of_findClass (hparse : Program.parse source = .ok p) (hm : Reached Natives.empty p m)
    (hc : m.registers.env.findClass t.text = .ok c) : t.element? = none := by
  cases t with
  | array u =>
    have hspells := spells_of_findClass hparse hm hc
    have hbracket := isNameChar_of_spells hspells '[' (by simp [TypeName.text])
    exact absurd hbracket (by decide)
  | _ => rfl

/-- An object that a variable holds has the fields of its class. -/
theorem bindsFields_of_value (hm : Reached Natives.empty p m) (hv : m.registers.env.var? id = some v)
    (hvalue : v.value = some (.object d f)) :
    BindsFields m.registers.env f d ∧ m.registers.env.findClass d.name = .ok d := by
  obtain ⟨roles, hscoped, -⟩ := exists_scoped hm
  have hrole := hscoped.objects _ (.inr ⟨id, v, hv, hvalue⟩) _ .refl d f rfl
  obtain ⟨hclass, -, hfields⟩ := hscoped.layout.lies f _ hrole
  obtain ⟨-, -, hfind, -⟩ := hscoped.layout.lies _ _ hclass
  exact ⟨hfields, hfind⟩

/-- An object of a subclass binds an instance field with the type that the class finds. -/
theorem type_of_ownField (hparse : Program.parse source = .ok p) (hm : Reached Natives.empty p m)
    (hc : m.registers.env.findClass c.name = .ok c) (hd : m.registers.env.findClass d.name = .ok d)
    (hfields : BindsFields m.registers.env f d) (hsub : d.isSubclassOf c.name = true)
    (hinfo : c.findField? x = some info) (hstatic : info.isStatic = false)
    (hid : m.registers.env.bound? f x = some (.var id)) :
    ∃ v, m.registers.env.var? id = some v ∧ v.type = info.type := by
  have hreg := Visited.registered (Program.parse_plain hparse) (.inl hm) _ _ hd
  obtain ⟨below, hlineage, -⟩ := exists_below hreg hc hsub
  have hmem : (x, info.type) ∈ d.allInstanceVars := by
    rw [Class.allInstanceVars, hlineage, List.flatMap_append]
    exact List.mem_append_right _ (mem_allInstanceVars hinfo hstatic)
  obtain ⟨id', v, hbound, hv, -, htype⟩ := hfields.each x info.type hmem
  rw [hid] at hbound
  cases hbound
  exact ⟨v, hv, htype⟩

/-- A field has the type that the declared class of its qualifier finds. -/
theorem type_of_fieldOf {y : VarId} (hparse : Program.parse source = .ok p) (hm : Reached Natives.empty p m)
    (hy : m.registers.env.var? y = some v) (h : FieldOf m.registers.env v.type v.value x id)
    (hobject : ∀ d f, v.value = some (.object d f) → IsOwnField m.registers.env v.type x →
      d.isSubclassOf v.type.text = true) :
    ∃ t, m.registers.env.fieldType v.type x = .ok t ∧ (Place.var id).HasType m.registers.env t := by
  obtain ⟨roles, hscoped, -⟩ := exists_scoped hm
  cases h with
  | @static c hc hstatic =>
    obtain ⟨hname, -⟩ := hscoped.layout.classes _ c hc
    obtain ⟨info, hinfo, hv⟩ := hstatic.exists_type (Program.parse_plain hparse) hm (hname ▸ hc)
    exact ⟨info.type, fieldType_of_findField? hc (element?_of_findClass hparse hm hc) hinfo, hv⟩
  | @own c d info f hc hinfo hstatic hvalue hid =>
    obtain ⟨hname, -⟩ := hscoped.layout.classes _ c hc
    obtain ⟨hfields, hd⟩ := bindsFields_of_value hm hy hvalue
    have hsub := hobject d f hvalue ⟨c, info, hc, hinfo, hstatic⟩
    refine ⟨info.type, fieldType_of_findField? hc (element?_of_findClass hparse hm hc) hinfo, ?_⟩
    exact type_of_ownField hparse hm (hname ▸ hc) hd hfields (hname ▸ hsub) hinfo hstatic hid

/-- A dotted name that conforms has the type of the place that it leads to. -/
theorem hasType_of_names {a : Place} (hparse : Program.parse source = .ok p) (hm : Reached Natives.empty p m)
    (h : Names m.registers.env q a) (hq : Conforms m.registers.env q) :
    ∃ t, m.registers.env.pathType q = .ok t ∧ a.HasType m.registers.env t := by
  have hplain := Program.parse_plain hparse
  induction h with
  | @var x id hlookup =>
    obtain ⟨_, f, _, -, hbound, -⟩ := lookup?_eq_some_iff.mp hlookup
    obtain ⟨v, hv, -⟩ := exists_variable hplain hm hbound
    exact ⟨v.type, nameType_var hlookup hv, v, hv, rfl⟩
  | @cls x c hlookup =>
    obtain ⟨_, f, _, -, hbound, -⟩ := lookup?_eq_some_iff.mp hlookup
    obtain rfl := class_is_global hm hbound
    obtain ⟨roles, hscoped, -⟩ := exists_scoped hm
    obtain ⟨rfl, -⟩ := hscoped.layout.classes x c (findClass_eq_ok.mpr hbound)
    exact ⟨.named c.name, nameType_cls hlookup, rfl, findClass_eq_ok.mpr hbound⟩
  | @static q c x id hnames hstatic ih =>
    obtain ⟨t, ht, rfl, hc⟩ := ih hq.1
    obtain ⟨info, hinfo, hv⟩ := hstatic.exists_type hplain hm hc
    refine ⟨info.type, ?_, hv⟩
    rw [pathType_field ht]
    exact fieldType_of_findField? hc rfl hinfo
  | @field q y id v x hnames hy hfield ih =>
    obtain ⟨t, ht, v', hv', rfl⟩ := ih hq.1
    rw [hy] at hv'
    cases hv'
    rw [pathType_field ht]
    exact type_of_fieldOf hparse hm hy hfield (fun d f => hq.2 y v d f hnames hy)

/-- Wherever a run of a program stands: if a dotted name conforms and has a static type, and its look-up leaves
a variable on the stash, then the variable is declared with that type. -/
theorem field_types_agree {T : TypeName} {K : List Item} {steps : Nat}
    (hparse : Program.parse source = .ok p) (hm : Reached Natives.empty p m)
    (hq : Conforms m.registers.env q) (htype : m.registers.env.staticType (.name q) = .ok T)
    (hrun : Until Natives.empty K.length ⟨{ m.registers with control := .find q :: K }, steps⟩ m')
    (hid : m'.registers.stash.head? = some (.var id)) :
    ∃ v, m'.registers.env.var? id = some v ∧ v.type = T := by
  have harrives : Arrives Natives.empty K.length ⟨{ m.registers with control := .find q :: K }, steps⟩ m' :=
    .inr ⟨Nat.lt_succ_self _, hrun⟩
  obtain ⟨m₁, item, env', -, hfound, hm₁, harrives⟩ :=
    harrives.find (P := fun _ => True) (fun _ _ _ _ => trivial) trivial rfl (Nat.le_refl _)
  have hm' : m' = m₁ := by
    rcases harrives with ⟨-, hm'⟩ | ⟨hlow, -⟩
    · exact hm'
    · rw [height, hm₁] at hlow
      exact absurd hlow (Nat.lt_irrefl _)
  rw [hm', hm₁] at hid ⊢
  cases hfound with
  | @named _ a hnames =>
    obtain ⟨t, ht, hplace⟩ := hasType_of_names hparse hm hnames hq
    rw [staticType, ht] at htype
    cases htype
    cases a with
    | var y =>
      cases hid
      exact hplace
    | cls c => cases hid
  | @length q y _ v n _ hnames hy harray hlength =>
    cases hid
    obtain ⟨t, ht, v', hv', rfl⟩ := hasType_of_names hparse hm hnames hq.1
    rw [hy] at hv'
    cases hv'
    rw [staticType, pathType_field ht, fieldType_length harray] at htype
    cases htype
    exact ⟨_, hlength, rfl⟩

/-! ### Objects of their own and of other classes -/

/-- If the variable holds an object, it is of the declared class or of a subclass. -/
def Variable.isFaithful (v : Variable) : Bool :=
  match v.value with
  | some (.object c _) => c.isSubclassOf v.type.text
  | _ => true

/-- Where all variables hold objects of their classes, every dotted name conforms. -/
theorem conforms_of_isFaithful {env : Environment} (h : env.vars.all Variable.isFaithful = true) (q : Path) :
    Conforms env q := by
  induction q with
  | simple x => trivial
  | field q x ih =>
    refine ⟨ih, fun id v c f _ hv hvalue _ => ?_⟩
    have hfaithful := Array.all_eq_true_iff_forall_mem.mp h v (Array.mem_of_getElem? hv)
    unfold Variable.isFaithful at hfaithful
    rw [hvalue] at hfaithful
    exact hfaithful

/-- The look-up of a dotted name, in front of everything else that is to be done. -/
def Machine.lookUp (m : Machine) (q : Path) : Machine :=
  ⟨{ m.registers with control := .find q :: m.registers.control }, m.steps⟩

/-- The machine after the look-up of a dotted name, and the variable that is found within some steps. -/
def Machine.lookedUp? (m : Machine) (q : Path) : Option (Machine × VarId) :=
  ((m.lookUp q).until? Natives.empty m.height 20).bind (fun m' => m'.foundVar?.map (fun id => (m', id)))

theorem of_lookedUp? (h : m.lookedUp? q = some (m', id)) :
    Until Natives.empty m.height (m.lookUp q) m' ∧ m'.registers.stash.head? = some (.var id) := by
  obtain ⟨m₁, hm₁, h⟩ := Option.bind_eq_some_iff.mp h
  obtain ⟨id₁, hid, h⟩ := Option.map_eq_some_iff.mp h
  cases h
  exact ⟨until_of_until? hm₁, foundVar?_eq_some.mp hid⟩

/-- A source with objects of a subclass that has a static field of its own under the name of a field that it
inherits. -/
def faithfulSource : String :=
  "class A \x7b int x = 1; A next; \x7d class B extends A \x7b static String x; \x7d "
    ++ "class M \x7b static A b = new B(); public static void main(String[] a) \x7b b.next = new B(); \x7d \x7d"

/-- The field of the class that the variables are declared with is found, from object to object. -/
theorem field_types_agree_inherited :
    let q : Path := .field (.field (.field (.simple "M") "b") "next") "x"
    ∃ p m m' id, Program.parse faithfulSource = .ok p ∧ Reached Natives.empty p m ∧
      Conforms m.registers.env q ∧ m.registers.env.staticType (.name q) = .ok (.primitive .int) ∧
      Until Natives.empty m.height (m.lookUp q) m' ∧ m'.registers.stash.head? = some (.var id) ∧
      ∃ v, m'.registers.env.var? id = some v ∧ v.type = .primitive .int := by
  intro q
  have hrun : (sample? faithfulSource 150).any (fun m => m.isFinished &&
      (m.registers.env.vars.all Variable.isFaithful && ((m.registers.env.staticType (.name q)).toOption ==
        some (.primitive .int) && (m.lookedUp? q).isSome))) = true := by
    rw [sample?_eq_parseDecoded?]
    decide +kernel
  obtain ⟨m, hm, hrun⟩ := (Option.any_eq_true _ _).mp hrun
  obtain ⟨p, hp, hreached⟩ := exists_of_sample? hm
  simp only [Bool.and_eq_true, beq_iff_eq, Option.isSome_iff_exists] at hrun
  obtain ⟨-, hfaithful, htype, ⟨m', id⟩, hfound⟩ := hrun
  have hconforms := conforms_of_isFaithful hfaithful q
  have htype := eq_ok_of_toOption htype
  obtain ⟨hrun, hid⟩ := of_lookedUp? hfound
  exact ⟨p, m, m', id, hp, hreached, hconforms, htype, hrun, hid,
    field_types_agree hp hreached hconforms htype hrun hid⟩

/-- A source with an object of one class in a field that is declared with another one. -/
def foreignSource : String :=
  "class A \x7b int x = 1; \x7d class B \x7b String x = \"s\"; \x7d "
    ++ "class M \x7b static A b = new B(); public static void main(String[] a) \x7b \x7d \x7d"

/-- The field of the declared class gives the static type, and that of the class of the object is found. -/
theorem field_types_differ :
    let q : Path := .field (.field (.simple "M") "b") "x"
    ∃ p m m' id v, Program.parse foreignSource = .ok p ∧ Reached Natives.empty p m ∧
      m.registers.env.staticType (.name q) = .ok (.primitive .int) ∧
      Until Natives.empty m.height (m.lookUp q) m' ∧ m'.registers.stash.head? = some (.var id) ∧
      m'.registers.env.var? id = some v ∧ v.type = .string := by
  intro q
  have hrun : (sample? foreignSource 150).any (fun m => m.isFinished &&
      ((m.registers.env.staticType (.name q)).toOption == some (.primitive .int) &&
        (m.lookedUp? q).any (fun found => (found.1.registers.env.var? found.2).any (fun v =>
          v.type == .string)))) = true := by
    rw [sample?_eq_parseDecoded?]
    decide +kernel
  obtain ⟨m, hm, hrun⟩ := (Option.any_eq_true _ _).mp hrun
  obtain ⟨p, hp, hreached⟩ := exists_of_sample? hm
  simp only [Bool.and_eq_true, beq_iff_eq, Option.any_eq_true] at hrun
  obtain ⟨-, htype, ⟨m', id⟩, hfound, v, hv, hstring⟩ := hrun
  obtain ⟨hrun, hid⟩ := of_lookedUp? hfound
  exact ⟨p, m, m', id, v, hp, hreached, eq_ok_of_toOption htype, hrun, hid, hv, hstring⟩

end Runs

end StashMachine
