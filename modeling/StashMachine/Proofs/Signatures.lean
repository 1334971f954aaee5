import StashMachine.Proofs.Lookup

/-!
# StashMachine.Proofs.Signatures — a descriptor names a signature

* `ClassDecl.Has d k`: the callable `k` belongs to the class `d`, as it is written or as it runs; `Program.Closes p k`:
  the closure `k` is that of a callable of the program.
* `Callable.Written`: the types and names of a signature are texts of the grammar.
* `Callable.Namesakes`: both are constructors, or methods of the same name.
* `descriptor_eq_iff`: descriptors are equal if and only if the signatures are.
* `nativeName_eq_iff`: the keys of native code also tell classes and results apart.
* `Program.Names p x`: the program calls a class, a field or a variable `x`; `Program.Names.not_descriptor`: no
  descriptor is such a name.
-/

namespace StashMachine

open Grammar

/-! ### Callables of a program -/

/-- The callable belongs to the class, as it is written or as it runs. -/
def ClassDecl.Has (d : ClassDecl) (k : Callable) : Prop :=
  k ∈ d.callables ∨ ∃ f superclass, k ∈ (d.elaborate f superclass).toClassInfo.callables

/-- The program has the callable in one of its classes. -/
def Program.Has (p : Program) (k : Callable) : Prop := ∃ d, p.Declares d ∧ d.Has k

/-- The closure is that of a callable of the program, in its class. -/
def Program.Closes (p : Program) (k : Closure) : Prop :=
  ∃ d, p.Declares d ∧ d.Has k.callable ∧ k.className = d.name

/-- Both are constructors, or both are methods of the same name. -/
def Callable.Namesakes : Callable → Callable → Prop
  | .method m, .method n => m.name = n.name
  | .constructor _, .constructor _ => True
  | _, _ => False

/-- A name that the program gives to a class, to a field, or to a parameter or another variable of a callable, and the
names of the variables that runs add to these. -/
inductive Program.Names (p : Program) : String → Prop
  | cls {d : ClassDecl} : p.Declares d → p.Names d.name
  | field {d : ClassDecl} {f : FieldDecl} {v : Declarator} : p.Declares d → f ∈ d.fields → v ∈ f.vars → p.Names v.name
  | param {k : Callable} {q : Param} : p.Has k → q ∈ k.params → p.Names q.name
  | local {k : Callable} {x : String} : p.Has k → x ∈ k.locals → p.Names x
  | this : p.Names thisName
  | super : p.Names superName
  | length : p.Names "length"

/-! ### Texts of the grammar -/

/-- Parameters with the names and types of a source. -/
def Param.Written (x : Param) : Prop :=
  (∃ s, Rule.unannType.Spells s.toList ∧ x.type = .ofString s) ∧ Rule.identifier.Spells x.name.toList

/-- The name, the result and the parameters of a callable are as in a source. -/
def Callable.Written : Callable → Prop
  | .method m => Rule.identifier.Spells m.name.toList ∧ (∃ s, m.result = .ofString s) ∧ ∀ x ∈ m.params, x.Written
  | .constructor k => ∀ x ∈ k.params, x.Written

section Written

variable {source : String} {p : Program} {d : ClassDecl} {k k' : Callable}

/-- What holds of the bodies of a class holds of those of its callables before they are elaborated. -/
theorem ClassDecl.Bodies.written {P : Stmt → Prop} {body : List Stmt} (hd : d.Bodies P) (hk : k ∈ d.callables)
    (hbody : k.body? = some body) : ∀ s ∈ body, P s := by
  rcases List.mem_append.mp hk with hk | hk
  · obtain ⟨m, hm, rfl⟩ := List.mem_map.mp hk
    rw [Callable.body?] at hbody
    split at hbody
    · cases hbody
    · exact hd.methods m hm body hbody
  · obtain ⟨c, hc, rfl⟩ := List.mem_map.mp hk
    cases hbody
    exact hd.constructors c hc

/-- Elaboration leaves signatures as they are written. -/
theorem ClassDecl.Has.written (hd : ∀ k ∈ d.callables, k.Written) (hk : d.Has k) : k.Written := by
  rcases hk with hk | ⟨f, superclass, hk⟩
  · exact hd k hk
  · simp only [ClassInfo.callables, ClassInfo.methods, ClassDecl.elaborate, List.map_append, List.mem_append,
      List.mem_map, List.mem_filter] at hk
    rcases hk with (⟨_, ⟨m, ⟨hm, -⟩, rfl⟩, rfl⟩ | ⟨_, ⟨m, ⟨hm, -⟩, rfl⟩, rfl⟩) | ⟨_, ⟨c, hc, rfl⟩, rfl⟩
    · exact hd (.method m) (by simp [ClassDecl.callables, hm])
    · exact hd (.method m) (by simp [ClassDecl.callables, hm])
    · exact hd (.constructor c) (by simp [ClassDecl.callables, hc])

theorem Program.parse_written (h : Program.parse source = .ok p) : ∀ d ∈ p, ∀ k ∈ d.callables, k.Written := by
  refine forall_of_parse h (fun t d ht _ hd k hk => ?_)
  rcases List.mem_append.mp hk with hk | hk
  · obtain ⟨m, hm, rfl⟩ := List.mem_map.mp hk
    obtain ⟨t', ht', hr, hread⟩ := exists_of_mem_methods ht hd hm
    refine ⟨spells_of_method ht' hr hread, result_of_method hread, fun x hx => ?_⟩
    obtain ⟨t'', ht'', hx'⟩ := exists_of_mem_method_params ht' hread x hx
    exact spells_of_param ht'' hx'
  · obtain ⟨c, hc, rfl⟩ := List.mem_map.mp hk
    rcases exists_of_mem_constructors ht hd hc with rfl | ⟨t', ht', hread⟩
    · exact fun x hx => (List.not_mem_nil hx).elim
    · intro x hx
      obtain ⟨t'', ht'', hx'⟩ := exists_of_mem_params ht' hread x hx
      exact spells_of_param ht'' hx'

theorem Program.Has.written (h : Program.parse source = .ok p) (hk : p.Has k) : k.Written := by
  obtain ⟨d, hd | rfl, hk⟩ := hk
  · exact hk.written (Program.parse_written h d hd)
  · refine hk.written (fun k hk => ?_)
    obtain rfl := List.mem_singleton.mp hk
    exact fun x hx => (List.not_mem_nil hx).elim

theorem Program.Closes.has {k : Closure} (h : p.Closes k) : p.Has k.callable := by
  obtain ⟨d, hd, hk, -⟩ := h
  exact ⟨d, hd, hk⟩

theorem Callable.Written.params (h : k.Written) : ∀ x ∈ k.params, x.Written := by
  cases k with
  | method m => exact h.2.2
  | constructor c => exact h

theorem Callable.Written.plain (h : k.Written) : ∀ t ∈ k.paramTypes, t.Plain := by
  intro t ht
  obtain ⟨x, hx, rfl⟩ := List.mem_map.mp ht
  obtain ⟨⟨s, hs, htype⟩, -⟩ := h.params x hx
  exact htype ▸ plain_of_spells hs

/-! ### Signatures -/

/-- Constructors share a name that no method has. -/
theorem name_eq_iff_namesakes (hk : k.Written) (hk' : k'.Written) : k.name = k'.name ↔ k.Namesakes k' := by
  have hnot : ¬ Rule.identifier.Spells Callable.constructorName.toList := fun h =>
    absurd (isNameChar_of_spells h '<' (by decide)) (by decide)
  cases k with
  | method m =>
    cases k' with
    | method n => exact Iff.rfl
    | constructor c =>
      refine ⟨fun h => hnot ?_, False.elim⟩
      exact (show m.name = Callable.constructorName from h) ▸ hk.1
  | constructor c =>
    cases k' with
    | method n =>
      refine ⟨fun h => hnot ?_, False.elim⟩
      exact (show Callable.constructorName = n.name from h).symm ▸ hk'.1
    | constructor c' => exact ⟨fun _ => trivial, fun _ => rfl⟩

/-- Descriptors are equal if and only if the signatures are. -/
theorem descriptor_eq_iff (hk : k.Written) (hk' : k'.Written) :
    k.descriptor = k'.descriptor ↔ k.Namesakes k' ∧ k.paramTypes = k'.paramTypes := by
  rw [← name_eq_iff_namesakes hk hk']
  constructor
  · exact descriptor_injective hk.plain hk'.plain
  · rintro ⟨hname, htypes⟩
    rw [Callable.descriptor, Callable.descriptor, hname, htypes]

/-- The text of the result is read back. -/
theorem result_injective (hk : k.Written) (hk' : k'.Written) (hname : k.Namesakes k')
    (h : k.result.text = k'.result.text) : k.result = k'.result := by
  cases k with
  | method m =>
    cases k' with
    | method n =>
      obtain ⟨-, ⟨s, hs⟩, -⟩ := hk
      obtain ⟨-, ⟨s', hs'⟩, -⟩ := hk'
      show m.result = n.result
      replace h : m.result.text = n.result.text := h
      rw [hs, hs', TypeName.text_ofString, TypeName.text_ofString] at h
      rw [hs, hs', h]
    | constructor c => cases hname
  | constructor c =>
    cases k' with
    | method n => cases hname
    | constructor c' => exact congrArg TypeName.named h

/-- The characters of a descriptor that are not those of names are brackets and commas. -/
theorem notMem_descriptor (hk : k.Written) {y : Char} (hy : isNameChar y = false)
    (hother : y ∉ ['[', ']', '(', ')', ',', '<', '>']) : y ∉ k.descriptor.toList := by
  have hname : y ∉ k.name.toList := by
    intro hmem
    cases k with
    | method m => simp [isNameChar_of_spells hk.1 y hmem] at hy
    | constructor c =>
      have hall : Callable.constructorName.toList.all (fun z => isNameChar z || z == '<' || z == '>') = true := by
        decide
      have hname := List.all_eq_true.mp hall y hmem
      simp only [hy, Bool.false_or, Bool.or_eq_true, beq_iff_eq] at hname
      rcases hname with rfl | rfl
      · exact hother (by decide)
      · exact hother (by decide)
  have htypes : y ∉ (Text.join "," (k.paramTypes.map TypeName.text)).toList := by
    refine notMem_join (by rintro rfl; exact hother (by decide)) (fun s hs => ?_)
    obtain ⟨t, ht, rfl⟩ := List.mem_map.mp hs
    obtain ⟨x, hx, rfl⟩ := List.mem_map.mp ht
    obtain ⟨⟨s, hs, htype⟩, -⟩ := hk.params x hx
    rw [htype, TypeName.text_ofString]
    exact notMem_of_spells hs hy (by rintro rfl; exact hother (by decide)) (by rintro rfl; exact hother (by decide))
  rw [Callable.descriptor, toList_descriptor]
  simp only [List.mem_append, List.mem_cons, List.not_mem_nil, or_false, not_or]
  exact ⟨hname, by rintro rfl; exact hother (by decide), htypes, by rintro rfl; exact hother (by decide)⟩

end Written

section Native

variable {source source' x : String} {p p' : Program} {k k' : Closure}

theorem toList_nativeName (k : Closure) : k.nativeName.toList =
    k.className.toList ++ ':' :: ':' :: (k.descriptor.toList ++ ':' :: ' ' :: k.callable.result.text.toList) := by
  simp [Closure.nativeName]

/-- The keys of native code are equal if and only if the signatures, the classes and the results are. -/
theorem nativeName_eq_iff (h : Program.parse source = .ok p) (h' : Program.parse source' = .ok p')
    (hk : p.Closes k) (hk' : p'.Closes k') : k.nativeName = k'.nativeName ↔
      k.descriptor = k'.descriptor ∧ k.className = k'.className ∧ k.callable.result = k'.callable.result := by
  have hw := hk.has.written h
  have hw' := hk'.has.written h'
  -- the text is cut at the first colon of the two, and behind them at the next one
  have hclass : ∀ {source : String} {p : Program} {k : Closure}, Program.parse source = .ok p → p.Closes k →
      ':' ∉ k.className.toList := by
    rintro source p k h ⟨d, hd, -, hname⟩ hmem
    rw [hname] at hmem
    exact absurd (isNameChar_of_spells (hd.spells h) ':' hmem) (by decide)
  constructor
  · intro heq
    have hlist := congrArg String.toList heq
    rw [toList_nativeName, toList_nativeName] at hlist
    obtain ⟨hname, hrest⟩ := cut_at_first (hclass h hk) (hclass h' hk') hlist
    obtain ⟨hkey, hresult⟩ := cut_at_first (notMem_descriptor hw (by decide) (by decide))
      (notMem_descriptor hw' (by decide) (by decide)) (List.cons.inj hrest).2
    have hkey' : k.descriptor = k'.descriptor := String.ext hkey
    exact ⟨hkey', String.ext hname, result_injective hw hw' ((descriptor_eq_iff hw hw').mp hkey').1
      (String.ext (List.cons.inj hresult).2)⟩
  · rintro ⟨hkey, hname, hresult⟩
    rw [Closure.nativeName, Closure.nativeName, hkey, hname, hresult]

/-! ### Other names -/

/-- All other names are made of the characters of names. -/
theorem Program.Names.isNameChar (h : Program.parse source = .ok p) (hx : p.Names x) :
    ∀ y ∈ x.toList, isNameChar y = true := by
  have hlocals : ∀ {k : Callable}, p.Has k → ∀ x ∈ k.locals, Rule.identifier.Spells x.toList := by
    rintro k ⟨d, hd, hk⟩ x hx
    obtain ⟨body, hbody, s, hs, hx⟩ := Callable.mem_locals hx
    have hbodies := Program.Declares.bodies Stmt.inherited_locals h hd
    rcases hk with hk | ⟨f, superclass, hk⟩
    · exact hbodies.written hk hbody s hs x hx
    · exact hbodies.callables Stmt.inherited_locals hk hbody s hs x hx
  cases hx with
  | cls hd => exact isNameChar_of_spells (hd.spells h)
  | field hd hf hv => exact isNameChar_of_spells (hd.spells_field h hf hv)
  | param hk hq => exact isNameChar_of_spells ((hk.written h).params _ hq).2
  | «local» hk hx => exact isNameChar_of_spells (hlocals hk _ hx)
  | this | super | length => exact List.all_eq_true.mp (by decide)

/-- No descriptor is the name of a class, of a field or of a variable. -/
theorem Program.Names.not_descriptor (h : Program.parse source = .ok p) (hx : p.Names x) (k : Callable) :
    k.descriptor ≠ x := by
  rintro rfl
  have hbracket : '(' ∈ k.descriptor.toList := by
    rw [Callable.descriptor, toList_descriptor]
    simp
  exact absurd (hx.isNameChar h '(' hbracket) (by decide)

end Native

end StashMachine
