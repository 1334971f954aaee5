import StashMachine.Proofs.Activation
import StashMachine.Proofs.Updates

/-!
# StashMachine.Proofs.Constructed — what `new` leaves on the stash

* `Rewritten p m m' x`: between `m` and `m'`, a step of the run stores a value in the variable `x`.
* `ThisRewritten p m m'`: so it is with the variable `this` of the call that begins at `m`.
* `ConstructorDecl.of_ret_mem`: the returns of a constructor are those of its source, or give the receiver.
* `constructor_result`: what a constructor leaves that comes to its end.
* `new_result`: `new` leaves the object that it has made, unless the constructor returns another value itself or its
  `this` is assigned.
-/

namespace StashMachine

open Environment Step Machine

/-! ### Variables that keep their values -/

section Rewritten

variable {p : Program} {m m' : Machine} {x : VarId}

/-- From `m` on and before `m'`, a step of the run changes the variable. -/
def Rewritten (p : Program) (m m' : Machine) (x : VarId) : Prop :=
  ∃ m₁ m₂, Reached Natives.empty p m₁ ∧ m.steps ≤ m₁.steps ∧ m₁.steps < m'.steps ∧ Next Natives.empty m₁ m₂ ∧
    Rewrites m₁.registers.env m₂.registers.env x

/-- The variable `this` of the call that begins at `m` changes before `m'`. -/
def ThisRewritten (p : Program) (m m' : Machine) : Prop :=
  ∃ m₁ x, Next Natives.empty m m₁ ∧ m₁.registers.env.bound? m.registers.env.frames.size thisName = some (.var x) ∧
    Rewritten p m₁ m' x

theorem Rewritten.mono {m₁ : Machine} (h : Rewritten p m m' x) (hle : m'.steps ≤ m₁.steps) : Rewritten p m m₁ x := by
  obtain ⟨m₂, m₃, hm₂, hge, hlt, hrest⟩ := h
  exact ⟨m₂, m₃, hm₂, hge, Nat.lt_of_lt_of_le hlt hle, hrest⟩

theorem var?_of_not_rewritten {v : Variable} (hm : Reached Natives.empty p m) (hm' : Reached Natives.empty p m')
    (hle : m.steps ≤ m'.steps) (hv : m.registers.env.var? x = some v) (h : ¬ Rewritten p m m' x) :
    m'.registers.env.var? x = some v := by
  refine hm.between (P := fun m => m.registers.env.var? x = some v) hm' hle hv (fun m₁ m₂ hm₁ hge hlt ih hnext => ?_)
  by_contra hne
  exact h ⟨m₁, m₂, hm₁, hge, hlt, hnext, v, ih, hne⟩

/-- A run preserves the store. -/
theorem preserves_of_steps (hm : Reached Natives.empty p m) (hm' : Reached Natives.empty p m')
    (hle : m.steps ≤ m'.steps) : Preserves m.registers.env m'.registers.env := by
  have hrun := preserves_run (m'.steps - m.steps) m
  rw [hm.run hm' hle] at hrun
  exact hrun

end Rewritten

/-! ### The returns of a constructor -/

namespace ConstructorDecl

variable {c : ConstructorDecl} {fields : List FieldDecl} {hasSuper : Bool} {e : Option Expr}

/-- A return that a constructor runs is one of its source with an expression, or gives the receiver. -/
theorem of_ret_mem (h : .ret e ∈ Stmt.partsAll (c.elaborate fields hasSuper).body) : e = some Expr.this ∨
    ∃ e₀, .ret (some e₀) ∈ Stmt.partsAll c.body ∧ e = some (e₀.qualify (.simple thisName)) := by
  obtain ⟨s, hs, ht⟩ := Stmt.mem_partsAll.mp h
  rcases Stmt.mem_withTrailing hs with hs | rfl
  · obtain ⟨s₀, hs₀, rfl⟩ := List.mem_map.mp hs
    rw [Stmt.parts_returnThis, Stmt.parts_qualify, List.map_map] at ht
    obtain ⟨t₀, ht₀, ht⟩ := List.mem_map.mp ht
    cases t₀ with
    | ret e₀ =>
      have hbody : .ret e₀ ∈ Stmt.partsAll c.body := by
        rcases mem_arrange hs₀ with hs₀ | rfl | hs₀
        · exact Stmt.mem_partsAll.mpr ⟨s₀, hs₀, ht₀⟩
        · cases List.mem_singleton.mp ht₀
        · obtain ⟨f, -, d, -, rfl⟩ := mem_setFields.mp hs₀
          cases List.mem_singleton.mp ht₀
      cases e₀ with
      | none =>
        cases ht
        exact .inl rfl
      | some e₀ =>
        cases ht
        exact .inr ⟨e₀, hbody, by simp⟩
    | _ => simp [Stmt.qualify, Stmt.returnThis, Stmt.mapParts, Stmt.retThisLeaf] at ht
  · obtain ht := List.mem_singleton.mp ht
    cases ht
    exact .inl rfl

end ConstructorDecl

/-! ### What a constructor leaves -/

section Result

variable {p : Program} {source x : String} {m m' : Machine} {d : ConstructorDecl} {fields : List FieldDecl}
  {hasSuper : Bool} {f : FrameId} {object : Class × FrameId} {K : List Item}

/-- The expression of a `return` of the receiver is evaluated to what the variable `this` of the call holds. -/
theorem item_of_return_this {k : Closure} {id : VarId} {R : List Item} {item : StashItem} {below : List StashItem}
    (hparse : Program.parse source = .ok p) (hm : Reached Natives.empty p m)
    (hc : m.registers.control = .expr Expr.this :: R) (hplays : Plays p f (.call k (some object)))
    (hf : f ∈ m.registers.env.chain m.registers.env.current)
    (hbound : m.registers.env.bound? f thisName = some (.var id)) (hu : Until Natives.empty R.length m m')
    (hitem : m'.registers.stash = item :: below) :
    ∃ y v, m.registers.env.var? id = some y ∧ y.value = some v ∧ item = .value v := by
  have hheads : Heads p R.length m' ⟨.expr (.name (.simple thisName)) :: R, m.registers.stash, m.registers.env,
      m.registers.output⟩ := by
    refine ⟨m, ?_, hm, .inr ⟨?_, hu⟩⟩
    · rw [← show m.registers.control = .expr (.name (.simple thisName)) :: R from hc]
    · rw [height, hc]
      exact Nat.lt_succ_self _
  obtain ⟨item', env', hevaluated, m₁, hr, -, harrives⟩ := hheads.name (Nat.le_refl _)
  have hheight : m₁.height ≤ R.length := Nat.le_of_eq (by rw [height, hr])
  obtain rfl : m' = m₁ := by
    rcases harrives with ⟨-, heq⟩ | ⟨hhigh, -⟩
    · exact heq
    · omega
  rw [hr] at hitem
  cases hitem
  have hlookup := lookup?_of_call hparse hm hplays hf not_spells_this hbound
  cases hevaluated with
  | value hv =>
    obtain ⟨id', y, hnames, hy, hv⟩ := hv
    cases hnames with
    | var hid =>
      rw [hlookup] at hid
      cases hid
      exact ⟨y, _, hy, hv, rfl⟩
  | cls hnames =>
    cases hnames with
    | cls hid =>
      rw [hlookup] at hid
      cases hid

/-- A constructor that comes to its end leaves the object, unless it has returned another expression of its source or
a step has changed its `this`. -/
theorem constructor_result (hparse : Program.parse source = .ok p)
    (h : Invokes p m ⟨.constructor (d.elaborate fields hasSuper), f, x⟩ object K)
    (hu : Until Natives.empty K.length m m') : ∃ m₁ e item, Next Natives.empty m m₁ ∧
      Returned m m.registers.env.current K (some e) item m₁.registers.stash m' ∧ m'.registers.control = K ∧
      m'.registers.stash = item :: m₁.registers.stash ∧
      (e = Expr.this ∧ (item = .value (.object object.1 object.2) ∨ ThisRewritten p m m') ∨
        ∃ e₀, .ret (some e₀) ∈ Stmt.partsAll d.body ∧ e = e₀.qualify (.simple thisName) ∧ e ≠ Expr.this) := by
  have hm := h.1
  obtain ⟨m₁, hnext, harrives⟩ := hu.exists_next
  have hm₁ := hm.next hnext
  obtain ⟨body, hbody, hc₁, hcurrent, hsize, hreceives, hplays⟩ := h.next hnext
  cases hbody
  have hreturns : EndsInReturn (d.elaborate fields hasSuper).body := by
    obtain ⟨-, -, -, n, args, rest, below, -, -, hstash, -⟩ := h
    exact returns_of_mem_stash (k := ⟨.constructor (d.elaborate fields hasSuper), f, x⟩) hm
      (by rw [show m.registers.stash = _ from hstash]; simp)
  have hu₁ : Until Natives.empty K.length m₁ m' :=
    harrives.until (by rw [height, hc₁]; simp only [List.length_cons]; omega)
  obtain ⟨e, item, hreturned, hcontrol, hstash, -⟩ := exists_returned hm₁ hc₁ hreturns hu₁
  obtain ⟨m₂, k, R, m₃, m₄, hk, hc₂, hunwind, hnext₂, hc₃, hu₃, hstash₄, htwo⟩ := id hreturned
  -- the `return` belongs to the call
  have hm₂ := hm₁.trans hk
  have hm₃ := hm₂.next hnext₂
  obtain ⟨hm₄, hlt₃, -⟩ := hu₃.steps hm₃
  have hle₂ := steps_le_of_evaluate hk
  have hle₄ := steps_le_of_evaluate htwo
  have hsteps₂ := hnext₂.steps
  have hactive := (active_of_enters hc₁ hcurrent).run hm₁ hu₁ hm₂ hle₂ (by omega)
  have hpart : .ret e ∈ Stmt.partsAll (d.elaborate fields hasSuper).body := by
    rcases (hactive.own [] _ _ hc₂ hunwind).parts (.ret e) (.head _) with hmem | ⟨_, _, hdeclare⟩
    · rcases List.mem_cons.mp hmem with hblock | hmem
      · cases hblock
      · exact hmem
    · cases hdeclare
  by_cases hthis : e = some Expr.this
  · subst hthis
    refine ⟨m₁, _, item, hnext, hreturned.of_next hnext, hcontrol, hstash, .inl ⟨rfl, ?_⟩⟩
    obtain ⟨id, hbound, hv⟩ := hreceives.this
    have henv : m₃.registers.env = m₂.registers.env := by
      have hperform := hnext₂.perform hc₂
      obtain ⟨r, steps⟩ := m₃
      cases hperform
      rfl
    by_cases hrewritten : Rewritten p m₁ m' id
    · exact .inr ⟨m₁, id, hnext, hbound, hrewritten⟩
    · have hf : m.registers.env.frames.size ∈ m₃.registers.env.chain m₃.registers.env.current := by
        rw [henv]
        exact hactive.current _ _ hc₂ rfl hunwind
      have hbound₃ := (preserves_of_steps hm₁ hm₃ (by omega)).bound _ _ _ hbound
      have hv₃ := var?_of_not_rewritten hm₁ hm₃ (by omega) hv (fun h => hrewritten (h.mono (by omega)))
      obtain ⟨y, v, hy, hv, rfl⟩ := item_of_return_this hparse hm₃ hc₃ hplays hf hbound₃ hu₃ hstash₄
      rw [hv₃] at hy
      cases hy
      cases hv
      exact .inl rfl
  · rcases ConstructorDecl.of_ret_mem hpart with rfl | ⟨e₀, he₀, rfl⟩
    · exact absurd rfl hthis
    · exact ⟨m₁, _, item, hnext, hreturned.of_next hnext, hcontrol, hstash,
        .inr ⟨e₀, he₀, rfl, fun heq => hthis (congrArg some heq)⟩⟩

end Result

/-! ### What `new` leaves -/

section New

variable {p : Program} {source x : String} {args : List Expr} {m m' : Machine} {K : List Item}

/-- A `new` that comes to its end has made one object of its class and invoked a constructor of the class on it, and
leaves this object, unless the constructor has returned an expression of its source other than `this`, or a step has
stored something in its `this`. -/
theorem new_result (hparse : Program.parse source = .ok p) (hm : Reached Natives.empty p m)
    (hc : m.registers.control = .expr (.new x args) :: K) (hu : Until Natives.empty K.length m m') :
    ∃ m₁ m₂ control decl f superclass object d m₃ item, Reached Natives.empty p m₁ ∧ m.steps < m₁.steps ∧
      m₁.registers.control = .new x :: control ∧ Next Natives.empty m₁ m₂ ∧
      m₂.registers.stash = .value object :: m₁.registers.stash ∧
      object = .object (decl.elaborate f superclass) m.registers.env.frames.size ∧
      p.Declares decl ∧ decl.name = x ∧ d ∈ decl.constructors ∧ m₂.steps ≤ m₃.steps ∧ m₃.steps < m'.steps ∧
      Invokes p m₃ ⟨.constructor (d.elaborate (decl.fields.filter (fun f => !f.isStatic)) superclass.isSome), f, x⟩
        (decl.elaborate f superclass, m.registers.env.frames.size) K ∧
      m'.registers.control = K ∧ m'.registers.stash = item :: m.registers.stash ∧
      (item = .value object ∨
        (∃ e, .ret (some e) ∈ Stmt.partsAll d.body ∧ e.qualify (.simple thisName) ≠ Expr.this ∧
          Returned m₃ m₃.registers.env.current K (some (e.qualify (.simple thisName))) item m.registers.stash m') ∨
        ThisRewritten p m₃ m') := by
  obtain ⟨m₃, hu₃, ha₃⟩ := hu.split (Nat.le_succ K.length)
  obtain ⟨hm₃, hlt₃, -⟩ := hu₃.steps hm
  obtain ⟨m₁, m₂, c, d, items, hm₁, hlt₁, hnext₁, hr₁, hfind, hname, hd, hr₂, ha₂, hc₃, hitems, hstash₃⟩ :=
    exists_creation hparse hm hc hu₃
  obtain ⟨-, hle₂, -⟩ := ha₂.steps (hm₁.next hnext₁)
  -- the class is one that the program declares, and its constructor stands in the declaration
  obtain ⟨-, decl, f, superclass, hdecl, rfl⟩ := (Origins.visited (.inl hm)).classes _ _ c (findClass_eq_ok.mp hfind)
  obtain ⟨d₀, hd₀, rfl⟩ := List.mem_map.mp hd
  obtain rfl : decl.name = x := hname
  have hu₃' := ha₃.until (by rw [height, hc₃]; exact Nat.lt_succ_self _)
  obtain ⟨hm', hlt', -⟩ := hu₃'.steps hm₃
  obtain ⟨m₄, hnext₃, -⟩ := hu₃'.exists_next
  obtain ⟨hinvokes, hbelow⟩ := invokes_of_next hm₃ hc₃ hitems hstash₃ rfl hnext₃
  obtain ⟨m₅, e, item, hnext₅, hreturned, hcontrol, hstash, hresult⟩ := constructor_result hparse hinvokes hu₃'
  cases hnext₃.unique hnext₅
  rw [hbelow] at hreturned hstash
  refine ⟨m₁, m₂, _, decl, f, superclass, _, d₀, m₃, item, hm₁, hlt₁, by rw [hr₁], hnext₁, by rw [hr₁, hr₂], rfl, hdecl,
    rfl, hd₀, hle₂, hlt', hinvokes, hcontrol, hstash, ?_⟩
  rcases hresult with ⟨-, hitem | hrewritten⟩ | ⟨e₀, he₀, rfl, hne⟩
  · exact .inl hitem
  · exact .inr (.inr hrewritten)
  · exact .inr (.inl ⟨e₀, he₀, hne, hreturned⟩)

/-- A source whose constructor has the body. -/
def constructorSource (body : String) : String :=
  "class A \x7b A(boolean b) \x7b " ++ body ++ " \x7d \x7d class M \x7b static boolean r; "
    ++ "public static void main(String[] a) \x7b r = new A(true) == null; \x7d \x7d"

/-- The first `new` of a run that is evaluated after `n` steps: the machine before, the arguments, what is below on
control, and the machine after. -/
def created? (source : String) (n k : Nat) : Option (Machine × List Expr × List Item × Machine) :=
  (sample? source n).bind (fun m =>
    match m.registers.control with
    | .expr (.new "A" args) :: K => (m.until? Natives.empty K.length k).map (fun m' => (m, args, K, m'))
    | _ => none)

theorem exists_of_created? {n k : Nat} (h : created? source n k = some (m, args, K, m')) :
    ∃ p, Program.parse source = .ok p ∧ Reached Natives.empty p m ∧
      m.registers.control = .expr (.new "A" args) :: K ∧ Until Natives.empty K.length m m' := by
  obtain ⟨m₀, hm₀, h⟩ := Option.bind_eq_some_iff.mp h
  split at h
  · rename_i args' K' hc
    obtain ⟨m₁, hu, heq⟩ := Option.map_eq_some_iff.mp h
    cases heq
    obtain ⟨p, hp, hreached⟩ := exists_of_sample? hm₀
    exact ⟨p, hp, hreached, hc, until_of_until? hu⟩
  · cases h

/-- The frame of the object on top of the stash. -/
def topObject? (m : Machine) : Option FrameId :=
  match topValue? m with
  | some (.object _ o) => some o
  | _ => none

/-- The object is left where the constructor ends in a loop, with a `return` alone. -/
theorem new_result_nested : ∃ p m args K m' c,
    Program.parse (constructorSource "while (b) \x7b if (b) \x7b return; \x7d \x7d") = .ok p ∧ Reached Natives.empty p m ∧ m.registers.control = .expr (.new "A" args) :: K ∧
    Until Natives.empty K.length m m' ∧ m'.registers.control = K ∧
    m'.registers.stash = .value (.object c m.registers.env.frames.size) :: m.registers.stash ∧
    ∃ m₁ m₂ control c, Reached Natives.empty p m₁ ∧ m₁.registers.control = .new "A" :: control ∧
      Next Natives.empty m₁ m₂ ∧ c.name = "A" ∧ m₂.registers.stash =
        .value (.object c m.registers.env.frames.size) :: m₁.registers.stash := by
  have hrun : (created? (constructorSource "while (b) \x7b if (b) \x7b return; \x7d \x7d") 25 40).any (fun run =>
      topObject? run.2.2.2 == some run.1.registers.env.frames.size) = true := by
    rw [created?, sample?_eq_parseDecoded?]
    decide +kernel
  obtain ⟨⟨m, args, K, m'⟩, hcreated, htop⟩ := (Option.any_eq_true _ _).mp hrun
  replace htop : topObject? m' = some m.registers.env.frames.size := beq_iff_eq.mp htop
  obtain ⟨p, hp, hm, hc, hu⟩ := exists_of_created? hcreated
  obtain ⟨m₁, m₂, control, decl, f, superclass, _, d, m₃, item, hm₁, -, hc₁, hnext, hmade, rfl, -, hname, -, -, -, -,
    hcontrol, hstash, -⟩ := new_result hp hm hc hu
  obtain ⟨c, rfl⟩ : ∃ c, item = .value (.object c m.registers.env.frames.size) := by
    unfold topObject? topValue? at htop
    rw [hstash] at htop
    split at htop
    · rename_i heq
      split at heq
      · rename_i hitem
        cases hitem
        cases heq
        cases htop
        exact ⟨_, rfl⟩
      · cases heq
    · cases htop
  exact ⟨p, m, args, K, m', c, hp, hm, hc, hu, hcontrol, hstash, m₁, m₂, control, _, hm₁, hc₁, hnext, hname, hmade⟩

/-- Whether every class `A` of the source has one constructor, which returns no expression. -/
def returnsNothing (source : String) : Bool :=
  match Program.parse source with
  | .ok p => p.any (fun decl => decl.name == "A" && decl.constructors.length == 1 && decl.constructors.all (fun d =>
      (Stmt.partsAll d.body).all (fun | .ret (some _) => false | _ => true)))
  | .error _ => false

theorem returnsNothing_eq_parseDecoded? (source : String) : returnsNothing source =
    (Grammar.parseDecoded? .compilationUnit source).any (fun t => (Program.ofTree t).toOption.any (fun p =>
      p.any (fun decl => decl.name == "A" && decl.constructors.length == 1 && decl.constructors.all (fun d =>
        (Stmt.partsAll d.body).all (fun | .ret (some _) => false | _ => true))))) := by
  unfold returnsNothing
  rw [Program.parse_eq_parseDecoded?]
  cases Grammar.parseDecoded? .compilationUnit source with
  | none => rfl
  | some t =>
    dsimp only [Option.any_some]
    cases Program.ofTree t <;> rfl

theorem exists_of_returnsNothing {source : String} {p : Program} (hp : Program.parse source = .ok p)
    (h : returnsNothing source = true) : ∃ decl d, decl ∈ p ∧ decl.name = "A" ∧ decl.constructors = [d] ∧
      ∀ e, .ret (some e) ∉ Stmt.partsAll d.body := by
  unfold returnsNothing at h
  rw [hp] at h
  obtain ⟨decl, hdecl, h⟩ := List.any_eq_true.mp h
  rw [Bool.and_eq_true, Bool.and_eq_true, beq_iff_eq, beq_iff_eq, List.length_eq_one_iff] at h
  obtain ⟨⟨hname, d, hd⟩, hquiet⟩ := h
  refine ⟨decl, d, hdecl, hname, hd, fun e he => ?_⟩
  have hd' := List.all_eq_true.mp hquiet d (hd ▸ .head _)
  exact absurd (List.all_eq_true.mp hd' _ he) (by simp)

/-- Whether `null` is on top of the stash. -/
def leavesNull (m : Machine) : Bool :=
  match topValue? m with
  | some .null => true
  | _ => false

/-- A constructor that returns no expression, and the `new` leaves `null`: `this` is assigned. -/
theorem new_result_erased : ∃ p m args K m' decl d, Program.parse (constructorSource "this = null;") = .ok p ∧
    Reached Natives.empty p m ∧ m.registers.control = .expr (.new "A" args) :: K ∧
    Until Natives.empty K.length m m' ∧ topValue? m' = some Value.null ∧ p.Declares decl ∧ decl.name = "A" ∧
    decl.constructors = [d] ∧ ∀ e, .ret (some e) ∉ Stmt.partsAll d.body := by
  have hall : ((created? (constructorSource "this = null;") 25 40).any (fun run => leavesNull run.2.2.2) &&
      returnsNothing (constructorSource "this = null;")) = true := by
    rw [created?, sample?_eq_parseDecoded?, returnsNothing_eq_parseDecoded?]
    decide +kernel
  obtain ⟨hrun, hquiet⟩ := Bool.and_eq_true_iff.mp hall
  obtain ⟨⟨m, args, K, m'⟩, hcreated, htop⟩ := (Option.any_eq_true _ _).mp hrun
  obtain ⟨p, hp, hm, hc, hu⟩ := exists_of_created? hcreated
  obtain ⟨decl, d, hdecl, hname, hd, hnothing⟩ := exists_of_returnsNothing hp hquiet
  refine ⟨p, m, args, K, m', decl, d, hp, hm, hc, hu, ?_, .inl hdecl, hname, hd, hnothing⟩
  replace htop : leavesNull m' = true := htop
  unfold leavesNull at htop
  split at htop
  · assumption
  · cases htop

end New

end StashMachine
