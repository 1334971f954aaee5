import Mathlib.Logic.Relation
import StashMachine.Proofs.Constructed
import StashMachine.Proofs.Invocations
import StashMachine.Proofs.Prologues
import StashMachine.Proofs.StaticFields

/-!
# StashMachine.Proofs.Delegation — where the invocations of constructors come from

* `Opening p m`: a constructor has been entered one or two steps ago; `opening_of_not_calm`: only then an explicit
  constructor call waits.
* `Constructs p m c d object K`: the constructor `d` of the class `c` is invoked on the object next.
* `Delegates m m'`: the first statement of the constructor that is invoked at `m` leads to the invocation at `m'`.
* `Constructs.origin`: constructors are invoked on new objects by `new`, and on others by the constructors that have
  been invoked on them already.
-/

namespace StashMachine

open Environment Step Machine Grammar

/-! ### Explicit constructor calls that wait -/

/-- No explicit constructor call waits in the item. -/
def Item.Calm (i : Item) : Prop := ∀ who args, .construct who args ∉ i.parts

theorem Item.calm_of_parts {i : Item} (h : i.parts = []) : i.Calm := by
  intro who args hmem
  rw [h] at hmem
  cases hmem

theorem Item.calm_stmt {s : Stmt} (h : s.Calm) : Item.Calm (.stmt s) := by
  intro who args hmem
  rw [Item.parts] at hmem
  exact h who args hmem

section Opening

variable {p : Program} {m m₁ m₂ : Machine} {source x : String} {d : ConstructorDecl} {f : FrameId}
  {object : Class × FrameId} {K c front : List Item} {i : Item}

/-- A constructor is invoked on something that is an object. -/
theorem exists_object_of_calls {r : Registers} {k : Closure} {object : Option (Class × FrameId)} (h : Calls r i k object)
    (hk : k.callable.isStatic = false) : ∃ o, object = some o := by
  obtain ⟨n, args, rest, below, -, -, -, hreceiver⟩ := h
  unfold receiver at hreceiver
  rw [if_neg (by simp [hk])] at hreceiver
  split at hreceiver
  · cases hreceiver
    exact ⟨_, rfl⟩
  all_goals cases hreceiver

/-- Two steps after the invocation of a constructor, the statements of its body stand on control, in a new block. -/
theorem Invokes.enters (h : Invokes p m ⟨.constructor d, f, x⟩ object K) (hnext : Next Natives.empty m m₁)
    (hnext₁ : Next Natives.empty m₁ m₂) : m₂.registers = ⟨d.body.map .stmt ++ .restore m.registers.env.frames.size ::
      .marker .ret :: .restore m.registers.env.current :: K, m₁.registers.stash,
      m₁.registers.env.extend m.registers.env.frames.size blockFrame, m₁.registers.output⟩ := by
  obtain ⟨body, hbody, hc₁, hcurrent, -⟩ := h.next hnext
  cases hbody
  have hperform := hnext₁.perform hc₁
  have hends : ∀ c, Ends (perform Natives.empty (.stmt (.block d.body))) { m₁.registers with control := c }
      (fun _ r => r = ⟨d.body.map .stmt ++ .restore m₁.registers.env.current :: c, m₁.registers.stash,
        m₁.registers.env.extend m₁.registers.env.current blockFrame, m₁.registers.output⟩) (fun _ _ => True) := by
    simp [perform, execute]
  rw [← hcurrent]
  exact (hends _).of_ok hperform

/-- A constructor has been entered: its body stands on control next, or its statements do. -/
def Opening (p : Program) (m : Machine) : Prop :=
  ∃ m₀ d f x object K, Invokes p m₀ ⟨.constructor d, f, x⟩ object K ∧
    (Next Natives.empty m₀ m ∨ ∃ m₁, Next Natives.empty m₀ m₁ ∧ Next Natives.empty m₁ m)

/-- What a body puts on control is calm behind the first statement. -/
theorem OpensCalmly.front_eq_nil {body : List Stmt} {g : FrameId} {back : List Item} (h : OpensCalmly body)
    (hnew : body.map .stmt ++ [.restore g] = front ++ i :: back) (hi : ¬ i.Calm) : front = [] := by
  have hcalm : ∀ {rest : List Stmt} {front : List Item}, (∀ s ∈ rest, s.Calm) →
      rest.map .stmt ++ [.restore g] ≠ front ++ i :: back := by
    intro rest front hrest heq
    have hmem : i ∈ rest.map Item.stmt ++ [.restore g] := by
      rw [heq]
      simp
    rcases List.mem_append.mp hmem with hmem | hmem
    · obtain ⟨s, hs, rfl⟩ := List.mem_map.mp hmem
      exact hi (Item.calm_stmt (hrest s hs))
    · rw [List.mem_singleton.mp hmem] at hi
      exact hi (Item.calm_of_parts rfl)
  rcases h with h | ⟨who, args, rest, rfl, hrest⟩
  · exact absurd hnew (hcalm h)
  · cases front with
    | nil => rfl
    | cons j front =>
      obtain ⟨-, hnew⟩ := List.cons.inj hnew
      exact absurd hnew (hcalm hrest)

/-- The body of a constructor that is entered opens calmly. -/
theorem Invokes.opensCalmly (hparse : Program.parse source = .ok p)
    (h : Invokes p m ⟨.constructor d, f, x⟩ object K) : OpensCalmly d.body := by
  obtain ⟨n, hc, hcalls⟩ := h.2
  rcases calm_of_calls hparse h.1 hcalls rfl with hcalm | ⟨_, -, hopens⟩
  · exact .inl hcalm
  · exact hopens

/-- After the first steps of a constructor, its first statement is the only one that is not calm. -/
theorem Opening.splits {g : FrameId} {back : List Item} {j : Item} (hparse : Program.parse source = .ok p)
    (h : Opening p m) (hc : m.registers.control = j :: c) (hnext : Next Natives.empty m m₁)
    (hagenda : Agenda { m.registers with control := c } j (front ++ i :: back) g) (hi : ¬ i.Calm)
    (hj : ¬ j.Calm) : front = [] ∧ Opening p m₁ := by
  obtain ⟨m₀, d, f, x, object, K, hinvokes, hnext₀ | ⟨m₂, hnext₀, hnext₂⟩⟩ := h
  · -- the body is split up into its statements
    obtain ⟨body, hbody, hc', -⟩ := hinvokes.next hnext₀
    cases hbody
    rw [hc] at hc'
    obtain ⟨rfl, -⟩ := List.cons.inj hc'
    refine ⟨?_, m₀, d, f, x, object, K, hinvokes, .inr ⟨m, hnext₀, hnext⟩⟩
    generalize hnew : front ++ i :: back = new at hagenda
    cases hagenda with
    | simple _ hsimple =>
      have hsimple := List.all_eq_true.mp hsimple i (by rw [← hnew]; simp)
      exact absurd (Item.calm_of_parts (Item.parts_simple hsimple)) hi
    | block body => exact (hinvokes.opensCalmly hparse).front_eq_nil hnew.symm hi
  · -- the first statement is an explicit constructor call
    have hc' : m.registers.control = _ := congrArg Registers.control (hinvokes.enters hnext₀ hnext₂)
    rw [hc] at hc'
    have hconstruct : ∃ who args, j = .stmt (.construct who args) := by
      cases hbody : d.body with
      | nil =>
        rw [hbody] at hc'
        obtain ⟨rfl, -⟩ := List.cons.inj hc'
        exact absurd (Item.calm_of_parts rfl) hj
      | cons s body =>
        rw [hbody] at hc'
        obtain ⟨rfl, -⟩ := List.cons.inj hc'
        rcases hinvokes.opensCalmly hparse with hcalm | ⟨who, args, rest, heq, -⟩
        · exact absurd (Item.calm_stmt (hcalm s (hbody ▸ .head _))) hj
        · rw [hbody] at heq
          cases heq
          exact ⟨who, args, rfl⟩
    obtain ⟨who, args, rfl⟩ := hconstruct
    generalize hnew : front ++ i :: back = new at hagenda
    cases hagenda with
    | simple _ hsimple =>
      have hsimple := List.all_eq_true.mp hsimple i (by rw [← hnew]; simp)
      exact absurd (Item.calm_of_parts (Item.parts_simple hsimple)) hi

/-- Only the body waits, where one is entered. -/
theorem Agenda.front_eq_nil {r : Registers} {j : Item} {back : List Item} {g : FrameId} {k : Closure}
    {object : Option (Class × FrameId)} (h : Agenda r j (front ++ i :: back) g) (hcalls : Calls r j k object)
    (hi : ¬ i.Calm) : front = [] := by
  obtain ⟨n, _, _, _, rfl, -⟩ := hcalls
  generalize hnew : front ++ i :: back = new at h
  cases h with
  | simple _ hsimple =>
    have hsimple := List.all_eq_true.mp hsimple i (by rw [← hnew]; simp)
    exact absurd (Item.calm_of_parts (Item.parts_simple hsimple)) hi
  | call _ _ =>
    match front, hnew with
    | [], _ => rfl
    | [_], hnew =>
      cases hnew
      exact absurd (Item.calm_of_parts rfl) hi
    | [_, _], hnew =>
      cases hnew
      exact absurd (Item.calm_of_parts rfl) hi
    | _ :: _ :: _ :: front, hnew => simp at hnew

/-- Of the bodies that are entered, only those of constructors are not calm. -/
theorem opening_of_calls {k : Closure} {object : Option (Class × FrameId)} {body : List Stmt} {who : Delegate}
    {args : List Expr} (hparse : Program.parse source = .ok p) (hm : Reached Natives.empty p m)
    (hc : m.registers.control = i :: c) (hnext : Next Natives.empty m m₁)
    (hcalls : Calls { m.registers with control := c } i k object) (hbody : k.callable.body? = some body)
    (hmem : .construct who args ∈ (Stmt.block body).parts) : Opening p m₁ := by
  rcases calm_of_calls hparse hm hcalls hbody with hcalm | ⟨d, hd, -⟩
  · exact absurd hmem (Stmt.hereditary_calm.block hcalm who args)
  · obtain ⟨object, rfl⟩ := exists_object_of_calls hcalls (by rw [hd]; rfl)
    obtain ⟨n, _, _, _, rfl, -⟩ := id hcalls
    obtain ⟨callable, f, x⟩ := k
    cases hd
    exact ⟨m, d, f, x, object, c, ⟨hm, n, hc, hcalls⟩, .inl hnext⟩

/-- An explicit constructor call waits at most in the first item, and only after a constructor has been entered. -/
theorem opening_of_not_calm (hparse : Program.parse source = .ok p) (hm : Reached Natives.empty p m)
    (hc : m.registers.control = front ++ i :: c) (hi : ¬ i.Calm) : front = [] ∧ Opening p m := by
  refine hm.induction (P := fun m => ∀ front i c, m.registers.control = front ++ i :: c → ¬ i.Calm →
    front = [] ∧ Opening p m) (fun front i c hc hi => ?_) (fun m m₁ hm ih hnext front i c hc hi => ?_) front i c hc hi
  · cases front with
    | nil =>
      cases hc
      exact absurd (Item.calm_of_parts rfl) hi
    | cons j front =>
      obtain ⟨-, hnil⟩ := List.cons.inj hc
      cases front <;> cases hnil
  · obtain ⟨j, c₀, hc₀, -⟩ := next_iff.mp hnext
    -- what waited behind the item that is performed was calm
    have hold : ∀ front', c₀ ≠ front' ++ i :: c := by
      rintro front' rfl
      cases (ih (j :: front') i c hc₀ hi).1
    have hsimple : i.isSimple = false :=
      Bool.eq_false_iff.mpr (fun hsimple => hi (Item.calm_of_parts (Item.parts_simple hsimple)))
    have houtline : i.isOutline = false := by
      cases i <;> first | rfl | exact absurd (Item.calm_of_parts rfl) hi
    rcases hnext.suffix hm hc₀ hc hsimple houtline with ⟨front', hfront'⟩ | ⟨back, f, rfl, hagenda⟩
    · exact absurd hfront' (hold front')
    · obtain ⟨who, args, hmem⟩ : ∃ who args, .construct who args ∈ i.parts := by simpa [Item.Calm] using hi
      rcases hagenda.mem_parts (mem_partsOf.mpr ⟨i, by simp, hmem⟩) with
        hmem | ⟨_, _, heq⟩ | ⟨k, object, body, hcalls, hbody, hmem⟩
      · have hj : ¬ j.Calm := fun hcalm => hcalm who args hmem
        exact (ih [] j c₀ hc₀ hj).2.splits hparse hc₀ hnext hagenda hi hj
      · cases heq
      · exact ⟨hagenda.front_eq_nil hcalls hi, opening_of_calls hparse hm hc₀ hnext hcalls hbody hmem⟩

end Opening

/-! ### What explicit constructor calls find -/

section Receivers

variable {p : Program} {m : Machine} {source x : String} {f : FrameId} {k : Closure}

theorem Environment.lt_size_of_bound? {env : Environment} {b : Binding} (h : env.bound? f x = some b) :
    f < env.frames.size := by
  by_contra hle
  rw [bound?_eq_none_of_size_le (Nat.le_of_not_lt hle)] at h
  cases h

/-- The frame of an object binds identifiers only. -/
theorem spells_of_object {c : Class} {b : Binding} (hparse : Program.parse source = .ok p)
    (hm : Reached Natives.empty p m) (hf : Plays p f (.object c)) (h : m.registers.env.bound? f x = some b) :
    Rule.identifier.Spells x.toList := by
  obtain ⟨roles, hscoped, hplays⟩ := exists_scoped hm
  have hlayout := hscoped.layout
  obtain ⟨ρ, hρ⟩ := hlayout.exists_role (lt_size_of_bound? h)
  obtain rfl := hf.unique (hplays f ρ hρ)
  obtain ⟨hc, -, hbinds⟩ := hlayout.lies f _ hρ
  obtain ⟨t, ht⟩ := hbinds.only x b h
  obtain ⟨owner, howner, hx⟩ := List.mem_flatMap.mp ht
  obtain ⟨fd, hfd, hx⟩ := List.mem_flatMap.mp hx
  obtain ⟨v, hv, heq⟩ := List.mem_map.mp hx
  cases heq
  obtain ⟨c', hc', rfl⟩ := hlayout.role_of_mem_lineage hc howner
  obtain ⟨-, -, hfind, -⟩ := hlayout.lies _ _ hc'
  obtain ⟨-, decl, g, superclass, hdecl, rfl⟩ := (Origins.visited (.inl hm)).classes _ _ c' (findClass_eq_ok.mp hfind)
  exact hdecl.spells_field hparse (List.mem_filter.mp hfd).1 hv

/-- In the code of a call, a variable that a reserved word stands for is one of the call. -/
theorem bound?_of_lookup? {object : Option (Class × FrameId)} {id : VarId} (hparse : Program.parse source = .ok p)
    (hm : Reached Natives.empty p m) (hplays : Plays p f (.call k object))
    (hf : f ∈ m.registers.env.chain m.registers.env.current) (hx : ¬ Rule.identifier.Spells x.toList)
    (h : m.registers.env.lookup? x = some (.var id)) : m.registers.env.bound? f x = some (.var id) := by
  obtain ⟨_, g, _, hchain, hbound, -⟩ := lookup?_eq_some_iff.mp h
  have hg : g ∈ m.registers.env.chain m.registers.env.current := by
    rw [hchain]
    simp
  obtain ⟨roles, hscoped, hroles⟩ := exists_scoped hm
  have hcall : IsCall p g := by
    cases place_of_variable hm hbound with
    | @static c hc hstatic =>
      obtain ⟨ρ, hρ⟩ := hscoped.layout.exists_role (lt_size_of_bound? hbound)
      obtain rfl := hc.unique (hroles g ρ hρ)
      obtain ⟨-, -, hfind, -⟩ := hscoped.layout.lies g _ hρ
      exact absurd (spells_of_hasStatic hparse hm hfind hstatic) hx
    | field hobject => exact absurd (spells_of_object hparse hm hobject hbound) hx
    | call hcall => exact hcall
    | block hblock => exact absurd (spells_of_block hparse hm hblock hbound) hx
  -- the chain holds the frame of one call only
  obtain ⟨blocks, ground, hsplit, hblocks, hground⟩ := hscoped.layout.exists_ground hroles hscoped.current
  have hhead : ∀ g, IsCall p g → g ∈ m.registers.env.chain m.registers.env.current → ground.head? = some g := by
    intro g hcall hg
    rw [hsplit] at hg
    rcases List.mem_append.mp hg with hg | hg
    · exact absurd hcall ((hblocks g hg).not_isCall nofun)
    · cases ground with
      | nil => cases hg
      | cons g' rest =>
        rcases List.mem_cons.mp hg with rfl | hg
        · rfl
        · exact absurd hcall (hground.not_isCall_tail hscoped.layout hroles g hg)
  have heq := (hhead f ⟨k, object, hplays⟩ hf).symm.trans (hhead g hcall hg)
  cases heq
  exact hbound

/-- Both `this` and `super` hold the object, and they are declared with the class of the constructor and with its
superclass. -/
theorem Receives.delegate {env : Environment} {object : Class × FrameId} {who : Delegate} {id : VarId}
    (h : Receives env f k object) (hparams : superName ∉ k.callable.params.map Param.name)
    (hb : env.bound? f who.text = some (.var id)) :
    ∃ y, env.var? id = some y ∧ y.value = some (.object object.1 object.2) ∧
      (who = .this ∧ y.type = .named k.className ∨
        who = .super ∧ ∃ c s, env.findClass k.className = .ok c ∧ c.superclass? = some s ∧ y.type = .named s.name) := by
  cases who with
  | this =>
    obtain ⟨id', hbound, hy⟩ := h.this
    replace hbound : env.bound? f Delegate.this.text = some (.var id') := hbound
    rw [hb] at hbound
    cases hbound
    exact ⟨_, hy, rfl, .inl ⟨rfl, rfl⟩⟩
  | super =>
    rcases h.only superName _ hb with hx | hx | ⟨-, c, s, hc, hs⟩
    · exact absurd hx (by decide)
    · exact absurd hx hparams
    · obtain ⟨id', hbound, hy⟩ := h.super c s hc hs
      replace hbound : env.bound? f Delegate.super.text = some (.var id') := hbound
      rw [hb] at hbound
      cases hbound
      exact ⟨_, hy, rfl, .inr ⟨rfl, c, s, hc, hs, rfl⟩⟩

end Receivers

/-! ### Chains of constructor calls -/

/-- The constructor `d` of the registered class `c` is invoked on the object next, with `K` behind on control. -/
structure Constructs (p : Program) (m : Machine) (c : Class) (d : ConstructorDecl) (object : Class × FrameId)
    (K : List Item) : Prop where
  invokes : Invokes p m ⟨.constructor d, c.frame, c.name⟩ object K
  registered : m.registers.env.findClass c.name = .ok c
  declared : d ∈ c.constructors

/-- The body of the constructor that is invoked at `m` begins with an explicit constructor call, and this comes to its
invocation at `m'`. -/
def Delegates (m m' : Machine) : Prop :=
  ∃ m₁ m₂ who args K, Next Natives.empty m m₁ ∧ Next Natives.empty m₁ m₂ ∧
    m₂.registers.control = .stmt (.construct who args) :: K ∧ Until Natives.empty (K.length + 2) m₂ m'

section Chains

variable {p : Program} {m m₁ m₂ m' : Machine} {source x : String} {c : Class} {d : ConstructorDecl} {f : FrameId}
  {object : Class × FrameId} {who : Delegate} {args : List Expr} {K K' : List Item}

/-- Every constructor that is invoked is one of a registered class. -/
theorem Invokes.constructs (h : Invokes p m ⟨.constructor d, f, x⟩ object K) :
    ∃ c : Class, f = c.frame ∧ x = c.name ∧ Constructs p m c d object K := by
  obtain ⟨n, hc, hcalls⟩ := h.2
  obtain ⟨roles, hscoped, -⟩ := exists_scoped h.1
  obtain ⟨_, args, rest, below, -, -, hstash, -⟩ := hcalls
  obtain ⟨g, y, hy⟩ := hscoped.closures ⟨.constructor d, f, x⟩ (by rw [show m.registers.stash = _ from hstash]; simp)
  obtain ⟨c, hrole, hframe, hname, -, hmem⟩ := hscoped.layout.closures g y _ hy
  obtain ⟨hg, -, hfind, -⟩ := hscoped.layout.lies g _ hrole
  replace hframe : f = g := hframe
  replace hname : x = c.name := hname
  subst hframe hname hg
  refine ⟨c, rfl, rfl, h, hfind, ?_⟩
  simpa [ClassInfo.callables] using hmem

/-- No parameter of a constructor is called `super`. -/
theorem Constructs.notMem_params (hparse : Program.parse source = .ok p) (h : Constructs p m c d object K) :
    superName ∉ d.params.map Param.name := by
  intro hmem
  obtain ⟨x, hx, hname⟩ := List.mem_map.mp hmem
  obtain ⟨-, decl, g, superclass, hdecl, rfl⟩ :=
    (Origins.visited (.inl h.invokes.1)).classes _ _ c (findClass_eq_ok.mp h.registered)
  obtain ⟨d₀, hd₀, rfl⟩ := List.mem_map.mp h.declared
  replace hx : x ∈ d₀.params := hx
  rcases hdecl with hdecl | rfl
  · have hspells := Program.parse_params hparse decl hdecl d₀ hd₀ x hx
    rw [hname] at hspells
    exact not_spells_super hspells
  · obtain rfl := List.mem_singleton.mp hd₀
    cases hx

/-- A class that has a superclass lies behind the lineage of it. -/
theorem ancestors_of_superclass? {c' : Class} {s : ClassInfo} (hm : Reached Natives.empty p m)
    (hc : m.registers.env.findClass c.name = .ok c) (hs : c.superclass? = some s)
    (hc' : m.registers.env.findClass s.name = .ok c') : c.ancestors = c'.lineage := by
  obtain ⟨roles, hscoped, -⟩ := exists_scoped hm
  obtain ⟨-, -, -, -, hnone | ⟨t, ht, hlineage⟩⟩ := hscoped.layout.lies _ _ (hscoped.layout.classes _ _ hc).2
  · rw [Class.superclass?, hnone] at hs
    cases hs
  · obtain ⟨-, -, hfind, -⟩ := hscoped.layout.lies _ _ ht
    rw [Class.superclass?, hlineage] at hs
    cases hs
    rw [hfind] at hc'
    cases hc'
    exact hlineage

/-- The explicit constructor call that a constructor begins with invokes a constructor of the same class, or one of
the superclass, on the same object. -/
theorem Constructs.delegation (hparse : Program.parse source = .ok p) (h : Constructs p m c d object K)
    (hnext : Next Natives.empty m m₁) (hnext₁ : Next Natives.empty m₁ m₂)
    (hc : m₂.registers.control = .stmt (.construct who args) :: K')
    (hu : Until Natives.empty (K'.length + 2) m₂ m') :
    ∃ c' d' items, (who = .this ∧ c' = c ∨ who = .super ∧ c.ancestors = c'.lineage) ∧ d' ∈ c'.constructors ∧
      m'.registers.env.findClass c'.name = .ok c' ∧ Reached Natives.empty p m' ∧
      m'.registers.control = .invoke (items.length + 1) :: .pop :: K' ∧ m'.registers.stash = items ++
        .value (.object object.1 object.2) :: .closure ⟨.constructor d', c'.frame, c'.name⟩ :: m₁.registers.stash := by
  have hm := h.invokes.1
  have hm₁ := hm.next hnext
  have hm₂ := hm₁.next hnext₁
  obtain ⟨hm', hlt, -⟩ := hu.steps hm₂
  obtain ⟨-, -, -, hcurrent, hsize, hreceives, hplays⟩ := h.invokes.next hnext
  have hr₂ := h.invokes.enters hnext hnext₁
  obtain ⟨id, y, v, c', d', items, hlookup, hy, hv, hfind, hd', hcontrol, hitems, hstash⟩ :=
    exists_delegation hparse hm₂ hc hu
  -- the statements of the body stand in a block inside the frame of the call
  have henv : m₂.registers.env = m₁.registers.env.extend m.registers.env.frames.size blockFrame :=
    congrArg Registers.env hr₂
  have hchain : m.registers.env.frames.size ∈ m₂.registers.env.chain m₂.registers.env.current := by
    rw [henv]
    show _ ∈ (m₁.registers.env.extend _ _).chain m₁.registers.env.frames.size
    rw [Environment.chain, outer_extend_new]
    exact .tail _ (.head _)
  have hreserved : ¬ Rule.identifier.Spells who.text.toList := by
    cases who with
    | this => exact not_spells_this
    | super => exact not_spells_super
  have hbound := bound?_of_lookup? hparse hm₂ hplays hchain hreserved hlookup
  rw [henv, bound?_extend] at hbound
  obtain ⟨y', hy', hv', hwho⟩ := hreceives.delegate (h.notMem_params hparse) hbound
  rw [henv, var?_extend, hy'] at hy
  cases hy
  rw [hv'] at hv
  cases hv
  obtain ⟨hname, -⟩ := (Origins.visited (.inl hm₂)).classes _ _ c' (findClass_eq_ok.mp hfind)
  rw [hname] at hfind
  refine ⟨c', d', items, ?_, hd', ?_, hm', hitems ▸ hcontrol, ?_⟩
  · have hregistered := hnext₁.grows.findClass (hnext.grows.findClass h.registered)
    rw [← hname] at hfind
    rcases hwho with ⟨hwho, htype⟩ | ⟨hwho, c₀, s, hc₀, hs, htype⟩
    · rw [htype] at hfind
      exact .inl ⟨hwho, Except.ok.inj (hfind.symm.trans hregistered)⟩
    · replace hc₀ := hnext₁.grows.findClass hc₀
      obtain rfl := Except.ok.inj (hc₀.symm.trans hregistered)
      rw [htype] at hfind
      exact .inr ⟨hwho, ancestors_of_superclass? hm₂ hc₀ hs hfind⟩
  · exact findClass_eq_ok.mpr ((preserves_of_steps hm₂ hm' (Nat.le_of_lt hlt)).bound _ _ _ (findClass_eq_ok.mp hfind))
  · rw [hstash, hr₂]

theorem Delegates.steps (h : Delegates m m') (hm : Reached Natives.empty p m) :
    Reached Natives.empty p m' ∧ m.steps < m'.steps := by
  obtain ⟨m₁, m₂, who, args, K, hnext, hnext₁, -, hu⟩ := h
  obtain ⟨hm', hlt, -⟩ := hu.steps ((hm.next hnext).next hnext₁)
  have hsteps := hnext.steps
  have hsteps₁ := hnext₁.steps
  exact ⟨hm', by omega⟩

/-- A constructor call delegates to one other at most. -/
theorem Delegates.unique (h : Delegates m m₁) (h' : Delegates m m₂) : m₁ = m₂ := by
  obtain ⟨a, b, who, args, K, hnext, hnext₁, hc, hu⟩ := h
  obtain ⟨a', b', who', args', K', hnext', hnext₁', hc', hu'⟩ := h'
  cases hnext.unique hnext'
  cases hnext₁.unique hnext₁'
  rw [hc] at hc'
  cases hc'
  exact hu.unique hu'

/-- Constructors are invoked on new objects by `new`, and on any object by the constructors that have been invoked on
it before. -/
theorem Constructs.origin (hparse : Program.parse source = .ok p) (h : Constructs p m c d object K) :
    (∃ m₀ x args, Reached Natives.empty p m₀ ∧ m₀.registers.control = .expr (.new x args) :: K ∧
      Until Natives.empty (K.length + 1) m₀ m ∧ m₀.registers.env.frames.size = object.2) ∨
    ∃ m₀ c₀ d₀ K₀, Constructs p m₀ c₀ d₀ object K₀ ∧ Delegates m₀ m := by
  obtain ⟨n, hc, hcalls⟩ := h.invokes.2
  obtain ⟨m₀, hm₀, hissues, hu⟩ := exists_issue_until h.invokes.1 hc
  cases hissues with
  | @new x args _ hc₀ =>
    obtain ⟨-, -, c', d', items, -, -, -, -, -, -, -, -, -, hcontrol, hitems, hstash⟩ :=
      exists_creation hparse hm₀ hc₀ hu
    obtain ⟨-, -, rfl⟩ := h.invokes.of_stash (hitems ▸ hcontrol) hstash rfl
    exact .inl ⟨m₀, x, args, hm₀, hc₀, hu, rfl⟩
  | call hc₀ =>
    obtain ⟨_, hmethod⟩ := method_of_call hparse hm₀ hc₀ hu hcalls hc
    cases hmethod
  | @construct who args K hc₀ =>
    -- an explicit constructor call has been reached from the invocation of a constructor
    have hcalm : ¬ Item.Calm (.stmt (.construct who args)) := fun hcalm => hcalm who args (.head _)
    have hfront : m₀.registers.control = [] ++ .stmt (.construct who args) :: K := hc₀
    obtain ⟨-, m₁, d₁, f₁, x₁, object₁, K₁, hinvokes, hnext | ⟨m₂, hnext, hnext₂⟩⟩ :=
      opening_of_not_calm hparse hm₀ hfront hcalm
    · obtain ⟨body, -, hc₁, -⟩ := hinvokes.next hnext
      rw [hc₀] at hc₁
      cases hc₁
    · obtain ⟨c₁, rfl, rfl, hconstructs⟩ := hinvokes.constructs
      obtain ⟨_, _, items, -, -, -, -, hcontrol, hstash⟩ := hconstructs.delegation hparse hnext hnext₂ hc₀ hu
      obtain ⟨-, -, rfl⟩ := h.invokes.of_stash hcontrol hstash rfl
      exact .inr ⟨m₁, c₁, d₁, K₁, hconstructs, m₂, m₀, who, args, K, hnext, hnext₂, hc₀, hu⟩

/-- Every object is made by one `new`, which invokes one constructor on it. -/
theorem invocation_of_new_unique {m₀ m₀' : Machine} {x' : String} {args' : List Expr}
    (hparse : Program.parse source = .ok p) (hm₀ : Reached Natives.empty p m₀) (hm₀' : Reached Natives.empty p m₀')
    (hc : m₀.registers.control = .expr (.new x args) :: K) (hc' : m₀'.registers.control = .expr (.new x' args') :: K')
    (hu : Until Natives.empty (K.length + 1) m₀ m) (hu' : Until Natives.empty (K'.length + 1) m₀' m')
    (hsize : m₀.registers.env.frames.size = m₀'.registers.env.frames.size) : m = m' := by
  obtain ⟨a, b, c, d, -, ha, -, hnext, hra, -, -, -, hrb, harrives, -⟩ := exists_creation hparse hm₀ hc hu
  obtain ⟨a', b', c', d', -, ha', -, hnext', hra', -, -, -, hrb', harrives', -⟩ := exists_creation hparse hm₀' hc' hu'
  -- the step that makes the object is the one after which the store has its frame
  have horder : ∀ {a b a' : Machine}, Reached Natives.empty p a → Next Natives.empty a b →
      Reached Natives.empty p a' → b.registers.env.frames.size = a'.registers.env.frames.size + 1 →
      a'.steps ≤ a.steps := by
    intro a b a' ha hnext ha' hsize
    by_contra hlt
    have hsteps := hnext.steps
    have hle := size_le_of_steps (ha.next hnext) ha' (by omega)
    omega
  have hle := horder ha hnext ha' (by rw [hrb, hra', size_instantiate, hsize])
  have hle' := horder ha' hnext' ha (by rw [hrb', hra, size_instantiate, hsize])
  obtain rfl := ha.eq_of_steps ha' (Nat.le_antisymm hle' hle)
  obtain rfl := hnext.unique hnext'
  have hcontrol := congrArg Registers.control (hrb.symm.trans hrb')
  have hnone : ∀ (es : List Expr) k, Item.invoke k ∉ es.map .expr := by simp
  obtain rfl : K = K' := by
    rcases invoke_of_append (hnone args') hcontrol.symm with hK | ⟨front, hfront⟩
    · exact hK
    · rcases invoke_of_append (hnone args) hcontrol with hK | ⟨front', hfront'⟩
      · exact hK.symm
      · have hlength := congrArg List.length hfront
        have hlength' := congrArg List.length hfront'
        simp only [List.length_append, List.length_cons] at hlength hlength'
        omega
  exact harrives.unique harrives'

/-- The constructors that are invoked on the object of a `new` come from one another, the first one from the `new`. -/
theorem Constructs.chain {m₀ : Machine} (hparse : Program.parse source = .ok p) (hm₀ : Reached Natives.empty p m₀)
    (hc : m₀.registers.control = .expr (.new x args) :: K) (hu : Until Natives.empty (K.length + 1) m₀ m)
    (h : Constructs p m' c d object K') (ho : object.2 = m₀.registers.env.frames.size) :
    Relation.ReflTransGen Delegates m m' := by
  induction hn : m'.steps using Nat.strongRecOn generalizing m' c d K' with
  | _ n ih =>
    rcases h.origin hparse with ⟨m₁, x', args', hm₁, hc₁, hu₁, hsize⟩ | ⟨m₁, c₁, d₁, K₁, hconstructs, hdelegates⟩
    · rw [invocation_of_new_unique hparse hm₀ hm₁ hc hc₁ hu hu₁ (ho.symm.trans hsize.symm)]
    · obtain ⟨-, hlt⟩ := hdelegates.steps hconstructs.invokes.1
      exact (ih _ (hn ▸ hlt) hconstructs rfl).tail hdelegates

end Chains

end StashMachine
