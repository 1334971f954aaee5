import Mathlib.Data.List.OfFn
import StashMachine.Proofs.Sequence

/-!
# StashMachine.Proofs.Initialisation — the fields of an object are set up once, from the root down

* `SetUp`: a machine of a run at which a constructor sets up a field next.
* `Initialised p o m m' c l`: the constructor call at `m`, which ends at `m'`, sets up the fields of the class `c` and
  of those above it on the object `o`, at the machines of the list.
* `OwnSetUps`, `exists_ownSetUps`: the part of one constructor; `Initialised.delegate`: the part of the constructor that
  it calls comes before.
* `exists_initialised`: every constructor call that comes to its end, by induction on its length.
* `fields_initialised`: what `new` does; `fields_initialised_elsewhere`: a constructor that sets up the fields of
  another object.
-/

namespace StashMachine

open Environment Step Machine

/-! ### Set-ups -/

/-- The fields of an object of the class, each with the class that declares it, from the root down. -/
def Class.setUpOrder (c : Class) : List (ClassInfo × TypeName × Declarator) :=
  c.lineage.reverse.flatMap (fun owner => (fieldVars owner.instanceFields).map (fun v => (owner, v)))

/-- A field that is set up: the constructor call that does so, the machine at which it does so next, the class and the
field. -/
structure SetUp where
  call : Machine
  machine : Machine
  owner : ClassInfo
  field : TypeName × Declarator

/-- In a run of the program, the constructor call is one on the object, and comes to the statement that sets up the
field. -/
def SetUp.Runs (p : Program) (o : FrameId) (e : SetUp) : Prop :=
  ∃ c cls d K i, Constructs p e.call c d (cls, o) K ∧ e.owner = c.toClassInfo ∧
    (setsUp (fieldVars c.instanceFields) d.body)[i]? = some e.field ∧ ComesTo e.call d K (lead d.body + i) e.machine

/-- In the constructor call on the object, the run comes to what is behind the set-up of the fields: the statements of
the source but for an explicit constructor call at its beginning, and the end of the body (`Constructs.drop_lead`). -/
def RunsOwn (p : Program) (o : FrameId) (call : Machine) (owner : ClassInfo) (m : Machine) : Prop :=
  ∃ c cls d K i, Constructs p call c d (cls, o) K ∧ owner = c.toClassInfo ∧
    lead d.body + (setsUp (fieldVars c.instanceFields) d.body).length ≤ i ∧ ComesTo call d K i m

/-- The object that the variable `this` holds. -/
def Machine.this? (m : Machine) : Option FrameId :=
  match m.registers.env.lookup? thisName with
  | some (.var id) =>
    match (m.registers.env.var? id).bind Variable.value with
    | some (.object _ o) => some o
    | _ => none
  | _ => none

/-- The constructor call at `m`, of the class on the object, ends at `m'`, and with the constructors it calls sets up
the fields at the machines of the list. -/
structure Initialised (p : Program) (o : FrameId) (m m' : Machine) (c : Class) (l : List SetUp) : Prop where
  each : l.map (fun e => (e.owner, e.field)) = c.setUpOrder
  runs : ∀ e ∈ l, e.Runs p o ∧ m.steps < e.machine.steps ∧ Over e.machine m'
  ordered : l.Pairwise (fun e e' => Over e.machine e'.machine)
  complete : ∀ e, e.Runs p o → Relation.ReflTransGen Delegates m e.call → e ∈ l
  before : ∀ call owner m₁, RunsOwn p o call owner m₁ → Relation.ReflTransGen Delegates m call → ∀ e ∈ l,
    e.owner = owner → Over e.machine m₁
  within : ∀ call c' d object K, Constructs p call c' d object K → Relation.ReflTransGen Delegates m call →
    c'.lineage.length ≤ c.lineage.length

section Lineage

variable {c c' : Class}

theorem Class.setUpOrder_of_ancestors (h : c.ancestors = c'.lineage) :
    c.setUpOrder = c'.setUpOrder ++ (fieldVars c.instanceFields).map (fun v => (c.toClassInfo, v)) := by
  rw [setUpOrder, lineage, h, List.reverse_cons, List.flatMap_append, List.flatMap_singleton]
  rfl

theorem Class.setUpOrder_of_root (h : c.superclass?.isSome = false) :
    c.setUpOrder = (fieldVars c.instanceFields).map (fun v => (c.toClassInfo, v)) := by
  have hnone : c.ancestors = [] := by
    rwa [superclass?, Option.isSome_eq_false_iff, Option.isNone_iff_eq_none, List.head?_eq_none_iff] at h
  rw [setUpOrder, lineage, hnone, List.reverse_singleton, List.flatMap_singleton]

end Lineage

/-! ### One constructor -/

section Constructor

variable {p : Program} {m m₀ m₁ m₂ m' : Machine} {source : String} {c c' : Class} {d d' : ConstructorDecl}
  {object object' : Class × FrameId} {K K' : List Item} {i j : Nat}

/-- The machine says which constructor is invoked. -/
theorem Constructs.unique (h : Constructs p m c d object K) (h' : Constructs p m c' d' object' K') :
    c = c' ∧ d = d' ∧ object = object' ∧ K = K' := by
  obtain ⟨n, hc, hcalls⟩ := h.invokes.2
  obtain ⟨n', hc', hcalls'⟩ := h'.invokes.2
  rw [hc] at hc'
  cases hc'
  obtain ⟨hclosure, hobject⟩ := hcalls.unique hcalls'
  have hname : c.name = c'.name := congrArg Closure.className hclosure
  have hregistered := h.registered
  rw [hname, h'.registered] at hregistered
  cases hregistered
  cases hclosure
  cases hobject
  exact ⟨rfl, rfl, rfl, rfl⟩

/-- Only a body that begins with an explicit constructor call delegates. -/
theorem Constructs.not_delegates (h : Constructs p m c d object K) (hnone : leadingCall? d.body = none) :
    ¬ Delegates m m₁ := by
  rintro ⟨a, b, who, args, K', hnext, hnext', hc, -⟩
  have hbody := congrArg Registers.control (h.invokes.enters hnext hnext')
  rw [hc] at hbody
  cases hd : d.body with
  | nil =>
    rw [hd] at hbody
    cases hbody
  | cons s rest =>
    rw [hd] at hbody
    cases hbody
    rw [hd] at hnone
    cases hnone

/-- Behind its explicit constructor call, a constructor sets up its fields, and then it goes on with its own statements
and returns. -/
theorem Constructs.drop_lead (hparse : Program.parse source = .ok p) (h : Constructs p m c d object K) :
    ∃ decl d₀ more, p.Declares decl ∧ decl.name = c.name ∧ d₀ ∈ decl.constructors ∧ (∀ s ∈ more, s = Stmt.retThis) ∧
      d.body.drop (lead d.body) = (setsUp (fieldVars c.instanceFields) d.body).map initStmt ++
        ((ConstructorDecl.ownStmts d₀.body).map ConstructorDecl.running ++ more) := by
  obtain ⟨-, decl, f, superclass, hdecl, rfl⟩ :=
    (Origins.visited (.inl h.invokes.1)).classes _ _ c (findClass_eq_ok.mp h.registered)
  obtain ⟨d₀, hd₀, rfl⟩ := List.mem_map.mp h.declared
  have hopens := (hdecl.calm hparse).constructors d₀ hd₀
  obtain ⟨more, hmore, hprologue⟩ := ConstructorDecl.prologue_elaborate hopens
  exact ⟨decl, d₀, more, hdecl, rfl, hd₀, hmore, hprologue.drop_lead (ConstructorDecl.calm_rest hopens hmore)⟩

theorem Constructs.getElem?_body {v : TypeName × Declarator} (hparse : Program.parse source = .ok p)
    (h : Constructs p m c d object K) (hv : (setsUp (fieldVars c.instanceFields) d.body)[i]? = some v) :
    d.body[lead d.body + i]? = some (initStmt v) := by
  obtain ⟨decl, d₀, more, -, -, -, -, hdrop⟩ := h.drop_lead hparse
  obtain ⟨hi, -⟩ := List.getElem?_eq_some_iff.mp hv
  rw [← List.getElem?_drop, hdrop, List.getElem?_append_left (by rwa [List.length_map]), List.getElem?_map, hv]
  rfl

theorem ComesTo.steps_le (h : ComesTo m d K i m₁) (h' : ComesTo m d K j m₂) (hle : i ≤ j)
    (hm : Reached Natives.empty p m) : m₁.steps ≤ m₂.steps := by
  obtain ⟨a, hnext, hu, -⟩ := h
  obtain ⟨b, hnext', hu', -⟩ := h'
  cases hnext.unique hnext'
  have hlength : (itemsFrom m d K j).length ≤ (itemsFrom m d K i).length := by
    rw [length_itemsFrom, length_itemsFrom]
    omega
  obtain ⟨b, hub, harrives⟩ := hu'.split hlength
  cases hu.unique hub
  exact (harrives.steps (hu.steps (hm.next hnext)).1).2.1

/-- A statement of a call is over when the call has come to its end. -/
theorem ComesTo.over_end (h : ComesTo m d K i m₁) (hm : Reached Natives.empty p m)
    (hu : Until Natives.empty K.length m₁ m') : Over m₁ m' := by
  obtain ⟨hm₁, -⟩ := h.steps hm
  obtain ⟨a, -, -, hc⟩ := h
  have hheight : m₁.height = (itemsFrom m d K i).length := congrArg List.length hc
  rw [length_itemsFrom] at hheight
  obtain ⟨m₂, hu₂, harrives⟩ := hu.split (show K.length ≤ m₁.height - 1 by omega)
  exact ⟨m₂, hu₂, (harrives.steps (hu₂.steps hm₁).1).2.1⟩

/-- In a call that comes to its end, the run comes to each set-up of a field. -/
theorem Constructs.comesTo (hparse : Program.parse source = .ok p) (h : Constructs p m c d object K)
    (hcomes : ComesTo m d K (lead d.body) m₀) (hu : Until Natives.empty K.length m₀ m')
    (hi : i ≤ (setsUp (fieldVars c.instanceFields) d.body).length) :
    ∃ m₁, ComesTo m d K (lead d.body + i) m₁ ∧ Until Natives.empty K.length m₁ m' := by
  induction i with
  | zero => exact ⟨m₀, hcomes, hu⟩
  | succ i ih =>
    obtain ⟨m₁, hcomes₁, hu₁⟩ := ih (Nat.le_of_succ_le hi)
    exact hcomes₁.effect h.invokes.1 (h.getElem?_body hparse (List.getElem?_eq_getElem hi)) hu₁

theorem unwind_itemsFrom : unwind .ret (itemsFrom m d K i) = .ok (.restore m.registers.env.current :: K) := by
  have hstmts : .marker .ret ∉ (d.body.drop i).map Item.stmt := by
    intro hmem
    obtain ⟨s, -, hs⟩ := List.mem_map.mp hmem
    cases hs
  rw [itemsFrom, unwind_ret_append hstmts]
  rfl

/-- Where a statement of the body is next, `this` holds the receiver of the call, unless a step has stored something
else in it. -/
theorem Constructs.this (hparse : Program.parse source = .ok p) (h : Constructs p m c d object K)
    (hcomes : ComesTo m d K i m₁) (hi : i < d.body.length) (hkept : ¬ ThisRewritten p m m₁) :
    m₁.this? = some object.2 := by
  have hm := h.invokes.1
  obtain ⟨a, hnext, hu, hc₁⟩ := hcomes
  have ha := hm.next hnext
  obtain ⟨body, hbody, hc, hcurrent, -, hreceives, hplays⟩ := h.invokes.next hnext
  cases hbody
  obtain ⟨hm₁, hlt, -, hbetween⟩ := hu.steps ha
  have hactive : Active (.block d.body) m.registers.env.frames.size m.registers.env.current K m₁ := by
    refine (active_of_enters hc hcurrent).between ha hm₁ (Nat.le_of_lt hlt) (fun m₂ hm₂ hgt hle => ?_)
    rcases Nat.eq_or_lt_of_le hle with heq | hlt₂
    · rw [hm₂.eq_of_steps hm₁ heq, height, hc₁, length_itemsFrom]
      omega
    · have hhigh := hbetween m₂ hm₂ hgt hlt₂
      rw [length_itemsFrom] at hhigh
      omega
  have hf : m.registers.env.frames.size ∈ m₁.registers.env.chain m₁.registers.env.current :=
    hactive.current _ _ (hc₁.trans (itemsFrom_eq_cons (List.getElem?_eq_getElem hi))) rfl unwind_itemsFrom
  obtain ⟨id, hbound, hv⟩ := hreceives.this
  have hv₁ := var?_of_not_rewritten ha hm₁ (Nat.le_of_lt hlt) hv (fun hr => hkept ⟨a, id, hnext, hbound, hr⟩)
  have hbound₁ := (preserves_of_steps ha hm₁ (Nat.le_of_lt hlt)).bound _ _ _ hbound
  rw [this?, lookup?_of_call hparse hm₁ hplays hf not_spells_this hbound₁]
  simp only [hv₁, Option.bind_some]

end Constructor

/-! ### The set-ups of one constructor -/

/-- The constructor call at `m` sets up the fields of its class at the machines of the list, from `m₀` on. -/
structure OwnSetUps (p : Program) (o : FrameId) (m m₀ m' : Machine) (c : Class) (d : ConstructorDecl)
    (l : List SetUp) : Prop where
  each : l.map (fun e => (e.owner, e.field)) =
    (setsUp (fieldVars c.instanceFields) d.body).map (fun v => (c.toClassInfo, v))
  runs : ∀ e ∈ l, e.Runs p o ∧ m₀.steps ≤ e.machine.steps ∧ Over e.machine m'
  ordered : l.Pairwise (fun e e' => Over e.machine e'.machine)
  complete : ∀ e, e.Runs p o → e.call = m → e ∈ l
  before : ∀ owner m₁, RunsOwn p o m owner m₁ → ∀ e ∈ l, Over e.machine m₁

section SetUps

variable {p : Program} {m m₀ m₁ m' : Machine} {source : String} {c : Class} {cls : Class} {d : ConstructorDecl}
  {o : FrameId} {K : List Item} {e : SetUp}

/-- Where a field is set up, the statement that does so is next. -/
theorem SetUp.Runs.control (hparse : Program.parse source = .ok p) (h : e.Runs p o) :
    ∃ R, e.machine.registers.control = .stmt (initStmt e.field) :: R := by
  obtain ⟨c, cls, d, K, i, hconstructs, -, hv, a, -, -, hc⟩ := h
  exact ⟨_, hc.trans (itemsFrom_eq_cons (hconstructs.getElem?_body hparse hv))⟩

/-- Where a field is set up, `this` holds the object, unless a step has stored something else in it. -/
theorem SetUp.Runs.this (hparse : Program.parse source = .ok p) (h : e.Runs p o) :
    e.machine.this? = some o ∨ ThisRewritten p e.call e.machine := by
  by_cases hkept : ThisRewritten p e.call e.machine
  · exact .inr hkept
  · obtain ⟨c, cls, d, K, i, hconstructs, -, hv, hcomes⟩ := h
    obtain ⟨hi, -⟩ := List.getElem?_eq_some_iff.mp (hconstructs.getElem?_body hparse hv)
    exact .inl (hconstructs.this hparse hcomes hi hkept)

/-- A call that comes to its end sets up the fields of its class one after the other, unless it calls another
constructor of the class. -/
theorem exists_ownSetUps (hparse : Program.parse source = .ok p) (h : Constructs p m c d (cls, o) K)
    (hcomes : ComesTo m d K (lead d.body) m₀) (hu : Until Natives.empty K.length m₀ m') :
    ∃ l, OwnSetUps p o m m₀ m' c d l := by
  have hm := h.invokes.1
  have heach (i : Fin (setsUp (fieldVars c.instanceFields) d.body).length) :
      ∃ m₁, ComesTo m d K (lead d.body + i) m₁ ∧ Until Natives.empty K.length m₁ m' :=
    h.comesTo hparse hcomes hu (Nat.le_of_lt i.2)
  choose stop hstop using heach
  have hlt (i : Fin (setsUp (fieldVars c.instanceFields) d.body).length) : lead d.body + i < d.body.length :=
    (List.getElem?_eq_some_iff.mp (h.getElem?_body hparse (List.getElem?_eq_getElem i.2))).1
  refine ⟨List.ofFn (fun i => ⟨m, stop i, c.toClassInfo, (setsUp (fieldVars c.instanceFields) d.body)[i]⟩), ?_, ?_, ?_,
    ?_, ?_⟩
  · rw [List.map_ofFn]
    exact List.ofFn_getElem_eq_map _ (fun v => (c.toClassInfo, v))
  · intro e he
    obtain ⟨i, rfl⟩ := List.mem_ofFn.mp he
    exact ⟨⟨c, cls, d, K, i, h, rfl, List.getElem?_eq_getElem i.2, (hstop i).1⟩,
      hcomes.steps_le (hstop i).1 (Nat.le_add_right _ _) hm, (hstop i).1.over_end hm (hstop i).2⟩
  · rw [List.pairwise_ofFn]
    intro i j hij
    exact (hstop i).1.over (hstop j).1 (Nat.add_lt_add_left hij _) (hlt i) hm
  · rintro ⟨call, m₁, owner, v⟩ ⟨c', cls', d', K', i, h', howner, hv, hcomes'⟩ hcall
    cases hcall
    obtain ⟨rfl, rfl, -, rfl⟩ := h.unique h'
    cases howner
    obtain ⟨hi, rfl⟩ := List.getElem?_eq_some_iff.mp hv
    refine List.mem_ofFn.mpr ⟨⟨i, hi⟩, ?_⟩
    have hmachine : m₁ = stop ⟨i, hi⟩ := hcomes'.unique (hstop ⟨i, hi⟩).1
    rw [hmachine]
    rfl
  · rintro owner m₁ ⟨c', cls', d', K', j, h', -, hj, hcomes'⟩ e he
    obtain ⟨rfl, rfl, -, rfl⟩ := h.unique h'
    obtain ⟨i, rfl⟩ := List.mem_ofFn.mp he
    exact (hstop i).1.over hcomes' (by have hi := i.2; omega) (hlt i) hm

end SetUps

/-! ### Constructors that call one another -/

section Calls

variable {p : Program} {m m₀ m₃ m₄ m' : Machine} {c c' cls : Class} {d : ConstructorDecl}
  {o : FrameId} {K : List Item} {l : List SetUp}

/-- A constructor of the root sets up the fields of the root. -/
theorem OwnSetUps.initialised (hown : OwnSetUps p o m m₀ m' c d l) (h : Constructs p m c d (cls, o) K)
    (hcomes : ComesTo m d K (lead d.body) m₀) (hnone : leadingCall? d.body = none)
    (hroot : c.superclass?.isSome = false) : Initialised p o m m' c l := by
  obtain ⟨-, hlt⟩ := hcomes.steps h.invokes.1
  have hcall (call : Machine) (hchain : Relation.ReflTransGen Delegates m call) : call = m := by
    rcases hchain.cases_head with heq | ⟨m₁, hdelegates, -⟩
    · exact heq.symm
    · exact absurd hdelegates (h.not_delegates hnone)
  refine ⟨?_, fun e he => ?_, hown.ordered, fun e hruns hchain => hown.complete e hruns (hcall _ hchain), ?_, ?_⟩
  · rw [hown.each, Class.setUpOrder_of_root hroot, setsUp, if_neg (by simp [hnone])]
  · obtain ⟨hruns, hle, hover⟩ := hown.runs e he
    exact ⟨hruns, Nat.lt_of_lt_of_le hlt hle, hover⟩
  · intro call owner m₁ hrunsOwn hchain e he _
    obtain rfl := hcall call hchain
    exact hown.before owner m₁ hrunsOwn e he
  · intro call c₁ d₁ object K₁ h₁ hchain
    obtain rfl := hcall call hchain
    obtain ⟨rfl, -⟩ := h.unique h₁
    exact Nat.le_refl _

theorem steps_le_of_chain (hm : Reached Natives.empty p m) (h : Relation.ReflTransGen Delegates m m') :
    Reached Natives.empty p m' ∧ m.steps ≤ m'.steps := by
  induction h with
  | refl => exact ⟨hm, Nat.le_refl _⟩
  | tail _ hdelegates ih =>
    obtain ⟨hm₁, hle⟩ := ih
    obtain ⟨hm₂, hlt⟩ := hdelegates.steps hm₁
    exact ⟨hm₂, Nat.le_trans hle (Nat.le_of_lt hlt)⟩

/-- What a constructor of the superclass leads to are no constructors of the class. -/
theorem Initialised.toClassInfo_ne {call : Machine} {c₁ : Class} {d₁ : ConstructorDecl} {object : Class × FrameId}
    {K₁ : List Item} (hcalls : Initialised p o m₃ m₄ c' l) (h : Constructs p m c d (cls, o) K)
    (hdelegates : Delegates m m₃) (hancestors : c.ancestors = c'.lineage) (h₁ : Constructs p call c₁ d₁ object K₁)
    (hchain : Relation.ReflTransGen Delegates m₃ call) : c.toClassInfo ≠ c₁.toClassInfo := by
  intro heq
  obtain ⟨hm₃, hlt⟩ := hdelegates.steps h.invokes.1
  obtain ⟨hm₁, hle⟩ := steps_le_of_chain hm₃ hchain
  have hbound := (preserves_of_steps h.invokes.1 hm₁ (by omega)).bound _ _ _ (findClass_eq_ok.mp h.registered)
  have hname : c.name = c₁.name := congrArg ClassInfo.name heq
  rw [hname] at hbound
  have hregistered := (findClass_eq_ok.mpr hbound).symm.trans h₁.registered
  cases hregistered
  have hlength := hcalls.within call c d₁ object K₁ h₁ hchain
  rw [Class.lineage, hancestors, List.length_cons] at hlength
  omega

/-- A constructor that calls another one first sets up its fields, if it does so, when the other one has come to its
end. -/
theorem Initialised.delegate (hcalls : Initialised p o m₃ m₄ c' l) (hown : OwnSetUps p o m m₀ m' c d l')
    (h : Constructs p m c d (cls, o) K) (hcomes : ComesTo m d K (lead d.body) m₀)
    (hlead : leadingCall? d.body = some who) (hdelegates : Delegates m m₃)
    (hclass : who = .this ∧ c' = c ∨ who = .super ∧ c.ancestors = c'.lineage) (hle : m₄.steps ≤ m₀.steps)
    (hend : m₀.steps ≤ m'.steps) : Initialised p o m m' c (l ++ l') := by
  have hm := h.invokes.1
  obtain ⟨hm₃, hlt₃⟩ := hdelegates.steps hm
  obtain ⟨-, hlt₀⟩ := hcomes.steps hm
  have hcases (call : Machine) (hchain : Relation.ReflTransGen Delegates m call) :
      call = m ∨ Relation.ReflTransGen Delegates m₃ call := by
    rcases hchain.cases_head with heq | ⟨m₁, hfirst, hrest⟩
    · exact .inl heq.symm
    · rw [hfirst.unique hdelegates] at hrest
      exact .inr hrest
  refine ⟨?_, fun e he => ?_, ?_, fun e hruns hchain => ?_, fun call owner m₁ hrunsOwn hchain e he howner => ?_,
    fun call c₁ d₁ object K₁ h₁ hchain => ?_⟩
  · rw [List.map_append, hcalls.each, hown.each]
    rcases hclass with ⟨rfl, rfl⟩ | ⟨rfl, hancestors⟩
    · rw [setsUp, if_pos hlead]
      exact List.append_nil _
    · rw [setsUp, if_neg (by simp [hlead]), Class.setUpOrder_of_ancestors hancestors]
  · rcases List.mem_append.mp he with he | he
    · obtain ⟨hruns, hlt, hover⟩ := hcalls.runs e he
      exact ⟨hruns, Nat.lt_trans hlt₃ hlt, hover.mono (Nat.le_trans hle hend)⟩
    · obtain ⟨hruns, hge, hover⟩ := hown.runs e he
      exact ⟨hruns, Nat.lt_of_lt_of_le hlt₀ hge, hover⟩
  · refine List.pairwise_append.mpr ⟨hcalls.ordered, hown.ordered, fun e he e' he' => ?_⟩
    exact (hcalls.runs e he).2.2.mono (Nat.le_trans hle (hown.runs e' he').2.1)
  · rcases hcases _ hchain with hcall | hchain
    · exact List.mem_append_right _ (hown.complete e hruns hcall)
    · exact List.mem_append_left _ (hcalls.complete e hruns hchain)
  · rcases hcases _ hchain with rfl | hchain
    · rcases List.mem_append.mp he with he | he
      · -- the constructor goes on only when the one it calls has come to its end
        obtain ⟨c₁, cls₁, d₁, K₁, i, h₁, -, hi, hcomes₁⟩ := hrunsOwn
        obtain ⟨rfl, rfl, -, rfl⟩ := h.unique h₁
        have hle₁ := hcomes.steps_le hcomes₁ (Nat.le_of_add_right_le hi) hm
        exact (hcalls.runs e he).2.2.mono (Nat.le_trans hle hle₁)
      · exact hown.before owner m₁ hrunsOwn e he
    · rcases List.mem_append.mp he with he | he
      · exact hcalls.before call owner m₁ hrunsOwn hchain e he howner
      · obtain ⟨c₁, cls₁, d₁, K₁, i, h₁, hc₁, -⟩ := hrunsOwn
        have hmem : (e.owner, e.field) ∈ l'.map (fun e => (e.owner, e.field)) := List.mem_map_of_mem he
        rw [hown.each] at hmem
        obtain ⟨v, hv, heq⟩ := List.mem_map.mp hmem
        rcases hclass with ⟨rfl, -⟩ | ⟨-, hancestors⟩
        · rw [setsUp, if_pos hlead] at hv
          cases hv
        · have howner₁ : c.toClassInfo = c₁.toClassInfo := (Prod.mk.inj heq).1.trans (howner.trans hc₁)
          exact absurd howner₁ (hcalls.toClassInfo_ne h hdelegates hancestors h₁ hchain)
  · rcases hcases _ hchain with rfl | hchain
    · obtain ⟨rfl, -⟩ := h.unique h₁
      exact Nat.le_refl _
    · refine Nat.le_trans (hcalls.within call c₁ d₁ object K₁ h₁ hchain) ?_
      rcases hclass with ⟨-, rfl⟩ | ⟨-, hancestors⟩
      · exact Nat.le_refl _
      · rw [← hancestors]
        exact Nat.le_succ _

/-- A constructor call that comes to its end sets up the fields of its class and of those above it. -/
theorem exists_initialised (hparse : Program.parse source = .ok p) (h : Constructs p m c d (cls, o) K)
    (hu : Until Natives.empty K.length m m') : ∃ l, Initialised p o m m' c l := by
  induction hn : m'.steps - m.steps using Nat.strongRecOn generalizing m m' c d K with
  | _ n ih =>
    have hm := h.invokes.1
    obtain ⟨hm', hlt, -⟩ := hu.steps hm
    cases hlead : leadingCall? d.body with
    | none =>
      obtain ⟨rest, -, hprologue⟩ := prologue_of_findClass hparse hm h.registered h.declared
      obtain ⟨m₁, m₂, -, -, hcomes, hu₂⟩ := h.enters hu
      have hzero : lead d.body = 0 := by rw [lead, hlead]; rfl
      rw [← hzero] at hcomes
      obtain ⟨l, hown⟩ := exists_ownSetUps hparse h hcomes hu₂
      exact ⟨l, hown.initialised h hcomes hlead (hprologue.isRoot hlead)⟩
    | some who =>
      obtain ⟨args, rest, hbody⟩ := leadingCall?_eq_some.mp hlead
      have hs : d.body[0]? = some (Stmt.construct who args) := by rw [hbody]; rfl
      obtain ⟨m₃, c', d', m₄, m₅, hdelegates, h₃, hclass, hu₃, hlt₄, hcomes, hu₅⟩ := h.calls hparse hs hu
      obtain ⟨hm₃, hlt₃⟩ := hdelegates.steps hm
      obtain ⟨-, hlt₅, -⟩ := hu₅.steps (hcomes.steps hm).1
      obtain ⟨l, hcalls⟩ := ih (m₄.steps - m₃.steps) (by omega) h₃ hu₃ rfl
      have hone : lead d.body = 1 := by rw [lead, hlead]; rfl
      rw [← hone] at hcomes
      obtain ⟨l', hown⟩ := exists_ownSetUps hparse h hcomes hu₅
      exact ⟨l ++ l', hcalls.delegate hown h hcomes hlead hdelegates hclass (Nat.le_of_lt hlt₄) (Nat.le_of_lt hlt₅)⟩

end Calls

/-! ### What `new` sets up -/

section New

variable {p : Program} {m m' : Machine} {source x : String} {args : List Expr} {K : List Item}

/-- A `new` that comes to its end has set up each field of its object once: those of the root first, those of one class
in the order of declaration, and all of a class before anything else in the constructors of the class.  Each of these
statements finds the object in `this`, unless a step has stored something else there. -/
theorem fields_initialised (hparse : Program.parse source = .ok p) (hm : Reached Natives.empty p m)
    (hc : m.registers.control = .expr (.new x args) :: K) (hu : Until Natives.empty K.length m m') :
    ∃ m₁ m₂ control c o, ∃ l : List SetUp, Reached Natives.empty p m₁ ∧ m.steps < m₁.steps ∧
      m₁.registers.control = .new x :: control ∧ Next Natives.empty m₁ m₂ ∧
      m₂.registers.stash = .value (.object c o) :: m₁.registers.stash ∧
      m.registers.env.findClass x = .ok c ∧ o = m.registers.env.frames.size ∧
      l.map (fun e => (e.owner, e.field)) = c.setUpOrder ∧
      (∀ e ∈ l, e.Runs p o ∧ m₂.steps ≤ e.machine.steps ∧ Over e.machine m' ∧
        (∃ R, e.machine.registers.control = .stmt (initStmt e.field) :: R) ∧
        (e.machine.this? = some o ∨ ThisRewritten p e.call e.machine)) ∧
      l.Pairwise (fun e e' => Over e.machine e'.machine) ∧
      (∀ e : SetUp, e.Runs p o → e ∈ l) ∧
      (∀ (e : SetUp) o', e.Runs p o' → e.machine.this? = some o → e ∈ l ∨ ThisRewritten p e.call e.machine) ∧
      ∀ call owner m₃, RunsOwn p o call owner m₃ → ∀ e ∈ l, e.owner = owner → Over e.machine m₃ := by
  obtain ⟨m₃, hu₃, ha₃⟩ := hu.split (Nat.le_succ K.length)
  obtain ⟨hm₃, -⟩ := hu₃.steps hm
  obtain ⟨m₁, m₂, c, d, items, hm₁, hlt₁, hnext₁, hr₁, hfind, hname, hd, hr₂, ha₂, hc₃, hitems, hstash₃⟩ :=
    exists_creation hparse hm hc hu₃
  obtain ⟨-, hle₂, -⟩ := ha₂.steps (hm₁.next hnext₁)
  -- the constructor that is invoked on the object comes to its end
  have hu' := ha₃.until (by rw [height, hc₃]; exact Nat.lt_succ_self _)
  obtain ⟨m₄, hnext₃, -⟩ := hu'.exists_next
  obtain ⟨hinvokes, -⟩ := invokes_of_next hm₃ hc₃ hitems hstash₃ rfl hnext₃
  have hregistered : m₃.registers.env.findClass c.name = .ok c := by
    rw [hname]
    have hkept := preserves_of_steps hm hm₃ (Nat.le_of_lt (hu₃.steps hm).2.1)
    exact findClass_eq_ok.mpr (hkept.bound _ _ _ (findClass_eq_ok.mp hfind))
  have hconstructs : Constructs p m₃ c d (c, m.registers.env.frames.size) K := ⟨hinvokes, hregistered, hd⟩
  obtain ⟨l, hl⟩ := exists_initialised hparse hconstructs hu'
  -- every constructor that is invoked on the object comes from this one
  have hcomplete : ∀ e : SetUp, e.Runs p m.registers.env.frames.size → e ∈ l := by
    intro e hruns
    obtain ⟨c', cls, d', K', i, hconstructs', -⟩ := id hruns
    exact hl.complete e hruns (hconstructs'.chain hparse hm hc hu₃ rfl)
  refine ⟨m₁, m₂, _, c, _, l, hm₁, hlt₁, by rw [hr₁], hnext₁, by rw [hr₁, hr₂], hfind, rfl, hl.each, ?_, hl.ordered,
    hcomplete, ?_, ?_⟩
  · intro e he
    obtain ⟨hruns, hlt, hover⟩ := hl.runs e he
    exact ⟨hruns, Nat.le_trans hle₂ (Nat.le_of_lt hlt), hover, hruns.control hparse, hruns.this hparse⟩
  · intro e o' hruns hthis
    rcases hruns.this hparse with hthis' | hrewritten
    · rw [hthis] at hthis'
      cases hthis'
      exact .inl (hcomplete e hruns)
    · exact .inr hrewritten
  · intro call owner m₄ hrunsOwn e he howner
    obtain ⟨c', cls, d', K', i, hconstructs', -⟩ := id hrunsOwn
    exact hl.before call owner m₄ hrunsOwn (hconstructs'.chain hparse hm hc hu₃ rfl) e he howner

/-- A source with a class whose constructors call one another and one of the superclass. -/
def delegatingSource : String :=
  "class Z \x7b int z = 1; Z(int n) \x7b \x7d \x7d class A extends Z \x7b int x, y = 2; A() \x7b this(3); \x7d "
    ++ "A(int n) \x7b super(n); y = n; \x7d \x7d "
    ++ "class M \x7b public static void main(String[] a) \x7b new A(); \x7d \x7d"

/-- The names of the fields of an object of the class `A`, with those of their classes. -/
def setUpNames (m : Machine) : List (String × String) :=
  match m.registers.env.findClass "A" with
  | .ok c => c.setUpOrder.map (fun v => (v.1.name, v.2.2.name))
  | .error _ => []

theorem setUpNames_eq {c : Class} (h : m.registers.env.findClass "A" = .ok c) :
    setUpNames m = c.setUpOrder.map (fun v => (v.1.name, v.2.2.name)) := by
  rw [setUpNames, h]

/-- The field of the superclass comes first, and the fields of the class are set up by one of its two constructors. -/
theorem fields_initialised_delegated : ∃ p m args K m', ∃ l : List SetUp, Program.parse delegatingSource = .ok p ∧
    Reached Natives.empty p m ∧ m.registers.control = .expr (.new "A" args) :: K ∧
    Until Natives.empty K.length m m' ∧
    l.map (fun e => (e.owner.name, e.field.2.name)) = [("Z", "z"), ("A", "x"), ("A", "y")] ∧
    l.Pairwise (fun e e' => Over e.machine e'.machine) ∧
    ∀ e : SetUp, e.Runs p m.registers.env.frames.size ↔ e ∈ l := by
  have hrun : (created? delegatingSource 25 91).any (fun run =>
      setUpNames run.1 == [("Z", "z"), ("A", "x"), ("A", "y")]) = true := by
    rw [created?, sample?_eq_parseDecoded?]
    decide +kernel
  obtain ⟨⟨m, args, K, m'⟩, hcreated, hnames⟩ := (Option.any_eq_true _ _).mp hrun
  replace hnames : setUpNames m = [("Z", "z"), ("A", "x"), ("A", "y")] := beq_iff_eq.mp hnames
  obtain ⟨p, hp, hm, hc, hu⟩ := exists_of_created? hcreated
  obtain ⟨m₁, m₂, control, c, o, l, -, -, -, -, -, hfind, rfl, heach, hruns, hordered, hcomplete, -⟩ :=
    fields_initialised hp hm hc hu
  refine ⟨p, m, args, K, m', l, hp, hm, hc, hu, ?_, hordered, fun e => ⟨hcomplete e, fun he => (hruns e he).1⟩⟩
  rw [← hnames, setUpNames_eq hfind, ← heach, List.map_map]
  rfl

/-! ### A receiver that changes -/

/-- A source with a constructor that stores another object in `this`. -/
def capturingSource : String :=
  "class Z \x7b Z(Z z) \x7b \x7d \x7d class A extends Z \x7b int g = 5; A() \x7b super(null); \x7d "
    ++ "A(A a) \x7b super(this = a); \x7d \x7d "
    ++ "class M \x7b public static void main(String[] a) \x7b new A(new A()); \x7d \x7d"

/-- Whether the set-up of the field `x` is next, with the object in `this`. -/
def setsUpNext (x : String) (o : FrameId) (m : Machine) : Bool :=
  match m.registers.control with
  | .stmt (.expr (.assign (.field (.simple "this") y) _)) :: _ => y == x && m.this? == some o
  | _ => false

/-- Whether no machine of the next steps is bad. -/
def Machine.avoids (bad : Machine → Bool) : Nat → Machine → Bool
  | 0, m => !bad m
  | n + 1, m => !bad m && (m.after? Natives.empty 1).all (avoids bad n)

theorem Machine.not_of_avoids {bad : Machine → Bool} {n k : Nat} (h : avoids bad n m) (hk : k ≤ n)
    (hrun : evaluate Natives.empty k m = .ok () m') : bad m' = false := by
  induction n generalizing m k with
  | zero =>
    obtain rfl := Nat.le_zero.mp hk
    cases hrun
    rwa [avoids, Bool.not_eq_true'] at h
  | succ n ih =>
    rw [avoids, Bool.and_eq_true, Bool.not_eq_true'] at h
    obtain ⟨hbad, hrest⟩ := h
    cases k with
    | zero =>
      cases hrun
      exact hbad
    | succ k =>
      rw [evaluate_succ] at hrun
      split at hrun
      · rename_i m₁ hone
        rw [after?_eq_some.mpr hone] at hrest
        exact ih hrest (Nat.le_of_succ_le_succ hk) hrun
      · cases hrun

/-- A `new` that comes to its end, and nowhere on the way is the field `g` set up in the object that it makes. -/
theorem fields_initialised_elsewhere : ∃ p m args K m' c owner v, Program.parse capturingSource = .ok p ∧
    Reached Natives.empty p m ∧ m.registers.control = .expr (.new "A" args) :: K ∧
    Until Natives.empty K.length m m' ∧ m.registers.env.findClass "A" = .ok c ∧ (owner, v) ∈ c.setUpOrder ∧
    ∀ m₁ R, Reached Natives.empty p m₁ → m.steps ≤ m₁.steps → m₁.steps ≤ m'.steps →
      m₁.registers.control = .stmt (initStmt v) :: R → m₁.this? ≠ some m.registers.env.frames.size := by
  have hrun : (created? capturingSource 25 104).any (fun run => setUpNames run.1 == [("A", "g")] &&
      run.1.avoids (setsUpNext "g" run.1.registers.env.frames.size) 104 && run.2.2.2.steps == run.1.steps + 104) =
      true := by
    rw [created?, sample?_eq_parseDecoded?]
    decide +kernel
  obtain ⟨⟨m, args, K, m'⟩, hcreated, hall⟩ := (Option.any_eq_true _ _).mp hrun
  rw [Bool.and_eq_true, Bool.and_eq_true, beq_iff_eq, beq_iff_eq] at hall
  obtain ⟨⟨hnames, havoids⟩, hsteps⟩ := hall
  replace hsteps : m'.steps = m.steps + 104 := hsteps
  obtain ⟨p, hp, hm, hc, hu⟩ := exists_of_created? hcreated
  cases hfind : m.registers.env.findClass "A" with
  | error e =>
    rw [setUpNames, hfind] at hnames
    cases hnames
  | ok c =>
    rw [setUpNames_eq hfind] at hnames
    obtain ⟨⟨owner, v⟩, hv, hname⟩ := List.mem_map.mp (hnames ▸ List.mem_singleton_self ("A", "g"))
    refine ⟨p, m, args, K, m', c, owner, v, hp, hm, hc, hu, hfind, hv, fun m₁ R hm₁ hge hle hc₁ hthis => ?_⟩
    have hquiet := not_of_avoids havoids (by omega) (hm.run hm₁ hge)
    have hg : v.2.name = "g" := (Prod.mk.inj hname).2
    simp [setsUpNext, hc₁, initStmt, thisName, hg, hthis] at hquiet

end New

end StashMachine
