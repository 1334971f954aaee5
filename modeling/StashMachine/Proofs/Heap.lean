import StashMachine.Proofs.Parsed
import StashMachine.Proofs.Scopes

/-!
# StashMachine.Proofs.Heap — classes, objects and closures stay where they belong

* `Origins p r`: classes come from the declarations of the program.
* `Superclasses env c l`: the registered classes that one comes to from `c`, from superclass to superclass.
* `Pushed p m c f`: before the run came to `m`, a step made an object of the class `c` with the frame `f`.
* `WellFormed p m`: chains of frames and of classes end, objects bind their fields, and closures lie in the
  frames of their classes.
* `heap_well_formed`: so it is in every machine that a run visits.
-/

namespace StashMachine

open Environment Machine

/-! ### Where classes come from -/

/-- The program declares the class, or takes it for granted. -/
def Program.Declares (p : Program) (d : ClassDecl) : Prop := d ∈ p ∨ d = .root

/-- The methods and constructors that a class is written with. -/
def ClassDecl.callables (d : ClassDecl) : List Callable :=
  d.methods.map .method ++ d.constructors.map .constructor

/-- Declarations that wait, and classes that are registered, come from the program. -/
structure Origins (p : Program) (r : Registers) : Prop where
  programs : ∀ q, Waits (.program q) r.control → q = p
  decls : ∀ d, Waits (.classDecl d) r.control → p.Declares d
  classes : ∀ f x c, r.env.bound? f x = some (.cls c) →
    x = c.name ∧ ∃ d g superclass, p.Declares d ∧ c = d.elaborate g superclass

section Origins

variable {p : Program} {r r' : Registers} {i : Item}

theorem Origins.initial (p : Program) : Origins p (initial.loadProgram p).registers := by
  refine ⟨fun q hq => ?_, fun d hd => ?_, fun f x c hc => ?_⟩
  · cases hq with
    | head => rfl
    | tail hq => cases hq
  · cases hd with
    | tail hd => cases hd
  · replace hc : Environment.initial.bound? f x = some (.cls c) := hc
    rw [bound?_initial] at hc
    cases hc

theorem Origins.leads (h : Origins p { r with control := i :: r.control }) (hstep : Leads r i r') :
    Origins p r' := by
  refine ⟨fun q hq => ?_, fun d hd => ?_, fun f x c hc => ?_⟩
  · rcases hstep.waits hq with hq | hqueued | ⟨k, hk⟩
    · exact h.programs q hq
    · cases hqueued with
      | code hcode => cases hcode
    · cases k <;> cases hk
  · rcases hstep.waits hd with hd | hqueued | ⟨k, hk⟩
    · exact h.decls d hd
    · cases hqueued with
      | code hcode => cases hcode
      | classDecl hi hmem =>
        subst hi
        rw [← h.programs _ (.head _)]
        exact hmem
    · cases k <;> cases hk
  · rcases hstep.cls hc with hc | ⟨d, superclass, rfl, rfl, hx⟩
    · exact h.classes f x c hc
    · exact ⟨hx, d, _, superclass, h.decls d (.head _), rfl⟩

theorem Origins.visited {m : Machine} (hm : Visited Natives.empty p m) : Origins p m.registers :=
  hm.induction (.initial p) (fun _ _ _ h hstep => h.leads hstep)

/-- Elaboration keeps the keys of callables. -/
theorem exists_of_mem_callables {d : ClassDecl} {f : FrameId} {superclass : Option Class} {k : Callable}
    (h : k ∈ (d.elaborate f superclass).toClassInfo.callables) :
    ∃ k₀ ∈ d.callables, k₀.descriptor = k.descriptor := by
  simp only [ClassInfo.callables, ClassInfo.methods, ClassDecl.elaborate, List.map_append,
    List.mem_append, List.mem_map, List.mem_filter] at h
  rcases h with (⟨m, ⟨m', ⟨hm', -⟩, rfl⟩, rfl⟩ | ⟨m, ⟨m', ⟨hm', -⟩, rfl⟩, rfl⟩) |
    ⟨k', ⟨k'', hk'', rfl⟩, rfl⟩
  · exact ⟨.method m', by simp [ClassDecl.callables, hm'], rfl⟩
  · exact ⟨.method m', by simp [ClassDecl.callables, hm'], rfl⟩
  · exact ⟨.constructor k'', by simp [ClassDecl.callables, hk''], rfl⟩

end Origins

/-! ### Chains of classes -/

/-- From the class `c` one comes through the registered classes `l`, each of them the superclass of the one
before, and ends at the root. -/
inductive Superclasses (env : Environment) : Class → List Class → Prop
  | root {c : Class} : c.superclass? = none → c.name = rootName → Superclasses env c [c]
  | up {c s : Class} {l : List Class} : c.superclass? = some s.toClassInfo → env.findClass s.name = .ok s →
    Superclasses env s l → Superclasses env c (c :: l)

section Classes

variable {roles : List Role} {env : Environment} {c : Class}

theorem Registered.isRoot {x : String} (h : Registered env x c) (hc : c.ancestors = []) :
    c.name = rootName := by
  obtain ⟨before, d, hlineage, hd⟩ := h.root
  rw [Class.lineage, hc] at hlineage
  have hlast := congrArg List.getLast? hlineage
  rw [List.getLast?_append] at hlast
  cases hlast
  exact hd

/-- Of all classes, only the root has no superclass. -/
theorem Registered.superclass?_eq_none {x : String} (h : Registered env x c) :
    c.superclass? = none ↔ x = rootName := by
  constructor
  · intro hnone
    rw [← h.name]
    exact h.isRoot (List.head?_eq_none_iff.mp hnone)
  · intro hx
    refine List.head?_eq_none_iff.mpr ?_
    obtain ⟨before, d, hlineage, hd⟩ := h.root
    -- the root stands at the end of the lineage, and no name stands there twice
    have hnodup := h.nodup
    cases before with
    | nil => exact (List.cons.inj hlineage).2
    | cons d' before =>
      obtain ⟨rfl, hrest⟩ := List.cons.inj hlineage
      rw [hlineage, List.cons_append, List.map_cons, List.nodup_cons] at hnodup
      refine absurd ?_ hnodup.1
      rw [h.name, hx, ← hd]
      simp

/-- Superclasses are registered, and lead to the root. -/
theorem Layout.exists_superclasses (h : Layout roles env)
    (hreg : ∀ x c, env.findClass x = .ok c → Registered env x c) (hc : env.findClass c.name = .ok c) :
    ∃ l, Superclasses env c l ∧ l.map Class.toClassInfo = c.lineage ∧
      ∀ s ∈ l, env.findClass s.name = .ok s := by
  induction hn : c.ancestors.length generalizing c with
  | zero =>
    have hnone := List.length_eq_zero_iff.mp hn
    refine ⟨[c], .root ?_ ((hreg _ _ hc).isRoot hnone), ?_, ?_⟩
    · rw [Class.superclass?, hnone]
      rfl
    · rw [Class.lineage, hnone]
      rfl
    · intro s hs
      rw [List.mem_singleton.mp hs]
      exact hc
  | succ n ih =>
    obtain ⟨-, -, -, -, hancestors⟩ := h.lies _ _ (h.classes _ _ hc).2
    rcases hancestors with hnone | ⟨s, hs, hlineage⟩
    · rw [hnone] at hn
      cases hn
    · obtain ⟨-, -, hfind, -⟩ := h.lies _ _ hs
      have hlen : s.ancestors.length = n := by
        rw [hlineage, Class.lineage, List.length_cons] at hn
        omega
      obtain ⟨l, hl, hmap, hall⟩ := ih hfind hlen
      refine ⟨c :: l, .up ?_ hfind hl, ?_, ?_⟩
      · rw [Class.superclass?, hlineage]
        rfl
      · rw [List.map_cons, hmap, ← hlineage]
        rfl
      · intro s' hs'
        rcases List.mem_cons.mp hs' with rfl | hs'
        · exact hc
        · exact hall s' hs'

/-- The parent of the frame of a class is that of its superclass. -/
theorem Layout.parent?_cls (h : Layout roles env) (hc : roles[c.frame]? = some (.cls c)) :
    env.parent? c.frame = some ((c.superclass?.map ClassInfo.frame).getD global) := by
  obtain ⟨-, -, -, houter, -⟩ := h.lies _ _ hc
  rw [parent?, houter, Class.superclass?]
  cases c.ancestors <;> rfl

/-- The parent of the frame of an object is that of its class. -/
theorem Layout.parent?_object (h : Layout roles env) {f : FrameId} (hf : roles[f]? = some (.object c)) :
    env.parent? f = some c.frame ∧ BindsFields env f c := by
  obtain ⟨-, houter, hfields⟩ := h.lies _ _ hf
  refine ⟨?_, hfields⟩
  rw [parent?, houter]
  rfl

end Classes

/-! ### Objects -/

section Objects

variable {p : Program} {m m₀ m₁ : Machine} {c : Class} {f : FrameId}

/-- A run from `m₁` comes to `m`, or leaves `m` in a faulty step. -/
def Later (m₁ m : Machine) : Prop :=
  ∃ n, evaluate Natives.empty n m₁ = .ok () m ∨ ∃ e, evaluate Natives.empty n m₁ = .error e m

/-- Before the run came to `m`, a step pushed an object of the class `c` with the frame `f`. -/
def Pushed (p : Program) (m : Machine) (c : Class) (f : FrameId) : Prop :=
  ∃ m₀ m₁ x control, Reached Natives.empty p m₀ ∧ m₀.registers.control = .new x :: control ∧
    Next Natives.empty m₀ m₁ ∧ m₁.registers.stash = .value (.object c f) :: m₀.registers.stash ∧
    Later m₁ m

theorem Machine.Visited.later (hm : Visited Natives.empty p m) : Later (initial.loadProgram p) m := by
  rcases hm with ⟨n, hn⟩ | ⟨n, e, hn⟩
  · exact ⟨n, .inl hn⟩
  · exact ⟨n, .inr ⟨e, hn⟩⟩

/-- Frames keep their roles. -/
theorem exists_layout (h₁ : Reached Natives.empty p m₁) (h : Later m₁ m) :
    ∃ roles, Layout roles m.registers.env ∧
      ∀ f < m₁.registers.env.frames.size, ∃ ρ, roles[f]? = some ρ ∧ Plays p f ρ := by
  have hreached : ∀ {n m}, evaluate Natives.empty n m₁ = .ok () m →
      ∃ roles, Scoped roles m.registers ∧
        ∀ f < m₁.registers.env.frames.size, ∃ ρ, roles[f]? = some ρ ∧ Plays p f ρ := by
    intro n m hn
    obtain ⟨roles, hscoped, hplays⟩ := exists_scoped (h₁.trans hn)
    refine ⟨roles, hscoped, fun f hf => ?_⟩
    obtain ⟨ρ, hρ⟩ := hscoped.layout.exists_role (Nat.lt_of_lt_of_le hf (size_le_of_evaluate hn))
    exact ⟨ρ, hρ, hplays f ρ hρ⟩
  obtain ⟨n, hn | ⟨e, hn⟩⟩ := h
  · obtain ⟨roles, hscoped, hplays⟩ := hreached hn
    exact ⟨roles, hscoped.layout, hplays⟩
  · obtain ⟨k, m₂, hk, hlast⟩ := exists_of_evaluate_error hn
    obtain ⟨i, control, hc, hperform⟩ := evaluate_one_error hlast
    obtain ⟨roles, hscoped, hplays⟩ := hreached hk
    have hscoped₂ : Scoped roles { m₂.registers with control := i :: control } := by
      rw [← hc]
      exact hscoped
    obtain ⟨new, hlayout⟩ := Scoped.halt (r := { m₂.registers with control := control }) hscoped₂
      ((perform_outcome i _).of_error hperform)
    refine ⟨roles ++ new, hlayout, fun f hf => ?_⟩
    obtain ⟨ρ, hρ, hplay⟩ := hplays f hf
    exact ⟨ρ, role_append hρ, hplay⟩

/-- What a step that makes an object does. -/
theorem next_new {x : String} {control : List Item} (hc : m₀.registers.control = .new x :: control)
    (hnext : Next Natives.empty m₀ m₁) : ∃ c, m₀.registers.env.findClass x = .ok c ∧
      m₁.registers.env = (m₀.registers.env.instantiate c).2 ∧ m₁.registers.stash =
        .value (.object c m₀.registers.env.frames.size) :: m₀.registers.stash := by
  have hperform := hnext.perform hc
  obtain ⟨c, hfind, -, hr⟩ := (Step.new_ends x _).of_ok hperform
  rw [hr]
  exact ⟨c, hfind, rfl, rfl⟩

/-- The frame of an object that was pushed has been made for it. -/
theorem plays_of_new {x : String} {control : List Item} (hm₀ : Reached Natives.empty p m₀)
    (hc : m₀.registers.control = .new x :: control) (hnext : Next Natives.empty m₀ m₁)
    (hstash : m₁.registers.stash = .value (.object c f) :: m₀.registers.stash) :
    f < m₁.registers.env.frames.size ∧ Plays p f (.object c) := by
  obtain ⟨c', hfind, henv, hstash'⟩ := next_new hc hnext
  rw [hstash] at hstash'
  cases hstash'
  have hlt : m₀.registers.env.frames.size < m₁.registers.env.frames.size := by
    rw [henv, size_instantiate]
    exact Nat.lt_succ_self _
  exact ⟨hlt, .inr ⟨m₀, m₁, _, _, hm₀, hc, hnext, rfl, hlt, .object rfl hfind⟩⟩

end Objects

/-! ### The whole store -/

/-- The store of `m` is well formed: every frame leads to the global one, and every class to the root; the
frame of a class lies in that of its superclass, and the frame of an object in that of its class, with the
fields of the class in it; and a class binds closures of its own only, each under its key. -/
structure WellFormed (p : Program) (m : Machine) : Prop where
  chains : ∀ f < m.registers.env.frames.size, Climbs m.registers.env f (m.registers.env.chain f)
  classes : ∀ x c, m.registers.env.findClass x = .ok c → c.name = x ∧
    ∃ l, Superclasses m.registers.env c l ∧ l.map Class.toClassInfo = c.lineage ∧
      (l.map (fun s => s.name)).Nodup ∧ ∀ s ∈ l, m.registers.env.findClass s.name = .ok s
  parents : ∀ x c, m.registers.env.findClass x = .ok c → (c.superclass? = none ↔ x = rootName) ∧
    m.registers.env.parent? c.frame = some ((c.superclass?.map ClassInfo.frame).getD global)
  objects : ∀ c f, Pushed p m c f →
    m.registers.env.parent? f = some c.frame ∧ BindsFields m.registers.env f c
  closures : ∀ x c y k, m.registers.env.findClass x = .ok c →
    m.registers.env.bound? c.frame y = some (.closure k) →
    k.className = x ∧ k.frame = c.frame ∧ k.descriptor = y ∧ k.callable ∈ c.toClassInfo.callables ∧
      ∃ d, p.Declares d ∧ d.name = x ∧ ∃ k₀ ∈ d.callables, k₀.descriptor = y

section Visited

variable {p : Program} {m : Machine} {source : String}

/-- Whatever a run visits, its classes are registered with their ancestors. -/
theorem Machine.Visited.registered (hp : ∀ d ∈ p, d.Plain) (hm : Visited Natives.empty p m) :
    ∀ x c, m.registers.env.findClass x = .ok c → Registered m.registers.env x c := by
  have hreached : ∀ {m}, Reached Natives.empty p m →
      ∀ x c, m.registers.env.findClass x = .ok c → Registered m.registers.env x c := by
    intro m hm
    obtain ⟨pend, hforming, -⟩ := (Phase.strict hp hm).exists_forming
    exact hforming.classes trivial
  rcases hm.cases with hm | ⟨m₁, i, control, e, hm₁, hc, hperform⟩
  · exact hreached hm
  · have hlasts := ((perform_outcome i _).of_error hperform).lasts
    intro x c hfind
    exact (hreached hm₁ x c (hlasts.findClass.mp hfind)).of_findClass (fun y c' => hlasts.findClass.mpr)

/-- In every machine that a run visits, the frames, the classes, the objects and the closures are where they
belong. -/
theorem heap_well_formed (hparse : Program.parse source = .ok p) (hm : Visited Natives.empty p m) :
    WellFormed p m := by
  have hreg := hm.registered (Program.parse_plain hparse)
  obtain ⟨roles, hlayout, -⟩ := exists_layout Reached.start hm.later
  refine ⟨fun f hf => hlayout.climbs hf, fun x c hc => ?_, fun x c hc => ?_, fun c f hpushed => ?_,
    fun x c y k hc hk => ?_⟩
  · obtain ⟨rfl, -⟩ := hlayout.classes x c hc
    obtain ⟨l, hl, hmap, hall⟩ := hlayout.exists_superclasses hreg hc
    have hnames : l.map (fun s => s.name) = c.lineage.map ClassInfo.name := by
      rw [← hmap, List.map_map]
      rfl
    refine ⟨rfl, l, hl, hmap, ?_, hall⟩
    rw [hnames]
    exact (hreg _ _ hc).nodup
  · exact ⟨(hreg x c hc).superclass?_eq_none, hlayout.parent?_cls (hlayout.classes x c hc).2⟩
  · obtain ⟨m₀, m₁, x, control, hm₀, hcontrol, hnext, hstash, hlater⟩ := hpushed
    obtain ⟨hlt, hplays⟩ := plays_of_new hm₀ hcontrol hnext hstash
    obtain ⟨roles, hlayout, hroles⟩ := exists_layout (hm₀.next hnext) hlater
    obtain ⟨ρ, hρ, hplays'⟩ := hroles f hlt
    rw [← hplays.unique hplays'] at hρ
    exact hlayout.parent?_object hρ
  · obtain ⟨rfl, hrole⟩ := hlayout.classes x c hc
    obtain ⟨c', hc', hframe, hname, hkey, hmem⟩ := hlayout.closures _ _ _ hk
    rw [hrole] at hc'
    cases hc'
    obtain ⟨-, d, f, superclass, hd, hcd⟩ := (Origins.visited hm).classes _ _ _ (findClass_eq_ok.mp hc)
    have hmem' : k.callable ∈ (d.elaborate f superclass).toClassInfo.callables := hcd ▸ hmem
    obtain ⟨k₀, hk₀, hdesc⟩ := exists_of_mem_callables hmem'
    exact ⟨hname, hframe, hkey, hmem, d, hd, by rw [hcd]; rfl, k₀, hk₀, hdesc.trans hkey⟩

/-- A source with a class that inherits a field. -/
def heapSource : String :=
  "class A \x7b int x; \x7d class B extends A \x7b int y; \x7d "
    ++ "class M \x7b public static void main(String[] a) \x7b B b = new B(); \x7d \x7d"

/-- The names of the class that the next step makes an object of, and of its ancestors. -/
def nextLineage? (m : Machine) : Option (List String) :=
  match m.registers.control with
  | .new x :: _ => (m.registers.env.findClass x).toOption.map (fun c => c.lineage.map ClassInfo.name)
  | _ => none

/-- The new object lies in the frame of its class, and binds its own field and the inherited one. -/
theorem heap_well_formed_inherited : ∃ p m c f, Program.parse heapSource = .ok p ∧
    Visited Natives.empty p m ∧ Pushed p m c f ∧ c.lineage.map ClassInfo.name = ["B", "A", "Object"] ∧
    m.registers.env.parent? f = some c.frame ∧ BindsFields m.registers.env f c := by
  have hrun : (sample? heapSource 26).any (fun m => nextLineage? m == some ["B", "A", "Object"] &&
      (m.after? Natives.empty 1).isSome) = true := by
    rw [sample?_eq_parseDecoded?]
    decide +kernel
  obtain ⟨m₀, hm₀, hrun⟩ := (Option.any_eq_true _ _).mp hrun
  obtain ⟨p, hp, hreached⟩ := exists_of_sample? hm₀
  rw [Bool.and_eq_true, beq_iff_eq, Option.isSome_iff_exists] at hrun
  obtain ⟨hlineage, m₁, hm₁⟩ := hrun
  unfold nextLineage? at hlineage
  split at hlineage
  · rename_i x control hc
    have hnext : Next Natives.empty m₀ m₁ := ⟨by simp [isFinished, hc], after?_eq_some.mp hm₁⟩
    obtain ⟨c, hfind, -, hstash⟩ := next_new hc hnext
    rw [hfind] at hlineage
    have hpushed : Pushed p m₁ c m₀.registers.env.frames.size :=
      ⟨m₀, m₁, x, control, hreached, hc, hnext, hstash, 0, .inl rfl⟩
    have hvisited : Visited Natives.empty p m₁ := .inl (hreached.next hnext)
    obtain ⟨hparent, hfields⟩ := (heap_well_formed hp hvisited).objects _ _ hpushed
    exact ⟨p, m₁, c, _, hp, hvisited, hpushed, Option.some.inj hlineage, hparent, hfields⟩
  · cases hlineage

end Visited

end StashMachine
