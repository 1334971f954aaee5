import StashMachine.Proofs.Roles

/-!
# StashMachine.Proofs.Scopes — where code runs

* `Makes r i ρ`: a step that performs `i` makes a frame of the role `ρ`.
* `Scoped roles r`: the store is laid out, code runs in scopes and goes back to scopes, the objects that are
  held have frames, and callables wait to be bound only in the frame of the class that declares them.
* `Scoped.outcome`: every step keeps it, with at most one role more.
* `Plays p f ρ`: the run of the program has made the frame `f` for the role `ρ`; `Plays.unique`: for one
  role only.
* `scopes_are_lexical`: around the code that runs lie blocks, then one call at most.
-/

namespace StashMachine

open Environment Machine

/-- A step from `r` that performs `i` makes a frame of the role. -/
inductive Makes (r : Registers) (i : Item) : Role → Prop
  | block : i.OpensBlock → Makes r i .block
  | object {x : String} {c : Class} : i = .new x → r.env.findClass x = .ok c → Makes r i (.object c)
  | call {k : Closure} {object : Option (Class × FrameId)} : Calls r i k object →
    Makes r i (.call k object)
  | cls {d : ClassDecl} {superclass : Option Class} : i = .classDecl d →
    IsSuperclass r.env d superclass → Makes r i (.cls (d.elaborate r.env.frames.size superclass))

section Makes

variable {r : Registers} {i : Item} {ρ : Role}

theorem Makes.of_opensBlock (h : Makes r i ρ) (hi : i.OpensBlock) : ρ = .block := by
  cases h with
  | block => rfl
  | object he => rw [he] at hi; cases hi
  | call hcalls =>
    obtain ⟨n, args, rest, below, he, -⟩ := hcalls
    rw [he] at hi
    cases hi
  | cls he => rw [he] at hi; cases hi

theorem Makes.of_new {x : String} (h : Makes r (.new x) ρ) :
    ∃ c, r.env.findClass x = .ok c ∧ ρ = .object c := by
  cases h with
  | block hi => cases hi
  | object he hc =>
    cases he
    exact ⟨_, hc, rfl⟩
  | call hcalls =>
    obtain ⟨n, args, rest, below, he, -⟩ := hcalls
    cases he
  | cls he => cases he

theorem Makes.of_invoke {n : Nat} (h : Makes r (.invoke n) ρ) :
    ∃ k object, Calls r (.invoke n) k object ∧ ρ = .call k object := by
  cases h with
  | block hi => cases hi
  | object he => cases he
  | call hcalls => exact ⟨_, _, hcalls, rfl⟩
  | cls he => cases he

theorem Makes.of_classDecl {d : ClassDecl} (h : Makes r (.classDecl d) ρ) :
    ∃ superclass, IsSuperclass r.env d superclass ∧
      ρ = .cls (d.elaborate r.env.frames.size superclass) := by
  cases h with
  | block hi => cases hi
  | object he => cases he
  | call hcalls =>
    obtain ⟨n, args, rest, below, he, -⟩ := hcalls
    cases he
  | cls he hsuper =>
    cases he
    exact ⟨_, hsuper, rfl⟩

end Makes

/-- The callables that wait on control stand in front of everything else, and the current frame is that of
the class that declares them. -/
def Home (roles : List Role) (r : Registers) : Prop :=
  ∃ ks rest, r.control = ks.map Callable.item ++ rest ∧ (∀ k : Callable, ¬ Waits k.item rest) ∧
    (ks ≠ [] → ∃ c, roles[r.env.current]? = some (.cls c) ∧ ∀ k ∈ ks, k ∈ c.toClassInfo.callables)

/-- Everything that the registers lead to is in its place. -/
structure Scoped (roles : List Role) (r : Registers) : Prop where
  layout : Layout roles r.env
  current : IsScope roles r.env.current
  restores : ∀ f, Waits (.restore f) r.control → IsScope roles f
  objects : ∀ v, Held r v → ∀ u : Value, u.Part v → ∀ c o, u = .object c o →
    roles[o]? = some (.object c)
  closures : ∀ k, .closure k ∈ r.stash → r.env.Binds k
  home : Home roles r

section Steps

variable {roles new : List Role} {r r' : Registers} {i : Item} {env' : Environment}

/-- The new roles after a step. -/
def Fills (r : Registers) (i : Item) (new : List Role) : Prop :=
  new = [] ∨ ∃ ρ, new = [ρ] ∧ Makes r i ρ

/-- A closure takes an object unless it is static. -/
theorem isStatic_of_receiver {k : Closure} {args rest : List Value} {object : Option (Class × FrameId)}
    (h : Step.receiver k args = .ok (object, rest)) : k.callable.isStatic = object.isNone := by
  unfold Step.receiver at h
  split at h
  · rename_i hstatic
    cases h
    exact hstatic
  · rename_i hstatic
    split at h <;> cases h
    simpa using hstatic

/-! ### What a step makes of the store -/

/-- The frame of a call lies around the frame of the class or of the receiver. -/
theorem Scoped.lies_call (h : Scoped roles { r with control := i :: r.control }) {k : Closure}
    {object : Option (Class × FrameId)} (hcalls : Calls r i k object) :
    callSite k object < r.env.frames.size ∧
      ∀ {env' : Environment}, (env'.frame r.env.frames.size).outer = r.env.chain (callSite k object) →
        (Role.call k object).Lies (roles ++ [.call k object]) env' r.env.frames.size := by
  obtain ⟨n, args, rest, below, -, -, hstash, hreceiver⟩ := hcalls
  have hstatic := isStatic_of_receiver hreceiver
  cases object with
  | none =>
    have hk : r.env.Binds k := h.closures k (by simp [hstash])
    obtain ⟨f, x, hx⟩ := hk
    obtain ⟨c, hc, rfl, hname, -⟩ := h.layout.closures f x k hx
    refine ⟨h.layout.lt_size hc, fun houter => ⟨hstatic, c, role_append hc, hname, ?_⟩⟩
    rw [houter]
    exact h.layout.chain_cls hc
  | some object =>
    obtain ⟨c, o⟩ := object
    have hheld : Held r (.object c o) := by
      have hmem := (of_receiver hreceiver).1 c o rfl
      exact .inl (by simp [hstash, hmem])
    have ho := h.objects _ hheld _ .refl c o rfl
    obtain ⟨-, houter', -⟩ := h.layout.lies o _ ho
    refine ⟨h.layout.lt_size ho, fun houter => ⟨hstatic, role_append ho, ?_⟩⟩
    rw [houter, chain]
    exact congrArg (o :: ·) houter'

/-- A step that moves keeps the layout, and code goes on in a scope. -/
theorem Scoped.effect (h : Scoped roles { r with control := i :: r.control }) (he : Effect r i env') :
    ∃ new, Fills r i new ∧ Layout (roles ++ new) env' ∧ IsScope (roles ++ new) env'.current := by
  have hgrows := he.grows
  have hlasts := he.lasts
  have hsame : env'.frames.size = r.env.frames.size → IsScope roles env'.current →
      ∃ new, Fills r i new ∧ Layout (roles ++ new) env' ∧ IsScope (roles ++ new) env'.current := by
    intro hsize hcurrent
    refine ⟨[], .inl rfl, ?_, ?_⟩
    · rw [List.append_nil]
      exact h.layout.grow_same hgrows h.current hlasts hsize
    · rw [List.append_nil]
      exact hcurrent
  have hlast : ∀ ρ : Role, ρ.isScope = true → IsScope (roles ++ [ρ]) r.env.frames.size := by
    intro ρ hρ
    refine ⟨ρ, ?_, hρ⟩
    rw [← h.layout.size]
    exact role_append_new
  cases he with
  | same => exact hsame rfl h.current
  | restore hi => exact hsame rfl (h.restores _ (hi ▸ .head _))
  | block hopens =>
    obtain ⟨ρ, hρ, hscope⟩ := h.current
    have hlt := h.layout.lt_size hρ
    refine ⟨[.block], .inr ⟨_, rfl, .block hopens⟩, ?_, hlast _ rfl⟩
    refine h.layout.push_lasts hgrows h.current hlasts (size_extend ..)
      ⟨_, ρ, role_append hρ, hscope, hlt, ?_⟩ ⟨_, hlt, outer_extend_new ..⟩
    rw [outer_extend_new, hgrows.chain hlt]
  | declare => exact hsame (size_addBinding ..) h.current
  | allocate => exact hsame rfl h.current
  | assign => exact hsame rfl h.current
  | array => exact hsame rfl h.current
  | object hi hc hfields =>
    rename_i x c
    have hrole := (h.layout.classes x c hc).2
    have hlt := h.layout.lt_size hrole
    have houter := outer_instantiate_new r.env c
    refine ⟨[.object c], .inr ⟨_, rfl, .object hi hc⟩, ?_, h.current.append⟩
    refine h.layout.push_lasts hgrows h.current hlasts (size_instantiate r.env c)
      ⟨role_append hrole, ?_, bindsFields_instantiate hfields⟩ ⟨_, hlt, houter⟩
    rw [houter]
    exact h.layout.chain_cls hrole
  | call hcalls =>
    rename_i k object vs hvs
    obtain ⟨hlt, hlies⟩ := h.lies_call hcalls
    have houter : (((r.env.extend (callSite k object) k.callable.name).addVariables vs).frame
        r.env.frames.size).outer = r.env.chain (callSite k object) :=
      (outer_addVariables _ _ _).trans (outer_extend_new ..)
    refine ⟨[.call k object], .inr ⟨_, rfl, .call hcalls⟩, ?_, ?_⟩
    · exact h.layout.push_lasts hgrows h.current hlasts
        ((size_addVariables _ _).trans (size_extend ..)) (hlies houter) ⟨_, hlt, houter⟩
    · rw [current_addVariables]
      exact hlast _ rfl

/-! ### Control -/

theorem Item.isCallable_item (k : Callable) : k.item.isCallable = true := by
  cases k <;> rfl

/-- An item that is no callable stands in front only if no callable waits. -/
theorem Home.not_waits (h : Home roles { r with control := i :: r.control }) (hi : i.isCallable = false)
    (k : Callable) : ¬ Waits k.item (i :: r.control) := by
  obtain ⟨ks, rest, hcontrol, hrest, -⟩ := h
  cases ks with
  | nil =>
    rw [show i :: r.control = rest from hcontrol]
    exact hrest k
  | cons k' ks =>
    replace hcontrol : i :: r.control = k'.item :: (ks.map Callable.item ++ rest) := hcontrol
    rw [(List.cons.inj hcontrol).1, Item.isCallable_item] at hi
    cases hi

/-- A callable that stands in front is one of the class in the current frame. -/
theorem Home.callable {k : Callable} (h : Home roles { r with control := k.item :: r.control }) :
    ∃ c, roles[r.env.current]? = some (.cls c) ∧ k ∈ c.toClassInfo.callables ∧ Home roles r := by
  obtain ⟨ks, rest, hcontrol, hrest, hhome⟩ := h
  cases ks with
  | nil =>
    refine absurd ?_ (hrest k)
    rw [← show k.item :: r.control = rest from hcontrol]
    exact .head _
  | cons k' ks =>
    replace hcontrol : k.item :: r.control = k'.item :: (ks.map Callable.item ++ rest) := hcontrol
    obtain ⟨hhead, htail⟩ := List.cons.inj hcontrol
    obtain rfl : k = k' := by
      cases k <;> cases k' <;> cases hhead <;> rfl
    obtain ⟨c, hc, hks⟩ := hhome (List.cons_ne_nil _ _)
    exact ⟨c, hc, hks k (.head _), ks, rest, htail, hrest, fun _ => ⟨c, hc, fun k' hk' => hks k' (.tail _ hk')⟩⟩

theorem Home.of_not_waits (h : ∀ k : Callable, ¬ Waits k.item r.control) : Home roles r :=
  ⟨[], r.control, rfl, h, fun hne => absurd rfl hne⟩

/-- Code queues no callables. -/
theorem Queued.not_callable {j : Item} (h : Queued r i j) (k : Callable) : j ≠ k.item := by
  rintro rfl
  cases k <;> cases h <;> rename_i hcode <;> cases hcode

/-- Code queues ways back to the current frame only. -/
theorem Queued.restore_eq {f : FrameId} (h : Queued r i (.restore f)) : f = r.env.current := by
  cases h with
  | code hcode => cases hcode
  | restore => rfl

/-! ### Values -/

/-- The new object of a step has a frame. -/
theorem Fills.role_object {x : String} {c : Class} (hfills : Fills r i new) (hi : i = .new x)
    (hc : r.env.findClass x = .ok c) (hlayout : Layout roles r.env)
    (hlayout' : Layout (roles ++ new) (r.env.instantiate c).2) :
    (roles ++ new)[r.env.frames.size]? = some (.object c) := by
  have hsize := hlayout'.size
  rw [List.length_append, hlayout.size] at hsize
  rcases hfills with rfl | ⟨ρ, rfl, hmakes⟩
  · rw [size_instantiate] at hsize
    simp at hsize
  · subst hi
    obtain ⟨c', hc', rfl⟩ := hmakes.of_new
    rw [hc] at hc'
    cases hc'
    rw [← hlayout.size, role_append_new]

/-- All objects that are held after a step have frames. -/
theorem Scoped.objects_leads (h : Scoped roles { r with control := i :: r.control })
    (hstep : Leads r i r') (hfills : Fills r i new) (hlayout : Layout (roles ++ new) r'.env) :
    ∀ v, Held r' v → ∀ u : Value, u.Part v → ∀ c o, u = .object c o →
      (roles ++ new)[o]? = some (.object c) := by
  refine hstep.parts (fun v hv u hu c o huo => role_append (h.objects v hv u hu c o huo)) ?_ ?_ ?_
  · rintro v hv c o rfl
    cases hv
  · exact nofun
  · intro x c hi hc henv c' o he
    cases he
    exact hfills.role_object hi hc h.layout (henv ▸ hlayout)

/-- Closures on the stash are bound. -/
theorem Scoped.closures_leads (h : Scoped roles { r with control := i :: r.control })
    (hstep : Leads r i r') : ∀ k, .closure k ∈ r'.stash → r'.env.Binds k := by
  intro k hk
  refine hstep.grows.binds ?_
  rcases hstep.leaves hk with hk | hleaves
  · exact h.closures k hk
  · cases hleaves
    assumption

/-! ### Every step -/

theorem Scoped.moves (h : Scoped roles { r with control := i :: r.control }) (hi : i.isCallable = false)
    (hmoves : Moves r i r') : ∃ new, Fills r i new ∧ Scoped (roles ++ new) r' := by
  have hstep : Leads r i r' := .inl (.moves hi hmoves)
  obtain ⟨new, hfills, hlayout, hcurrent⟩ := h.effect hmoves.env
  refine ⟨new, hfills, hlayout, hcurrent, fun f hf => ?_, h.objects_leads hstep hfills hlayout,
    h.closures_leads hstep, .of_not_waits (fun k hk => ?_)⟩
  · rcases hmoves.control _ hf with hf | hqueued
    · exact (h.restores f hf).append
    · rw [hqueued.restore_eq]
      exact h.current.append
  · rcases hmoves.control _ hk with hk | hqueued
    · exact h.home.not_waits hi k hk
    · exact hqueued.not_callable k rfl

/-- The class in the current frame binds its next callable. -/
theorem Scoped.binds {k : Callable} (h : Scoped roles { r with control := k.item :: r.control })
    (hfree : r.env.bound? r.env.current k.descriptor = none)
    (hr : r' = { r with env := r.env.addClosure ⟨k, r.env.current, r.env.currentName⟩ }) :
    Scoped roles r' := by
  have hstep : Leads r k.item r' := .inl (.binds k rfl hfree hr)
  obtain ⟨c, hc, hk, hhome⟩ := h.home.callable
  have hlayout : Layout roles r'.env := by
    rw [hr]
    exact h.layout.addClosure hc hk rfl rfl hfree
  have hlayout' : Layout (roles ++ []) r'.env := by
    rw [List.append_nil]
    exact hlayout
  have hobjects := h.objects_leads hstep (.inl rfl) hlayout'
  rw [List.append_nil] at hobjects
  have hclosures := h.closures_leads hstep
  subst hr
  exact ⟨hlayout, h.current, fun f hf => h.restores f (.tail hf), hobjects, hclosures, hhome⟩

/-- A class is registered, and its callables are queued. -/
theorem Scoped.registers {d : ClassDecl} {superclass : Option Class} {c : Class} {ks : List Callable}
    (h : Scoped roles { r with control := .classDecl d :: r.control })
    (hsuper : IsSuperclass r.env d superclass) (hc : c = d.elaborate r.env.frames.size superclass)
    (hfree : r.env.bound? global c.name = none) (hks : ∀ k ∈ ks, k ∈ c.toClassInfo.callables)
    (hcontrol : r'.control =
      ks.map Callable.item ++ (c.staticFields.map .field ++ .restore r.env.current :: r.control))
    (hstash : r'.stash = r.stash)
    (henv : r'.env = (r.env.extend (classSite superclass) d.name).addClass c) :
    Scoped (roles ++ [.cls c]) r' := by
  have hstep : Leads r (.classDecl d) r' :=
    .inl (.registers d superclass c ks rfl hsuper hc hfree hks hcontrol hstash henv)
  have hlayout : Layout (roles ++ [.cls c]) r'.env := by
    rw [henv]
    exact h.layout.addClass h.current hsuper hc hfree
  have hcurrent : (roles ++ [.cls c])[r'.env.current]? = some (.cls c) := by
    have hlast : r'.env.current = roles.length := by
      rw [henv, h.layout.size]
      rfl
    rw [hlast]
    exact role_append_new
  refine ⟨hlayout, ⟨_, hcurrent, rfl⟩, fun f hf => ?_,
    h.objects_leads hstep (.inr ⟨_, rfl, hc ▸ .cls rfl hsuper⟩) hlayout, h.closures_leads hstep,
    ks, _, hcontrol, fun k hk => ?_, fun _ => ⟨c, hcurrent, hks⟩⟩
  · rcases hstep.waits hf with hf | hqueued | ⟨k, hk⟩
    · exact (h.restores f hf).append
    · rw [hqueued.restore_eq]
      exact h.current.append
    · cases k <;> cases hk
  · rcases waits_append.mp hk with hk | hk
    · obtain ⟨fd, -, hfd⟩ := exists_of_waits_map nofun hk
      cases k <;> cases hfd
    · have htail : Waits k.item r.control := by
        generalize hj : k.item = j at hk
        cases hk with
        | head => cases k <;> cases hj
        | tail hk => exact hk
      exact h.home.not_waits rfl k (.tail htail)

/-- A step that ends well keeps everything in its place, and makes at most one frame. -/
theorem Scoped.outcome (h : Scoped roles { r with control := i :: r.control }) (ho : Outcome r i r') :
    ∃ new, Fills r i new ∧ Scoped (roles ++ new) r' := by
  rcases ho with ⟨hi, hmoves⟩ | ⟨k, rfl, hfree, hr⟩ |
    ⟨d, superclass, c, ks, rfl, hsuper, hc, hfree, hks, hcontrol, hstash, henv⟩
  · exact h.moves hi hmoves
  · exact ⟨[], .inl rfl, by rw [List.append_nil]; exact h.binds hfree hr⟩
  · exact ⟨[.cls c], .inr ⟨_, rfl, hc ▸ .cls rfl hsuper⟩,
      h.registers hsuper hc hfree hks hcontrol hstash henv⟩

/-- A faulty step still leaves a store that is laid out. -/
theorem Scoped.halt (h : Scoped roles { r with control := i :: r.control }) (hh : Halt r i r') :
    ∃ new, Layout (roles ++ new) r'.env := by
  rcases hh with hmoves | ⟨d, superclass, hsuper, rfl⟩ | ⟨x, c, -, hfind, -, rfl⟩
  · obtain ⟨new, -, hlayout, -⟩ := h.effect hmoves.env
    exact ⟨new, hlayout⟩
  · exact ⟨[.block], h.layout.extend_classSite h.current hsuper⟩
  · exact ⟨[.block], h.layout.instantiate h.current hfind⟩

end Steps

/-! ### Every run -/

section Runs

variable {p : Program} {m m₀ m₁ : Machine} {f : FrameId} {ρ ρ' : Role}

/-- In the run of the program, the frame `f` was made for the role. -/
def Plays (p : Program) (f : FrameId) (ρ : Role) : Prop :=
  f = global ∧ ρ = .global ∨
  ∃ m₀ m₁ i c, Reached Natives.empty p m₀ ∧ m₀.registers.control = i :: c ∧ Next Natives.empty m₀ m₁ ∧
    m₀.registers.env.frames.size = f ∧ f < m₁.registers.env.frames.size ∧
    Makes { m₀.registers with control := c } i ρ

theorem Scoped.initial (p : Program) : Scoped [.global] (initial.loadProgram p).registers := by
  have hheld : ∀ v, ¬ Held (Machine.initial.loadProgram p).registers v := by
    rintro v (hv | ⟨x, y, hx, -⟩)
    · cases hv
    · cases hx
  have hlayout : Layout [.global] Environment.initial := by
    refine ⟨rfl, rfl, fun f ρ hρ => ?_, fun f hf hne => ?_, fun x c hc => ?_, fun f x k hk => ?_⟩
    · obtain ⟨hlt, rfl⟩ := List.getElem?_eq_some_iff.mp hρ
      obtain rfl : f = 0 := by simpa using hlt
      exact ⟨rfl, rfl⟩
    · exact absurd (Nat.lt_one_iff.mp hf) hne
    · rw [findClass_eq_ok, bound?_initial] at hc
      cases hc
    · rw [bound?_initial] at hk
      cases hk
  refine ⟨hlayout, ⟨.global, rfl, rfl⟩, fun f hf => ?_, fun v hv => absurd hv (hheld v), nofun,
    .of_not_waits (fun k hk => ?_)⟩
  · cases hf with
    | tail hf => cases hf
  · generalize hj : k.item = j at hk
    cases hk with
    | head => cases k <;> cases hj
    | tail hk => cases hk

/-- Wherever a run stands, everything is in its place, and the frames have been made for their roles. -/
theorem exists_scoped (hm : Reached Natives.empty p m) :
    ∃ roles, Scoped roles m.registers ∧ ∀ f ρ, roles[f]? = some ρ → Plays p f ρ := by
  refine hm.induction (P := fun m => ∃ roles, Scoped roles m.registers ∧
    ∀ f ρ, roles[f]? = some ρ → Plays p f ρ) ⟨[.global], .initial p, fun f ρ hρ => ?_⟩ ?_
  · obtain ⟨hlt, rfl⟩ := List.getElem?_eq_some_iff.mp hρ
    obtain rfl : f = 0 := by simpa using hlt
    exact .inl ⟨rfl, rfl⟩
  · rintro m₁ m₂ hm₁ ⟨roles, hscoped, hplays⟩ hnext
    obtain ⟨i, c, hc, hperform, -⟩ := next_iff.mp hnext
    have hscoped₁ : Scoped roles { m₁.registers with control := i :: c } := by
      rw [← hc]
      exact hscoped
    obtain ⟨new, hfills, hscoped₂⟩ := Scoped.outcome (r := { m₁.registers with control := c }) hscoped₁
      ((perform_outcome i _).of_ok hperform)
    refine ⟨roles ++ new, hscoped₂, fun f ρ hρ => ?_⟩
    rcases hfills with rfl | ⟨ρ', rfl, hmakes⟩
    · exact hplays f ρ (by simpa using hρ)
    · by_cases hf : f < roles.length
      · rw [List.getElem?_append_left hf] at hρ
        exact hplays f ρ hρ
      · -- the role of the new frame
        have hlt := (List.getElem?_eq_some_iff.mp hρ).1
        rw [List.length_append, List.length_singleton] at hlt
        obtain rfl : f = roles.length := Nat.le_antisymm (Nat.lt_succ_iff.mp hlt) (Nat.le_of_not_lt hf)
        rw [role_append_new] at hρ
        cases hρ
        have hsize := hscoped₂.layout.size
        rw [List.length_append, List.length_singleton] at hsize
        exact .inr ⟨m₁, m₂, i, c, hm₁, hc, hnext, hscoped.layout.size.symm,
          Nat.lt_of_lt_of_eq (Nat.lt_succ_self _) hsize, hmakes⟩

/-! ### A frame is made once -/

theorem IsSuperclass.unique {env : Environment} {d : ClassDecl} {s s' : Option Class}
    (h : IsSuperclass env d s) (h' : IsSuperclass env d s') : s = s' := by
  rcases h with ⟨x, c, hx, hc, rfl⟩ | ⟨hx, rfl⟩
  · rcases h' with ⟨x', c', hx', hc', rfl⟩ | ⟨hx', rfl⟩
    · rw [hx] at hx'
      cases hx'
      rw [hc] at hc'
      cases hc'
      rfl
    · rw [hx] at hx'
      cases hx'
  · rcases h' with ⟨x', c', hx', hc', rfl⟩ | ⟨hx', rfl⟩
    · rw [hx] at hx'
      cases hx'
    · rfl

/-- The stash says what is called. -/
theorem Calls.unique {r : Registers} {i : Item} {k k' : Closure} {o o' : Option (Class × FrameId)}
    (h : Calls r i k o) (h' : Calls r i k' o') : k = k' ∧ o = o' := by
  obtain ⟨n, args, rest, below, rfl, hlen, hstash, hreceiver⟩ := h
  obtain ⟨n', args', rest', below', hi', hlen', hstash', hreceiver'⟩ := h'
  cases hi'
  rw [hstash] at hstash'
  obtain ⟨hargs, hbelow⟩ := List.append_inj hstash' (by simp [hlen, hlen'])
  have heq : args = args' := by
    refine List.map_injective_iff.mpr (fun v w hvw => ?_) (List.reverse_injective hargs)
    cases hvw
    rfl
  cases hbelow
  subst heq
  rw [hreceiver] at hreceiver'
  cases hreceiver'
  exact ⟨rfl, rfl⟩

/-- The item and the registers say what frame a step makes. -/
theorem Makes.unique {r : Registers} {i : Item} (h : Makes r i ρ) (h' : Makes r i ρ') : ρ = ρ' := by
  cases h with
  | block hopens => exact (h'.of_opensBlock hopens).symm
  | object hi hc =>
    subst hi
    obtain ⟨c', hc', rfl⟩ := h'.of_new
    rw [hc] at hc'
    cases hc'
    rfl
  | call hcalls =>
    obtain ⟨n, args, rest, below, rfl, -⟩ := id hcalls
    obtain ⟨k', object', hcalls', rfl⟩ := h'.of_invoke
    obtain ⟨rfl, rfl⟩ := hcalls.unique hcalls'
    rfl
  | cls hi hsuper =>
    subst hi
    obtain ⟨superclass', hsuper', rfl⟩ := h'.of_classDecl
    rw [hsuper.unique hsuper']

/-- A run only adds frames. -/
theorem size_le_of_evaluate {n : Nat} (h : evaluate Natives.empty n m₀ = .ok () m) :
    m₀.registers.env.frames.size ≤ m.registers.env.frames.size := by
  induction n generalizing m₀ with
  | zero =>
    cases h
    exact Nat.le_refl _
  | succ n ih =>
    rw [evaluate_succ] at h
    by_cases hfinished : m₀.isFinished = true
    · rw [evaluate_of_isFinished hfinished] at h
      exact ih h
    · cases h₁ : evaluate Natives.empty 1 m₀ with
      | ok _ m₁ =>
        rw [h₁] at h
        obtain ⟨i, c, hc, hperform, -⟩ := next_iff.mp ⟨by simpa using hfinished, h₁⟩
        have hgrows := Leads.grows (.inl ((perform_outcome i _).of_ok hperform))
        exact Nat.le_trans hgrows.size (ih h)
      | error e m₁ =>
        rw [h₁] at h
        cases h

/-- A step that makes a frame comes before every machine that has the frame. -/
theorem size_le_of_lt {n n' : Nat} {m₂ : Machine} (hlt : n < n')
    (hn : evaluate Natives.empty n (initial.loadProgram p) = .ok () m₀) (hnext : Next Natives.empty m₀ m₁)
    (hn' : evaluate Natives.empty n' (initial.loadProgram p) = .ok () m₂) :
    m₁.registers.env.frames.size ≤ m₂.registers.env.frames.size := by
  obtain ⟨j, rfl⟩ := Nat.exists_eq_add_of_lt hlt
  rw [show n + j + 1 = n + (1 + j) by omega, evaluate_add, hn] at hn'
  replace hn' : evaluate Natives.empty (1 + j) m₀ = .ok () m₂ := hn'
  rw [evaluate_add, hnext.2] at hn'
  exact size_le_of_evaluate hn'

theorem size_pos (hm : Reached Natives.empty p m) : 0 < m.registers.env.frames.size := by
  obtain ⟨n, hn⟩ := hm
  exact size_le_of_evaluate hn

/-- A frame has one role. -/
theorem Plays.unique (h : Plays p f ρ) (h' : Plays p f ρ') : ρ = ρ' := by
  have hmade : ∀ {m : Machine}, Reached Natives.empty p m → m.registers.env.frames.size ≠ global :=
    fun hm => Nat.ne_of_gt (size_pos hm)
  rcases h with ⟨rfl, rfl⟩ | ⟨m₀, m₁, i, c, hm₀, hc, hnext, hf, hlt, hmakes⟩
  · rcases h' with ⟨-, rfl⟩ | ⟨m₀', m₁', i', c', hm₀', -, -, hf', -⟩
    · rfl
    · exact absurd hf' (hmade hm₀')
  · rcases h' with ⟨rfl, -⟩ | ⟨m₀', m₁', i', c', hm₀', hc', hnext', hf', hlt', hmakes'⟩
    · exact absurd hf (hmade hm₀)
    · obtain ⟨n, hn⟩ := hm₀
      obtain ⟨n', hn'⟩ := hm₀'
      rcases Nat.lt_trichotomy n n' with hnn | rfl | hnn
      · have hle := size_le_of_lt hnn hn hnext hn'
        rw [hf'] at hle
        exact absurd hlt (Nat.not_lt.mpr hle)
      · rw [hn] at hn'
        cases hn'
        rw [hc] at hc'
        cases hc'
        exact hmakes.unique hmakes'
      · have hle := size_le_of_lt hnn hn' hnext' hn
        rw [hf] at hle
        exact absurd hlt' (Nat.not_lt.mpr hle)

/-! ### Chains of scopes -/

/-- The frames that a scope ends with: at most one call, with the object that it was made on unless it is
static, the frames of a class and of its ancestors, and the global frame. -/
inductive Ground (p : Program) (env : Environment) : List FrameId → Prop
  | global : Ground p env [Environment.global]
  | cls {c : Class} : env.findClass c.name = .ok c → Ground p env (classFrames c.lineage)
  | static {f : FrameId} {k : Closure} {c : Class} : Plays p f (.call k none) →
    k.callable.isStatic = true → env.findClass k.className = .ok c → Ground p env (f :: classFrames c.lineage)
  | instance {f o : FrameId} {k : Closure} {c : Class} : Plays p f (.call k (some (c, o))) →
    k.callable.isStatic = false → Plays p o (.object c) → env.findClass c.name = .ok c →
    Ground p env (f :: o :: classFrames c.lineage)

/-- A frame of a call. -/
def IsCall (p : Program) (f : FrameId) : Prop := ∃ k object, Plays p f (.call k object)

theorem Plays.not_isCall (h : Plays p f ρ) (hρ : ∀ k object, ρ ≠ .call k object) : ¬ IsCall p f := by
  rintro ⟨k, object, hcall⟩
  exact hρ k object (h.unique hcall)

variable {roles : List Role} {env : Environment}

/-- The frames of a scope are those of blocks, and behind them the ground. -/
theorem Layout.exists_ground (h : Layout roles env) (hplays : ∀ f ρ, roles[f]? = some ρ → Plays p f ρ)
    (hf : IsScope roles f) : ∃ blocks ground, env.chain f = blocks ++ ground ∧
      (∀ b ∈ blocks, Plays p b .block) ∧ Ground p env ground := by
  induction f using Nat.strongRecOn with
  | _ f ih =>
    obtain ⟨ρ, hρ, hscope⟩ := hf
    have hlies := h.lies f ρ hρ
    cases ρ with
    | global =>
      obtain ⟨rfl, -⟩ := hlies
      exact ⟨[], [global], h.chain_global, nofun, .global⟩
    | cls c =>
      obtain ⟨-, -, hfind, -⟩ := hlies
      exact ⟨[], classFrames c.lineage, h.chain_cls hρ, nofun, .cls hfind⟩
    | object c => cases hscope
    | call k receiver =>
      have hf := hplays f _ hρ
      cases receiver with
      | none =>
        obtain ⟨hstatic, c, hc, hname, houter⟩ := hlies
        obtain ⟨-, -, hfind, -⟩ := h.lies _ _ hc
        rw [← hname] at hfind
        exact ⟨[], f :: classFrames c.lineage, congrArg (f :: ·) houter, nofun, .static hf hstatic hfind⟩
      | some object =>
        obtain ⟨c, o⟩ := object
        obtain ⟨hstatic, hobject, houter⟩ := hlies
        obtain ⟨hc, -⟩ := h.lies o _ hobject
        obtain ⟨-, -, hfind, -⟩ := h.lies _ _ hc
        exact ⟨[], f :: o :: classFrames c.lineage, congrArg (f :: ·) houter, nofun,
          .instance hf hstatic (hplays o _ hobject) hfind⟩
    | block =>
      obtain ⟨g, ρ, hg, hgscope, hlt, houter⟩ := hlies
      obtain ⟨blocks, ground, hchain, hblocks, hground⟩ := ih g hlt ⟨ρ, hg, hgscope⟩
      refine ⟨f :: blocks, ground, ?_, ?_, hground⟩
      · rw [chain, houter, hchain]
        rfl
      · intro b hb
        rcases List.mem_cons.mp hb with rfl | hb
        · exact hplays b _ hρ
        · exact hblocks b hb

/-- The frames of classes and the global frame are no calls. -/
theorem Layout.not_isCall_classFrames (h : Layout roles env)
    (hplays : ∀ f ρ, roles[f]? = some ρ → Plays p f ρ) {c : Class} (hc : env.findClass c.name = .ok c) :
    ∀ f ∈ classFrames c.lineage, ¬ IsCall p f := by
  have hrole := (h.classes c.name c hc).2
  intro f hf
  rcases List.mem_append.mp hf with hf | hf
  · obtain ⟨d, hd, rfl⟩ := List.mem_map.mp hf
    obtain ⟨c', hc', -⟩ := h.role_of_mem_lineage hrole hd
    exact (hplays _ _ hc').not_isCall nofun
  · rw [List.mem_singleton.mp hf]
    exact (hplays _ _ h.first).not_isCall nofun

/-- Of the frames that a scope ends with, only the first may be that of a call. -/
theorem Ground.not_isCall_tail (h : Layout roles env) (hplays : ∀ f ρ, roles[f]? = some ρ → Plays p f ρ)
    {ground : List FrameId} (hground : Ground p env ground) : ∀ f ∈ ground.tail, ¬ IsCall p f := by
  intro f hf
  cases hground with
  | global => cases hf
  | cls hc => exact h.not_isCall_classFrames hplays hc f (List.mem_of_mem_tail hf)
  | static hcall hstatic hc =>
    have hname := (h.classes _ _ hc).1
    rw [hname] at hc
    exact h.not_isCall_classFrames hplays hc f hf
  | «instance» hcall hstatic hobject hc =>
    rcases List.mem_cons.mp hf with rfl | hf
    · exact hobject.not_isCall nofun
    · exact h.not_isCall_classFrames hplays hc f hf

/-- No two frames around a scope are those of calls. -/
theorem pairwise_not_isCall {blocks ground : List FrameId} (hblocks : ∀ b ∈ blocks, ¬ IsCall p b)
    (hground : ∀ f ∈ ground.tail, ¬ IsCall p f) :
    (blocks ++ ground).Pairwise (fun a b => ¬ (IsCall p a ∧ IsCall p b)) := by
  induction blocks with
  | nil =>
    cases ground with
    | nil => exact .nil
    | cons f rest =>
      have hrest : ∀ b ∈ rest, ¬ IsCall p b := hground
      refine List.pairwise_cons.mpr ⟨fun b hb hcalls => hrest b hb hcalls.2, ?_⟩
      exact List.pairwise_of_forall_mem_list (fun a ha b hb hcalls => hrest b hb hcalls.2)
  | cons f blocks ih =>
    have hf : ¬ IsCall p f := hblocks f (.head _)
    exact List.pairwise_cons.mpr ⟨fun b _ hcalls => hf hcalls.1, ih (fun b hb => hblocks b (.tail _ hb))⟩

/-- Around the current frame, and around every frame that control leads back to, lie first the frames of
blocks and then the ground.  A call never lies inside another one. -/
theorem scopes_are_lexical (hm : Reached Natives.empty p m)
    (hf : f = m.registers.env.current ∨ Waits (.restore f) m.registers.control) :
    Climbs m.registers.env f (m.registers.env.chain f) ∧
    (∃ blocks ground, m.registers.env.chain f = blocks ++ ground ∧ (∀ b ∈ blocks, Plays p b .block) ∧
      Ground p m.registers.env ground) ∧
    (m.registers.env.chain f).Pairwise (fun a b => ¬ (IsCall p a ∧ IsCall p b)) := by
  obtain ⟨roles, hscoped, hplays⟩ := exists_scoped hm
  have hlayout := hscoped.layout
  have hscope : IsScope roles f := by
    rcases hf with rfl | hf
    · exact hscoped.current
    · exact hscoped.restores f hf
  obtain ⟨ρ, hρ, -⟩ := id hscope
  obtain ⟨blocks, ground, hchain, hblocks, hground⟩ := hlayout.exists_ground hplays hscope
  refine ⟨hlayout.climbs (hlayout.lt_size hρ), ⟨blocks, ground, hchain, hblocks, hground⟩, ?_⟩
  rw [hchain]
  exact pairwise_not_isCall (fun b hb => (hblocks b hb).not_isCall nofun)
    (hground.not_isCall_tail hlayout hplays)

/-- A source with a block in a method. -/
def scopesSource : String :=
  "class A \x7b void f() \x7b \x7b int x = 1; \x7d \x7d \x7d "
    ++ "class M \x7b public static void main(String[] a) \x7b A o = new A(); o.f(); \x7d \x7d"

/-- In the block, two frames of blocks lie in that of the call, and the frame of `main` is not around
them. -/
theorem scopes_are_lexical_method : ∃ p m blocks ground, Program.parse scopesSource = .ok p ∧
    Reached Natives.empty p m ∧ m.registers.env.current = 13 ∧
    [13, 12, 11, 6, 2, 1, 0] = blocks ++ ground ∧ (∀ b ∈ blocks, Plays p b .block) ∧
    Ground p m.registers.env ground := by
  have hrun : (sample? scopesSource 60).any (fun m => m.registers.env.current == 13 &&
      m.registers.env.chain 13 == [13, 12, 11, 6, 2, 1, 0]) = true := by
    rw [sample?_eq_parseDecoded?]
    decide +kernel
  obtain ⟨m, hm, hrun⟩ := (Option.any_eq_true _ _).mp hrun
  obtain ⟨p, hp, hreached⟩ := exists_of_sample? hm
  rw [Bool.and_eq_true, beq_iff_eq, beq_iff_eq] at hrun
  obtain ⟨hcurrent, hchain⟩ := hrun
  obtain ⟨-, ⟨blocks, ground, hparts, hblocks, hground⟩, -⟩ :=
    scopes_are_lexical hreached (.inl hcurrent.symm)
  exact ⟨p, m, blocks, ground, hp, hreached, hcurrent, hchain.symm.trans hparts, hblocks, hground⟩

end Runs

end StashMachine
