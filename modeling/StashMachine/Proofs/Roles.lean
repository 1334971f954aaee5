import StashMachine.Proofs.Growth

/-!
# StashMachine.Proofs.Roles — what the frames of the store are for

Every frame is made for one purpose, its `Role`, and the role decides which frames lie around it.

* `Role.Lies roles env f ρ`: the frame `f` lies where a frame of the role `ρ` belongs, and the frames of
  objects bind the fields of their class and nothing else.
* `Layout roles env`: the frames have the roles `roles`.  Besides, classes are bound where they belong, and
  closures only in the frames of the classes that declare them.
* `Layout.climbs`: from every frame one climbs, parent by parent, to the global one.
* `Layout.grow`: what is left to show when the store has grown.
-/

namespace StashMachine

open Environment

/-- What a frame is for: it is the global one, or that of a class, of an object of a class, of a call of a
closure on an object or without one, or of a block. -/
inductive Role
  | global
  | cls (c : Class)
  | object (c : Class)
  | call (k : Closure) (receiver : Option (Class × FrameId))
  | block

/-- Whether code runs in the frames of a role. -/
def Role.isScope : Role → Bool
  | .object _ => false
  | _ => true

/-- The frames of several classes, and the global one behind them. -/
def classFrames (lineage : List ClassInfo) : List FrameId := lineage.map ClassInfo.frame ++ [global]

/-- A frame binds the instance fields of a class along its lineage, and nothing else. -/
structure BindsFields (env : Environment) (f : FrameId) (c : Class) : Prop where
  each : ∀ x t, (x, t) ∈ c.allInstanceVars →
    ∃ id v, env.bound? f x = some (.var id) ∧ env.var? id = some v ∧ v.name = x ∧ v.type = t
  only : ∀ x b, env.bound? f x = some b → ∃ t, (x, t) ∈ c.allInstanceVars

/-- The frame `f` lies where a frame of the role belongs. -/
def Role.Lies (roles : List Role) (env : Environment) (f : FrameId) : Role → Prop
  | .global => f = Environment.global ∧ (env.frame f).outer = []
  | .cls c => f = c.frame ∧ (env.frame f).name = c.name ∧ env.findClass c.name = .ok c ∧
    (env.frame f).outer = classFrames c.ancestors ∧
    (c.ancestors = [] ∨ ∃ s : Class, roles[s.frame]? = some (.cls s) ∧ c.ancestors = s.lineage)
  | .object c => roles[c.frame]? = some (.cls c) ∧ (env.frame f).outer = classFrames c.lineage ∧
    BindsFields env f c
  | .call k none => k.callable.isStatic = true ∧ ∃ c, roles[k.frame]? = some (.cls c) ∧
    k.className = c.name ∧ (env.frame f).outer = classFrames c.lineage
  | .call k (some (c, o)) => k.callable.isStatic = false ∧ roles[o]? = some (.object c) ∧
    (env.frame f).outer = o :: classFrames c.lineage
  | .block => ∃ g ρ, roles[g]? = some ρ ∧ ρ.isScope = true ∧ g < f ∧ (env.frame f).outer = env.chain g

/-- A closure that a class has bound under a name in the frame `f`. -/
def BoundBy (roles : List Role) (f : FrameId) (x : String) (k : Closure) : Prop :=
  ∃ c, roles[f]? = some (.cls c) ∧ k.frame = f ∧ k.className = c.name ∧ k.descriptor = x ∧
    k.callable ∈ c.toClassInfo.callables

/-- The frames of the store have the given roles, the global frame first. -/
structure Layout (roles : List Role) (env : Environment) : Prop where
  size : roles.length = env.frames.size
  first : roles[global]? = some .global
  lies : ∀ f (ρ : Role), roles[f]? = some ρ → ρ.Lies roles env f
  rooted : ∀ f < env.frames.size, f ≠ global → ∃ g < f, (env.frame f).outer = env.chain g
  classes : ∀ x c, env.findClass x = .ok c → x = c.name ∧ roles[c.frame]? = some (.cls c)
  closures : ∀ f x k, env.bound? f x = some (.closure k) → BoundBy roles f x k

/-- Code may run in the frame `f`. -/
def IsScope (roles : List Role) (f : FrameId) : Prop := ∃ ρ, roles[f]? = some ρ ∧ ρ.isScope = true

/-- No closure is new. -/
theorem Environment.Lasts.closure {env env' : Environment} (h : Lasts env env') {f : FrameId} {x : String}
    {k : Closure} (hk : env'.bound? f x = some (.closure k)) : env.bound? f x = some (.closure k) := by
  rcases h.fresh f x _ hk with hk | ⟨id, v, hb, -⟩
  · exact hk
  · cases hb

/-- The frame right around the frame `f`. -/
def Environment.parent? (env : Environment) (f : FrameId) : Option FrameId := (env.frame f).outer.head?

/-- From the frame `f` one comes from parent to parent through the frames `l`, and ends at the global frame,
which has no parent. -/
inductive Climbs (env : Environment) : FrameId → List FrameId → Prop
  | top : env.parent? global = none → Climbs env global [global]
  | up {f g : FrameId} {l : List FrameId} : env.parent? f = some g → Climbs env g l → Climbs env f (f :: l)

section Layout

variable {roles new : List Role} {env env' : Environment} {f : FrameId} {ρ : Role}

/-! ### More roles -/

theorem role_append (h : roles[f]? = some ρ) : (roles ++ new)[f]? = some ρ := by
  rw [List.getElem?_append_left (List.getElem?_eq_some_iff.mp h).1]
  exact h

theorem role_append_new : (roles ++ [ρ])[roles.length]? = some ρ := by simp

theorem IsScope.append (h : IsScope roles f) : IsScope (roles ++ new) f := by
  obtain ⟨ρ, hρ, hscope⟩ := h
  exact ⟨ρ, role_append hρ, hscope⟩

theorem BoundBy.append {x : String} {k : Closure} (h : BoundBy roles f x k) :
    BoundBy (roles ++ new) f x k := by
  obtain ⟨c, hc, hk⟩ := h
  exact ⟨c, role_append hc, hk⟩

/-- The frames of objects are no scopes. -/
theorem IsScope.not_object (h : IsScope roles f) (c : Class) : roles[f]? ≠ some (.object c) := by
  obtain ⟨ρ, hρ, hscope⟩ := h
  intro hobject
  rw [hρ] at hobject
  cases hobject
  cases hscope

/-! ### What a layout says -/

theorem Layout.lt_size (h : Layout roles env) (hρ : roles[f]? = some ρ) : f < env.frames.size := by
  rw [← h.size]
  exact (List.getElem?_eq_some_iff.mp hρ).1

theorem Layout.exists_role (h : Layout roles env) (hf : f < env.frames.size) : ∃ ρ, roles[f]? = some ρ := by
  rw [← h.size] at hf
  exact ⟨roles[f], List.getElem?_eq_getElem hf⟩

/-- From the frame of a class one comes to those of its ancestors. -/
theorem Layout.chain_cls (h : Layout roles env) {c : Class} (hc : roles[f]? = some (.cls c)) :
    env.chain f = classFrames c.lineage := by
  obtain ⟨hframe, -, -, houter, -⟩ := h.lies f _ hc
  rw [chain, houter, hframe]
  rfl

theorem Layout.chain_global (h : Layout roles env) : env.chain global = [global] := by
  obtain ⟨-, houter⟩ := h.lies _ _ h.first
  rw [chain, houter]

/-- Parents are older than their children, so all chains end. -/
theorem Layout.climbs (h : Layout roles env) (hf : f < env.frames.size) : Climbs env f (env.chain f) := by
  induction f using Nat.strongRecOn with
  | _ f ih =>
    by_cases hglobal : f = global
    · subst hglobal
      rw [h.chain_global]
      refine .top ?_
      rw [parent?, (h.lies _ _ h.first).2]
      rfl
    · obtain ⟨g, hg, houter⟩ := h.rooted f hf hglobal
      have hparent : env.parent? f = some g := by
        rw [parent?, houter]
        rfl
      rw [chain, houter]
      exact .up hparent (ih g hg (Nat.lt_trans hg hf))

/-- The classes of a lineage have frames of their own. -/
theorem Layout.role_of_mem_lineage (h : Layout roles env) {c : Class}
    (hc : roles[f]? = some (.cls c)) {d : ClassInfo} (hd : d ∈ c.lineage) :
    ∃ c' : Class, roles[d.frame]? = some (.cls c') ∧ c'.toClassInfo = d := by
  induction hn : c.ancestors.length generalizing c f with
  | zero =>
    rw [Class.lineage, List.length_eq_zero_iff.mp hn, List.mem_singleton] at hd
    obtain ⟨hframe, -⟩ := h.lies f _ hc
    exact ⟨c, by rw [hd, ← hframe]; exact hc, hd.symm⟩
  | succ n ih =>
    obtain ⟨hframe, -, -, -, hancestors⟩ := h.lies f _ hc
    rcases List.mem_cons.mp hd with rfl | hd
    · exact ⟨c, by rw [← hframe]; exact hc, rfl⟩
    · rcases hancestors with hnone | ⟨s, hs, hlineage⟩
      · rw [hnone] at hd
        cases hd
      · rw [hlineage] at hd hn
        exact ih hs hd (by simpa [Class.lineage] using hn)

/-! ### Growing -/

theorem BindsFields.grow {c : Class} (h : BindsFields env f c) (hg : Grows env env')
    (hclosed : ∀ x, env'.bound? f x = env.bound? f x) : BindsFields env' f c := by
  refine ⟨fun x t hx => ?_, fun x b hb => h.only x b (hclosed x ▸ hb)⟩
  obtain ⟨id, v, hbound, hv, hname, htype⟩ := h.each x t hx
  obtain ⟨v', hv', hname', htype'⟩ := hg.types id v hv
  exact ⟨id, v', hg.kept _ _ _ hbound, hv', hname'.trans hname, htype'.trans htype⟩

/-- A frame stays where it lies. -/
theorem Role.Lies.grow (h : ρ.Lies roles env f) (hlayout : Layout roles env) (hf : f < env.frames.size)
    (hg : Grows env env') (hclosed : ∀ c, ρ = .object c → ∀ x, env'.bound? f x = env.bound? f x) :
    ρ.Lies (roles ++ new) env' f := by
  have houter := hg.outer f hf
  cases ρ with
  | global => exact ⟨h.1, houter.trans h.2⟩
  | cls c =>
    obtain ⟨hframe, hname, hfind, ho, hancestors⟩ := h
    refine ⟨hframe, (hg.name f hf).trans hname, hg.findClass hfind, houter.trans ho, ?_⟩
    rcases hancestors with hnone | ⟨s, hs, hlineage⟩
    · exact .inl hnone
    · exact .inr ⟨s, role_append hs, hlineage⟩
  | object c =>
    obtain ⟨hc, ho, hfields⟩ := h
    exact ⟨role_append hc, houter.trans ho, hfields.grow hg (hclosed c rfl)⟩
  | call k receiver =>
    cases receiver with
    | none =>
      obtain ⟨hstatic, c, hc, hname, ho⟩ := h
      exact ⟨hstatic, c, role_append hc, hname, houter.trans ho⟩
    | some object =>
      obtain ⟨hstatic, hobject, ho⟩ := h
      exact ⟨hstatic, role_append hobject, houter.trans ho⟩
  | block =>
    obtain ⟨g, ρ, hρ, hscope, hlt, ho⟩ := h
    refine ⟨g, ρ, role_append hρ, hscope, hlt, ?_⟩
    rw [houter, ho, hg.chain (hlayout.lt_size hρ)]

/-- A store that has grown is laid out if the new frames are, and the new classes and closures are bound
where they belong.  The frames of objects must have stayed as they were. -/
theorem Layout.grow (h : Layout roles env) (new : List Role) (hg : Grows env env')
    (hcurrent : IsScope roles env.current) (hsize : (roles ++ new).length = env'.frames.size)
    (hlies : ∀ f (ρ : Role), roles.length ≤ f → (roles ++ new)[f]? = some ρ → ρ.Lies (roles ++ new) env' f)
    (hrooted : ∀ f < env'.frames.size, env.frames.size ≤ f → ∃ g < f, (env'.frame f).outer = env'.chain g)
    (hclasses : ∀ x c, env'.findClass x = .ok c → env.findClass x = .ok c ∨
      x = c.name ∧ (roles ++ new)[c.frame]? = some (.cls c))
    (hclosures : ∀ f x k, env'.bound? f x = some (.closure k) → env.bound? f x = some (.closure k) ∨
      BoundBy (roles ++ new) f x k) : Layout (roles ++ new) env' := by
  refine ⟨hsize, role_append h.first, fun f ρ hρ => ?_, fun f hf hne => ?_, fun x c hc => ?_,
    fun f x k hk => ?_⟩
  · by_cases hf : f < roles.length
    · rw [List.getElem?_append_left hf] at hρ
      have hf' : f < env.frames.size := h.lt_size hρ
      refine (h.lies f ρ hρ).grow h hf' hg (fun c hc => hg.closed f hf' ?_ ?_)
      · -- nothing is bound in the frame of an object: it is neither current nor global
        rintro rfl
        exact hcurrent.not_object c (hc ▸ hρ)
      · rintro rfl
        rw [h.first, hc] at hρ
        cases hρ
    · exact hlies f ρ (Nat.le_of_not_lt hf) hρ
  · by_cases hf' : f < env.frames.size
    · obtain ⟨g, hlt, ho⟩ := h.rooted f hf' hne
      refine ⟨g, hlt, ?_⟩
      rw [hg.outer f hf', ho, hg.chain (Nat.lt_trans hlt hf')]
    · exact hrooted f hf (Nat.le_of_not_lt hf')
  · rcases hclasses x c hc with hc | hc
    · obtain ⟨hx, hrole⟩ := h.classes x c hc
      exact ⟨hx, role_append hrole⟩
    · exact hc
  · rcases hclosures f x k hk with hk | hk
    · exact (h.closures f x k hk).append
    · exact hk

/-- The store has got no new frames, classes and closures. -/
theorem Layout.grow_same (h : Layout roles env) (hg : Grows env env') (hcurrent : IsScope roles env.current)
    (hl : Lasts env env') (hsize : env'.frames.size = env.frames.size) : Layout roles env' := by
  have hgrow := h.grow [] hg hcurrent (by simp [h.size, hsize]) (fun f ρ hf hρ => ?_)
    (fun f hf hf' => ?_) (fun x c hc => .inl (hl.findClass.mp hc)) (fun f x k hk => ?_)
  · rw [List.append_nil] at hgrow
    exact hgrow
  · rw [List.append_nil] at hρ
    have := (List.getElem?_eq_some_iff.mp hρ).1
    omega
  · omega
  · exact .inl (hl.closure hk)

/-- The store has got one frame more, which lies where it belongs. -/
theorem Layout.push (h : Layout roles env) (hg : Grows env env') (hcurrent : IsScope roles env.current)
    (hsize : env'.frames.size = env.frames.size + 1)
    (hlies : ρ.Lies (roles ++ [ρ]) env' env.frames.size)
    (hrooted : ∃ g < env.frames.size, (env'.frame env.frames.size).outer = env.chain g)
    (hclasses : ∀ x c, env'.findClass x = .ok c → env.findClass x = .ok c ∨
      x = c.name ∧ (roles ++ [ρ])[c.frame]? = some (.cls c))
    (hclosures : ∀ f x k, env'.bound? f x = some (.closure k) → env.bound? f x = some (.closure k)) :
    Layout (roles ++ [ρ]) env' := by
  refine h.grow [ρ] hg hcurrent (by simp [h.size, hsize]) (fun f ρ' hf hρ' => ?_) (fun f hf hf' => ?_)
    hclasses (fun f x k hk => .inl (hclosures f x k hk))
  · have hlt := (List.getElem?_eq_some_iff.mp hρ').1
    obtain rfl : f = roles.length := by
      rw [List.length_append, List.length_singleton] at hlt
      omega
    rw [role_append_new] at hρ'
    cases hρ'
    rw [h.size]
    exact hlies
  · obtain rfl : f = env.frames.size := by omega
    obtain ⟨g, hlt, houter⟩ := hrooted
    exact ⟨g, hlt, by rw [houter, hg.chain hlt]⟩

/-- The same, with neither a new class nor a new closure. -/
theorem Layout.push_lasts (h : Layout roles env) (hg : Grows env env')
    (hcurrent : IsScope roles env.current) (hl : Lasts env env')
    (hsize : env'.frames.size = env.frames.size + 1)
    (hlies : ρ.Lies (roles ++ [ρ]) env' env.frames.size)
    (hrooted : ∃ g < env.frames.size, (env'.frame env.frames.size).outer = env.chain g) :
    Layout (roles ++ [ρ]) env' :=
  h.push hg hcurrent hsize hlies hrooted (fun _ _ hc => .inl (hl.findClass.mp hc))
    (fun _ _ _ hk => hl.closure hk)

/-- The class in the current frame binds one of its callables. -/
theorem Layout.addClosure (h : Layout roles env) {c : Class} {k : Closure}
    (hc : roles[env.current]? = some (.cls c)) (hk : k.callable ∈ c.toClassInfo.callables)
    (hframe : k.frame = env.current) (hname : k.className = env.currentName)
    (hfree : env.bound? env.current k.descriptor = none) : Layout roles (env.addClosure k) := by
  have hgrows : Grows env (env.addClosure k) := (Grows.refl env).addBinding _ (.inr (.inl rfl)) hfree
  have hsize : (env.addClosure k).frames.size = env.frames.size := size_addBinding ..
  have hgrow := h.grow [] hgrows ⟨_, hc, rfl⟩ (by simp [h.size, hsize]) (fun f ρ hf hρ => ?_)
    (fun f hf hf' => ?_) (fun x c' hc' => ?_) (fun f x k' hk' => ?_)
  · rw [List.append_nil] at hgrow
    exact hgrow
  · rw [List.append_nil] at hρ
    have := (List.getElem?_eq_some_iff.mp hρ).1
    omega
  · omega
  · exact .inl ((findClass_addClosure (bindsHere_eq_false.mpr hfree)).mp hc')
  · rw [Environment.addClosure, bound?_addBinding] at hk'
    split at hk'
    · rename_i hnew
      obtain ⟨rfl, -, rfl⟩ := hnew
      cases hk'
      obtain ⟨-, hcname, -⟩ := h.lies _ _ hc
      exact .inr ⟨c, role_append hc, hframe, hname.trans hcname, rfl, hk⟩
    · exact .inl hk'

/-- The frame of a class may lie around that of its superclass. -/
theorem Layout.chain_classSite (h : Layout roles env) {d : ClassDecl} {superclass : Option Class}
    (hsuper : IsSuperclass env d superclass) :
    IsScope roles (classSite superclass) ∧
      env.chain (classSite superclass) = classFrames ((superclass.map Class.lineage).getD []) ∧
      ((superclass.map Class.lineage).getD [] = [] ∨
        ∃ s : Class, roles[s.frame]? = some (.cls s) ∧ (superclass.map Class.lineage).getD [] = s.lineage) := by
  rcases hsuper with ⟨x, s, -, hs, rfl⟩ | ⟨-, rfl⟩
  · have hrole := (h.classes x s hs).2
    exact ⟨⟨_, hrole, rfl⟩, h.chain_cls hrole, .inr ⟨s, hrole, rfl⟩⟩
  · exact ⟨⟨_, h.first, rfl⟩, h.chain_global, .inl rfl⟩

/-- A class is registered, in a new frame around that of its superclass. -/
theorem Layout.addClass (h : Layout roles env) (hcurrent : IsScope roles env.current) {d : ClassDecl}
    {superclass : Option Class} {c : Class} (hsuper : IsSuperclass env d superclass)
    (hc : c = d.elaborate env.frames.size superclass) (hfree : env.bound? global c.name = none) :
    Layout (roles ++ [.cls c]) ((env.extend (classSite superclass) d.name).addClass c) := by
  generalize henv : (env.extend (classSite superclass) d.name).addClass c = env'
  obtain ⟨⟨ρ, hρ, -⟩, hchain, hancestors⟩ := h.chain_classSite hsuper
  have hlt := h.lt_size hρ
  have hgrows : Grows env env' := by
    rw [← henv]
    exact ((Grows.refl env).extend _ _).addBinding _ (.inr (.inr rfl)) hfree
  have hsize : env'.frames.size = env.frames.size + 1 := by
    rw [← henv]
    exact (size_addBinding ..).trans (size_extend ..)
  have houter : (env'.frame env.frames.size).outer = env.chain (classSite superclass) := by
    rw [← henv]
    exact (outer_addBinding ..).trans (outer_extend_new ..)
  have hname : (env'.frame env.frames.size).name = c.name := by
    rw [← henv, Environment.addClass, frame_addBinding, frame_extend, if_pos rfl, hc]
    split <;> rfl
  have hfind : env'.findClass c.name = .ok c := henv ▸ findClass_addClass _ _ _ _
  have hframe : c.frame = env.frames.size := by rw [hc]; rfl
  refine h.push hgrows hcurrent hsize ⟨hframe.symm, hname, hfind, ?_, ?_⟩ ⟨_, hlt, houter⟩
    (fun x c' hc' => ?_) (fun f x k hk => ?_)
  · rw [houter, hchain, hc]
    rfl
  · rw [hc]
    rcases hancestors with hnone | ⟨s, hs, hlineage⟩
    · exact .inl hnone
    · exact .inr ⟨s, role_append hs, hlineage⟩
  · rw [findClass_eq_ok, ← henv] at hc'
    rcases bound?_addClass hc' with hold | ⟨hb, rfl, -⟩
    · exact .inl (findClass_eq_ok.mpr hold)
    · cases hb
      refine .inr ⟨rfl, ?_⟩
      rw [hframe, ← h.size]
      exact role_append_new
  · rw [← henv] at hk
    rcases bound?_addClass hk with hold | ⟨hb, -, -⟩
    · exact hold
    · cases hb

/-- A frame is made for an object that does not get all its fields; nothing runs in it. -/
theorem Layout.instantiate (h : Layout roles env) (hcurrent : IsScope roles env.current) {x : String} {c : Class}
    (hc : env.findClass x = .ok c) : Layout (roles ++ [.block]) (env.instantiate c).2 := by
  have hrole := (h.classes x c hc).2
  have hlt := h.lt_size hrole
  have hgrows := Grows.instantiate env c
  refine h.push_lasts hgrows hcurrent (.instantiate env c) (size_instantiate env c)
    ⟨_, _, role_append hrole, rfl, hlt, ?_⟩ ⟨_, hlt, outer_instantiate_new env c⟩
  rw [outer_instantiate_new, hgrows.chain hlt]

/-- A frame is opened for a class that cannot be registered; nothing runs in it. -/
theorem Layout.extend_classSite (h : Layout roles env) (hcurrent : IsScope roles env.current) {d : ClassDecl}
    {superclass : Option Class} (hsuper : IsSuperclass env d superclass) :
    Layout (roles ++ [.block]) (env.extend (classSite superclass) d.name) := by
  obtain ⟨⟨ρ, hρ, hscope⟩, -⟩ := h.chain_classSite hsuper
  have hlt := h.lt_size hρ
  have hgrows := (Grows.refl env).extend (classSite superclass) d.name
  refine h.push_lasts hgrows hcurrent ((Lasts.refl env).extend _ _) (size_extend ..)
    ⟨_, ρ, role_append hρ, hscope, hlt, ?_⟩ ⟨_, hlt, outer_extend_new ..⟩
  rw [outer_extend_new, hgrows.chain hlt]

end Layout

/-! ### New objects -/

section Objects

/-- The frame of a new object binds the fields of its class. -/
theorem bindsFields_instantiate {env : Environment} {c : Class} (h : c.repeatedField? = none) :
    BindsFields (env.instantiate c).2 env.frames.size c := by
  have hnodup : ((c.allInstanceVars.map freshField).map Variable.name).Nodup := by
    rw [map_name_freshField]
    exact Class.repeatedField?_eq_none.mp h
  have hsize : (env.extend c.frame objectFrame).current < (env.extend c.frame objectFrame).frames.size := by
    rw [size_extend]
    exact Nat.lt_succ_self _
  rw [snd_instantiate h]
  refine ⟨fun x t hx => ?_, fun x b hb => ?_⟩
  · have hv : freshField (x, t) ∈ c.allInstanceVars.map freshField := List.mem_map_of_mem hx
    obtain ⟨id, hbound, hid⟩ := exists_of_mem_addVariables _ hsize hnodup hv
    exact ⟨id, freshField (x, t), hbound, hid, rfl, rfl⟩
  · by_contra hno
    have hx : x ∉ (c.allInstanceVars.map freshField).map Variable.name := by
      rw [map_name_freshField]
      intro hx
      obtain ⟨⟨y, t⟩, hmem, rfl⟩ := List.mem_map.mp hx
      exact hno ⟨t, hmem⟩
    have hfree := bound?_addVariables_of_notMem (env.extend c.frame objectFrame) env.frames.size hx
    rw [bound?_extend, bound?_eq_none_of_size_le (Nat.le_refl _)] at hfree
    rw [bound?_restore, hfree] at hb
    cases hb

end Objects

end StashMachine
