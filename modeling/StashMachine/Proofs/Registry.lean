import StashMachine.Proofs.Track

/-!
# StashMachine.Proofs.Registry — classes while they are declared

* `ClassDecl.Plain`: what the grammar makes sure of in a class.
* `Registered`: what is known of a registered class: its lineage is made of registered classes, no name
  occurs in it twice, and it ends at the root.
* `Environment.Bound`: some callables of a class are bound, and some are left.
* `Forming g pend env`: the environment is sound, except that the callables `pend` of the class in the
  current frame are not bound yet.  Code keeps it, and so does registering a class (`Forming.addClass`)
  and binding a callable (`Forming.addClosure`).
-/

namespace StashMachine

open Environment Step

/-- A class as sources have them. -/
structure ClassDecl.Plain (d : ClassDecl) : Prop where
  name : TypeName.ofString d.name = .named d.name
  methods : ∀ m ∈ d.methods, (Callable.method m).Plain
  constructors : ∀ k ∈ d.constructors, (Callable.constructor k).Plain

/-- What is known of a class that is registered under a name. -/
structure Registered (env : Environment) (x : String) (c : Class) : Prop where
  name : c.name = x
  word : TypeName.ofString x = .named x
  lineage : ∀ d ∈ c.lineage, ∃ c', env.findClass d.name = .ok c' ∧ c'.toClassInfo = d ∧
    c'.lineage <:+ c.lineage
  nodup : (c.lineage.map ClassInfo.name).Nodup
  root : ∃ before d, c.lineage = before ++ [d] ∧ d.name = rootName

/-- All callables of a class but those in `left` are bound, each of them under a key of its own. -/
def Environment.Bound (env : Environment) (d : ClassInfo) (left : List Callable) : Prop :=
  ∃ done, d.callables.Perm (done ++ left) ∧ (∀ k ∈ done, env.BindsIn d k) ∧
    (done.map Callable.descriptor).Nodup

/-- The environment is sound, but for some callables of the class in the current frame. -/
structure Forming (g : Regime) (pend : List Callable) (env : Environment) : Prop where
  returns : ∀ k, env.Binds k → k.callable.Returns
  keys : g.careful → ∀ f x k, env.bound? f x = some (.closure k) →
    x = k.descriptor ∧ k.callable.Plain
  names : g.careful → ∀ f x id, env.bound? f x = some (.var id) →
    ∃ v, env.var? id = some v ∧ v.name = x
  complete : g.careful → ∀ name c, env.findClass name = .ok c → ∀ d ∈ c.lineage, env.Bound d [] ∨
    d.frame = env.current ∧ d.name = env.currentName ∧ env.Bound d pend
  classes : g.careful → ∀ x c, env.findClass x = .ok c → Registered env x c
  place : pend ≠ [] → env.current < env.frames.size

namespace Environment.Bound

variable {env env' : Environment} {d : ClassInfo} {left : List Callable}

theorem bindsIn (h : env.Bound d []) : ∀ k ∈ d.callables, env.BindsIn d k := by
  obtain ⟨done, hperm, hdone, -⟩ := h
  rw [List.append_nil] at hperm
  exact fun k hk => hdone k (hperm.mem_iff.mp hk)

theorem nodup (h : env.Bound d []) : (d.callables.map Callable.descriptor).Nodup := by
  obtain ⟨done, hperm, -, hnodup⟩ := h
  rw [List.append_nil] at hperm
  exact (hperm.map _).nodup_iff.mpr hnodup

theorem kept (h : env.Bound d left)
    (hkept : ∀ f x b, env.bound? f x = some b → env'.bound? f x = some b) : env'.Bound d left := by
  obtain ⟨done, hperm, hdone, hnodup⟩ := h
  exact ⟨done, hperm, fun k hk => hkept _ _ _ (hdone k hk), hnodup⟩

/-- One more callable is bound, under a key that was free. -/
theorem cons {k : Callable} (h : env.Bound d (k :: left)) (hfree : env.bound? d.frame k.descriptor = none)
    (hkept : ∀ f x b, env.bound? f x = some b → env'.bound? f x = some b) (hk : env'.BindsIn d k) :
    env'.Bound d left := by
  obtain ⟨done, hperm, hdone, hnodup⟩ := h
  refine ⟨k :: done, hperm.trans List.perm_middle, fun k' hk' => ?_, ?_⟩
  · rcases List.mem_cons.mp hk' with rfl | hk'
    · exact hk
    · exact hkept _ _ _ (hdone k' hk')
  · rw [List.map_cons, List.nodup_cons]
    refine ⟨fun hmem => ?_, hnodup⟩
    obtain ⟨k', hk', hkey⟩ := List.mem_map.mp hmem
    have hbound := hdone k' hk'
    rw [BindsIn, hkey, hfree] at hbound
    cases hbound

end Environment.Bound

namespace Forming

variable {g : Regime} {env : Environment}

theorem bound (h : Forming g [] env) (hg : g.careful) {name : String} {c : Class}
    (hc : env.findClass name = .ok c) : ∀ d ∈ c.lineage, env.Bound d [] := by
  intro d hd
  rcases h.complete hg name c hc d hd with hd | ⟨-, -, hd⟩ <;> exact hd

theorem sound (h : Forming g [] env) : Sound g env where
  returns := h.returns
  keys := h.keys
  names := h.names
  complete hg _ _ hc d hd := (h.bound hg hc d hd).bindsIn

theorem of_sound (h : Sound g env)
    (hb : g.careful → ∀ x c, env.findClass x = .ok c → ∀ d ∈ c.lineage, env.Bound d [])
    (hc : g.careful → ∀ x c, env.findClass x = .ok c → Registered env x c) : Forming g [] env where
  returns := h.returns
  keys := h.keys
  names := h.names
  complete hg name c hc d hd := .inl (hb hg name c hc d hd)
  classes := hc
  place hp := absurd rfl hp

theorem initial (g : Regime) : Forming g [] .initial := by
  refine of_sound ⟨?_, ?_, ?_, ?_⟩ ?_ ?_
  · rintro k ⟨f, x, h⟩
    simp [bound?_initial] at h
  · intro _ f x k h
    simp [bound?_initial] at h
  · intro _ f x id h
    simp [bound?_initial] at h
  · intro _ name c h
    simp [findClass_eq_ok, bound?_initial] at h
  · intro _ name c h
    simp [findClass_eq_ok, bound?_initial] at h
  · intro _ name c h
    simp [findClass_eq_ok, bound?_initial] at h

end Forming

theorem Registered.of_findClass {env env' : Environment} {x : String} {c : Class}
    (h : Registered env x c)
    (hfind : ∀ y c', env.findClass y = .ok c' → env'.findClass y = .ok c') : Registered env' x c where
  name := h.name
  word := h.word
  lineage d hd := by
    obtain ⟨c', hc', heq, hsuffix⟩ := h.lineage d hd
    exact ⟨c', hfind _ _ hc', heq, hsuffix⟩
  nodup := h.nodup
  root := h.root

/-- What code does keeps the classes. -/
theorem Forming.evolves {g : Regime} {env env' : Environment} (h : Forming g [] env)
    (hev : g.Evolves env env') : Forming g [] env' := by
  have hfind : g.careful → ∀ {y c'}, env'.findClass y = .ok c' ↔ env.findClass y = .ok c' :=
    fun hg => (hev.2 hg).findClass
  refine .of_sound (h.sound.evolves hev) (fun hg x c hc d hd => ?_) (fun hg x c hc => ?_)
  · exact (h.bound hg ((hfind hg).mp hc) d hd).kept (hev.2 hg).kept
  · exact (h.classes hg x c ((hfind hg).mp hc)).of_findClass (fun y c' => (hfind hg).mpr)

/-! ### Binding a callable -/

section Bind

variable {g : Regime} {pend : List Callable} {env : Environment}

theorem ends_defineClosure {r : Registers} {F : Fault → Registers → Prop}
    {Q : Unit → Registers → Prop} (k : Closure) :
    Ends (Step.defineClosure k) r Q F ↔
      (r.env.bindsHere k.descriptor = false → Q () { r with env := r.env.addClosure k }) ∧
      (r.env.bindsHere k.descriptor = true → F (.redeclaration k.text) r) := by
  cases h : r.env.bindsHere k.descriptor <;>
    simp [Step.defineClosure, Environment.checkFree, h]

/-- A binding under a free name hides nothing. -/
theorem bound?_addBinding_of_free {id : FrameId} {y : String} {b b' : Binding} {f : FrameId}
    {x : String} (hfree : env.bound? id y = none) (h : env.bound? f x = some b') :
    (env.addBinding id y b).bound? f x = some b' := by
  rw [bound?_addBinding, if_neg]
  · exact h
  · rintro ⟨rfl, -, rfl⟩
    rw [hfree] at h
    cases h

theorem findClass_addClosure {k : Closure} (hfree : env.bindsHere k.descriptor = false)
    {x : String} {c : Class} : (env.addClosure k).findClass x = .ok c ↔ env.findClass x = .ok c := by
  rw [findClass_eq_ok, findClass_eq_ok]
  refine ⟨fun h => ?_, bound?_addBinding_of_free (bindsHere_eq_false.mp hfree)⟩
  rw [addClosure, bound?_addBinding] at h
  split at h
  · cases h
  · exact h

/-- Binding the next callable of the class in the current frame. -/
theorem Forming.addClosure {callable : Callable} (h : Forming g (callable :: pend) env)
    (hreturns : callable.Returns) (hplain : g.careful → callable.Plain) {k : Closure}
    (hk : k = ⟨callable, env.current, env.currentName⟩)
    (hfree : env.bindsHere k.descriptor = false) : Forming g pend (env.addClosure k) := by
  have hfree' := bindsHere_eq_false.mp hfree
  have hsize := h.place (by simp)
  have hbound : ∀ {f x b}, (env.addClosure k).bound? f x = some b →
      env.bound? f x = some b ∨ x = k.descriptor ∧ b = .closure k := by
    intro f x b hx
    rw [Environment.addClosure, bound?_addBinding] at hx
    split at hx
    · rename_i hnew
      cases hx
      exact .inr ⟨hnew.2.2, rfl⟩
    · exact .inl hx
  have hname : (env.addClosure k).currentName = env.currentName := by
    simp only [Environment.currentName, Environment.addClosure, frame_addBinding]
    split <;> rfl
  have hkept : ∀ f x b, env.bound? f x = some b → (env.addClosure k).bound? f x = some b :=
    fun f x b hx => bound?_addBinding_of_free hfree' hx
  refine ⟨?_, fun hg f x k' hx => ?_, fun hg f x id hx => ?_, fun hg name c hc d hd => ?_,
    fun hg x c hc => ?_, fun _ => ?_⟩
  · rintro k' ⟨f, x, hx⟩
    rcases hbound hx with hx | ⟨-, hnew⟩
    · exact h.returns k' ⟨f, x, hx⟩
    · cases hnew
      rw [hk]
      exact hreturns
  · rcases hbound hx with hx | ⟨hkey, hnew⟩
    · exact h.keys hg f x k' hx
    · cases hnew
      refine ⟨hkey, ?_⟩
      rw [hk]
      exact hplain hg
  · rcases hbound hx with hx | ⟨-, hnew⟩
    · exact h.names hg f x id hx
    · cases hnew
  · rcases h.complete hg name c ((findClass_addClosure hfree).mp hc) d hd with
      hb | ⟨hframe, hdname, hb⟩
    · exact .inl (hb.kept hkept)
    · refine .inr ⟨hframe, hdname.trans hname.symm, hb.cons ?_ hkept ?_⟩
      · rw [hframe]
        subst hk
        exact hfree'
      · rw [BindsIn, hframe, hdname, Environment.addClosure, bound?_addBinding]
        subst hk
        rw [if_pos ⟨rfl, hsize, rfl⟩]
  · exact (h.classes hg x c ((findClass_addClosure hfree).mp hc)).of_findClass
      (fun y c' => (findClass_addClosure hfree).mpr)
  · simp only [Environment.addClosure, addBinding, Array.size_modify]
    exact hsize

end Bind

/-! ### Registering a class -/

section Register

variable {g : Regime} {env : Environment} {d : ClassDecl} {superclass : Option Class}

theorem ends_defineClass {r : Registers} {F : Fault → Registers → Prop}
    {Q : Unit → Registers → Prop} (c : Class) :
    Ends (Step.defineClass c) r Q F ↔
      (r.env.bound? global c.name = none → Q () { r with env := r.env.addClass c }) ∧
      (r.env.bound? global c.name ≠ none → F (.redeclaration c.name) r) := by
  have hhas : (r.env.frame global).has c.name = (r.env.bound? global c.name).isSome := rfl
  cases h : r.env.bound? global c.name <;>
    simp [Step.defineClass, Environment.checkNewClass, hhas, h]

/-- The superclass that a class is elaborated with. -/
def IsSuperclass (env : Environment) (d : ClassDecl) (superclass : Option Class) : Prop :=
  (∃ x c, d.superName? = some x ∧ env.findClass x = .ok c ∧ superclass = some c) ∨
    d.superName? = none ∧ superclass = none

theorem ends_superclassOf {control : List Item} {stash : List StashItem} {out : List String}
    {Q : Option Class → Registers → Prop}
    (hQ : ∀ superclass, IsSuperclass env d superclass →
      Q superclass ⟨control, stash, env, out⟩) :
    Ends (superclassOf d) ⟨control, stash, env, out⟩ Q (fun e _ => g.Blames e) := by
  unfold superclassOf
  split
  · rename_i x hx
    simp only [ends_bind, ends_ask, ends_pure]
    exact ⟨fun c hc => hQ _ (.inl ⟨x, c, hx, hc, rfl⟩), fun e he => (env.flawless_findClass x).blames he⟩
  · rename_i hx
    exact hQ none (.inr ⟨hx, rfl⟩)

theorem name_eq_of_superName?_none (h : d.superName? = none) : d.name = rootName := by
  unfold ClassDecl.superName? at h
  split at h
  · cases h
  · split at h
    · assumption
    · cases h

theorem lineage_elaborate (d : ClassDecl) (f : FrameId) (superclass : Option Class) :
    (d.elaborate f superclass).lineage
      = (d.elaborate f superclass).toClassInfo :: (superclass.map Class.lineage).getD [] := rfl

theorem returns_of_mem_callables {f : FrameId} {k : Callable}
    (h : k ∈ (d.elaborate f superclass).toClassInfo.callables) : k.Returns := by
  simp only [ClassInfo.callables, ClassInfo.methods, ClassDecl.elaborate, List.map_append,
    List.mem_append, List.mem_map] at h
  rcases h with (⟨m, ⟨m', -, rfl⟩, rfl⟩ | ⟨m, ⟨m', -, rfl⟩, rfl⟩) | ⟨k', ⟨k'', -, rfl⟩, rfl⟩
  · exact m'.elaborate_returns d.name
  · exact m'.elaborate_returns d.name
  · exact k''.elaborate_returns _ _

theorem plain_of_mem_callables {f : FrameId} {k : Callable} (hd : d.Plain)
    (h : k ∈ (d.elaborate f superclass).toClassInfo.callables) : k.Plain := by
  simp only [ClassInfo.callables, ClassInfo.methods, ClassDecl.elaborate, List.map_append,
    List.mem_append, List.mem_map, List.mem_filter] at h
  rcases h with (⟨m, ⟨m', ⟨hm', -⟩, rfl⟩, rfl⟩ | ⟨m, ⟨m', ⟨hm', -⟩, rfl⟩, rfl⟩) |
    ⟨k', ⟨k'', hk'', rfl⟩, rfl⟩
  · exact MethodDecl.elaborate_plain d.name (hd.methods m' hm')
  · exact MethodDecl.elaborate_plain d.name (hd.methods m' hm')
  · exact ConstructorDecl.elaborate_plain _ _ (hd.constructors k'' hk'')

section Add

variable {around : FrameId} {name : String} {c : Class}

theorem bound?_addClass {f : FrameId} {x : String} {b : Binding}
    (h : ((env.extend around name).addClass c).bound? f x = some b) :
    env.bound? f x = some b ∨ b = .cls c ∧ x = c.name ∧ f = global := by
  rw [Environment.addClass, bound?_addBinding] at h
  split at h
  · rename_i hnew
    cases h
    exact .inr ⟨rfl, hnew.2.2, hnew.1⟩
  · rw [bound?_extend] at h
    exact .inl h

/-- The new class is found. -/
theorem findClass_addClass (env : Environment) (around : FrameId) (name : String) (c : Class) :
    ((env.extend around name).addClass c).findClass c.name = .ok c := by
  have hsize : global < (env.extend around name).frames.size := by simp [Environment.extend, global]
  rw [findClass_eq_ok, Environment.addClass, bound?_addBinding, if_pos ⟨rfl, hsize, rfl⟩]

/-- A class under a free name hides nothing. -/
theorem bound?_addClass_of_free (hfree : env.bound? global c.name = none) (f : FrameId) (x : String)
    (b : Binding) (h : env.bound? f x = some b) :
    ((env.extend around name).addClass c).bound? f x = some b := by
  refine bound?_addBinding_of_free ?_ ?_
  · rw [bound?_extend, hfree]
  · rw [bound?_extend, h]

theorem findClass_addClass_of_free (hfree : env.bound? global c.name = none) {x : String} {c' : Class}
    (h : env.findClass x = .ok c') : ((env.extend around name).addClass c).findClass x = .ok c' :=
  findClass_eq_ok.mpr (bound?_addClass_of_free hfree _ _ _ (findClass_eq_ok.mp h))

/-- The new class has bound nothing yet, and its ancestors everything. -/
theorem Forming.bound_addClass (h : Forming g [] env) (hg : g.careful)
    (hsuper : IsSuperclass env d superclass) (hc : c = d.elaborate env.frames.size superclass)
    (hfree : env.bound? global c.name = none) {pend : List Callable}
    (hpend : c.toClassInfo.callables.Perm pend) :
    ∀ d' ∈ c.lineage, ((env.extend around d.name).addClass c).Bound d' [] ∨
      d'.frame = env.frames.size ∧ d'.name = ((env.extend around d.name).addClass c).currentName ∧
        ((env.extend around d.name).addClass c).Bound d' pend := by
  intro d' hd'
  rw [hc, lineage_elaborate] at hd'
  rcases List.mem_cons.mp hd' with rfl | hd'
  · refine .inr ⟨rfl, ?_, [], hc ▸ hpend, by simp, List.nodup_nil⟩
    have hcur : ((env.extend around d.name).addClass c).current = env.frames.size := rfl
    rw [Environment.currentName, hcur, Environment.addClass, frame_addBinding, frame_extend, if_pos rfl]
    split <;> rfl
  · rcases hsuper with ⟨x, c₁, -, hx, rfl⟩ | ⟨-, rfl⟩
    · exact .inl ((h.bound hg hx d' hd').kept (bound?_addClass_of_free hfree))
    · cases hd'

/-- The new class is registered on top of its superclass. -/
theorem Forming.registered_addClass (h : Forming g [] env) (hg : g.careful) (hd : d.Plain)
    (hsuper : IsSuperclass env d superclass) (hc : c = d.elaborate env.frames.size superclass)
    (hfree : env.bound? global c.name = none)
    (hfind : ((env.extend around d.name).addClass c).findClass c.name = .ok c) :
    Registered ((env.extend around d.name).addClass c) c.name c := by
  have hname : c.name = d.name := by rw [hc]; rfl
  have hword : TypeName.ofString c.name = .named c.name := by
    rw [hname]
    exact hd.name
  rcases hsuper with ⟨x, c₁, -, hx, rfl⟩ | ⟨hnone, rfl⟩
  · have hl : c.lineage = c.toClassInfo :: c₁.lineage := by rw [hc]; rfl
    have h₁ := h.classes hg x c₁ hx
    refine ⟨rfl, hword, fun d' hd' => ?_, ?_, ?_⟩
    · rw [hl] at hd'
      rcases List.mem_cons.mp hd' with rfl | hd'
      · exact ⟨c, hfind, rfl, List.suffix_refl _⟩
      · obtain ⟨c₂, hc₂, heq, hsuffix⟩ := h₁.lineage d' hd'
        refine ⟨c₂, findClass_addClass_of_free hfree hc₂, heq, ?_⟩
        rw [hl]
        exact hsuffix.trans (List.suffix_cons _ _)
    · -- the names of the ancestors are taken, and that of the class is free
      rw [hl, List.map_cons, List.nodup_cons]
      refine ⟨fun hmem => ?_, h₁.nodup⟩
      obtain ⟨d', hd', hd'name⟩ := List.mem_map.mp hmem
      obtain ⟨c₂, hc₂, -⟩ := h₁.lineage d' hd'
      rw [findClass_eq_ok, hd'name, hfree] at hc₂
      cases hc₂
    · obtain ⟨before, o, ho, hoName⟩ := h₁.root
      exact ⟨c.toClassInfo :: before, o, by rw [hl, ho]; rfl, hoName⟩
  · have hl : c.lineage = [c.toClassInfo] := by rw [hc]; rfl
    refine ⟨rfl, hword, fun d' hd' => ?_, by rw [hl]; simp, [], c.toClassInfo, hl, ?_⟩
    · rw [hl] at hd'
      obtain rfl := List.mem_singleton.mp hd'
      exact ⟨c, hfind, rfl, List.suffix_refl _⟩
    · rw [hname]
      exact name_eq_of_superName?_none hnone

end Add

/-- Registering a class whose callables are all still to be bound. -/
theorem Forming.addClass (h : Forming g [] env) (hd : g.careful → d.Plain)
    (hsuper : IsSuperclass env d superclass) (around : FrameId) {c : Class}
    (hc : c = d.elaborate env.frames.size superclass)
    (hfree : env.bound? global c.name = none) {pend : List Callable}
    (hpend : c.toClassInfo.callables.Perm pend) :
    Forming g pend ((env.extend around d.name).addClass c) := by
  refine ⟨?_, fun hg f x k hx => ?_, fun hg f x id hx => ?_, fun hg x c' hc' d' hd' => ?_,
    fun hg x c' hc' => ?_, fun _ => ?_⟩
  · rintro k ⟨f, x, hx⟩
    rcases bound?_addClass hx with hx | ⟨hnew, -⟩
    · exact h.returns k ⟨f, x, hx⟩
    · cases hnew
  · rcases bound?_addClass hx with hx | ⟨hnew, -⟩
    · exact h.keys hg f x k hx
    · cases hnew
  · rcases bound?_addClass hx with hx | ⟨hnew, -⟩
    · exact h.names hg f x id hx
    · cases hnew
  · rcases bound?_addClass (findClass_eq_ok.mp hc') with hx | ⟨hnew, -⟩
    · have hbound := h.bound hg (findClass_eq_ok.mpr hx) d' hd'
      exact .inl (hbound.kept (bound?_addClass_of_free hfree))
    · cases hnew
      exact h.bound_addClass hg hsuper hc hfree hpend d' hd'
  · rcases bound?_addClass (findClass_eq_ok.mp hc') with hx | ⟨hnew, hx, -⟩
    · have hregistered := h.classes hg x c' (findClass_eq_ok.mpr hx)
      exact hregistered.of_findClass (fun _ _ => findClass_addClass_of_free hfree)
    · cases hnew
      subst hx
      exact h.registered_addClass hg (hd hg) hsuper hc hfree hc'
  · simp only [Environment.addClass, addBinding, Array.size_modify]
    simp [Environment.extend]

end Register

end StashMachine
