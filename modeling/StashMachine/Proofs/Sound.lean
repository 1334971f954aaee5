import StashMachine.Proofs.Faults
import StashMachine.Proofs.Flow

/-!
# StashMachine.Proofs.Sound — environments that code can rely on

* `Environment.Complete`: a class and its ancestors have bound all their methods and constructors.
* `Sound`: what the environment of a run offers to code; changes that code makes keep it
  (`Sound.evolves`).
* What resolution finds in such an environment: closures that are bound, that return, and that take as
  many arguments as are passed.
-/

namespace StashMachine

open Environment

/-- The callables of a class. -/
def ClassInfo.callables (d : ClassInfo) : List Callable :=
  d.methods.map .method ++ d.constructors.map .constructor

/-- A class has bound a callable in its own frame. -/
def Environment.BindsIn (env : Environment) (d : ClassInfo) (k : Callable) : Prop :=
  env.bound? d.frame k.descriptor = some (.closure ⟨k, d.frame, d.name⟩)

/-- A class and its ancestors have bound all their methods and constructors. -/
def Environment.Complete (env : Environment) (c : Class) : Prop :=
  ∀ d ∈ c.lineage, ∀ k ∈ d.callables, env.BindsIn d k

/-- What an environment offers to code. -/
structure Sound (g : Regime) (env : Environment) : Prop where
  returns : ∀ k, env.Binds k → k.callable.Returns
  keys : g.careful → ∀ f x k, env.bound? f x = some (.closure k) →
    x = k.descriptor ∧ k.callable.Plain
  names : g.careful → ∀ f x id, env.bound? f x = some (.var id) →
    ∃ v, env.var? id = some v ∧ v.name = x
  complete : g.careful → ∀ name c, env.findClass name = .ok c → env.Complete c

section Sound

variable {g : Regime} {env env' : Environment}

theorem Environment.Complete.lasts {c : Class} (h : env.Complete c) (hl : Lasts env env') :
    env'.Complete c := fun d hd k hk => hl.kept _ _ _ (h d hd k hk)

/-- What code does to a sound environment keeps it sound. -/
theorem Sound.evolves (hs : Sound g env) (h : g.Evolves env env') : Sound g env' := by
  refine ⟨fun k hk => ?_, fun hg f x k hx => ?_, fun hg f x id hx => ?_, fun hg name c hc => ?_⟩
  · rcases h.1 k hk with hk | hk
    · exact hs.returns k hk
    · exact hk
  · rcases (h.2 hg).fresh f x _ hx with hold | ⟨id, v, hb, -⟩
    · exact hs.keys hg f x k hold
    · cases hb
  · rcases (h.2 hg).fresh f x _ hx with hold | ⟨id', v, hb, hv, hname⟩
    · obtain ⟨v, hv, hname⟩ := hs.names hg f x id hold
      obtain ⟨v', hv', hname'⟩ := (h.2 hg).vars id v hv
      exact ⟨v', hv', hname'.trans hname⟩
    · cases hb
      exact ⟨v, hv, hname⟩
  · exact (hs.complete hg name c ((h.2 hg).findClass.mp hc)).lasts (h.2 hg)

end Sound

/-! ### What resolution finds -/

namespace Environment

variable {env : Environment} {types : List TypeName}

theorem binds_of_boundClosure {c : ClassInfo} {x : String} {k : Closure}
    (h : env.boundClosure c x = .ok k) : env.bound? c.frame x = some (.closure k) := by
  unfold boundClosure at h
  split at h
  · rename_i k' hk
    cases h
    exact ownClosure?_eq_some.mp hk
  · cases h

theorem mem_of_mostSpecific {ks : List Closure} {k : Closure} (h : env.mostSpecific ks = .one k) :
    k ∈ ks := by
  unfold mostSpecific at h
  split at h
  · cases h
  · cases h
    simp
  · split at h
    · rename_i k' hk
      cases h
      have : k ∈ ks.filter (fun c => ks.all (fun d => env.moreSpecific c d)) := by simp [hk]
      exact (List.mem_filter.mp this).1
    · cases h

theorem mem_firstOfEach {seen : List String} {ds : List Declared} {d : Declared}
    (h : d ∈ firstOfEach seen ds) : d ∈ ds := by
  induction ds generalizing seen with
  | nil => exact h
  | cons d' ds ih =>
    unfold firstOfEach at h
    split at h
    · exact .tail _ (ih h)
    · rcases List.mem_cons.mp h with rfl | h
      · exact .head _
      · exact .tail _ (ih h)

/-- The methods that overload a name are declared along the lineage, with the right number of
parameters. -/
theorem of_mem_overloads {c : Class} {name : String} {n : Nat} {d : Declared}
    (h : d ∈ overloads c name n) :
    d.owner ∈ c.lineage ∧ ∃ m ∈ d.owner.methods, d.callable = .method m ∧ m.name = name ∧
      m.params.length = n := by
  have h' := mem_firstOfEach h
  simp only [List.mem_flatMap, List.mem_map, List.mem_filter, Bool.and_eq_true, beq_iff_eq] at h'
  obtain ⟨owner, howner, m, ⟨hm, hname, hn⟩, rfl⟩ := h'
  exact ⟨howner, m, hm, rfl, hname, hn⟩

theorem exists_of_mem_candidates {ds : List Declared} {ks : List Closure}
    (h : env.candidates types ds = .ok ks) {k : Closure} (hk : k ∈ ks) :
    ∃ d ∈ ds, env.applicable d.callable.paramTypes types = true ∧
      env.bound? d.owner.frame d.descriptor = some (.closure k) := by
  induction ds generalizing ks with
  | nil =>
    cases h
    cases hk
  | cons d ds ih =>
    unfold candidates at h
    split at h
    · rename_i happ
      obtain ⟨k', hb, h⟩ := except_bind_eq_ok.mp h
      obtain ⟨ks', hr, h⟩ := except_bind_eq_ok.mp h
      cases h
      rcases List.mem_cons.mp hk with rfl | hk
      · exact ⟨d, by simp, happ, binds_of_boundClosure hb⟩
      · obtain ⟨d', hd', hbound⟩ := ih hr hk
        exact ⟨d', by simp [hd'], hbound⟩
    · obtain ⟨d', hd', hbound⟩ := ih h hk
      exact ⟨d', by simp [hd'], hbound⟩

theorem length_eq_of_applicable {ps as : List TypeName} (h : env.applicable ps as = true) :
    ps.length = as.length := by
  fun_induction applicable env ps as with
  | case1 => rfl
  | case2 p ps a as ih =>
    simp only [Bool.and_eq_true] at h
    simp [ih h.2]
  | case3 => cases h

theorem exists_of_resolveMethod {q : TypeName} {name : String} {k : Closure}
    (h : env.resolveMethod q name types = .ok k) :
    ∃ c, env.findClass q.text = .ok c ∧ ∃ d ∈ overloads c name types.length,
      env.bound? d.owner.frame d.descriptor = some (.closure k) := by
  obtain ⟨c, hc, h⟩ := except_bind_eq_ok.mp h
  refine ⟨c, hc, ?_⟩
  simp only at h
  split at h
  · obtain ⟨ks, hks, h⟩ := except_bind_eq_ok.mp h
    split at h
    · rename_i k' hone
      cases h
      obtain ⟨d, hd, -, hbound⟩ := exists_of_mem_candidates hks (mem_of_mostSpecific hone)
      exact ⟨d, hd, hbound⟩
    · cases h
    · cases h
  · cases h

theorem exists_of_resolveConstructor {name : String} {k : Closure}
    (h : env.resolveConstructor name types = .ok k) :
    ∃ c, env.findClass name = .ok c ∧ ∃ d ∈ c.constructors, d.params.length = types.length ∧
      env.bound? c.frame (Callable.constructor d).descriptor = some (.closure k) := by
  obtain ⟨c, hc, h⟩ := except_bind_eq_ok.mp h
  obtain ⟨ks, hks, h⟩ := except_bind_eq_ok.mp h
  refine ⟨c, hc, ?_⟩
  split at h
  · rename_i k' hone
    cases h
    obtain ⟨d, hd, happ, hbound⟩ := exists_of_mem_candidates hks (mem_of_mostSpecific hone)
    obtain ⟨k₀, hk₀, rfl⟩ := List.mem_map.mp hd
    exact ⟨k₀, hk₀, by simpa [Callable.paramTypes, Callable.params] using length_eq_of_applicable happ, hbound⟩
  · cases h
  · cases h

/-! ### Nothing is missing where the classes are complete -/

theorem Complete.method {c : Class} (h : env.Complete c) {d : ClassInfo} (hd : d ∈ c.lineage)
    {m : MethodDecl} (hm : m ∈ d.methods) : env.BindsIn d (.method m) :=
  h d hd _ (by simp [ClassInfo.callables, hm])

theorem Complete.constructor {c : Class} (h : env.Complete c) {k : ConstructorDecl}
    (hk : k ∈ c.constructors) : env.BindsIn c.toClassInfo (.constructor k) :=
  h _ (by simp [Class.lineage]) _ (by simp [ClassInfo.callables, hk])

theorem BindsIn.boundClosure {d : ClassInfo} {k : Callable} (h : env.BindsIn d k) :
    env.boundClosure d k.descriptor = .ok ⟨k, d.frame, d.name⟩ := by
  rw [Environment.boundClosure, ownClosure?_eq_some.mpr h]

theorem flawless_candidates {ds : List Declared}
    (h : ∀ d ∈ ds, env.BindsIn d.owner d.callable) : Flawless (env.candidates types ds) := by
  induction ds with
  | nil => simp [candidates]
  | cons d ds ih =>
    have ih' := ih (fun d' hd' => h d' (by simp [hd']))
    unfold candidates
    split
    · refine Flawless.bind ?_ (fun k _ => ih'.bind (fun ks _ => by simp))
      exact (h d (by simp)).boundClosure ▸ Flawless.ok _
    · exact ih'

section Complete

variable (h : ∀ name c, env.findClass name = .ok c → env.Complete c)

include h

theorem flawless_resolveMethod (q : TypeName) (name : String) (types : List TypeName) :
    Flawless (env.resolveMethod q name types) := by
  refine (env.flawless_findClass _).bind (fun c hc => ?_)
  simp only
  split
  · refine (flawless_candidates (fun d hd => ?_)).bind (fun ks _ => ?_)
    · obtain ⟨howner, m, hm, hmethod, -⟩ := of_mem_overloads hd
      rw [hmethod]
      exact (h _ c hc).method howner hm
    · split <;> simp
  · simp

theorem flawless_resolveConstructor (name : String) (types : List TypeName) :
    Flawless (env.resolveConstructor name types) := by
  refine (env.flawless_findClass _).bind (fun c hc => ?_)
  refine (flawless_candidates (fun d hd => ?_)).bind (fun ks _ => ?_)
  · obtain ⟨k, hk, rfl⟩ := List.mem_map.mp hd
    exact (h _ c hc).constructor hk
  · split <;> simp

end Complete

mutual

theorem flawless_staticType (h : ∀ name c, env.findClass name = .ok c → env.Complete c) :
    ∀ e, Flawless (env.staticType e)
  | .literal _ => by simp [staticType]
  | .name p => by simpa only [staticType] using env.flawless_pathType p
  | .assign p _ => by simpa only [staticType] using env.flawless_pathType p
  | .compound _ p _ => by simpa only [staticType] using env.flawless_pathType p
  | .increment _ _ p => by simpa only [staticType] using env.flawless_pathType p
  | .binary op l r => by
    rw [staticType]
    exact (flawless_staticType h l).bind (fun _ _ => (flawless_staticType h r).bind
      (fun _ _ => flawless_binaryType op _ _))
  | .unary op e => by
    rw [staticType]
    exact (flawless_staticType h e).bind (fun _ _ => flawless_unaryType op _)
  | .call (.simple m) _ => by simp [staticType]
  | .call (.field q m) args => by
    rw [staticType]
    exact (env.flawless_pathType q).bind (fun _ _ => (flawless_staticTypes h args).bind
      (fun _ _ => (flawless_resolveMethod h _ _ _).bind (fun _ _ => by simp)))
  | .new _ _ => by simp [staticType]
  | .array _ _ => by simp [staticType]
  | .void => by simp [staticType]

theorem flawless_staticTypes (h : ∀ name c, env.findClass name = .ok c → env.Complete c) :
    ∀ es, Flawless (env.staticTypes es)
  | [] => by simp [staticTypes]
  | e :: es => by
    rw [staticTypes]
    exact (flawless_staticType h e).bind (fun _ _ => (flawless_staticTypes h es).bind
      (fun _ _ => by simp))

end

end Environment

/-! ### The closures that calls find -/

namespace Sound

variable {g : Regime} {env : Environment} {types : List TypeName} {k : Closure}

theorem binds {f : FrameId} {x : String} (h : env.bound? f x = some (.closure k)) : env.Binds k :=
  ⟨f, x, h⟩

theorem callee_of_resolveMethod (hs : Sound g env) {q : TypeName} {name : String}
    (h : env.resolveMethod q name types = .ok k) : g.Callee k k.callable.isStatic types.length := by
  obtain ⟨c, hc, d, hd, hk⟩ := exists_of_resolveMethod h
  refine ⟨hs.returns k (binds hk), fun hg => ⟨rfl, ?_, (hs.keys hg _ _ _ hk).2⟩⟩
  obtain ⟨howner, m, hm, hmethod, -, hn⟩ := of_mem_overloads hd
  have hbound := (hs.complete hg _ c hc).method howner hm
  rw [BindsIn, ← hmethod, show d.callable.descriptor = d.descriptor from rfl, hk, hmethod] at hbound
  cases hbound
  exact hn

theorem callee_of_resolveConstructor (hs : Sound g env) {name : String}
    (h : env.resolveConstructor name types = .ok k) : g.Callee k false types.length := by
  obtain ⟨c, hc, d, hd, hn, hk⟩ := exists_of_resolveConstructor h
  refine ⟨hs.returns k (binds hk), fun hg => ?_⟩
  have hplain := (hs.keys hg _ _ _ hk).2
  have hbound := (hs.complete hg _ c hc).constructor hd
  rw [BindsIn, hk] at hbound
  cases hbound
  exact ⟨rfl, hn, hplain⟩

/-- The receiver's own implementation takes as many arguments as the selected method. -/
theorem callee_resolveOverride (hs : Sound g env) (c : Class) {n : Nat} (h : g.Callee k false n) :
    g.Callee (env.resolveOverride c k) false n := by
  unfold resolveOverride
  cases hfind : (c.lineage.filterMap (fun d => env.ownClosure? d k.descriptor)).find?
      (fun k => !k.callable.isStatic) with
  | none => exact h
  | some k' =>
    obtain ⟨d, -, hd⟩ := List.mem_filterMap.mp (List.mem_of_find?_eq_some hfind)
    have hk' := ownClosure?_eq_some.mp hd
    have hstatic := List.find?_some hfind
    refine ⟨hs.returns k' (binds hk'), fun hg => ?_⟩
    obtain ⟨-, hn, hplain⟩ := h.2 hg
    obtain ⟨hkey, hplain'⟩ := hs.keys hg _ _ _ hk'
    have htypes := (descriptor_injective hplain.1 hplain'.1 hkey).2
    refine ⟨by simpa using hstatic, ?_, hplain'⟩
    have hlen := congrArg List.length htypes
    simp only [Callable.paramTypes, List.length_map] at hlen
    exact hlen.symm.trans hn

end Sound

end StashMachine
