import StashMachine.Proofs.Assignability
import StashMachine.Proofs.Parsed
import StashMachine.Proofs.Phases
import Mathlib.Data.List.Nodup

/-!
# StashMachine.Proofs.Overload — resolution finds the most specific callable

* `MaximallySpecific`: no other closure of a set is strictly more specific.  Of finitely many closures,
  one is more specific than all others if and only if it is the only maximally specific one
  (`forall_moreSpecific_iff`).
* `MethodCandidate`, `ConstructorCandidate`: the closures that a call can mean.
* `Settled`: what is known of a class whose declarations have all been executed.
* `overload_resolution`: what resolution gives, for every outcome.
-/

namespace StashMachine

open Environment

/-! ### The choice of a closure -/

/-- One closure is more specific than another one, and not the other way round. -/
def StrictlyMoreSpecific (env : Environment) (k k' : Closure) : Prop :=
  env.moreSpecific k k' = true ∧ env.moreSpecific k' k = false

/-- A closure of a set than which none of the set is strictly more specific. -/
def MaximallySpecific (env : Environment) (A : Closure → Prop) (k : Closure) : Prop :=
  A k ∧ ∀ k', A k' → ¬ StrictlyMoreSpecific env k' k

/-- The only maximally specific closure of a set. -/
def OnlyMaximallySpecific (env : Environment) (A : Closure → Prop) (k : Closure) : Prop :=
  MaximallySpecific env A k ∧ ∀ k', MaximallySpecific env A k' → k' = k

section Choice

variable {env : Environment} {ks : List Closure} {k k' : Closure}

theorem StrictlyMoreSpecific.not_moreSpecific (h : StrictlyMoreSpecific env k k') :
    env.moreSpecific k' k ≠ true := by
  simp [h.2]

/-- Candidates that can be compared: their parameter types are plain, and tell them apart. -/
structure Comparable (ks : List Closure) : Prop where
  plain : ∀ k ∈ ks, ∀ t ∈ k.callable.paramTypes, t.Plain
  apart : ∀ k ∈ ks, ∀ k' ∈ ks, k.callable.paramTypes = k'.callable.paramTypes → k = k'
  nodup : ks.Nodup

variable (henv : env.Orderly) (hks : Comparable ks)

include henv hks

theorem moreSpecific_refl (hk : k ∈ ks) : env.moreSpecific k k = true :=
  applicable_refl henv (hks.plain k hk)

theorem moreSpecific_trans {k₁ k₂ k₃ : Closure} (h₁ : k₁ ∈ ks) (h₂ : k₂ ∈ ks) (h₃ : k₃ ∈ ks)
    (h : env.moreSpecific k₁ k₂ = true) (h' : env.moreSpecific k₂ k₃ = true) :
    env.moreSpecific k₁ k₃ = true :=
  applicable_trans henv (hks.plain k₃ h₃) (hks.plain k₂ h₂) (hks.plain k₁ h₁) h' h

theorem moreSpecific_antisymm (hk : k ∈ ks) (hk' : k' ∈ ks) (h : env.moreSpecific k k' = true)
    (h' : env.moreSpecific k' k = true) : k = k' :=
  hks.apart k hk k' hk' (applicable_antisymm henv (hks.plain k hk) (hks.plain k' hk') h' h)

/-- Every candidate has a maximally specific one below it. -/
theorem exists_maximallySpecific (hk : k ∈ ks) :
    ∃ k', MaximallySpecific env (· ∈ ks) k' ∧ env.moreSpecific k' k = true := by
  -- among any of the candidates there is one that cannot be improved on
  have key : ∀ ds : List Closure, (∀ d ∈ ds, d ∈ ks) → ∀ k ∈ ks, ∃ k' ∈ ks,
      env.moreSpecific k' k = true ∧ ∀ d ∈ ds, ¬ StrictlyMoreSpecific env d k' := by
    intro ds hds
    induction ds with
    | nil => exact fun k hk => ⟨k, hk, moreSpecific_refl henv hks hk, by simp⟩
    | cons d ds ih =>
      have ih' := ih (fun d' hd' => hds d' (by simp [hd']))
      have hd : d ∈ ks := hds d (by simp)
      intro k hk
      obtain ⟨k', hk', hle, hbest⟩ := ih' k hk
      by_cases hstrict : StrictlyMoreSpecific env d k'
      · obtain ⟨k'', hk'', hle', hbest'⟩ := ih' d hd
        refine ⟨k'', hk'', ?_, fun d' hd' hlt => ?_⟩
        · exact moreSpecific_trans henv hks hk'' hd hk hle'
            (moreSpecific_trans henv hks hd hk' hk hstrict.1 hle)
        · rcases List.mem_cons.mp hd' with rfl | hd'
          · exact hlt.not_moreSpecific hle'
          · exact hbest' d' hd' hlt
      · refine ⟨k', hk', hle, fun d' hd' => ?_⟩
        rcases List.mem_cons.mp hd' with rfl | hd'
        · exact hstrict
        · exact hbest d' hd'
  obtain ⟨k', hk', hle, hbest⟩ := key ks (fun _ h => h) k hk
  exact ⟨k', ⟨hk', hbest⟩, hle⟩

/-- A candidate is more specific than all others if and only if it is the only maximally specific
one. -/
theorem forall_moreSpecific_iff : (k ∈ ks ∧ ∀ d ∈ ks, env.moreSpecific k d = true) ↔
    OnlyMaximallySpecific env (· ∈ ks) k := by
  constructor
  · rintro ⟨hk, hall⟩
    refine ⟨⟨hk, fun k' hk' hlt => ?_⟩, fun k' hk' => ?_⟩
    · exact hlt.not_moreSpecific (hall k' hk')
    · by_contra hne
      refine hk'.2 k hk ⟨hall k' hk'.1, ?_⟩
      rw [Bool.eq_false_iff]
      exact fun h => hne (moreSpecific_antisymm henv hks hk'.1 hk h (hall k' hk'.1))
  · rintro ⟨hk, honly⟩
    refine ⟨hk.1, fun d hd => ?_⟩
    obtain ⟨k', hk', hle⟩ := exists_maximallySpecific henv hks hd
    rw [← honly k' hk']
    exact hle

omit henv hks in
theorem mostSpecific_eq_none : env.mostSpecific ks = .none ↔ ks = [] := by
  unfold mostSpecific
  split
  · simp
  · simp
  · rename_i hnil _
    constructor
    · intro h
      split at h <;> cases h
    · intro h
      exact absurd h hnil

theorem mostSpecific_eq_one :
    env.mostSpecific ks = .one k ↔ OnlyMaximallySpecific env (· ∈ ks) k := by
  rw [← forall_moreSpecific_iff henv hks]
  have hfilter : ∀ d, d ∈ ks.filter (fun c => ks.all (fun d => env.moreSpecific c d)) ↔
      d ∈ ks ∧ ∀ d' ∈ ks, env.moreSpecific d d' = true := by simp
  unfold mostSpecific
  split
  · simp
  · rename_i k'
    constructor
    · intro h
      cases h
      refine ⟨by simp, fun d hd => ?_⟩
      obtain rfl := List.mem_singleton.mp hd
      exact moreSpecific_refl henv hks hd
    · rintro ⟨hk, -⟩
      rw [List.mem_singleton.mp hk]
  · constructor
    · intro h
      split at h
      · rename_i k' hone
        cases h
        exact (hfilter k).mp (by simp [hone])
      · cases h
    · intro hk
      have hone : ks.filter (fun c => ks.all (fun d => env.moreSpecific c d)) = [k] := by
        refine List.perm_singleton.mp ((List.perm_ext_iff_of_nodup (hks.nodup.filter _)
          (by simp)).mpr (fun d => ?_))
        rw [hfilter, List.mem_singleton]
        refine ⟨fun hd => ?_, fun hd => hd ▸ hk⟩
        exact moreSpecific_antisymm henv hks hd.1 hk.1 (hd.2 k hk.1) (hk.2 d hd.1)
      rw [hone]

theorem mostSpecific_eq_ambiguous : env.mostSpecific ks = .ambiguous ↔
    ∃ k k', k ≠ k' ∧ MaximallySpecific env (· ∈ ks) k ∧ MaximallySpecific env (· ∈ ks) k' := by
  constructor
  · intro h
    have hne : ks ≠ [] := by
      intro hnil
      rw [mostSpecific_eq_none.mpr hnil] at h
      cases h
    obtain ⟨k₀, hk₀⟩ := List.exists_mem_of_ne_nil ks hne
    obtain ⟨k, hk, -⟩ := exists_maximallySpecific henv hks hk₀
    by_contra hno
    have hone : env.mostSpecific ks = .one k := by
      refine (mostSpecific_eq_one henv hks).mpr ⟨hk, fun k' hk' => ?_⟩
      by_contra hne
      exact hno ⟨k', k, hne, hk', hk⟩
    rw [hone] at h
    cases h
  · rintro ⟨k, k', hne, hk, hk'⟩
    cases h : env.mostSpecific ks with
    | none =>
      have hnil := hk.1
      rw [mostSpecific_eq_none.mp h] at hnil
      cases hnil
    | one d =>
      obtain ⟨-, honly⟩ := (mostSpecific_eq_one henv hks).mp h
      exact absurd ((honly k hk).trans (honly k' hk').symm) hne
    | ambiguous => rfl

end Choice

/-! ### Candidates -/

/-- The methods that a call on a class can mean: methods of the name and the number of arguments along
the lineage that accept the arguments, of each descriptor the one that is closest. -/
def MethodCandidate (env : Environment) (c : Class) (name : String) (types : List TypeName)
    (k : Closure) : Prop :=
  ∃ closer d further m, c.lineage = closer ++ d :: further ∧ m ∈ d.methods ∧ m.name = name ∧
    m.params.length = types.length ∧ env.applicable (m.params.map Param.type) types = true ∧
    k = ⟨.method m, d.frame, d.name⟩ ∧
    ∀ d' ∈ closer, ∀ m' ∈ d'.methods, (Callable.method m').descriptor ≠ (Callable.method m).descriptor

/-- The constructors of a class that accept some arguments. -/
def ConstructorCandidate (env : Environment) (c : Class) (types : List TypeName) (k : Closure) : Prop :=
  ∃ d ∈ c.constructors, env.applicable (d.params.map Param.type) types = true ∧
    k = ⟨.constructor d, c.frame, c.name⟩

/-- What is known of a class whose declarations, and those of its ancestors, have all been executed. -/
structure Settled (env : Environment) (c : Class) : Prop where
  orderly : env.Orderly
  bound : ∀ d ∈ c.lineage, env.Bound d []
  plain : ∀ d ∈ c.lineage, ∀ k ∈ d.callables, ∀ t ∈ k.paramTypes, t.Plain

/-- The closure of a declared method or constructor. -/
def Environment.Declared.closure (d : Declared) : Closure := ⟨d.callable, d.owner.frame, d.owner.name⟩

section Candidates

variable {env : Environment} {c : Class} {name : String} {types : List TypeName} {k : Closure}

/-- Of each descriptor, the first callable is kept. -/
theorem mem_firstOfEach_iff {seen : List String} {ds : List Declared} {d : Declared} :
    d ∈ firstOfEach seen ds ↔
      d.descriptor ∉ seen ∧ ds.find? (fun d' => d'.descriptor == d.descriptor) = some d := by
  induction ds generalizing seen with
  | nil => simp [firstOfEach]
  | cons d₀ ds ih =>
    by_cases hkey : d₀.descriptor = d.descriptor
    · simp only [firstOfEach, List.find?_cons, hkey, beq_self_eq_true]
      split
      · rename_i hseen
        simp only [List.contains_eq_mem, decide_eq_true_eq] at hseen
        simp [ih, hseen]
      · rename_i hseen
        simp only [List.contains_eq_mem, decide_eq_true_eq] at hseen
        simp [ih, hseen, eq_comm]
    · have hne : (d₀.descriptor == d.descriptor) = false := by simpa using hkey
      have hself : d ≠ d₀ := fun h => hkey (by rw [h])
      simp only [firstOfEach, List.find?_cons, hne]
      split
      · exact ih
      · simp [ih, hself, Ne.symm hkey]

theorem nodup_firstOfEach (seen : List String) (ds : List Declared) :
    ((firstOfEach seen ds).map Declared.descriptor).Nodup := by
  induction ds generalizing seen with
  | nil => simp [firstOfEach]
  | cons d ds ih =>
    unfold firstOfEach
    split
    · exact ih seen
    · rw [List.map_cons, List.nodup_cons]
      refine ⟨fun hmem => ?_, ih _⟩
      obtain ⟨d', hd', hkey⟩ := List.mem_map.mp hmem
      exact (mem_firstOfEach_iff.mp hd').1 (by simp [hkey])

theorem candidates_eq {ds : List Declared} (h : ∀ d ∈ ds, env.BindsIn d.owner d.callable) :
    env.candidates types ds = .ok ((ds.filter (fun d =>
      env.applicable d.callable.paramTypes types)).map Declared.closure) := by
  induction ds with
  | nil => rfl
  | cons d ds ih =>
    have hd : env.boundClosure d.owner d.descriptor = .ok d.closure := (h d (by simp)).boundClosure
    rw [candidates, List.filter_cons]
    split
    · rw [hd, ih (fun d' hd' => h d' (by simp [hd']))]
      rfl
    · exact ih (fun d' hd' => h d' (by simp [hd']))

/-- Declarations of different descriptors, which their parameter types decide, give candidates that can be compared. -/
theorem exists_candidates {ds : List Declared} (hbound : ∀ d ∈ ds, env.BindsIn d.owner d.callable)
    (hplain : ∀ d ∈ ds, ∀ t ∈ d.callable.paramTypes, t.Plain) (hnodup : (ds.map Declared.descriptor).Nodup)
    (hkey : ∀ d ∈ ds, ∀ d' ∈ ds, d.callable.paramTypes = d'.callable.paramTypes → d.descriptor = d'.descriptor)
    (types : List TypeName) : ∃ ks, env.candidates types ds = .ok ks ∧ Comparable ks ∧
      ∀ k, k ∈ ks ↔ ∃ d ∈ ds, env.applicable d.callable.paramTypes types = true ∧ k = d.closure := by
  refine ⟨_, candidates_eq hbound, ⟨fun k hk => ?_, fun k hk k' hk' htypes => ?_, ?_⟩, fun k => ?_⟩
  · obtain ⟨d, hd, rfl⟩ := List.mem_map.mp hk
    exact hplain d (List.mem_of_mem_filter hd)
  · obtain ⟨d, hd, rfl⟩ := List.mem_map.mp hk
    obtain ⟨d', hd', rfl⟩ := List.mem_map.mp hk'
    have hd₀ := List.mem_of_mem_filter hd
    have hd₀' := List.mem_of_mem_filter hd'
    rw [List.inj_on_of_nodup_map hnodup hd₀ hd₀' (hkey d hd₀ d' hd₀' htypes)]
  · refine List.Nodup.of_map Closure.descriptor ?_
    rw [List.map_map]
    exact hnodup.sublist (List.filter_sublist.map _)
  · simp only [List.mem_map, List.mem_filter, and_assoc, eq_comm]

namespace Settled

variable (h : Settled env c)

include h

theorem complete : env.Complete c := fun d hd => (h.bound d hd).bindsIn

theorem apart {d : ClassInfo} (hd : d ∈ c.lineage) {k k' : Callable} (hk : k ∈ d.callables)
    (hk' : k' ∈ d.callables) (hkey : k.descriptor = k'.descriptor) : k = k' :=
  List.inj_on_of_nodup_map (h.bound d hd).nodup hk hk' hkey

theorem plain_of_method {d : ClassInfo} (hd : d ∈ c.lineage) {m : MethodDecl} (hm : m ∈ d.methods) :
    ∀ t ∈ m.params.map Param.type, t.Plain :=
  h.plain d hd (.method m) (by simp [ClassInfo.callables, hm])

/-- The methods that overload a name are, of each descriptor, the closest ones. -/
theorem mem_overloads_iff {d : Declared} {n : Nat} : d ∈ overloads c name n ↔
    ∃ closer further m, c.lineage = closer ++ d.owner :: further ∧ m ∈ d.owner.methods ∧ d.callable = .method m ∧
      m.name = name ∧ m.params.length = n ∧
      ∀ d' ∈ closer, ∀ m' ∈ d'.methods, (Callable.method m').descriptor ≠ (Callable.method m).descriptor := by
  rw [overloads, mem_firstOfEach_iff, List.find?_flatMap]
  simp only [List.not_mem_nil, not_false_eq_true, true_and, List.findSome?_eq_some_iff]
  constructor
  · rintro ⟨closer, o, further, hlineage, hfind, hcloser⟩
    have hmem := List.mem_of_find?_eq_some hfind
    simp only [List.mem_map, List.mem_filter, Bool.and_eq_true, beq_iff_eq] at hmem
    obtain ⟨m, ⟨hm, hname, hn⟩, rfl⟩ := hmem
    refine ⟨closer, further, m, hlineage, hm, rfl, hname, hn, fun d' hd' m' hm' hkey => ?_⟩
    -- a method with the same descriptor has the same name and the same parameters
    obtain ⟨hname', htypes'⟩ : m'.name = m.name ∧ m'.params.map Param.type = m.params.map Param.type :=
      descriptor_injective (h.plain_of_method (by simp [hlineage, hd']) hm')
        (h.plain_of_method (by simp [hlineage]) hm) hkey
    have hlength := congrArg List.length htypes'
    simp only [List.length_map] at hlength
    have hnone := List.find?_eq_none.mp (hcloser d' hd')
    refine hnone ⟨d', .method m'⟩ (List.mem_map_of_mem (List.mem_filter.mpr ⟨hm', ?_⟩)) ?_
    · simp [hname', hname, hlength, hn]
    · exact beq_iff_eq.mpr hkey
  · obtain ⟨owner, callable⟩ := d
    rintro ⟨closer, further, m, hlineage, hm, rfl, hname, hn, hcloser⟩
    have howner : owner ∈ c.lineage := by simp [hlineage]
    have hmem : ⟨owner, .method m⟩ ∈ (owner.methods.filter (fun m => m.name == name && m.params.length == n)).map
        (fun m => (⟨owner, .method m⟩ : Declared)) :=
      List.mem_map.mpr ⟨m, List.mem_filter.mpr ⟨hm, by simp [hname, hn]⟩, rfl⟩
    refine ⟨closer, owner, further, hlineage, ?_, fun d' hd' => ?_⟩
    · cases hfind : List.find? (fun d' : Declared => d'.descriptor == Declared.descriptor ⟨owner, .method m⟩) _ with
      | none => exact absurd (beq_self_eq_true _) (List.find?_eq_none.mp hfind _ hmem)
      | some d' =>
        -- within the class, the descriptor tells the method
        have hkey := List.find?_some hfind
        rw [beq_iff_eq] at hkey
        have hmem' := List.mem_of_find?_eq_some hfind
        simp only [List.mem_map, List.mem_filter] at hmem'
        obtain ⟨m', ⟨hm', -⟩, rfl⟩ := hmem'
        have heq : Callable.method m' = .method m := h.apart howner
          (by simp [ClassInfo.callables, hm']) (by simp [ClassInfo.callables, hm]) hkey
        cases heq
        rfl
    · refine List.find?_eq_none.mpr (fun d'' hd'' => ?_)
      simp only [List.mem_map, List.mem_filter] at hd''
      obtain ⟨m', ⟨hm', -⟩, rfl⟩ := hd''
      exact fun hkey => hcloser d' hd' m' hm' (beq_iff_eq.mp hkey)

/-- The candidates for a method. -/
theorem exists_methodCandidates (name : String) (types : List TypeName) :
    ∃ ks, env.candidates types (overloads c name types.length) = .ok ks ∧ Comparable ks ∧
      ∀ k, k ∈ ks ↔ MethodCandidate env c name types k := by
  have hbinds : ∀ d ∈ overloads c name types.length, env.BindsIn d.owner d.callable := by
    intro d hd
    obtain ⟨howner, m, hm, hmethod, -⟩ := of_mem_overloads hd
    rw [hmethod]
    exact h.complete.method howner hm
  have hplain : ∀ d ∈ overloads c name types.length, ∀ t ∈ d.callable.paramTypes, t.Plain := by
    intro d hd
    obtain ⟨howner, m, hm, hmethod, -⟩ := of_mem_overloads hd
    rw [hmethod]
    exact h.plain_of_method howner hm
  have hname : ∀ d ∈ overloads c name types.length, d.callable.name = name := by
    intro d hd
    obtain ⟨-, m, -, hmethod, hname, -⟩ := of_mem_overloads hd
    rw [hmethod]
    exact hname
  obtain ⟨ks, hks, hcomparable, hmem⟩ := exists_candidates hbinds hplain (nodup_firstOfEach [] _)
    (fun d hd d' hd' htypes => congrArg₂ descriptor ((hname d hd).trans (hname d' hd').symm) htypes) types
  refine ⟨ks, hks, hcomparable, fun k => (hmem k).trans ?_⟩
  simp only [h.mem_overloads_iff]
  constructor
  · rintro ⟨⟨owner, _⟩, ⟨closer, further, m, hlineage, hm, rfl, hname, hn, hcloser⟩, happ, rfl⟩
    exact ⟨closer, owner, further, m, hlineage, hm, hname, hn, happ, rfl, hcloser⟩
  · rintro ⟨closer, d, further, m, hlineage, hm, hname, hn, happ, rfl, hcloser⟩
    exact ⟨⟨d, .method m⟩, ⟨closer, further, m, hlineage, hm, rfl, hname, hn, hcloser⟩, happ, rfl⟩

/-- The candidates for a constructor. -/
theorem exists_constructorCandidates (types : List TypeName) :
    ∃ ks, env.candidates types (Environment.constructors c) = .ok ks ∧ Comparable ks ∧
      ∀ k, k ∈ ks ↔ ConstructorCandidate env c types k := by
  have hself : c.toClassInfo ∈ c.lineage := by simp [Class.lineage]
  have hmem : ∀ d, d ∈ Environment.constructors c ↔ ∃ k ∈ c.constructors, ⟨c.toClassInfo, .constructor k⟩ = d :=
    fun _ => List.mem_map
  have hbinds : ∀ d ∈ Environment.constructors c, env.BindsIn d.owner d.callable := by
    intro d hd
    obtain ⟨k, hk, rfl⟩ := (hmem d).mp hd
    exact h.complete.constructor hk
  have hplain : ∀ d ∈ Environment.constructors c, ∀ t ∈ d.callable.paramTypes, t.Plain := by
    intro d hd
    obtain ⟨k, hk, rfl⟩ := (hmem d).mp hd
    exact h.plain _ hself _ (by simp [ClassInfo.callables, hk])
  have hname : ∀ d ∈ Environment.constructors c, d.callable.name = Callable.constructorName := by
    intro d hd
    obtain ⟨k, -, rfl⟩ := (hmem d).mp hd
    rfl
  have hnodup : ((Environment.constructors c).map Declared.descriptor).Nodup := by
    have hall := (h.bound _ hself).nodup
    rw [ClassInfo.callables, List.map_append, List.map_map (l := c.constructors)] at hall
    rw [Environment.constructors, List.map_map]
    exact hall.of_append_right
  obtain ⟨ks, hks, hcomparable, hcandidates⟩ := exists_candidates hbinds hplain hnodup
    (fun d hd d' hd' htypes => congrArg₂ descriptor ((hname d hd).trans (hname d' hd').symm) htypes) types
  refine ⟨ks, hks, hcomparable, fun k => (hcandidates k).trans ?_⟩
  constructor
  · rintro ⟨d, hd, happ, rfl⟩
    obtain ⟨k, hk, rfl⟩ := (hmem d).mp hd
    exact ⟨k, hk, happ, rfl⟩
  · rintro ⟨k, hk, happ, rfl⟩
    exact ⟨_, (hmem _).mpr ⟨k, hk, rfl⟩, happ, rfl⟩

end Settled

end Candidates

/-! ### Resolution -/

/-- What resolving a method gives, for every outcome. -/
structure ResolvesMethod (env : Environment) (c : Class) (q : TypeName) (name : String)
    (types : List TypeName) : Prop where
  one : ∀ k, env.resolveMethod q name types = .ok k ↔
    OnlyMaximallySpecific env (MethodCandidate env c name types) k
  undeclared : env.resolveMethod q name types
      = .error (.undeclaredMethod (Signature.text ⟨some q.text, name, types⟩)) ↔
    ∀ d ∈ c.lineage, ∀ m ∈ d.methods, m.name ≠ name
  none : env.resolveMethod q name types = .error (.noOverload ⟨some q.text, name, types⟩) ↔
    (∃ d ∈ c.lineage, ∃ m ∈ d.methods, m.name = name) ∧ ∀ k, ¬ MethodCandidate env c name types k
  ambiguous : env.resolveMethod q name types = .error (.ambiguous ⟨some q.text, name, types⟩) ↔
    ∃ k k', k ≠ k' ∧ MaximallySpecific env (MethodCandidate env c name types) k ∧
      MaximallySpecific env (MethodCandidate env c name types) k'
  exact : ∀ k, MethodCandidate env c name types k → k.callable.paramTypes = types →
    env.resolveMethod q name types = .ok k

/-- What resolving a constructor gives, for every outcome. -/
structure ResolvesConstructor (env : Environment) (c : Class) (className : String)
    (types : List TypeName) : Prop where
  one : ∀ k, env.resolveConstructor className types = .ok k ↔
    OnlyMaximallySpecific env (ConstructorCandidate env c types) k
  none : env.resolveConstructor className types = .error (.noConstructor ⟨Option.none, className, types⟩) ↔
    ∀ k, ¬ ConstructorCandidate env c types k
  ambiguous : env.resolveConstructor className types = .error (.ambiguous ⟨Option.none, className, types⟩) ↔
    ∃ k k', k ≠ k' ∧ MaximallySpecific env (ConstructorCandidate env c types) k ∧
      MaximallySpecific env (ConstructorCandidate env c types) k'
  exact : ∀ k, ConstructorCandidate env c types k → k.callable.paramTypes = types →
    env.resolveConstructor className types = .ok k

section Resolution

variable {env : Environment} {c : Class}

/-- What is made of a choice. -/
def Environment.Choice.outcome (missing several : Fault) : Choice → Except Fault Closure
  | .one k => .ok k
  | .none => .error missing
  | .ambiguous => .error several

section Outcome

variable {ks : List Closure} {A : Closure → Prop} {missing several : Fault}

theorem outcome_eq_ok {choice : Choice} {k : Closure} :
    choice.outcome missing several = .ok k ↔ choice = .one k := by
  cases choice <;> simp [Choice.outcome]

theorem outcome_eq_missing {choice : Choice} (hne : missing ≠ several) :
    choice.outcome missing several = .error missing ↔ choice = .none := by
  cases choice <;> simp [Choice.outcome, hne.symm]

theorem outcome_eq_several {choice : Choice} (hne : missing ≠ several) :
    choice.outcome missing several = .error several ↔ choice = .ambiguous := by
  cases choice <;> simp [Choice.outcome, hne]

/-- A candidate for exactly the given types is chosen. -/
theorem outcome_of_exact (henv : env.Orderly) (hks : Comparable ks) {types : List TypeName}
    (happ : ∀ k ∈ ks, env.applicable k.callable.paramTypes types = true) {k : Closure} (hk : k ∈ ks)
    (htypes : k.callable.paramTypes = types) :
    (env.mostSpecific ks).outcome missing several = .ok k := by
  rw [outcome_eq_ok, mostSpecific_eq_one henv hks, ← forall_moreSpecific_iff henv hks]
  refine ⟨hk, fun d hd => ?_⟩
  rw [moreSpecific, htypes]
  exact happ d hd

end Outcome

theorem Settled.resolvesConstructor (h : Settled env c) {className : String}
    (hc : env.findClass className = .ok c) (types : List TypeName) :
    ResolvesConstructor env c className types := by
  obtain ⟨ks, hks, hcomparable, hmem⟩ := h.exists_constructorCandidates types
  have hset : ConstructorCandidate env c types = (· ∈ ks) := funext (fun k => propext (hmem k).symm)
  have hresolve : env.resolveConstructor className types = (env.mostSpecific ks).outcome
      (.noConstructor ⟨none, className, types⟩) (.ambiguous ⟨none, className, types⟩) := by
    unfold resolveConstructor
    rw [hc]
    simp only [bind, Except.bind, hks]
    cases env.mostSpecific ks <;> rfl
  refine ⟨fun k => ?_, ?_, ?_, fun k hk htypes => ?_⟩ <;> rw [hresolve]
  · rw [outcome_eq_ok, mostSpecific_eq_one h.orderly hcomparable, hset]
  · rw [outcome_eq_missing (by simp), mostSpecific_eq_none, List.eq_nil_iff_forall_not_mem, hset]
  · rw [outcome_eq_several (by simp), mostSpecific_eq_ambiguous h.orderly hcomparable, hset]
  · refine outcome_of_exact h.orderly hcomparable (fun d hd => ?_) ((hmem k).mpr hk) htypes
    obtain ⟨d', -, happ, rfl⟩ := (hmem d).mp hd
    exact happ

theorem Class.hasMethod_iff {name : String} :
    c.hasMethod name = true ↔ ∃ d ∈ c.lineage, ∃ m ∈ d.methods, m.name = name := by
  simp [Class.hasMethod]

theorem Settled.resolvesMethod (h : Settled env c) {q : TypeName} (hc : env.findClass q.text = .ok c)
    (name : String) (types : List TypeName) : ResolvesMethod env c q name types := by
  obtain ⟨ks, hks, hcomparable, hmem⟩ := h.exists_methodCandidates name types
  have hset : MethodCandidate env c name types = (· ∈ ks) := funext (fun k => propext (hmem k).symm)
  by_cases hmethod : c.hasMethod name = true
  · have hresolve : env.resolveMethod q name types = (env.mostSpecific ks).outcome
        (.noOverload ⟨some q.text, name, types⟩) (.ambiguous ⟨some q.text, name, types⟩) := by
      unfold resolveMethod
      rw [hc]
      simp only [bind, Except.bind, hmethod, if_true, hks]
      cases env.mostSpecific ks <;> rfl
    have hdeclared := Class.hasMethod_iff.mp hmethod
    refine ⟨fun k => ?_, ?_, ?_, ?_, fun k hk htypes => ?_⟩ <;> rw [hresolve]
    · rw [outcome_eq_ok, mostSpecific_eq_one h.orderly hcomparable, hset]
    · obtain ⟨d, hd, m, hm, hname⟩ := hdeclared
      refine iff_of_false ?_ (fun hall => hall d hd m hm hname)
      cases env.mostSpecific ks <;> simp [Choice.outcome]
    · rw [outcome_eq_missing (by simp), mostSpecific_eq_none, List.eq_nil_iff_forall_not_mem, hset]
      exact ⟨fun hnil => ⟨hdeclared, hnil⟩, And.right⟩
    · rw [outcome_eq_several (by simp), mostSpecific_eq_ambiguous h.orderly hcomparable, hset]
    · refine outcome_of_exact h.orderly hcomparable (fun d hd => ?_) ((hmem k).mpr hk) htypes
      obtain ⟨-, -, -, m, -, -, -, -, happ, rfl, -⟩ := (hmem d).mp hd
      exact happ
  · have hresolve : env.resolveMethod q name types
        = .error (.undeclaredMethod (Signature.text ⟨some q.text, name, types⟩)) := by
      unfold resolveMethod
      rw [hc]
      simp [bind, Except.bind, hmethod]
    have hnone : ∀ d ∈ c.lineage, ∀ m ∈ d.methods, m.name ≠ name :=
      fun d hd m hm hname => hmethod (Class.hasMethod_iff.mpr ⟨d, hd, m, hm, hname⟩)
    have hempty : ∀ k, ¬ MethodCandidate env c name types k := by
      rintro k ⟨closer, d, further, m, hlineage, hm, hname, -⟩
      exact hnone d (by simp [hlineage]) m hm hname
    refine ⟨fun k => ?_, ?_, ?_, ?_, fun k hk => absurd hk (hempty k)⟩ <;> rw [hresolve]
    · exact iff_of_false (by simp) (fun hk => hempty k hk.1.1)
    · exact iff_of_true rfl hnone
    · refine iff_of_false (by simp) ?_
      rintro ⟨⟨d, hd, m, hm, hname⟩, -⟩
      exact hnone d hd m hm hname
    · refine iff_of_false (by simp) ?_
      rintro ⟨k, -, -, hk, -⟩
      exact hempty k hk.1

end Resolution

/-! ### Every run -/

section Runs

open Machine

/-- The methods and constructors of a class and its ancestors have all been declared: as long as some
wait on control, the current frame, which they will be bound in, is that of another class. -/
def Machine.HasDeclared (m : Machine) (c : Class) : Prop :=
  ∀ d ∈ c.lineage, d.frame = m.registers.env.current → ∀ k : Callable, k.item ∉ m.registers.control

theorem pending_eq_nil {control : List Item} (h : ∀ k : Callable, k.item ∉ control) :
    pending control = [] := by
  unfold pending
  split
  · rename_i d rest
    exact absurd (List.mem_cons_self ..) (h (.method d))
  · rename_i d rest
    exact absurd (List.mem_cons_self ..) (h (.constructor d))
  · rfl

theorem settled_of_reached {p : Program} {m : Machine} {x : String} {c : Class} (hp : ∀ d ∈ p, d.Plain)
    (hm : Reached Natives.empty p m) (hc : m.registers.env.findClass x = .ok c) (hdone : m.HasDeclared c) :
    Settled m.registers.env c := by
  obtain ⟨pend, he, hpend⟩ := (Phase.strict hp hm).exists_forming
  have hbound : ∀ d ∈ c.lineage, m.registers.env.Bound d [] := by
    intro d hd
    rcases he.complete trivial x c hc d hd with hb | ⟨hframe, -, hb⟩
    · exact hb
    · have hnil := pending_eq_nil (hdone d hd hframe)
      rcases hpend with rfl | rfl
      · exact hb
      · exact hnil ▸ hb
  refine ⟨he.classes trivial, hbound, fun d hd k hk => ?_⟩
  obtain ⟨-, hplain⟩ := he.keys trivial _ _ _ ((hbound d hd).bindsIn k hk)
  exact hplain.1

variable {source : String} {p : Program} {m : Machine} {x : String} {c : Class}

/-- Resolution finds the most specific method and the most specific constructor of a class that has been
declared, wherever the run of a source without natives stands. -/
theorem overload_resolution (hparse : Program.parse source = .ok p) (hm : Reached Natives.empty p m)
    (hc : m.registers.env.findClass x = .ok c) (hdone : m.HasDeclared c) :
    (∀ q : TypeName, q.text = x → ∀ name types, ResolvesMethod m.registers.env c q name types) ∧
      ∀ types, ResolvesConstructor m.registers.env c x types := by
  have h := settled_of_reached (Program.parse_plain hparse) hm hc hdone
  refine ⟨fun q hq name types => h.resolvesMethod ?_ name types, fun types => h.resolvesConstructor hc types⟩
  rw [hq]
  exact hc

/-- A source with two methods that accept an `A`. -/
def overloadSource : String :=
  "class A \x7b void f(Object o) \x7b\x7d void f(A a) \x7b\x7d \x7d "
    ++ "class M \x7b public static void main(String[] a) \x7b\x7d \x7d"

/-- Whether a run of a source without natives comes within `n` steps to where nothing waits to be declared
and resolution finds a method. -/
def resolves (source : String) (n : Nat) (x name : String) (types : List TypeName) : Bool :=
  (sample? source n).any (fun m =>
    m.registers.control.all (fun i => !(i matches .method _ | .constructor _)) &&
      (m.registers.env.findClass x).isOk && (m.registers.env.resolveMethod (.named x) name types).isOk)

/-- The method that takes an `A` is preferred to the one that takes an `Object`. -/
theorem overload_resolution_named : ∃ p m c k, Program.parse overloadSource = .ok p ∧
    Reached Natives.empty p m ∧ m.registers.env.findClass "A" = .ok c ∧ m.HasDeclared c ∧
    m.registers.env.resolveMethod (.named "A") "f" [.named "A"] = .ok k ∧
    OnlyMaximallySpecific m.registers.env (MethodCandidate m.registers.env c "f" [.named "A"]) k := by
  have hrun : resolves overloadSource 12 "A" "f" [.named "A"] = true := by
    rw [resolves, sample?_eq_parseDecoded?]
    decide +kernel
  obtain ⟨m, hm, hrun⟩ := (Option.any_eq_true _ _).mp hrun
  obtain ⟨p, hp, hreached⟩ := exists_of_sample? hm
  simp only [Bool.and_eq_true, List.all_eq_true] at hrun
  obtain ⟨⟨hwaits, hfind⟩, hresolve⟩ := hrun
  cases hc : m.registers.env.findClass "A" with
  | error e => simp [hc, Except.isOk, Except.toBool] at hfind
  | ok c =>
    cases hk : m.registers.env.resolveMethod (.named "A") "f" [.named "A"] with
    | error e => simp [hk, Except.isOk, Except.toBool] at hresolve
    | ok k =>
      have hdone : m.HasDeclared c := by
        intro d _ _ k' hk'
        have := hwaits k'.item hk'
        cases k' <;> simp [Callable.item] at this
      have h := (overload_resolution hp hreached hc hdone).1 (.named "A") rfl "f" [.named "A"]
      exact ⟨p, m, c, k, hp, hreached, hc, hdone, hk, (h.one k).mp hk⟩

end Runs

end StashMachine
