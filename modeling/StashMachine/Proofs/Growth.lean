import StashMachine.Proofs.Outcomes

/-!
# StashMachine.Proofs.Growth — the store only grows

* `Environment.Grows env env'`: frames, bindings and variables of `env` are still there in `env'`, and only
  the current frame and the global one may have got new bindings.
* `Leads.grows`: every step makes the environment grow.
* `Fresh r i r' x b`, `Leads.fresh`: what a step may bind anew.
* `Effect.lasts`: what else is known of a step that declares neither a class nor a callable.
* What binding several variables in one frame does.
-/

namespace StashMachine
namespace Environment

/-- Everything in `env` is still there in `env'`. -/
structure Grows (env env' : Environment) : Prop where
  size : env.frames.size ≤ env'.frames.size
  name : ∀ f < env.frames.size, (env'.frame f).name = (env.frame f).name
  outer : ∀ f < env.frames.size, (env'.frame f).outer = (env.frame f).outer
  kept : ∀ f x b, env.bound? f x = some b → env'.bound? f x = some b
  types : ∀ id v, env.var? id = some v → ∃ v', env'.var? id = some v' ∧ v'.name = v.name ∧ v'.type = v.type
  closed : ∀ f < env.frames.size, f ≠ env.current → f ≠ global → ∀ x, env'.bound? f x = env.bound? f x

namespace Grows

variable {env env₁ env' : Environment}

theorem refl (env : Environment) : Grows env env :=
  ⟨Nat.le_refl _, fun _ _ => rfl, fun _ _ => rfl, fun _ _ _ h => h, fun _ v h => ⟨v, h, rfl, rfl⟩,
    fun _ _ _ _ _ => rfl⟩

/-- A change that leaves the frames alone, and the names and types of all variables. -/
theorem of_frames (h : Grows env env₁) (hframes : env'.frames = env₁.frames)
    (hvars : ∀ id v, env₁.var? id = some v →
      ∃ v', env'.var? id = some v' ∧ v'.name = v.name ∧ v'.type = v.type) : Grows env env' := by
  have hframe : ∀ f, env'.frame f = env₁.frame f := by
    intro f
    rw [frame, frame, hframes]
  have hbound : ∀ f x, env'.bound? f x = env₁.bound? f x := by
    intro f x
    rw [bound?, bound?, hframe]
  refine ⟨hframes ▸ h.size, fun f hf => ?_, fun f hf => ?_, fun f x b hb => ?_, fun id v hv => ?_,
    fun f hf hc hg x => ?_⟩
  · rw [hframe, h.name f hf]
  · rw [hframe, h.outer f hf]
  · rw [hbound, h.kept f x b hb]
  · obtain ⟨v₁, hv₁, hname₁, htype₁⟩ := h.types id v hv
    obtain ⟨v', hv', hname, htype⟩ := hvars id v₁ hv₁
    exact ⟨v', hv', hname.trans hname₁, htype.trans htype₁⟩
  · rw [hbound, h.closed f hf hc hg x]

theorem restore (h : Grows env env₁) (f : FrameId) : Grows env (env₁.restore f) :=
  h.of_frames rfl (fun _ v hv => ⟨v, hv, rfl, rfl⟩)

theorem createArray (h : Grows env env₁) (t : TypeName) (vs : List Value) :
    Grows env (env₁.createArray t vs).2 :=
  h.of_frames rfl (fun _ v hv => ⟨v, hv, rfl, rfl⟩)

theorem allocate (h : Grows env env₁) (v : Variable) : Grows env (env₁.allocate v) :=
  h.of_frames rfl (fun _ w hw => ⟨w, Lasts.var?_of_allocate hw, rfl, rfl⟩)

theorem assign (h : Grows env env₁) (x : VarId) (w : Value) : Grows env (env₁.assign x w) := by
  refine h.of_frames rfl (fun id v hv => ?_)
  rw [var?_assign, hv]
  by_cases hx : id = x
  · exact ⟨{ v with value := some w }, by simp [hx], rfl, rfl⟩
  · exact ⟨v, by simp [hx], rfl, rfl⟩

theorem extend (h : Grows env env₁) (around : FrameId) (name : String) :
    Grows env (env₁.extend around name) := by
  have hframe : ∀ f < env.frames.size, (env₁.extend around name).frame f = env₁.frame f := by
    intro f hf
    have hne : f ≠ env₁.frames.size := by
      have := h.size
      omega
    rw [frame_extend, if_neg hne]
  refine ⟨?_, fun f hf => ?_, fun f hf => ?_, fun f x b hb => ?_, h.types, fun f hf hc hg x => ?_⟩
  · have := h.size
    simp only [Environment.extend, Array.size_push]
    omega
  · rw [hframe f hf, h.name f hf]
  · rw [hframe f hf, h.outer f hf]
  · rw [bound?_extend, h.kept f x b hb]
  · rw [bound?_extend, h.closed f hf hc hg x]

/-- A free name may be bound in the current frame of `env`, in the global one, and in a new one. -/
theorem addBinding (h : Grows env env₁) {id : FrameId} {y : String} (b : Binding)
    (hid : env.frames.size ≤ id ∨ id = env.current ∨ id = global) (hfree : env.bound? id y = none) :
    Grows env (env₁.addBinding id y b) := by
  have hframe : ∀ f, ((env₁.addBinding id y b).frame f).name = (env₁.frame f).name ∧
      ((env₁.addBinding id y b).frame f).outer = (env₁.frame f).outer := by
    intro f
    rw [frame_addBinding]
    split <;> exact ⟨rfl, rfl⟩
  refine ⟨?_, fun f hf => ?_, fun f hf => ?_, fun f x b' hb => ?_, h.types, fun f hf hc hg x => ?_⟩
  · have := h.size
    simpa [Environment.addBinding] using this
  · rw [(hframe f).1, h.name f hf]
  · rw [(hframe f).2, h.outer f hf]
  · rw [bound?_addBinding, if_neg]
    · exact h.kept f x b' hb
    · rintro ⟨rfl, -, rfl⟩
      rw [hfree] at hb
      cases hb
  · rw [bound?_addBinding, if_neg]
    · exact h.closed f hf hc hg x
    · rintro ⟨rfl, -, -⟩
      rcases hid with hid | hid | hid
      · omega
      · exact hc hid
      · exact hg hid

/-- A frame that `env` does not have takes any variables. -/
theorem addVariables (h : Grows env env₁) (vs : List Variable) (hnew : env.frames.size ≤ env₁.current) :
    Grows env (env₁.addVariables vs) := by
  induction vs generalizing env₁ with
  | nil => exact h
  | cons v vs ih =>
    exact ih ((h.allocate v).addBinding _ (.inl hnew) (bound?_eq_none_of_size_le hnew _)) hnew

/-- The frame of an object is new, whether it gets all fields or not. -/
theorem instantiate (env : Environment) (c : Class) : Grows env (env.instantiate c).2 := by
  obtain ⟨front, -, henv⟩ := exists_instantiate env c
  rw [henv]
  exact (((refl env).extend _ _).addVariables _ (Nat.le_refl _)).restore _

theorem chain (h : Grows env env') {f : FrameId} (hf : f < env.frames.size) :
    env'.chain f = env.chain f := by
  rw [Environment.chain, Environment.chain, h.outer f hf]

theorem findClass (h : Grows env env') {x : String} {c : Class} (hc : env.findClass x = .ok c) :
    env'.findClass x = .ok c :=
  findClass_eq_ok.mpr (h.kept _ _ _ (findClass_eq_ok.mp hc))

theorem binds (h : Grows env env') {k : Closure} (hk : env.Binds k) : env'.Binds k := by
  obtain ⟨f, x, hx⟩ := hk
  exact ⟨f, x, h.kept f x _ hx⟩

end Grows
end Environment

open Environment

/-! ### Variables in a frame -/

namespace Environment

variable (env : Environment) {vs : List Variable}

theorem size_extend (around : FrameId) (name : String) :
    (env.extend around name).frames.size = env.frames.size + 1 := by
  simp [Environment.extend]

theorem outer_extend_new (around : FrameId) (name : String) :
    ((env.extend around name).frame env.frames.size).outer = env.chain around := by
  rw [frame_extend, if_pos rfl]

theorem size_addBinding (id : FrameId) (x : String) (b : Binding) :
    (env.addBinding id x b).frames.size = env.frames.size := by
  simp [addBinding]

theorem outer_addBinding (id : FrameId) (x : String) (b : Binding) (f : FrameId) :
    ((env.addBinding id x b).frame f).outer = (env.frame f).outer := by
  rw [frame_addBinding]
  split <;> rfl

theorem size_addVariables (vs : List Variable) :
    (env.addVariables vs).frames.size = env.frames.size := by
  induction vs generalizing env with
  | nil => rfl
  | cons v vs ih => exact (ih (env.addVariable v)).trans (size_addBinding _ _ _ _)

theorem current_addVariables (vs : List Variable) : (env.addVariables vs).current = env.current := by
  induction vs generalizing env with
  | nil => rfl
  | cons v vs ih => exact ih (env.addVariable v)

theorem outer_addVariables (vs : List Variable) (f : FrameId) :
    ((env.addVariables vs).frame f).outer = (env.frame f).outer := by
  induction vs generalizing env with
  | nil => rfl
  | cons v vs ih => exact (ih (env.addVariable v)).trans (outer_addBinding _ _ _ _ f)

theorem size_instantiate (c : Class) : (env.instantiate c).2.frames.size = env.frames.size + 1 := by
  obtain ⟨front, -, henv⟩ := exists_instantiate env c
  rw [henv]
  exact (size_addVariables _ _).trans (size_extend ..)

theorem outer_instantiate_new (c : Class) :
    ((env.instantiate c).2.frame env.frames.size).outer = env.chain c.frame := by
  obtain ⟨front, -, henv⟩ := exists_instantiate env c
  rw [henv]
  exact (outer_addVariables _ _ _).trans (outer_extend_new ..)

/-- Only the current frame gets bindings. -/
theorem frame_addVariables_of_ne (vs : List Variable) {f : FrameId} (hf : f ≠ env.current) :
    (env.addVariables vs).frame f = env.frame f := by
  induction vs generalizing env with
  | nil => rfl
  | cons v vs ih =>
    refine (ih (env.addVariable v) hf).trans ?_
    exact (frame_addBinding _ _ _ _ f).trans (if_neg (fun h => hf h.1))

theorem bound?_addVariables_of_ne (vs : List Variable) {f : FrameId} (hf : f ≠ env.current) (x : String) :
    (env.addVariables vs).bound? f x = env.bound? f x := by
  rw [bound?, frame_addVariables_of_ne env vs hf, bound?]

/-- No frame but that of the object is different. -/
theorem frame_instantiate_of_ne (c : Class) {f : FrameId} (hf : f ≠ env.frames.size) :
    (env.instantiate c).2.frame f = env.frame f := by
  obtain ⟨front, -, henv⟩ := exists_instantiate env c
  rw [henv]
  refine (frame_addVariables_of_ne (env.extend c.frame objectFrame) front hf).trans ?_
  rw [frame_extend, if_neg hf]

theorem bound?_instantiate_of_ne (c : Class) {f : FrameId} (hf : f ≠ env.frames.size) (x : String) :
    (env.instantiate c).2.bound? f x = env.bound? f x := by
  rw [bound?, frame_instantiate_of_ne env c hf, bound?]

/-- Names that none of the variables has stay as they were. -/
theorem bound?_addVariables_of_notMem (f : FrameId) {x : String} (hx : x ∉ vs.map Variable.name) :
    (env.addVariables vs).bound? f x = env.bound? f x := by
  induction vs generalizing env with
  | nil => rfl
  | cons v vs ih =>
    rw [List.map_cons, List.mem_cons, not_or] at hx
    refine (ih (env.addVariable v) hx.2).trans ?_
    rw [bound?_addVariable, if_neg (fun h => hx.1 h.2.2)]

theorem var?_addVariables {id : VarId} {v : Variable} (h : env.var? id = some v) :
    (env.addVariables vs).var? id = some v := by
  induction vs generalizing env with
  | nil => exact h
  | cons w vs ih => exact ih (env.addVariable w) (Lasts.var?_of_allocate h)

theorem var?_instantiate (c : Class) {id : VarId} {v : Variable} (h : env.var? id = some v) :
    (env.instantiate c).2.var? id = some v := by
  obtain ⟨front, -, henv⟩ := exists_instantiate env c
  rw [henv]
  exact var?_addVariables (env.extend c.frame objectFrame) h

/-- Variables of different names are all bound. -/
theorem exists_of_mem_addVariables (hsize : env.current < env.frames.size)
    (hnodup : (vs.map Variable.name).Nodup) {v : Variable} (hv : v ∈ vs) :
    ∃ id, (env.addVariables vs).bound? env.current v.name = some (.var id) ∧
      (env.addVariables vs).var? id = some v := by
  induction vs generalizing env with
  | nil => cases hv
  | cons w vs ih =>
    rw [List.map_cons, List.nodup_cons] at hnodup
    have hsize' : (env.addVariable w).current < (env.addVariable w).frames.size :=
      Nat.lt_of_lt_of_eq hsize (size_addBinding _ _ _ _).symm
    rcases List.mem_cons.mp hv with rfl | hv
    · refine ⟨env.vars.size, ?_, ?_⟩
      · refine (bound?_addVariables_of_notMem (env.addVariable v) env.current hnodup.1).trans ?_
        rw [bound?_addVariable, if_pos ⟨rfl, hsize, rfl⟩]
      · refine var?_addVariables (env.addVariable v) ?_
        rw [var?_addVariable, if_pos rfl]
    · exact ih (env.addVariable w) hsize' hnodup.2 hv

end Environment

/-! ### Steps -/

section Steps

variable {r r' : Registers} {i : Item} {env' : Environment}

theorem Effect.grows (h : Effect r i env') : Grows r.env env' := by
  have hrefl := Grows.refl r.env
  cases h with
  | same => exact hrefl
  | restore => exact hrefl.restore _
  | block => exact hrefl.extend _ _
  | declare hfree => exact (hrefl.allocate _).addBinding _ (.inr (.inl rfl)) hfree
  | allocate => exact hrefl.allocate _
  | assign => exact hrefl.assign _ _
  | array => exact hrefl.createArray _ _
  | object => exact .instantiate _ _
  | call => exact (hrefl.extend _ _).addVariables _ (Nat.le_refl _)

theorem Effect.lasts (h : Effect r i env') : Lasts r.env env' := by
  have hrefl := Lasts.refl r.env
  cases h with
  | same => exact hrefl
  | restore => exact hrefl.restore _
  | block => exact hrefl.extend _ _
  | declare hfree => exact hrefl.addVariable hfree
  | allocate => exact hrefl.allocate _
  | assign => exact hrefl.assign _ _
  | array => exact hrefl.createArray _ _
  | object => exact .instantiate _ _
  | call => exact (hrefl.extend _ _).addVariables _ (Nat.le_refl _)

/-- Every step makes the environment grow. -/
theorem Leads.grows (h : Leads r i r') : Grows r.env r'.env := by
  have hrefl := Grows.refl r.env
  rcases h with (⟨-, h⟩ | ⟨k, -, hfree, rfl⟩ | ⟨d, superclass, c, ks, -, -, -, hfree, -, -, -, henv⟩) |
    (h | ⟨d, superclass, -, rfl⟩ | ⟨_, c, -, -, -, rfl⟩)
  · exact h.env.grows
  · exact hrefl.addBinding _ (.inr (.inl rfl)) hfree
  · rw [henv]
    exact (hrefl.extend _ _).addBinding _ (.inr (.inr rfl)) hfree
  · exact h.env.grows
  · exact hrefl.extend _ _
  · exact .instantiate _ _

/-- A faulty step binds variables only. -/
theorem Halt.lasts (h : Halt r i r') : Lasts r.env r'.env := by
  rcases h with h | ⟨d, superclass, -, rfl⟩ | ⟨_, c, -, -, -, rfl⟩
  · exact h.env.lasts
  · exact (Lasts.refl r.env).extend _ _
  · exact .instantiate _ _

/-- What a step from `r` to `r'` that performs `i` may bind anew under the name `x`: a variable of that name, the
closure of a callable under its key, or a class. -/
inductive Fresh (r : Registers) (i : Item) (r' : Registers) (x : String) : Binding → Prop
  | var {id : VarId} {v : Variable} : r'.env.var? id = some v → v.name = x → Fresh r i r' x (.var id)
  | closure {k : Callable} : i = k.item → k.descriptor = x →
    Fresh r i r' x (.closure ⟨k, r.env.current, r.env.currentName⟩)
  | cls {d : ClassDecl} {superclass : Option Class} : i = .classDecl d → IsSuperclass r.env d superclass →
    d.name = x → Fresh r i r' x (.cls (d.elaborate r.env.frames.size superclass))

/-- A name is bound as it was before, or the step has bound it. -/
theorem Leads.fresh (h : Leads r i r') {f : FrameId} {x : String} {b : Binding} (hb : r'.env.bound? f x = some b) :
    r.env.bound? f x = some b ∨ Fresh r i r' x b := by
  have hlasts : Lasts r.env r'.env → r.env.bound? f x = some b ∨ Fresh r i r' x b := by
    intro hl
    rcases hl.fresh f x b hb with hold | ⟨id, v, rfl, hv, hname⟩
    · exact .inl hold
    · exact .inr (.var hv hname)
  rcases h with (⟨-, h⟩ | ⟨k, hi, hfree, rfl⟩ | ⟨d, superclass, c, ks, hi, hsuper, rfl, -, -, -, -, henv⟩) | h
  · exact hlasts h.env.lasts
  · replace hb : (r.env.addBinding r.env.current k.descriptor (.closure _)).bound? f x = some b := hb
    rw [bound?_addBinding] at hb
    split at hb
    · rename_i hnew
      cases hb
      exact .inr (.closure hi hnew.2.2.symm)
    · exact .inl hb
  · rw [henv] at hb
    rcases bound?_addClass hb with hold | ⟨rfl, rfl, -⟩
    · exact .inl hold
    · exact .inr (.cls hi hsuper rfl)
  · exact hlasts h.lasts

/-- A class is bound as it was before, or the step has registered it. -/
theorem Leads.cls (h : Leads r i r') {f : FrameId} {x : String} {c : Class}
    (hc : r'.env.bound? f x = some (.cls c)) : r.env.bound? f x = some (.cls c) ∨
      ∃ d superclass, i = .classDecl d ∧ c = d.elaborate r.env.frames.size superclass ∧ x = c.name := by
  refine (h.fresh hc).imp id (fun hfresh => ?_)
  cases hfresh with
  | cls hi hsuper hx => exact ⟨_, _, hi, rfl, hx.symm⟩

end Steps

end StashMachine
