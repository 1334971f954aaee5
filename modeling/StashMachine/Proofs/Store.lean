import StashMachine.Environment

/-!
# StashMachine.Proofs.Store — what changes of the environment change

* `Environment.bound? env f x`: what the frame `f` itself binds the name `x` to.  One equation for each
  change of the environment says what it does to `bound?`, to `var?` and to the current frame.
* `Lasts env env'`: bindings and variables of `env` last in `env'`, and what is bound anew are variables
  under their own names.  Everything that code does to the environment is of this kind.
-/

namespace StashMachine

namespace Frame

theorem get?_add (f : Frame) (x y : String) (b : Binding) :
    (f.add x b).get? y = if y = x then some b else f.get? y := by
  by_cases h : y = x
  · simp [get?, add, h]
  · have hb : (y == x) = false := by simpa using h
    simp [get?, add, List.lookup_cons, hb, h]

@[simp] theorem get?_missing (x : String) : missing.get? x = none := rfl

end Frame

namespace Environment

variable {env env' : Environment}

/-- What the frame `f` itself binds the name `x` to. -/
def bound? (env : Environment) (f : FrameId) (x : String) : Option Binding := (env.frame f).get? x

/-- Some frame binds the closure `k`. -/
def Binds (env : Environment) (k : Closure) : Prop := ∃ f x, env.bound? f x = some (.closure k)

/-! ### Frames -/

theorem frame_of_size_le {f : FrameId} (h : env.frames.size ≤ f) : env.frame f = Frame.missing := by
  simp [frame, Array.getD, Nat.not_lt.mpr h]

theorem frame_extend (env : Environment) (around : FrameId) (name : String) (f : FrameId) :
    (env.extend around name).frame f =
      if f = env.frames.size then ⟨name, env.chain around, []⟩ else env.frame f := by
  simp only [frame, extend, Array.getD_eq_getD_getElem?, Array.getElem?_push]
  split <;> rfl

theorem frame_addBinding (env : Environment) (id : FrameId) (x : String) (b : Binding) (f : FrameId) :
    (env.addBinding id x b).frame f =
      if f = id ∧ id < env.frames.size then (env.frame f).add x b else env.frame f := by
  simp only [frame, addBinding, Array.getD_eq_getD_getElem?, Array.getElem?_modify]
  by_cases h : id = f
  · subst h
    by_cases hs : id < env.frames.size <;> simp [hs]
  · simp [h, Ne.symm h]

theorem bound?_eq_none_of_size_le {f : FrameId} (h : env.frames.size ≤ f) (x : String) :
    env.bound? f x = none := by
  rw [bound?, frame_of_size_le h, Frame.get?_missing]

/-- Nothing is bound at first. -/
theorem bound?_initial (f : FrameId) (x : String) : initial.bound? f x = none := by
  match f with
  | 0 => rfl
  | f + 1 => exact bound?_eq_none_of_size_le (by simp [initial]) x

@[simp] theorem bound?_restore (f g : FrameId) (x : String) :
    (env.restore g).bound? f x = env.bound? f x := rfl

@[simp] theorem bound?_allocate (v : Variable) (f : FrameId) (x : String) :
    (env.allocate v).bound? f x = env.bound? f x := rfl

@[simp] theorem bound?_assign (id : VarId) (v : Value) (f : FrameId) (x : String) :
    (env.assign id v).bound? f x = env.bound? f x := rfl

/-- A new frame binds nothing, just like one that is not there. -/
@[simp] theorem bound?_extend (around : FrameId) (name : String) (f : FrameId) (x : String) :
    (env.extend around name).bound? f x = env.bound? f x := by
  rw [bound?, frame_extend]
  split
  · rename_i h
    rw [h, bound?_eq_none_of_size_le (Nat.le_refl _)]
    rfl
  · rfl

theorem bound?_addBinding (id : FrameId) (y : String) (b : Binding) (f : FrameId) (x : String) :
    (env.addBinding id y b).bound? f x =
      if f = id ∧ id < env.frames.size ∧ x = y then some b else env.bound? f x := by
  rw [bound?, frame_addBinding]
  by_cases hf : f = id ∧ id < env.frames.size
  · rw [if_pos hf, Frame.get?_add]
    by_cases hx : x = y <;> simp [hf, hx, bound?]
  · rw [if_neg hf, if_neg (fun h => hf ⟨h.1, h.2.1⟩), bound?]

theorem bound?_addVariable (v : Variable) (f : FrameId) (x : String) :
    (env.addVariable v).bound? f x =
      if f = env.current ∧ env.current < env.frames.size ∧ x = v.name
      then some (.var env.vars.size) else env.bound? f x :=
  bound?_addBinding _ _ _ _ _

theorem bindsHere_eq_false {x : String} : env.bindsHere x = false ↔ env.bound? env.current x = none := by
  simp [bindsHere, Frame.has, bound?]

/-! ### Variables -/

@[simp] theorem var?_restore (g : FrameId) (id : VarId) : (env.restore g).var? id = env.var? id := rfl

@[simp] theorem var?_extend (around : FrameId) (name : String) (id : VarId) :
    (env.extend around name).var? id = env.var? id := rfl

theorem var?_allocate (v : Variable) (id : VarId) :
    (env.allocate v).var? id = if id = env.vars.size then some v else env.var? id := by
  simp only [var?, allocate, Array.getElem?_push]

theorem var?_addVariable (v : Variable) (id : VarId) :
    (env.addVariable v).var? id = if id = env.vars.size then some v else env.var? id :=
  var?_allocate v id

theorem var?_assign (x : VarId) (v : Value) (id : VarId) : (env.assign x v).var? id =
    if id = x then (env.var? id).map (fun y => { y with value := some v }) else env.var? id := by
  simp only [var?, assign, Array.getElem?_modify]
  by_cases h : x = id <;> simp [h, eq_comm]

@[simp] theorem newestVariable_allocate (v : Variable) :
    (env.allocate v).newestVariable = env.vars.size := by
  simp [newestVariable, allocate]

@[simp] theorem newestVariable_addVariable (v : Variable) :
    (env.addVariable v).newestVariable = env.vars.size := newestVariable_allocate v

theorem lt_size_of_var? {id : VarId} {v : Variable} (h : env.var? id = some v) :
    id < env.vars.size := by
  rw [var?, Array.getElem?_eq_some_iff] at h
  exact h.1

/-! ### The current frame -/

@[simp] theorem current_restore (f : FrameId) : (env.restore f).current = f := rfl

@[simp] theorem current_extend (around : FrameId) (name : String) :
    (env.extend around name).current = env.frames.size := rfl

@[simp] theorem current_allocate (v : Variable) : (env.allocate v).current = env.current := rfl

@[simp] theorem current_addVariable (v : Variable) : (env.addVariable v).current = env.current := rfl

@[simp] theorem current_assign (x : VarId) (v : Value) : (env.assign x v).current = env.current := rfl

@[simp] theorem current_createArray (t : TypeName) (vs : List Value) :
    (env.createArray t vs).2.current = env.current := rfl

/-! ### Lookups -/

theorem lookup?_eq_of_bound? {x : String} {b : Binding} (h : env.bound? env.current x = some b) :
    env.lookup? x = some b := by
  have h' : (env.frame env.current).get? x = some b := h
  simp [lookup?, lookupFrom?, chain, h']

/-- A name that a lookup finds is bound by some frame. -/
theorem exists_bound?_of_lookup? {x : String} {b : Binding} (h : env.lookup? x = some b) :
    ∃ f, env.bound? f x = some b := by
  obtain ⟨f, -, hf⟩ := List.exists_of_findSome?_eq_some h
  exact ⟨f, hf⟩

theorem findClass_eq_ok {name : String} {c : Class} :
    env.findClass name = .ok c ↔ env.bound? global name = some (.cls c) := by
  simp only [findClass, bound?]
  split <;> simp_all

theorem findClass_error {name : String} {e : Fault} (h : env.findClass name = .error e) : e = .undeclaredClass name := by
  unfold findClass at h
  split at h
  · cases h
  · cases h
    rfl

theorem ownClosure?_eq_some {c : ClassInfo} {x : String} {k : Closure} :
    env.ownClosure? c x = some k ↔ env.bound? c.frame x = some (.closure k) := by
  simp only [ownClosure?, bound?]
  split <;> simp_all

/-- Inside a new frame around the current one every name stands for what it stood for before. -/
theorem lookup?_extend (name x : String) :
    (env.extend env.current name).lookup? x = env.lookup? x := by
  have hchain : (env.extend env.current name).chain env.frames.size
      = env.frames.size :: env.chain env.current := by
    simp [chain, frame_extend]
  have hget : (fun f => ((env.extend env.current name).frame f).get? x)
      = fun f => (env.frame f).get? x := funext (fun f => bound?_extend _ _ f x)
  have hnew : (env.frame env.frames.size).get? x = none :=
    bound?_eq_none_of_size_le (Nat.le_refl _) x
  rw [lookup?, lookupFrom?, current_extend, hchain, hget, List.findSome?_cons, hnew]
  rfl

/-! ### What lasts -/

/-- Bindings and variables of `env` last in `env'`, and what `env'` binds anew are variables under
their own names. -/
structure Lasts (env env' : Environment) : Prop where
  kept : ∀ f x b, env.bound? f x = some b → env'.bound? f x = some b
  fresh : ∀ f x b, env'.bound? f x = some b → env.bound? f x = some b ∨
    ∃ id v, b = .var id ∧ env'.var? id = some v ∧ v.name = x
  vars : ∀ id v, env.var? id = some v → ∃ v', env'.var? id = some v' ∧ v'.name = v.name

namespace Lasts

variable {env₁ : Environment}

theorem refl (env : Environment) : Lasts env env :=
  ⟨fun _ _ _ h => h, fun _ _ _ h => .inl h, fun _ v h => ⟨v, h, rfl⟩⟩

/-- A change that keeps all bindings and the names of all variables. -/
theorem of_bound? (h : Lasts env env₁) (hb : ∀ f x, env'.bound? f x = env₁.bound? f x)
    (hv : ∀ id v, env₁.var? id = some v → ∃ v', env'.var? id = some v' ∧ v'.name = v.name) :
    Lasts env env' := by
  refine ⟨fun f x b hx => (hb f x).trans (h.kept f x b hx), fun f x b hx => ?_, fun id v hx => ?_⟩
  · rcases h.fresh f x b ((hb f x).symm.trans hx) with hold | ⟨id, v, rfl, hid, hname⟩
    · exact .inl hold
    · obtain ⟨v', hv', hn⟩ := hv id v hid
      exact .inr ⟨id, v', rfl, hv', hn.trans hname⟩
  · obtain ⟨v₁, hv₁, hn₁⟩ := h.vars id v hx
    obtain ⟨v', hv', hn⟩ := hv id v₁ hv₁
    exact ⟨v', hv', hn.trans hn₁⟩

theorem extend (h : Lasts env env₁) (around : FrameId) (name : String) :
    Lasts env (env₁.extend around name) :=
  h.of_bound? (fun f x => bound?_extend around name f x) (fun _ v hv => ⟨v, hv, rfl⟩)

theorem restore (h : Lasts env env₁) (f : FrameId) : Lasts env (env₁.restore f) :=
  h.of_bound? (fun _ _ => rfl) (fun _ v hv => ⟨v, hv, rfl⟩)

theorem createArray (h : Lasts env env₁) (t : TypeName) (vs : List Value) :
    Lasts env (env₁.createArray t vs).2 :=
  h.of_bound? (fun _ _ => rfl) (fun _ v hv => ⟨v, hv, rfl⟩)

theorem assign (h : Lasts env env₁) (x : VarId) (w : Value) : Lasts env (env₁.assign x w) := by
  refine h.of_bound? (fun _ _ => rfl) (fun id v hv => ?_)
  rw [var?_assign, hv]
  by_cases hx : id = x
  · exact ⟨{ v with value := some w }, by simp [hx], rfl⟩
  · exact ⟨v, by simp [hx], rfl⟩

theorem var?_of_allocate {v w : Variable} {id : VarId} (h : env.var? id = some v) :
    (env.allocate w).var? id = some v := by
  rw [var?_allocate, if_neg (Nat.ne_of_lt (lt_size_of_var? h))]
  exact h

theorem allocate (h : Lasts env env₁) (v : Variable) : Lasts env (env₁.allocate v) :=
  h.of_bound? (fun _ _ => rfl) (fun _ w hw => ⟨w, var?_of_allocate hw, rfl⟩)

/-- A variable can be bound in a frame in which `env` leaves its name free. -/
theorem addVariable (h : Lasts env env₁) {v : Variable}
    (hfree : env.bound? env₁.current v.name = none) : Lasts env (env₁.addVariable v) := by
  have hallocate := h.allocate v
  refine ⟨fun f x b hx => ?_, fun f x b hx => ?_, hallocate.vars⟩
  · rw [bound?_addVariable, if_neg]
    · exact h.kept f x b hx
    · rintro ⟨rfl, -, rfl⟩
      rw [hfree] at hx
      cases hx
  · rw [bound?_addVariable] at hx
    split at hx
    · rename_i hnew
      cases hx
      exact .inr ⟨_, v, rfl, by rw [var?_addVariable, if_pos rfl], hnew.2.2.symm⟩
    · exact hallocate.fresh f x b hx

/-- A frame that `env` does not have leaves every name free. -/
theorem addVariables (h : Lasts env env₁) (vs : List Variable)
    (hnew : env.frames.size ≤ env₁.current) : Lasts env (env₁.addVariables vs) := by
  induction vs generalizing env₁ with
  | nil => exact h
  | cons v vs ih => exact ih (h.addVariable (bound?_eq_none_of_size_le hnew _)) hnew

theorem declare (h : Lasts env env₁) {v : Variable} (hfree : env₁.bindsHere v.name = false) :
    Lasts env (env₁.addVariable v) := by
  refine h.addVariable ?_
  cases hb : env.bound? env₁.current v.name with
  | none => rfl
  | some b =>
    rw [bindsHere_eq_false, h.kept _ _ _ hb] at hfree
    cases hfree

theorem trans (h : Lasts env env₁) (h' : Lasts env₁ env') : Lasts env env' := by
  refine ⟨fun f x b hx => h'.kept f x b (h.kept f x b hx), fun f x b hx => ?_, fun id v hx => ?_⟩
  · rcases h'.fresh f x b hx with hold | hnew
    · rcases h.fresh f x b hold with hold | ⟨id, v, rfl, hid, hname⟩
      · exact .inl hold
      · obtain ⟨v', hv', hn⟩ := h'.vars id v hid
        exact .inr ⟨id, v', rfl, hv', hn.trans hname⟩
    · exact .inr hnew
  · obtain ⟨v₁, hv₁, hn₁⟩ := h.vars id v hx
    obtain ⟨v', hv', hn⟩ := h'.vars id v₁ hv₁
    exact ⟨v', hv', hn.trans hn₁⟩

/-- No closure is new. -/
theorem binds (h : Lasts env env') {k : Closure} (hk : env'.Binds k) : env.Binds k := by
  obtain ⟨f, x, hx⟩ := hk
  rcases h.fresh f x _ hx with hold | ⟨id, v, hb, -⟩
  · exact ⟨f, x, hold⟩
  · cases hb

/-- No class is new. -/
theorem findClass (h : Lasts env env') {name : String} {c : Class} :
    env'.findClass name = .ok c ↔ env.findClass name = .ok c := by
  rw [findClass_eq_ok, findClass_eq_ok]
  refine ⟨fun hx => ?_, h.kept _ _ _⟩
  rcases h.fresh _ _ _ hx with hold | ⟨id, v, hb, -⟩
  · exact hold
  · cases hb

end Lasts

end Environment
end StashMachine
