import StashMachine.Proofs.Growth

/-!
# StashMachine.Proofs.Updates — what steps write

* `Environment.Preserves env env'`: frames, bindings and variables of `env` are still there in `env'`, and no
  variable has lost its value.
* `Environment.Rewrites env env' x`: the variable `x` of `env` is another one in `env'`.
* `Step.Reads`, `Step.WritesLast`: steps that leave the environment alone, and steps that store a value in a
  variable after everything that can fail.  The three kinds of updates are of the second kind.
* `store_only_grows`: runs preserve the store, and one step rewrites at most one variable.
-/

namespace StashMachine

open Environment Step

/-! ### Stores -/

namespace Environment

variable {env env₁ env' : Environment}

/-- Everything in `env` is still there in `env'`, and what has a value still has one. -/
structure Preserves (env env' : Environment) : Prop where
  frame : ∀ f < env.frames.size, f < env'.frames.size ∧ (env'.frame f).name = (env.frame f).name ∧
    (env'.frame f).outer = (env.frame f).outer
  bound : ∀ f x b, env.bound? f x = some b → env'.bound? f x = some b
  var : ∀ id v, env.var? id = some v → ∃ v', env'.var? id = some v' ∧ v'.name = v.name ∧
    v'.type = v.type ∧ (v.value.isSome = true → v'.value.isSome = true)

/-- The variable `x` of `env` is another one in `env'`. -/
def Rewrites (env env' : Environment) (x : VarId) : Prop :=
  ∃ v, env.var? x = some v ∧ env'.var? x ≠ some v

theorem Preserves.refl (env : Environment) : Preserves env env :=
  ⟨fun _ hf => ⟨hf, rfl, rfl⟩, fun _ _ _ h => h, fun _ v h => ⟨v, h, rfl, rfl, id⟩⟩

theorem Preserves.trans (h : Preserves env env₁) (h' : Preserves env₁ env') : Preserves env env' := by
  refine ⟨fun f hf => ?_, fun f x b hb => h'.bound f x b (h.bound f x b hb), fun id v hv => ?_⟩
  · obtain ⟨hf₁, hname₁, houter₁⟩ := h.frame f hf
    obtain ⟨hf', hname, houter⟩ := h'.frame f hf₁
    exact ⟨hf', hname.trans hname₁, houter.trans houter₁⟩
  · obtain ⟨v₁, hv₁, hname₁, htype₁, hvalue₁⟩ := h.var id v hv
    obtain ⟨v', hv', hname, htype, hvalue⟩ := h'.var id v₁ hv₁
    exact ⟨v', hv', hname.trans hname₁, htype.trans htype₁, fun hsome => hvalue (hvalue₁ hsome)⟩

/-- A store that has grown is preserved if its values are. -/
theorem Grows.preserves (h : Grows env env') (hvalues : ∀ id v v', env.var? id = some v →
    env'.var? id = some v' → v.value.isSome = true → v'.value.isSome = true) : Preserves env env' := by
  refine ⟨fun f hf => ⟨Nat.lt_of_lt_of_le hf h.size, h.name f hf, h.outer f hf⟩, h.kept, fun id v hv => ?_⟩
  obtain ⟨v', hv', hname, htype⟩ := h.types id v hv
  exact ⟨v', hv', hname, htype, hvalues id v v' hv hv'⟩

theorem not_rewrites_self (env : Environment) (x : VarId) : ¬ Rewrites env env x := by
  rintro ⟨v, hv, hne⟩
  exact hne hv

theorem not_rewrites_of_kept (h : ∀ id v, env.var? id = some v → env'.var? id = some v) (x : VarId) :
    ¬ Rewrites env env' x := by
  rintro ⟨v, hv, hne⟩
  exact hne (h x v hv)

/-- Storing a value rewrites no other variable. -/
theorem eq_of_rewrites_assign {x y : VarId} {w : Value} (h : Rewrites env (env.assign x w) y) : y = x := by
  obtain ⟨v, hv, hne⟩ := h
  by_contra hyx
  rw [var?_assign, if_neg hyx] at hne
  exact hne hv

end Environment

/-! ### Steps that check first and write last -/

namespace Step

variable {α β : Type} {x : Step α}

/-- Whatever becomes of `x`, it leaves the environment alone. -/
def Reads (x : Step α) : Prop :=
  ∀ r, Ends x r (fun _ r' => r'.env = r.env) (fun _ r' => r'.env = r.env)

/-- `x` stores one value in a variable, unless it fails and leaves the environment alone. -/
def WritesLast (x : Step α) : Prop :=
  ∀ r, Ends x r (fun _ r' => ∃ y w, r'.env = r.env.assign y w) (fun _ r' => r'.env = r.env)

theorem reads_ofExcept (a : Except Fault α) : Reads (ofExcept a) := by
  intro r
  rw [ends_ofExcept]
  exact ⟨fun _ _ => rfl, fun _ _ => rfl⟩

theorem reads_ask (f : Environment → Except Fault α) : Reads (ask f) := by
  intro r
  rw [ends_ask]
  exact ⟨fun _ _ => rfl, fun _ _ => rfl⟩

theorem reads_typeOfVar (id : VarId) : Reads (typeOfVar id) := fun _ => rfl

theorem Takes.reads {wrap : α → StashItem} (h : Takes x wrap) : Reads x :=
  fun r => h r _ _ (fun _ _ _ => rfl) (fun _ _ _ => rfl)

/-- Everything that only reads may come before the write. -/
theorem Reads.before {f : α → Step β} (hx : Reads x) (hf : ∀ a, WritesLast (f a)) :
    WritesLast (x >>= f) := by
  intro r
  rw [ends_bind]
  refine (hx r).mono (fun a r₁ h₁ => ?_) (fun _ _ h => h)
  rw [← h₁]
  exact hf a r₁

theorem writesLast_throw (e : Fault) (f : α → Step β) : WritesLast ((throw e : Step α) >>= f) :=
  fun _ => rfl

/-- The write itself, and the value that is left. -/
theorem writesLast_store (y : VarId) (w v : Value) :
    WritesLast (changeEnv (fun env => env.assign y w) >>= fun _ => pushValue v) :=
  fun _ => ⟨y, w, rfl⟩

theorem writesLast_assign : WritesLast assign :=
  takes_popValue.reads.before fun _ => takes_popTarget.reads.before fun y =>
    (reads_typeOfVar y).before fun _ => (reads_ofExcept _).before fun w => writesLast_store y w w

theorem writesLast_compoundAssign (op : BinaryOp) : WritesLast (compoundAssign op) :=
  takes_popValue.reads.before fun _ => takes_popValue.reads.before fun _ =>
    takes_popTarget.reads.before fun y => (reads_typeOfVar y).before fun _ =>
      (reads_ofExcept _).before fun _ => (reads_ofExcept _).before fun w => writesLast_store y w w

theorem writesLast_increment (op : BinaryOp) (fix : Fixity) : WritesLast (increment op fix) := by
  refine takes_popTarget.reads.before fun y => (reads_typeOfVar y).before fun type => ?_
  extract_lets move
  have hmove : ∀ u, WritesLast (move u) := fun _ =>
    (reads_ask _).before fun _ => (reads_ofExcept _).before fun _ => (reads_ofExcept _).before fun w =>
      writesLast_store y w _
  split
  · exact writesLast_throw _ _
  · exact hmove ⟨⟩

theorem writesLast_update {i : Item} (hi : i.isUpdate = true) (natives : Natives) :
    WritesLast (perform natives i) := by
  cases i with
  | assign => exact writesLast_assign
  | compoundAssign op => exact writesLast_compoundAssign op
  | increment op fix => exact writesLast_increment op fix
  | _ => cases hi

end Step

/-! ### One step -/

section Steps

variable {r r' : Registers} {i : Item} {env' : Environment}

/-- An update stores one value; everything else leaves all variables alone. -/
theorem Effect.writes (h : Effect r i env') :
    (∃ x w, i.isUpdate = true ∧ env' = r.env.assign x w) ∨
      ∀ id v, r.env.var? id = some v → env'.var? id = some v := by
  cases h with
  | same | restore | block | array => exact .inr (fun _ _ hv => hv)
  | declare | allocate => exact .inr (fun _ _ hv => Lasts.var?_of_allocate hv)
  | assign hi => exact .inl ⟨_, _, hi, rfl⟩
  | object => exact .inr (fun _ _ hv => var?_instantiate _ _ hv)
  | call => exact .inr (fun _ _ hv => var?_addVariables _ hv)

theorem Leads.writes (h : Leads r i r') :
    (∃ x w, i.isUpdate = true ∧ r'.env = r.env.assign x w) ∨
      ∀ id v, r.env.var? id = some v → r'.env.var? id = some v := by
  rcases h with (⟨-, h⟩ | ⟨k, -, -, rfl⟩ | ⟨d, superclass, c, ks, -, -, -, -, -, -, -, henv⟩) |
    (h | ⟨d, superclass, -, rfl⟩ | ⟨_, c, -, -, -, rfl⟩)
  · exact h.env.writes
  · exact .inr (fun _ _ hv => hv)
  · rw [henv]
    exact .inr (fun _ _ hv => hv)
  · exact h.env.writes
  · exact .inr (fun _ _ hv => hv)
  · exact .inr (fun _ _ hv => var?_instantiate _ c hv)

theorem Leads.preserves (h : Leads r i r') : Preserves r.env r'.env := by
  refine h.grows.preserves (fun id v v' hv hv' hsome => ?_)
  rcases h.writes with ⟨x, w, -, henv⟩ | hkept
  · rw [henv, var?_assign, hv] at hv'
    split at hv'
    · cases hv'
      rfl
    · cases hv'
      exact hsome
  · rw [hkept id v hv] at hv'
    cases hv'
    exact hsome

/-- A faulty step rewrites nothing: an update fails before it writes. -/
theorem not_rewrites_of_fault {e : Fault} (hperform : perform Natives.empty i r = .error e r') (x : VarId) :
    ¬ Rewrites r.env r'.env x := by
  by_cases hi : i.isUpdate = true
  · have henv : r'.env = r.env := (writesLast_update hi Natives.empty r).of_error hperform
    rw [henv]
    exact not_rewrites_self r.env x
  · have hleads : Leads r i r' := .inr ((perform_outcome i r).of_error hperform)
    rcases hleads.writes with ⟨_, _, hupdate, -⟩ | hkept
    · exact absurd hupdate hi
    · exact not_rewrites_of_kept hkept x

end Steps

/-! ### Runs -/

namespace Machine

variable {m m' : Machine}

/-- A faulty step or not: the store is preserved. -/
theorem preserves_step (m : Machine) :
    match evaluate Natives.empty 1 m with
    | .ok _ m' | .error _ m' => Preserves m.registers.env m'.registers.env := by
  obtain ⟨⟨control, stash, env, output⟩, steps⟩ := m
  cases control with
  | nil => exact .refl _
  | cons i control =>
    rw [evaluate_one_cons]
    have hstep := perform_outcome i ⟨control, stash, env, output⟩
    cases hperform : perform Natives.empty i ⟨control, stash, env, output⟩ with
    | ok a r' =>
      have hleads : Leads ⟨control, stash, env, output⟩ i r' := .inl (hstep.of_ok hperform)
      exact hleads.preserves
    | error e r' =>
      have hleads : Leads ⟨control, stash, env, output⟩ i r' := .inr (hstep.of_error hperform)
      exact hleads.preserves

theorem preserves_run (n : Nat) (m : Machine) :
    match evaluate Natives.empty n m with
    | .ok _ m' | .error _ m' => Preserves m.registers.env m'.registers.env := by
  induction n generalizing m with
  | zero => exact .refl _
  | succ n ih =>
    have hstep := preserves_step m
    rw [evaluate_succ]
    cases h₁ : evaluate Natives.empty 1 m with
    | ok a m₁ =>
      rw [h₁] at hstep
      have hrest := ih m₁
      show match evaluate Natives.empty n m₁ with
        | .ok _ m' | .error _ m' => Preserves m.registers.env m'.registers.env
      cases hrun : evaluate Natives.empty n m₁ with
      | ok b m' =>
        rw [hrun] at hrest
        exact Preserves.trans hstep hrest
      | error e m' =>
        rw [hrun] at hrest
        exact Preserves.trans hstep hrest
    | error e m₁ =>
      rw [h₁] at hstep
      exact hstep

/-- The item that is performed next stores a value in a variable. -/
def Updates (m : Machine) : Prop := ∃ i control, m.registers.control = i :: control ∧ i.isUpdate = true

theorem Updates.writes (hupdates : m.Updates) (h : evaluate Natives.empty 1 m = .ok () m') :
    ∃ x w, m'.registers.env = m.registers.env.assign x w := by
  obtain ⟨i, control, hcontrol, hi⟩ := hupdates
  obtain ⟨i', control', hcontrol', hperform, -⟩ := next_iff.mp ⟨by simp [isFinished, hcontrol], h⟩
  obtain ⟨rfl, rfl⟩ : i' = i ∧ control' = control := by
    rw [hcontrol] at hcontrol'
    cases hcontrol'
    exact ⟨rfl, rfl⟩
  exact (writesLast_update hi Natives.empty { m.registers with control := control' }).of_ok hperform

/-- Only updates rewrite a variable. -/
theorem updates_of_rewrites (h : evaluate Natives.empty 1 m = .ok () m') {x : VarId}
    (hx : Rewrites m.registers.env m'.registers.env x) : m.Updates := by
  by_cases hfinished : m.isFinished = true
  · rw [evaluate_of_isFinished hfinished] at h
    cases h
    exact absurd hx (not_rewrites_self _ x)
  · obtain ⟨i, control, hcontrol, hperform, -⟩ := next_iff.mp ⟨by simpa using hfinished, h⟩
    have hleads : Leads _ i m'.registers := .inl ((perform_outcome i _).of_ok hperform)
    rcases hleads.writes with ⟨_, _, hi, -⟩ | hkept
    · exact ⟨i, control, hcontrol, hi⟩
    · exact absurd hx (not_rewrites_of_kept hkept x)

end Machine

open Machine

/-- However long it runs, a machine preserves its store: frames, the frames around them, bindings, the names
and types of variables, and that they have a value.  One step rewrites at most one variable; it does so only if
it is an update, and then the store is what it was but for one value.  A faulty step rewrites none. -/
theorem store_only_grows (m : Machine) :
    (∀ n, match evaluate Natives.empty n m with
      | .ok _ m' | .error _ m' => Preserves m.registers.env m'.registers.env) ∧
    match evaluate Natives.empty 1 m with
    | .ok _ m' =>
      (∀ x y, Rewrites m.registers.env m'.registers.env x → Rewrites m.registers.env m'.registers.env y →
        x = y) ∧
      (∀ x, Rewrites m.registers.env m'.registers.env x → m.Updates) ∧
      (m.Updates → ∃ x w, m'.registers.env = m.registers.env.assign x w)
    | .error _ m' => ∀ x, ¬ Rewrites m.registers.env m'.registers.env x := by
  refine ⟨fun n => preserves_run n m, ?_⟩
  cases h : evaluate Natives.empty 1 m with
  | ok a m' =>
    refine ⟨fun x y hx hy => ?_, fun x hx => updates_of_rewrites h hx, fun hm => hm.writes h⟩
    obtain ⟨z, w, henv⟩ := (updates_of_rewrites h hx).writes h
    rw [henv] at hx hy
    exact (eq_of_rewrites_assign hx).trans (eq_of_rewrites_assign hy).symm
  | error e m' =>
    obtain ⟨i, control, hcontrol, hperform⟩ := evaluate_one_error h
    intro x
    exact not_rewrites_of_fault hperform x

end StashMachine
