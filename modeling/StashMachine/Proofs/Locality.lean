import StashMachine.Proofs.Outcomes

/-!
# StashMachine.Proofs.Locality — steps work at the tops of the stacks

* `Registers.onto`, `Machine.onto`: the same stacks with further items below them.
* `Step.Local x`: where `x` succeeds, it does the same over any further items, and leaves them alone.  One rule
  for each way steps are put together and for each move of the registers.
* `local_perform`: every item of control is performed at the tops of the stacks.
* `steps_are_local`: so is a run that never comes to the end of control.

The only moves that look further down are those of a jump, of a call that turns out to need a receiver, and of
the arguments of a call; each of them succeeds only if it finds what it looks for.
-/

namespace StashMachine

/-- The registers with further items below control and below the stash. -/
def Registers.onto (r : Registers) (K : List Item) (S : List StashItem) : Registers :=
  { r with control := r.control ++ K, stash := r.stash ++ S }

/-- The machine with further items below control and below the stash. -/
def Machine.onto (m : Machine) (K : List Item) (S : List StashItem) : Machine :=
  { m with registers := m.registers.onto K S }

namespace Step

variable {α β : Type}

/-- Where the step succeeds, it does the same over any further items, and leaves them alone. -/
def Local (x : Step α) : Prop :=
  ∀ r a r', x r = .ok a r' → ∀ K S, x (r.onto K S) = .ok a (r'.onto K S)

/-! ### Putting steps together -/

theorem local_pure (a : α) : Local (pure a : Step α) := by
  intro r b r' h K S
  cases h
  rfl

theorem local_throw (e : Fault) : Local (throw e : Step α) := by
  intro r a r' h
  cases h

theorem Local.bind {x : Step α} {f : α → Step β} (hx : Local x) (hf : ∀ a, Local (f a)) :
    Local (x >>= f) := by
  intro r b r' h K S
  replace h : EStateM.bind x f r = .ok b r' := h
  show EStateM.bind x f (r.onto K S) = .ok b (r'.onto K S)
  rw [EStateM.bind] at h ⊢
  cases hr : x r with
  | ok a r₁ =>
    rw [hr] at h
    rw [hx r a r₁ hr K S]
    exact hf a r₁ b r' h K S
  | error e r₁ =>
    rw [hr] at h
    cases h

theorem local_ite {x y : Step α} (c : Prop) [Decidable c] (hx : Local x) (hy : Local y) :
    Local (if c then x else y) := by
  by_cases hc : c
  · rwa [if_pos hc]
  · rwa [if_neg hc]

theorem get_apply (r : Registers) : (get : Step Registers) r = .ok r r := rfl

/-- A step that looks at the registers only for what is not on the stacks. -/
theorem local_get_bind {f : Registers → Step α} (hsame : ∀ r K S, f (r.onto K S) = f r)
    (hf : ∀ r, Local (f r)) : Local (get >>= f) := by
  intro r a r' h K S
  have honto : (get >>= f : Step α) (r.onto K S) = f r (r.onto K S) := congrFun (hsame r K S) _
  rw [honto]
  exact hf r r a r' h K S

theorem local_ofExcept (x : Except Fault α) : Local (ofExcept x) := by
  cases x with
  | ok a => exact local_pure a
  | error e => exact local_throw e

theorem local_ask (f : Environment → Except Fault α) : Local (ask f) :=
  local_get_bind (fun _ _ _ => rfl) (fun _ => local_ofExcept _)

/-! ### Moves of the registers -/

theorem local_changeEnv (f : Environment → Environment) : Local (changeEnv f) := by
  intro r a r' h K S
  cases h
  rfl

theorem local_useEnv (f : Environment → α × Environment) : Local (useEnv f) := by
  intro r a r' h K S
  cases h
  rfl

theorem local_push (item : StashItem) : Local (push item) := by
  intro r a r' h K S
  cases h
  rfl

theorem local_pushValue (v : Value) : Local (pushValue v) := local_push _

theorem local_schedule (items : List Item) : Local (schedule items) := by
  intro r a r' h K S
  cases h
  show EStateM.Result.ok () _ = EStateM.Result.ok () _
  simp [Registers.onto]

theorem local_here : Local here := local_get_bind (fun _ _ _ => rfl) (fun _ => local_pure _)

theorem local_describe (item : StashItem) : Local (describe item) :=
  local_get_bind (fun _ _ _ => rfl) (fun _ => local_pure _)

theorem local_typeOfVar (x : VarId) : Local (typeOfVar x) :=
  local_get_bind (fun _ _ _ => rfl) (fun _ => local_pure _)

theorem local_extend (around : FrameId) (name : String) : Local (extend around name) :=
  local_changeEnv _

theorem local_newest : Local (do return (← get).env.newestVariable : Step VarId) :=
  local_get_bind (fun _ _ _ => rfl) (fun _ => local_pure _)

theorem local_fresh (v : Variable) : Local (fresh v) := (local_changeEnv _).bind (fun _ => local_newest)

theorem local_declare (v : Variable) : Local (declare v) :=
  (local_ask _).bind (fun _ => (local_changeEnv _).bind (fun _ => local_newest))

theorem local_defineClosure (k : Closure) : Local (defineClosure k) :=
  (local_ask _).bind (fun _ => local_changeEnv _)

theorem local_defineClass (c : Class) : Local (defineClass c) :=
  (local_ask _).bind (fun _ => local_changeEnv _)

/-- What is taken off the stash lies on top of it. -/
theorem local_pop : Local pop := by
  rintro ⟨control, stash, env, output⟩ a r' h K S
  cases stash with
  | nil => cases h
  | cons item stash =>
    cases h
    rfl

theorem local_popValue : Local popValue := by
  refine local_pop.bind (fun item => ?_)
  split
  · exact local_pure _
  · exact (local_describe _).bind (fun _ => local_throw _)

theorem local_popType : Local popType := by
  refine local_pop.bind (fun item => ?_)
  split
  · exact local_pure _
  · exact (local_describe _).bind (fun _ => local_throw _)

theorem local_popClosure : Local popClosure := by
  refine local_pop.bind (fun item => ?_)
  split
  · exact local_pure _
  · exact (local_describe _).bind (fun _ => local_throw _)

theorem local_popTarget : Local popTarget := by
  refine local_pop.bind (fun item => ?_)
  split
  · exact local_pure _
  · exact (local_describe _).bind (fun _ => local_throw _)

/-- A count of items is taken one by one, so it never reaches below the items that are there. -/
theorem local_popMany {take : Step α} (htake : Local take) (n : Nat) (taken : List α) :
    Local (popMany take n taken) := by
  induction n generalizing taken with
  | zero => exact local_pure _
  | succ n ih => exact htake.bind (fun a => ih (a :: taken))

theorem local_popValues (n : Nat) : Local (popValues n) := local_popMany local_popValue n []

theorem local_popTypes (n : Nat) : Local (popTypes n) := local_popMany local_popType n []

/-! ### Variables and fields -/

theorem local_assign : Local assign := by
  refine local_popValue.bind (fun v => local_popTarget.bind (fun x => ?_))
  refine (local_typeOfVar x).bind (fun type => (local_ofExcept _).bind (fun v => ?_))
  exact (local_changeEnv _).bind (fun _ => local_pushValue v)

theorem local_compoundAssign (op : BinaryOp) : Local (compoundAssign op) := by
  refine local_popValue.bind (fun v => local_popValue.bind (fun old => local_popTarget.bind (fun x => ?_)))
  refine (local_typeOfVar x).bind (fun type => (local_ofExcept _).bind (fun v => ?_))
  refine (local_ofExcept _).bind (fun v => ?_)
  exact (local_changeEnv _).bind (fun _ => local_pushValue v)

theorem local_increment (op : BinaryOp) (fix : Fixity) : Local (increment op fix) := by
  refine local_popTarget.bind (fun x => (local_typeOfVar x).bind (fun type => ?_))
  have hstore : ∀ result : Value → Value → Value, Local (do
      let old ← ask (fun env => env.value x)
      let moved ← ofExcept (Value.binary op old (.int 1))
      let new ← ofExcept (moved.narrow type)
      changeEnv (fun env => env.assign x new)
      pushValue (result old new) : Step Unit) := by
    intro result
    refine (local_ask _).bind (fun old => (local_ofExcept _).bind (fun moved => ?_))
    refine (local_ofExcept _).bind (fun new => (local_changeEnv _).bind (fun _ => ?_))
    exact local_pushValue _
  exact local_ite _ ((local_throw _).bind (fun _ => hstore _)) (hstore _)

theorem local_load : Local load := by
  rintro ⟨control, stash, env, output⟩ a r' h K S
  cases stash with
  | nil => cases h
  | cons item stash =>
    cases item with
    | var x => exact (local_ask _).bind (fun _ => local_pushValue _) _ _ _ h K S
    | _ => cases h

theorem local_find (p : Path) : Local (find p) := by
  cases p with
  | field p x => exact local_schedule _
  | simple x =>
    refine (local_ask _).bind (fun b => ?_)
    split
    · exact local_push _
    · exact local_push _
    · exact local_throw _

theorem local_deref : Local deref := by
  refine local_pop.bind (fun item => ?_)
  split
  · exact (local_ask _).bind (fun _ => local_pushValue _)
  · exact local_push _

theorem local_staticField (c : Class) (field : String) : Local (staticField c field) := by
  unfold staticField
  split
  · exact local_throw _
  · refine local_ite _ ((local_throw _).bind (fun _ => ?_)) ?_ <;>
    · refine local_get_bind (fun _ _ _ => rfl) (fun r => ?_)
      split
      · exact local_pure _
      · exact local_throw _

theorem local_arrayLength (qualifier field : String) (value : Option Value) :
    Local (arrayLength qualifier field value) := by
  unfold arrayLength
  split
  · split
    · exact local_fresh _
    · exact local_throw _
    · exact local_throw _
    · exact local_throw _
  · exact local_throw _

theorem local_instanceField (qualifier : String) (value : Option Value) (field : String) :
    Local (instanceField qualifier value field) := by
  unfold instanceField
  split
  · refine local_get_bind (fun _ _ _ => rfl) (fun r => ?_)
    split
    · exact local_pure _
    · exact local_throw _
  · exact local_throw _
  · exact local_throw _
  · exact local_throw _

theorem local_fieldOf (qualifier : String) (declared : TypeName) (value : Option Value) (field : String) :
    Local (fieldOf qualifier declared value field) := by
  unfold fieldOf
  split
  · exact local_arrayLength _ _ _
  · exact local_throw _
  · refine (local_ask _).bind (fun c => ?_)
    split
    · exact local_throw _
    · split
      · exact local_staticField _ _
      · exact local_instanceField _ _ _

theorem local_select (field : String) : Local (select field) := by
  refine local_pop.bind (fun item => ?_)
  split
  · exact (local_staticField _ _).bind (fun _ => local_push _)
  · refine local_get_bind (fun _ _ _ => rfl) (fun r => ?_)
    split
    · exact (local_fieldOf _ _ _ _).bind (fun _ => local_push _)
    · exact local_throw _
  · exact (local_fieldOf _ _ _ _).bind (fun _ => local_push _)
  · exact (local_describe _).bind (fun _ => local_throw _)

theorem local_arrayOf (element : TypeName) (size : Nat) : Local (arrayOf element size) := by
  refine (local_popValues size).bind (fun values => (local_ofExcept _).bind (fun values => ?_))
  exact (local_useEnv _).bind (fun _ => local_pushValue _)

/-! ### Statements and expressions -/

theorem local_evaluate (e : Expr) : Local (evaluate e) := by
  unfold evaluate
  split <;> first | exact local_schedule _ | exact local_pushValue _ | exact local_throw _

theorem local_declareOne (type : TypeName) (d : Declarator) (default : Option Literal) :
    Local (declareOne type d default) := by
  unfold declareOne
  split
  · refine (local_declare _).bind (fun id => (local_push _).bind (fun _ => ?_))
    exact local_schedule _
  · exact (local_declare _).bind (fun _ => local_pure _)

theorem local_declareLocal (type : TypeName) (vars : List Declarator) : Local (declareLocal type vars) := by
  unfold declareLocal
  split
  · exact local_pure _
  · exact local_declareOne _ _ _
  · exact local_schedule _

theorem local_declareStatic (f : FieldDecl) : Local (declareStatic f) := by
  unfold declareStatic
  split
  · exact local_pure _
  · exact local_declareOne _ _ _
  · exact local_schedule _

theorem local_construct (who : Delegate) (args : List Expr) : Local (construct who args) := by
  refine (local_ask _).bind (fun x => (local_typeOfVar x).bind (fun type => ?_))
  exact local_schedule _

theorem local_execute (s : Stmt) : Local (execute s) := by
  cases s with
  | block body =>
    refine local_here.bind (fun outside => (local_extend _ _).bind (fun _ => ?_))
    exact local_schedule _
  | declare type vars => exact local_declareLocal type vars
  | loop c body => exact local_here.bind (fun _ => local_schedule _)
  | forLoop init c update body =>
    refine local_here.bind (fun outside => (local_extend _ _).bind (fun _ => ?_))
    exact local_schedule _
  | switch e arms => exact local_here.bind (fun _ => local_schedule _)
  | empty => exact local_pure _
  | construct who args => exact local_construct who args
  | _ => exact local_schedule _

theorem local_branch (yes no : List Item) : Local (branch yes no) := by
  refine local_popValue.bind (fun v => ?_)
  split
  · exact local_schedule _
  · exact local_schedule _
  · exact local_throw _

/-- A jump that finds its marker finds the same one over any further items. -/
theorem unwind_onto {jump : Jump} {c rest : List Item} (h : unwind jump c = .ok rest) (K : List Item) :
    unwind jump (c ++ K) = .ok (rest ++ K) := by
  induction c with
  | nil => cases h
  | cons item c ih =>
    cases item with
    | marker k =>
      rw [List.cons_append, unwind]
      rw [unwind] at h
      by_cases hk : k = jump
      · rw [if_pos hk] at h ⊢
        cases h
        rfl
      · rw [if_neg hk] at h ⊢
        by_cases hret : k = .ret
        · rw [if_pos hret] at h
          cases h
        · rw [if_neg hret] at h ⊢
          exact ih h
    | _ => exact ih h

theorem local_reset (jump : Jump) : Local (reset jump) := by
  intro r a r' h K S
  simp only [reset, bind, EStateM.bind, get_apply] at h ⊢
  cases hu : unwind jump r.control with
  | ok rest =>
    rw [hu] at h
    cases h
    have honto : unwind jump (r.onto K S).control = .ok (rest ++ K) := unwind_onto hu K
    rw [honto]
    rfl
  | error rest =>
    rw [hu] at h
    cases h

theorem local_switch (arms : List (Arm Stmt)) : Local (switch arms) := by
  refine local_popValue.bind (fun v => (local_ofExcept _).bind (fun found => ?_))
  split
  · exact local_here.bind (fun _ => (local_extend _ _).bind (fun _ => local_schedule _))
  · exact local_pure _

/-! ### Calls -/

theorem local_typeOf (e : Expr) : Local (typeOf e) := by
  unfold typeOf
  split
  · exact local_schedule _
  · exact (local_ask _).bind (fun _ => local_push _)
  · exact (local_ask _).bind (fun _ => local_push _)

theorem local_typeOfField (field : String) : Local (typeOfField field) :=
  local_popType.bind (fun _ => (local_ask _).bind (fun _ => local_push _))

/-- The invocation that waits a number of items down control stands above any further items. -/
theorem addReceiver?_onto {n : Nat} {c c' : List Item} (h : addReceiver? n c = some c') (K : List Item) :
    addReceiver? n (c ++ K) = some (c' ++ K) := by
  fun_induction addReceiver? n c generalizing c' with
  | case1 n rest =>
    cases h
    rfl
  | case2 depth item rest ih =>
    obtain ⟨rest', hrest, rfl⟩ := Option.map_eq_some_iff.mp h
    rw [List.cons_append, addReceiver?, ih hrest]
    rfl
  | case3 => cases h

/-- A call whose invocation gets a receiver. -/
theorem local_addReceiver (name : String) (arity : Nat) (qualifier : Path) {next : Step Unit}
    (hnext : Local next) : Local (do
      let r ← get
      match addReceiver? arity r.control with
      | none => throw (.internal (.noInvocation qualifier.text name))
      | some control => set { r with control := control }
      next : Step Unit) := by
  intro r a r' h K S
  cases hadd : addReceiver? arity r.control with
  | some control =>
    have hbelow : addReceiver? arity (r.onto K S).control = some (control ++ K) := addReceiver?_onto hadd K
    simp only [bind, EStateM.bind, get_apply, hadd, hbelow] at h ⊢
    exact hnext _ a r' h K S
  | none =>
    simp only [bind, EStateM.bind, get_apply, hadd] at h
    cases h

theorem local_overload (name : String) (arity : Nat) (qualifier : Path) :
    Local (overload name arity qualifier) := by
  refine (local_popTypes arity).bind (fun types => local_popType.bind (fun owner => ?_))
  refine (local_ask _).bind (fun k => (local_push _).bind (fun _ => ?_))
  split
  · exact local_pure _
  · exact local_addReceiver name arity qualifier (local_schedule _)

theorem local_override : Local override := by
  refine local_pop.bind (fun receiver => local_popClosure.bind (fun selected => ?_))
  split
  · exact (local_ask _).bind (fun k => (local_push _).bind (fun _ => local_pushValue _))
  · exact local_throw _
  · exact local_throw _
  · exact (local_describe _).bind (fun _ => local_throw _)

theorem local_overloadConstructor (className : String) (arity : Nat) :
    Local (overloadConstructor className arity) :=
  (local_popTypes arity).bind (fun _ => (local_ask _).bind (fun _ => local_push _))

theorem local_new (className : String) : Local (new className) :=
  (local_ask _).bind (fun _ => (local_useEnv _).bind (fun made =>
    (local_ofExcept made).bind (fun _ => local_pushValue _)))

theorem local_bindReceiver (k : Closure) (object : Class × FrameId) : Local (bindReceiver k object) := by
  refine (local_declare _).bind (fun _ => (local_ask _).bind (fun c => ?_))
  split
  · exact (local_declare _).bind (fun _ => local_pure _)
  · exact local_pure _

theorem local_bindParams (params : List Param) (args : List Value) : Local (bindParams params args) := by
  fun_induction bindParams params args with
  | case1 p ps v vs ih =>
    refine (local_ofExcept _).bind (fun v => (local_declare _).bind (fun _ => ?_))
    exact ih
  | case2 => exact local_pure _

theorem local_enter (k : Closure) : Local (enter Natives.empty k) := by
  unfold enter
  split
  · exact local_schedule _
  · split
    · -- without natives the call of native code fails
      exact (local_schedule _).bind (fun _ => local_throw _)
    · split
      · exact local_schedule _
      · exact local_throw _

theorem local_invoke (arity : Nat) : Local (invoke Natives.empty arity) := by
  refine (local_popValues arity).bind (fun args => local_popClosure.bind (fun k => ?_))
  have hbody : ∀ args : List Value, Local (do
      bindParams k.callable.params args
      enter Natives.empty k) := fun args => (local_bindParams _ args).bind (fun _ => local_enter k)
  refine local_ite _ ((local_throw _).bind (fun _ => ?_)) ?_ <;>
  · refine local_here.bind (fun frame => (local_schedule _).bind (fun _ => ?_))
    refine (local_ofExcept _).bind (fun split => (local_extend _ _).bind (fun _ => ?_))
    dsimp only
    split
    · exact (local_bindReceiver k _).bind (fun _ => hbody _)
    · exact hbody _

/-! ### Classes -/

theorem local_start (p : Program) : Local (start p) := by
  unfold start
  split
  · exact local_throw _
  · exact (local_ofExcept _).bind (fun _ => local_schedule _)

theorem local_superclassOf (d : ClassDecl) : Local (superclassOf d) := by
  unfold superclassOf
  split
  · exact (local_ask _).bind (fun _ => local_pure _)
  · exact local_pure _

theorem local_elaborateClass (d : ClassDecl) : Local (elaborateClass d) := by
  refine (local_superclassOf d).bind (fun superclass => local_here.bind (fun previous => ?_))
  refine (local_extend _ _).bind (fun _ => local_here.bind (fun frame => ?_))
  exact (local_defineClass _).bind (fun _ => local_schedule _)

theorem local_bindCallable (k : Callable) : Local (bindCallable k) :=
  local_get_bind (fun _ _ _ => rfl) (fun _ => local_defineClosure _)

/-! ### Every step -/

/-- Every item is performed at the tops of the stacks. -/
theorem local_perform (item : Item) : Local (perform Natives.empty item) := by
  cases item with
  | program p => exact local_start p
  | classDecl d => exact local_elaborateClass d
  | method d => exact local_bindCallable _
  | constructor d => exact local_bindCallable _
  | field f => exact local_declareStatic f
  | stmt s => exact local_execute s
  | expr e => exact local_evaluate e
  | assign => exact local_assign
  | compoundAssign op => exact local_compoundAssign op
  | increment op fix => exact local_increment op fix
  | load => exact local_load
  | binary op =>
    refine local_popValue.bind (fun r => local_popValue.bind (fun l => ?_))
    exact (local_ofExcept _).bind (fun _ => local_pushValue _)
  | unary op => exact local_popValue.bind (fun v => (local_ofExcept _).bind (fun _ => local_pushValue _))
  | pop => exact local_pop.bind (fun _ => local_pure _)
  | find p => exact local_find p
  | deref => exact local_deref
  | select field => exact local_select field
  | arrayOf element size => exact local_arrayOf element size
  | restore frame => exact local_changeEnv (fun env => env.restore frame)
  | marker jump => exact local_pure _
  | reset jump => exact local_reset jump
  | branch yes no => exact local_branch yes no
  | whileRound c body => exact local_here.bind (fun _ => local_schedule _)
  | forRound c update body => exact local_here.bind (fun _ => local_schedule _)
  | switch arms => exact local_switch arms
  | typeOf e => exact local_typeOf e
  | typeOfField field => exact local_typeOfField field
  | overload name arity qualifier => exact local_overload name arity qualifier
  | override => exact local_override
  | overloadConstructor c arity => exact local_overloadConstructor c arity
  | new c => exact local_new c
  | invoke arity => exact local_invoke arity

end Step

open Machine

variable {m m' : Machine}

/-- One step over further items. -/
theorem Machine.Next.onto (h : Next Natives.empty m m') (K : List Item) (S : List StashItem) :
    Next Natives.empty (m.onto K S) (m'.onto K S) := by
  obtain ⟨item, control, hcontrol, hperform, hsteps⟩ := next_iff.mp h
  refine next_iff.mpr ⟨item, control ++ K, ?_, ?_, hsteps⟩
  · show m.registers.control ++ K = item :: (control ++ K)
    rw [hcontrol, List.cons_append]
  · exact Step.local_perform item _ _ _ hperform K S

/-- Steps are local to the tops of the two stacks.  A run of `n` steps that does not come to the end of control
before the last of them is also a run of `n` steps over any further items: it leaves them alone, and does the
same to the rest of the stacks and to the environment. -/
theorem steps_are_local {n : Nat} (hrun : evaluate Natives.empty n m = .ok () m')
    (hall : ∀ k < n, ∀ m₁, evaluate Natives.empty k m = .ok () m₁ → m₁.isFinished = false)
    (K : List Item) (S : List StashItem) :
    evaluate Natives.empty n (m.onto K S) = .ok () (m'.onto K S) ∧ m'.steps = m.steps + n := by
  induction n generalizing m' with
  | zero =>
    cases hrun
    exact ⟨rfl, rfl⟩
  | succ n ih =>
    rw [evaluate_add] at hrun ⊢
    cases hfirst : evaluate Natives.empty n m with
    | ok a m₁ =>
      obtain ⟨honto, hsteps⟩ := ih hfirst (fun k hk => hall k (Nat.lt_succ_of_lt hk))
      rw [hfirst] at hrun
      -- the last step is taken from a control that is not empty
      have hnext : Next Natives.empty m₁ m' := ⟨hall n (Nat.lt_succ_self n) m₁ hfirst, hrun⟩
      rw [honto]
      refine ⟨(hnext.onto K S).2, ?_⟩
      obtain ⟨item, control, -, -, hlast⟩ := next_iff.mp hnext
      rw [hlast, hsteps, Nat.add_assoc]
    | error e m₁ =>
      rw [hfirst] at hrun
      cases hrun

/-- A jump and an addition, over a further marker of the jump and a further value. -/
theorem steps_are_local_jump :
    evaluate Natives.empty 2
        ⟨⟨[.reset .brk, .deref, .marker .brk, .binary .add, .marker .brk, .pop],
          [.value (.int 2), .value (.int 1), .value (.int 7)], .initial, []⟩, 0⟩ =
      .ok () ⟨⟨[.marker .brk, .pop], [.value (.int 3), .value (.int 7)], .initial, []⟩, 2⟩ := by
  have hrun : evaluate Natives.empty 2 ⟨⟨[.reset .brk, .deref, .marker .brk, .binary .add],
      [.value (.int 2), .value (.int 1)], .initial, []⟩, 0⟩ =
      .ok () ⟨⟨[], [.value (.int 3)], .initial, []⟩, 2⟩ := rfl
  refine (steps_are_local hrun ?_ [.marker .brk, .pop] [.value (.int 7)]).1
  intro k hk m₁ h
  match k with
  | 0 | 1 =>
    cases h
    rfl

end StashMachine
