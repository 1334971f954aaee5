import StashMachine.Proofs.Agenda
import StashMachine.Proofs.Updates

/-!
# StashMachine.Proofs.Stored — which variables a step stores

* `Passes r i k q u`: the step hands the argument `u` over to the parameter `q` of the closure `k`.
* `Stored r i x y`: a step from the registers `r` that performs `i` may make `y` of the variable `x`, which is new or
  the target of an update.
* `Step.Idle`: steps that leave all variables alone.
* `perform_stored`: a variable after a step, faulty or not, is as it was before or has been stored.
* `Machine.StepsTo`, `Visited.forall_steps`: steps of a run that may be faulty, and what they keep.
-/

namespace StashMachine

open Environment Step

variable {env env' : Environment} {r : Registers} {i : Item} {x : VarId} {y : Variable}

/-- The step invokes the closure `k` and hands the argument `u` over to its parameter `q`. -/
def Passes (r : Registers) (i : Item) (k : Closure) (q : Param) (u : Value) : Prop :=
  ∃ args object rest below, i = .invoke args.length ∧
    r.stash = (args.map StashItem.value).reverse ++ .closure k :: below ∧
    receiver k args = .ok (object, rest) ∧ (q, u) ∈ k.callable.params.zip rest

/-- A step from `r` that performs `i` may make `y` of the variable `x`: the declaration of a name with or without the
default of its type, a field of a new object, the length of an array, the receiver or an argument of a call, or the
target of an update. -/
inductive Stored (r : Registers) (i : Item) (x : VarId) : Variable → Prop
  | declared {name : String} {t : TypeName} : name ∈ i.binds → Stored r i x ⟨name, t, none⟩
  | default {name : String} {t : TypeName} : name ∈ i.binds → Stored r i x ⟨name, t, some (.default t)⟩
  | field {c : String} {d : Class} {field : String × TypeName} : i = .new c → r.env.findClass c = .ok d →
    field ∈ d.allInstanceVars → Stored r i x (freshField field)
  | length (n : Int32) : Stored r i x (lengthVariable n)
  | receiver {name c : String} (v : Value) : name = thisName ∨ name = superName → Stored r i x ⟨name, .named c, some v⟩
  | argument {k : Closure} {q : Param} {u w : Value} : Passes r i k q u → u.coerce q.type = .ok w →
    Stored r i x ⟨q.name, q.type, some w⟩
  | assigned {y : Variable} {u w : Value} {below : List StashItem} : i = .assign →
    r.stash = .value u :: .var x :: below → r.env.var? x = some y → u.coerce y.type = .ok w →
    Stored r i x { y with value := some w }
  | narrowed {y : Variable} {op : BinaryOp} {a b u w : Value} : r.env.var? x = some y →
    Value.binary op a b = .ok u → u.narrow y.type = .ok w → Stored r i x { y with value := some w }

/-- The variables of `env'` are those of `env`, but for some that may be stored. -/
def Environment.Stocks (ok : VarId → Variable → Prop) (env env' : Environment) : Prop :=
  ∀ x y, env'.var? x = some y → env.var? x = some y ∨ ok x y

/-- Whatever becomes of `x`, only such variables are stored. -/
def Step.StoresOnly {α : Type} (x : Step α) (r : Registers) (ok : VarId → Variable → Prop) : Prop :=
  Ends x r (fun _ r' => Stocks ok r.env r'.env) (fun _ r' => Stocks ok r.env r'.env)

/-! ### Stores -/

section Stocks

variable {ok : VarId → Variable → Prop}

theorem Environment.Stocks.of_vars (h : env'.vars = env.vars) : Stocks ok env env' := by
  intro x y hy
  rw [var?, h] at hy
  exact .inl hy

theorem Environment.Stocks.addVariables (h : Stocks ok env env') (vs : List Variable) (hvs : ∀ x, ∀ v ∈ vs, ok x v) :
    Stocks ok env (env'.addVariables vs) := by
  intro x y hy
  rcases mem_of_var?_addVariables hy with hy | hmem
  · exact h x y hy
  · exact .inr (hvs x y hmem)

theorem Environment.Stocks.assign {w : Value} (hok : ∀ y, env.var? x = some y → ok x { y with value := some w }) :
    Stocks ok env (env.assign x w) := by
  intro x' y' hy'
  rw [var?_assign] at hy'
  split at hy'
  · rename_i hx
    obtain ⟨y, hy, rfl⟩ := Option.map_eq_some_iff.mp hy'
    subst hx
    exact .inr (hok y hy)
  · exact .inl hy'

end Stocks

/-! ### Steps that store nothing -/

namespace Step

variable {α β : Type} {x : Step α}

/-- Whatever becomes of `x`, it leaves all variables alone. -/
def Idle (x : Step α) : Prop :=
  ∀ r, Ends x r (fun _ r' => r'.env.vars = r.env.vars) (fun _ r' => r'.env.vars = r.env.vars)

theorem Reads.idle (h : Reads x) : Idle x :=
  fun r => (h r).mono (fun _ _ hr => by rw [hr]) (fun _ _ hr => by rw [hr])

theorem Idle.bind {f : α → Step β} (hx : Idle x) (hf : ∀ a, Idle (f a)) : Idle (x >>= f) := by
  intro r
  rw [ends_bind]
  refine (hx r).mono (fun a r₁ h₁ => ?_) (fun _ _ h => h)
  exact (hf a r₁).mono (fun _ _ h => h.trans h₁) (fun _ _ h => h.trans h₁)

theorem Idle.stores {ok : VarId → Variable → Prop} (h : Idle x) (r : Registers) : StoresOnly x r ok :=
  (h r).mono (fun _ _ => .of_vars) (fun _ _ => .of_vars)

theorem idle_pure (a : α) : Idle (pure a) := fun _ => rfl

theorem idle_throw (e : Fault) : Idle (throw e : Step α) := fun _ => rfl

theorem idle_get : Idle (get : Step Registers) := fun _ => rfl

theorem idle_ask (f : Environment → Except Fault α) : Idle (ask f) := (reads_ask f).idle

theorem idle_ofExcept (a : Except Fault α) : Idle (Step.ofExcept a) := (reads_ofExcept a).idle

theorem idle_push (item : StashItem) : Idle (push item) := fun _ => rfl

theorem idle_pushValue (v : Value) : Idle (pushValue v) := fun _ => rfl

theorem idle_schedule (c : List Item) : Idle (schedule c) := fun _ => rfl

theorem idle_here : Idle here := fun _ => rfl

theorem idle_describe (item : StashItem) : Idle (describe item) := fun _ => rfl

theorem idle_extend (f : FrameId) (name : String) : Idle (extend f name) := fun _ => rfl

theorem idle_pop : Idle pop := fun _ => ends_pop_of (fun _ _ _ => rfl) (fun _ => rfl)

theorem Takes.idle {wrap : α → StashItem} (h : Takes x wrap) : Idle x := h.reads.idle

theorem Takes.idle_popMany {wrap : α → StashItem} (h : Takes x wrap) (n : Nat) (taken : List α) :
    Idle (Step.popMany x n taken) :=
  fun _ => Takes.popMany h (fun _ _ _ _ => rfl) (fun _ _ _ => rfl)

/-! Programs and classes. -/

theorem idle_start (p : Program) : Idle (start p) := by
  unfold start
  split
  · exact idle_throw _
  · exact (idle_ofExcept _).bind fun _ => idle_schedule _

theorem idle_superclassOf (d : ClassDecl) : Idle (superclassOf d) := by
  unfold superclassOf
  split
  · exact (idle_ask _).bind fun _ => idle_pure _
  · exact idle_pure _

theorem idle_defineClass (c : Class) : Idle (defineClass c) := (idle_ask _).bind fun _ _ => rfl

theorem idle_elaborateClass (d : ClassDecl) : Idle (elaborateClass d) :=
  (idle_superclassOf d).bind fun _ => idle_here.bind fun _ => (idle_extend _ _).bind fun _ => idle_here.bind fun _ =>
    (idle_defineClass _).bind fun _ => idle_schedule _

theorem idle_bindCallable (k : Callable) : Idle (bindCallable k) :=
  idle_get.bind fun _ => (idle_ask _).bind fun _ _ => rfl

/-! Expressions and statements. -/

theorem idle_evaluate (e : Expr) : Idle (evaluate e) := by
  unfold evaluate
  split <;> first
    | exact idle_pushValue _
    | exact idle_schedule _
    | exact idle_throw _

theorem idle_load : Idle load := by
  refine idle_get.bind fun r => ?_
  split
  · exact idle_throw _
  · exact (idle_ask _).bind fun _ => idle_pushValue _
  · exact (idle_describe _).bind fun _ => idle_throw _

theorem idle_find (p : Path) : Idle (find p) := by
  cases p with
  | field p x => exact idle_schedule _
  | simple x =>
    refine (idle_ask _).bind fun b => ?_
    cases b with
    | closure k => exact idle_throw _
    | _ => exact idle_push _

theorem idle_deref : Idle deref := by
  refine idle_pop.bind fun item => ?_
  split
  · exact (idle_ask _).bind fun _ => idle_pushValue _
  · exact idle_push _

theorem idle_staticField (c : Class) (x : String) : Idle (Step.staticField c x) :=
  fun r => (staticField_ends c x r).mono (fun _ _ h => by rw [h.1]) (fun _ _ h => by rw [h])

theorem idle_arrayOf (t : TypeName) (n : Nat) : Idle (arrayOf t n) :=
  (takes_popValue.idle_popMany n []).bind fun _ => (idle_ofExcept _).bind fun _ =>
    Idle.bind (x := useEnv _) (fun _ => rfl) fun _ => idle_pushValue _

theorem idle_branch (yes no : List Item) : Idle (branch yes no) := by
  refine takes_popValue.idle.bind fun v => ?_
  split
  · exact idle_schedule _
  · exact idle_schedule _
  · exact idle_throw _

theorem idle_reset (j : Jump) : Idle (reset j) := by
  intro r
  simp only [reset, ends_bind, ends_get]
  split <;> rfl

theorem idle_switch (arms : List (Arm Stmt)) : Idle (switch arms) := by
  refine takes_popValue.idle.bind fun v => (idle_ofExcept _).bind fun found => ?_
  split
  · exact idle_here.bind fun _ => (idle_extend _ _).bind fun _ => idle_schedule _
  · exact idle_pure _

theorem idle_construct (who : Delegate) (args : List Expr) : Idle (construct who args) :=
  (idle_ask _).bind fun x => (reads_typeOfVar x).idle.bind fun _ => idle_schedule _

/-! Calls. -/

theorem idle_typeOf (e : Expr) : Idle (Step.typeOf e) := by
  unfold Step.typeOf
  split
  · exact idle_schedule _
  · exact (idle_ask _).bind fun _ => idle_push _
  · exact (idle_ask _).bind fun _ => idle_push _

theorem idle_typeOfField (x : String) : Idle (typeOfField x) :=
  takes_popType.idle.bind fun _ => (idle_ask _).bind fun _ => idle_push _

theorem idle_overload (x : String) (n : Nat) (q : Path) : Idle (overload x n q) := by
  refine (takes_popType.idle_popMany n []).bind fun _ => takes_popType.idle.bind fun _ => (idle_ask _).bind fun k =>
    (idle_push _).bind fun _ r => ?_
  simp only [ends_bind, ends_ite, ends_get]
  refine ⟨fun _ => rfl, fun _ => ?_⟩
  split <;> rfl

theorem idle_override : Idle override := by
  refine idle_pop.bind fun item => takes_popClosure.idle.bind fun k => ?_
  split
  · exact (idle_ask _).bind fun _ => (idle_push _).bind fun _ => idle_pushValue _
  · exact idle_throw _
  · exact idle_throw _
  · exact (idle_describe _).bind fun _ => idle_throw _

theorem idle_overloadConstructor (d : String) (n : Nat) : Idle (overloadConstructor d n) :=
  (takes_popType.idle_popMany n []).bind fun _ => (idle_ask _).bind fun _ => idle_push _

theorem idle_enter (k : Closure) : Idle (enter Natives.empty k) := by
  unfold enter
  split
  · exact idle_schedule _
  · split
    · exact (idle_schedule _).bind fun _ => idle_throw _
    · split
      · exact idle_schedule _
      · exact idle_throw _

end Step

/-! ### Steps that store -/

section Stores

theorem declareOne_stores {t : TypeName} {d : Declarator} {default : Option Literal} {ok : VarId → Variable → Prop}
    (hnone : ∀ x, ok x ⟨d.name, t, none⟩) (hdefault : ∀ l x, default = some l → ok x ⟨d.name, t, some (.ofLiteral l)⟩) :
    StoresOnly (declareOne t d default) r ok := by
  have hadd : ∀ v, (∀ x, ok x v) → Stocks ok r.env (r.env.addVariable v) :=
    fun v hv => Stocks.addVariables (.of_vars rfl) [v] (by simpa using hv)
  have hsame : Stocks ok r.env r.env := .of_vars rfl
  unfold declareOne
  split
  · simp only [StoresOnly, ends_bind, ends_declare, ends_push, ends_schedule]
    exact ⟨fun _ => hadd _ hnone, fun _ => hsame⟩
  · simp only [StoresOnly, ends_bind, ends_declare, ends_pure]
    refine ⟨fun _ => hadd _ (fun x => ?_), fun _ => hsame⟩
    cases default with
    | none => exact hnone x
    | some l => exact hdefault l x rfl

theorem execute_stores (s : Stmt) : StoresOnly (execute s) r (Stored r (.stmt s)) := by
  cases s with
  | block body =>
    exact (idle_here.bind fun _ => (idle_extend _ _).bind fun _ => idle_schedule _).stores r
  | declare t vars =>
    change StoresOnly (declareLocal t vars) r _
    unfold declareLocal
    split
    · exact (idle_pure _).stores r
    · exact declareOne_stores (fun x => .declared (.head _)) nofun
    · exact (idle_schedule _).stores r
  | loop c body => exact (idle_here.bind fun _ => idle_schedule _).stores r
  | forLoop init c update body =>
    exact (idle_here.bind fun _ => (idle_extend _ _).bind fun _ => idle_schedule _).stores r
  | switch e arms => exact (idle_here.bind fun _ => idle_schedule _).stores r
  | construct who args => exact (idle_construct who args).stores r
  | empty => exact (idle_pure _).stores r
  | _ => exact (idle_schedule _).stores r

theorem declareStatic_stores (f : FieldDecl) : StoresOnly (declareStatic f) r (Stored r (.field f)) := by
  obtain ⟨modifiers, type, vars⟩ := f
  unfold declareStatic
  split
  · exact (idle_pure _).stores r
  · rename_i d hvars
    obtain rfl : vars = [d] := hvars
    refine declareOne_stores (fun x => .declared (.head _)) (fun l x hl => ?_)
    cases hl
    exact .default (.head _)
  · exact (idle_schedule _).stores r

theorem assign_stores : StoresOnly Step.assign r (Stored r .assign) := by
  have hsame : Stocks (Stored r .assign) r.env r.env := .of_vars rfl
  rw [StoresOnly, Step.assign, ends_bind]
  refine takes_popValue _ _ _ (fun u s hs => ?_) (fun _ _ _ => hsame)
  rw [ends_bind]
  refine takes_popTarget _ _ _ (fun x below hx => ?_) (fun _ _ _ => hsame)
  obtain rfl : s = .var x :: below := hx
  simp only [ends_bind, ends_typeOfVar, ends_ofExcept, ends_changeEnv, ends_pushValue]
  refine ⟨fun w hw => .assign fun y hy => ?_, fun _ _ => hsame⟩
  rw [hy] at hw
  exact .assigned rfl hs hy hw

theorem compoundAssign_stores (op : BinaryOp) :
    StoresOnly (compoundAssign op) r (Stored r (.compoundAssign op)) := by
  have hsame : Stocks (Stored r (.compoundAssign op)) r.env r.env := .of_vars rfl
  rw [StoresOnly, compoundAssign, ends_bind]
  refine takes_popValue _ _ _ (fun v s hs => ?_) (fun _ _ _ => hsame)
  rw [ends_bind]
  refine takes_popValue _ _ _ (fun old s hs => ?_) (fun _ _ _ => hsame)
  rw [ends_bind]
  refine takes_popTarget _ _ _ (fun x below hx => ?_) (fun _ _ _ => hsame)
  simp only [ends_bind, ends_typeOfVar, ends_ofExcept, ends_changeEnv, ends_pushValue]
  refine ⟨fun u hu => ⟨fun w hw => .assign fun y hy => ?_, fun _ _ => hsame⟩, fun _ _ => hsame⟩
  rw [hy] at hw
  exact .narrowed hy hu hw

theorem increment_stores (op : BinaryOp) (fix : Fixity) :
    StoresOnly (increment op fix) r (Stored r (.increment op fix)) := by
  have hsame : Stocks (Stored r (.increment op fix)) r.env r.env := .of_vars rfl
  rw [StoresOnly, increment, ends_bind]
  refine takes_popTarget _ _ _ (fun x below hx => ?_) (fun _ _ _ => hsame)
  simp only [ends_bind, ends_typeOfVar]
  split
  · exact hsame
  simp only [ends_bind, ends_ask, ends_ofExcept, ends_changeEnv, ends_pushValue]
  refine ⟨fun old _ => ⟨fun u hu => ⟨fun w hw => .assign fun y hy => ?_, fun _ _ => hsame⟩, fun _ _ => hsame⟩,
    fun _ _ => hsame⟩
  rw [hy] at hw
  exact .narrowed hy hu hw

theorem select_stores (name : String) : StoresOnly (select name) r (Stored r (.select name)) := by
  have hsame : Stocks (Stored r (.select name)) r.env r.env := .of_vars rfl
  -- the length of an array is the only field that is a new variable
  have hfield : ∀ (q : String) (t : TypeName) (v : Option Value) (s : List StashItem),
      StoresOnly (fieldOf q t v name >>= fun id => push (.var id)) { r with stash := s } (Stored r (.select name)) := by
    intro q t v s
    rw [StoresOnly, ends_bind]
    refine (fieldOf_ends q t v name _).mono ?_ ?_
    · rintro id r' (⟨rfl, -⟩ | ⟨n, rfl, -⟩)
      · exact hsame
      · exact hsame.addVariables [lengthVariable n] (by simpa using fun _ => Stored.length n)
    · rintro e r' rfl
      exact hsame
  rw [StoresOnly, select, ends_bind]
  refine ends_pop_of (fun y s hs => ?_) (fun _ => hsame)
  split
  · exact (((idle_staticField _ name).bind fun _ => idle_push _).stores _)
  · rw [ends_bind, ends_get]
    split
    · exact hfield _ _ _ s
    · exact hsame
  · exact hfield _ _ _ s
  · exact hsame

theorem new_stores (c : String) : StoresOnly (Step.new c) r (Stored r (.new c)) := by
  have hfields : ∀ d, r.env.findClass c = .ok d → Stocks (Stored r (.new c)) r.env (r.env.instantiate d).2 := by
    intro d hd x y hy
    refine (mem_of_var?_instantiate hy).imp id ?_
    rintro ⟨field, hfield, rfl⟩
    exact .field rfl hd hfield
  refine (new_ends c r).mono ?_ ?_
  · rintro - r' ⟨d, hd, -, rfl⟩
    exact hfields d hd
  · rintro e r' (⟨-, rfl⟩ | ⟨d, y, hd, -, -, rfl⟩)
    · exact .of_vars rfl
    · exact hfields d hd

/-- The receiver is bound under reserved words. -/
theorem bindReceiver_names {ok : Variable → Prop} (k : Closure) (object : Class × FrameId)
    (hok : ∀ name c v, name = thisName ∨ name = superName → ok ⟨name, .named c, some v⟩) :
    Adds (bindReceiver k object) ok := by
  refine (adds_declare (hok _ _ _ (.inl rfl))).bind fun _ => Adds.bind (fun r => adds_ofExcept _ r) fun c => ?_
  split
  · exact (adds_declare (hok _ _ _ (.inr rfl))).bind fun _ => adds_pure _
  · exact adds_pure _

/-- Parameters are bound to the arguments at their positions, converted to their types. -/
theorem bindParams_converts {ok : Variable → Prop} (ps : List Param) (us : List Value)
    (hok : ∀ q u w, (q, u) ∈ ps.zip us → u.coerce q.type = .ok w → ok ⟨q.name, q.type, some w⟩) :
    Adds (bindParams ps us) ok := by
  induction ps generalizing us with
  | nil => exact adds_pure _
  | cons q ps ih =>
    cases us with
    | nil => exact adds_pure _
    | cons u us =>
      intro r
      rw [bindParams, ends_bind, ends_ofExcept]
      refine ⟨fun w hw => ?_, fun _ _ => ⟨[], by simp, rfl⟩⟩
      have hrest := ih us (fun q' u' w' hmem => hok q' u' w' (.tail _ hmem))
      exact (adds_declare (hok q u w (.head _) hw)).bind (fun _ => hrest) r

/-- What adds variables before the body is entered stores these variables only. -/
theorem Step.Adds.stores_enter {x : Step Unit} {ok : Variable → Prop} {k : Closure} {P : VarId → Variable → Prop}
    (hx : Adds x ok) (hok : ∀ x v, ok v → P x v) (r : Registers) :
    StoresOnly (x >>= fun _ => enter Natives.empty k) r P := by
  rw [StoresOnly, ends_bind]
  refine (hx r).mono ?_ ?_
  · rintro - r₁ ⟨vs, hvs, rfl⟩
    have hadd : Stocks P r.env (r.env.addVariables vs) :=
      Stocks.addVariables (.of_vars rfl) vs fun x v hv => hok x v (hvs v hv)
    exact (idle_enter k _).mono (fun _ r₂ h₂ x y hy => hadd x y (by rwa [var?, h₂] at hy))
      (fun _ r₂ h₂ x y hy => hadd x y (by rwa [var?, h₂] at hy))
  · rintro e r₁ ⟨vs, hvs, rfl⟩
    exact Stocks.addVariables (.of_vars rfl) vs fun x v hv => hok x v (hvs v hv)

theorem invoke_stores (n : Nat) : StoresOnly (invoke Natives.empty n) r (Stored r (.invoke n)) := by
  have hsame : Stocks (Stored r (.invoke n)) r.env r.env := .of_vars rfl
  rw [StoresOnly, invoke, ends_bind]
  refine takes_popValue.popMany (fun args s hlen hs => ?_) (fun _ _ _ => hsame)
  rw [ends_bind, List.append_nil]
  refine takes_popClosure _ _ _ (fun k below hk => ?_) (fun _ _ _ => hsame)
  obtain rfl : s = .closure k :: below := hk
  simp only [ends_bind, ends_ite, ends_throw]
  refine ⟨fun _ => hsame, fun _ => ?_⟩
  simp only [ends_here, ends_schedule, ends_ofExcept]
  refine ⟨?_, fun _ _ => hsame⟩
  rintro ⟨object, rest⟩ hreceiver
  have hparams : Adds (bindParams k.callable.params rest) (fun v => ∀ x, Stored r (.invoke n) x v) :=
    bindParams_converts _ _ fun q u w hmem hw x =>
      .argument ⟨args, object, rest, below, by rw [hlen], hs, hreceiver, hmem⟩ hw
  cases object with
  | none => exact hparams.stores_enter (fun x v h => h x) _
  | some object =>
    have hthis : Adds (bindReceiver k object) (fun v => ∀ x, Stored r (.invoke n) x v) :=
      bindReceiver_names k object fun name c v hname x => .receiver v hname
    rw [ends_extend]
    change Ends (do bindReceiver k object; bindParams k.callable.params rest; enter Natives.empty k) _ _ _
    rw [← bind_assoc]
    exact (hthis.bind fun _ => hparams).stores_enter (fun x v h => h x) _

/-- Every variable after a step, faulty or not, is as it was before or has been stored. -/
theorem perform_stored (i : Item) (r : Registers) : StoresOnly (perform Natives.empty i) r (Stored r i) := by
  cases i with
  | program p => exact (idle_start p).stores r
  | classDecl d => exact (idle_elaborateClass d).stores r
  | method m => exact (idle_bindCallable (.method m)).stores r
  | constructor k => exact (idle_bindCallable (.constructor k)).stores r
  | field f => exact declareStatic_stores f
  | stmt s => exact execute_stores s
  | expr e => exact (idle_evaluate e).stores r
  | assign => exact assign_stores
  | compoundAssign op => exact compoundAssign_stores op
  | increment op fix => exact increment_stores op fix
  | load => exact idle_load.stores r
  | binary op =>
    exact (takes_popValue.idle.bind fun _ => takes_popValue.idle.bind fun _ =>
      (idle_ofExcept _).bind fun _ => idle_pushValue _).stores r
  | unary op => exact (takes_popValue.idle.bind fun _ => (idle_ofExcept _).bind fun _ => idle_pushValue _).stores r
  | pop => exact (idle_pop.bind fun _ => idle_pure _).stores r
  | find p => exact (idle_find p).stores r
  | deref => exact idle_deref.stores r
  | select name => exact select_stores name
  | arrayOf t n => exact (idle_arrayOf t n).stores r
  | restore f => exact .of_vars rfl
  | marker j => exact (idle_pure _).stores r
  | reset j => exact (idle_reset j).stores r
  | branch yes no => exact (idle_branch yes no).stores r
  | whileRound c body => exact (idle_here.bind fun _ => idle_schedule _).stores r
  | forRound c update body => exact (idle_here.bind fun _ => idle_schedule _).stores r
  | switch arms => exact (idle_switch arms).stores r
  | typeOf e => exact (idle_typeOf e).stores r
  | typeOfField name => exact (idle_typeOfField name).stores r
  | overload name n q => exact (idle_overload name n q).stores r
  | override => exact idle_override.stores r
  | overloadConstructor d n => exact (idle_overloadConstructor d n).stores r
  | new c => exact new_stores c
  | invoke n => exact invoke_stores n

end Stores

/-! ### Runs -/

namespace Machine

variable {p : Program} {m m' : Machine} {c : List Item}

/-- One step leads from `m` to `m'`, faulty or not. -/
def StepsTo (m m' : Machine) : Prop :=
  Next Natives.empty m m' ∨ ∃ e, evaluate Natives.empty 1 m = .error e m'

theorem StepsTo.exists_item (h : StepsTo m m') : ∃ i c, m.registers.control = i :: c := by
  rcases h with hnext | ⟨e, herror⟩
  · obtain ⟨i, c, hc, -⟩ := next_iff.mp hnext
    exact ⟨i, c, hc⟩
  · obtain ⟨i, c, hc, -⟩ := evaluate_one_error herror
    exact ⟨i, c, hc⟩

theorem StepsTo.steps_le (h : StepsTo m m') : m.steps ≤ m'.steps := by
  rcases h with hnext | ⟨e, herror⟩
  · obtain ⟨-, -, -, -, hsteps⟩ := next_iff.mp hnext
    omega
  · obtain ⟨⟨control, stash, env, output⟩, steps⟩ := m
    cases control with
    | nil => cases herror
    | cons i c =>
      rw [evaluate_one_cons] at herror
      split at herror <;> cases herror
      exact Nat.le_refl _

/-- A variable after a step is as it was before, or the step has stored it. -/
theorem StepsTo.stored (h : StepsTo m m') (hc : m.registers.control = i :: c)
    (hy : m'.registers.env.var? x = some y) :
    m.registers.env.var? x = some y ∨ Stored { m.registers with control := c } i x y := by
  rcases h with hnext | ⟨e, herror⟩
  · exact (perform_stored i _).of_ok (hnext.perform hc) x y hy
  · obtain ⟨i', c', hc', hperform⟩ := evaluate_one_error herror
    cases hc.symm.trans hc'
    exact (perform_stored i _).of_error hperform x y hy

/-- What every step keeps, faulty or not, holds of every machine that a run visits. -/
theorem Visited.forall_steps {P : Machine → Prop} (hm : Visited Natives.empty p m) (hstart : P (initial.loadProgram p))
    (hstep : ∀ m₁ m₂, Reached Natives.empty p m₁ → P m₁ → StepsTo m₁ m₂ → P m₂) : P m := by
  have hreached : ∀ m, Reached Natives.empty p m → P m :=
    fun m hm => hm.induction hstart (fun m₁ m₂ hm₁ h hnext => hstep m₁ m₂ hm₁ h (.inl hnext))
  rcases hm with hm | ⟨n, e, hm⟩
  · exact hreached m hm
  · obtain ⟨k, m₁, hk, hlast⟩ := exists_of_evaluate_error hm
    exact hstep m₁ m ⟨k, hk⟩ (hreached m₁ ⟨k, hk⟩) (.inr ⟨e, hlast⟩)

end Machine
end StashMachine
