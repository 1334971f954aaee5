import StashMachine.Proofs.Places

/-!
# StashMachine.Proofs.Orders — what an item may put on control, one by one

* `Fault.isBareCall`: the fault of a call without a qualifier; `Clean x`: `x` stops with other faults only.
* `Step.Files P x`: `x` leaves control as it is but for items of the kind `P` in front, and its faults are not
  those of calls without a qualifier.  One rule for each way that steps are put together.
* `Orders i j`: performing `i` may put `j` on control.
* `files_perform`: every item keeps to its orders, apart from the ones that change what is on control already.
* `perform_spares`: only the evaluation of a call without a qualifier complains about one.
* `Hands r i c'`: what a step that performs `i` makes of control; `Next.hands`: every step does.
-/

namespace StashMachine

open Environment Step Machine

/-! ### The fault of a call without a qualifier -/

/-- Whether a fault is that of a call without a qualifier. -/
def Fault.isBareCall : Fault → Bool
  | .unsupported (.bareCall _) => true
  | _ => false

theorem Fault.Tame.isBareCall {e : Fault} (h : e.Tame) : e.isBareCall = false := by
  unfold Fault.isBareCall
  split
  · exact h.elim
  · rfl

/-- `x` does not stop because of a call without a qualifier. -/
def Clean {α : Type} (x : Except Fault α) : Prop := ∀ e, x = .error e → e.isBareCall = false

section Clean

variable {α β : Type}

theorem Flawless.clean {x : Except Fault α} (h : Flawless x) : Clean x := fun e he => (h e he).isBareCall

theorem Clean.bind {x : Except Fault α} {f : α → Except Fault β} (hx : Clean x) (hf : ∀ a, Clean (f a)) :
    Clean (x >>= f) := by
  cases x with
  | ok a => exact hf a
  | error e =>
    intro e' h
    cases h
    exact hx e rfl

theorem clean_ok (a : α) : Clean (.ok a : Except Fault α) := (Flawless.ok a).clean

variable (env : Environment)

theorem clean_boundClosure (c : ClassInfo) (x : String) : Clean (env.boundClosure c x) := by
  unfold boundClosure
  split
  · exact clean_ok _
  · rintro e ⟨⟩
    rfl

theorem clean_candidates (types : List TypeName) (ds : List Declared) : Clean (env.candidates types ds) := by
  induction ds with
  | nil => exact clean_ok _
  | cons d ds ih =>
    unfold candidates
    split
    · exact (clean_boundClosure env _ _).bind fun _ => ih.bind fun _ => clean_ok _
    · exact ih

theorem clean_resolveMethod (t : TypeName) (x : String) (types : List TypeName) :
    Clean (env.resolveMethod t x types) := by
  refine (env.flawless_findClass _).clean.bind fun c => ?_
  extract_lets call
  split
  · refine (clean_candidates env _ _).bind fun ks => ?_
    split <;> exact Flawless.clean (by simp)
  · exact Flawless.clean (by simp)

theorem clean_resolveConstructor (x : String) (types : List TypeName) :
    Clean (env.resolveConstructor x types) := by
  refine (env.flawless_findClass _).clean.bind fun c => ?_
  refine (clean_candidates env _ _).bind fun ks => ?_
  split <;> exact Flawless.clean (by simp)

mutual

/-- Typing a call without a qualifier finds no method, which is another fault. -/
theorem clean_staticType : ∀ e : Expr, Clean (env.staticType e)
  | .literal _ | .new _ _ | .array _ _ | .void => clean_ok _
  | .name p | .assign p _ | .compound _ p _ | .increment _ _ p => (env.flawless_pathType p).clean
  | .binary op l r => (clean_staticType l).bind fun _ => (clean_staticType r).bind fun _ =>
    (flawless_binaryType op _ _).clean
  | .unary op e => (clean_staticType e).bind fun _ => (flawless_unaryType op _).clean
  | .call (.simple m) _ => Flawless.clean (by simp [staticType])
  | .call (.field q m) args => (env.flawless_pathType q).clean.bind fun _ =>
    (clean_staticTypes args).bind fun _ => (clean_resolveMethod env _ m _).bind fun _ => clean_ok _

theorem clean_staticTypes : ∀ es : List Expr, Clean (env.staticTypes es)
  | [] => clean_ok _
  | e :: es => (clean_staticType e).bind fun _ => (clean_staticTypes es).bind fun _ => clean_ok _

end

end Clean

/-! ### Steps that queue items of a kind -/

/-- `x` queues items of the kind `P` only, and does not stop because of a call without a qualifier. -/
def Step.Files {α : Type} (P : Item → Prop) (x : Step α) : Prop :=
  ∀ r, Ends x r (fun _ r' => ∃ new, r'.control = new ++ r.control ∧ ∀ j ∈ new, P j)
    (fun e _ => e.isBareCall = false)

section Files

variable {α β : Type} {P : Item → Prop} {x : Step α}

theorem files_of_control (h : ∀ r, Ends x r (fun _ r' => r'.control = r.control)
    (fun e _ => e.isBareCall = false)) : Files P x :=
  fun r => (h r).mono (fun _ _ hr => ⟨[], hr, nofun⟩) (fun _ _ he => he)

theorem files_pure (a : α) : Files P (pure a : Step α) := files_of_control (fun _ => rfl)

theorem files_throw {e : Fault} (he : e.isBareCall = false) : Files P (throw e : Step α) := fun _ => he

theorem Step.Files.bind {f : α → Step β} (hx : Files P x) (hf : ∀ a, Files P (f a)) : Files P (x >>= f) := by
  intro r
  rw [ends_bind]
  refine (hx r).mono ?_ (fun _ _ he => he)
  rintro a r₁ ⟨new₁, hcontrol₁, hnew₁⟩
  refine (hf a r₁).mono ?_ (fun _ _ he => he)
  rintro b r₂ ⟨new₂, hcontrol₂, hnew₂⟩
  refine ⟨new₂ ++ new₁, ?_, fun j hj => ?_⟩
  · rw [hcontrol₂, hcontrol₁, List.append_assoc]
  · exact (List.mem_append.mp hj).elim (hnew₂ j) (hnew₁ j)

theorem files_get : Files P (get : Step Registers) := files_of_control (fun _ => rfl)

theorem files_changeEnv (f : Environment → Environment) : Files P (changeEnv f) := files_of_control (fun _ => rfl)

theorem files_useEnv (f : Environment → α × Environment) : Files P (useEnv f) := files_of_control (fun _ => rfl)

theorem files_schedule {items : List Item} (h : ∀ j ∈ items, P j) : Files P (schedule items) :=
  fun _ => ⟨items, rfl, h⟩

theorem files_push (item : StashItem) : Files P (push item) := files_of_control (fun _ => rfl)

theorem files_pushValue (v : Value) : Files P (pushValue v) := files_push _

theorem files_describe (item : StashItem) : Files P (describe item) := files_of_control (fun _ => rfl)

theorem files_typeOfVar (id : VarId) : Files P (typeOfVar id) := files_of_control (fun _ => rfl)

theorem files_ofExcept {a : Except Fault α} (h : Clean a) : Files P (Step.ofExcept a) := by
  cases a with
  | ok a => exact files_pure a
  | error e => exact files_throw (h e rfl)

theorem files_ask {f : Environment → Except Fault α} (h : ∀ env, Clean (f env)) : Files P (ask f) :=
  files_get.bind fun r => files_ofExcept (h r.env)

theorem files_pop : Files P pop := by
  refine files_of_control (fun r => ?_)
  obtain ⟨control, stash, env, out⟩ := r
  cases stash with
  | nil => rfl
  | cons item s => exact (ends_pop item).mpr rfl

/-- A move that looks at the top of the stash. -/
theorem files_take {accept : StashItem → Step α} (h : ∀ item, Files P (accept item)) : Files P (pop >>= accept) :=
  files_pop.bind h

theorem files_popValue : Files P popValue := by
  refine files_take (fun item => ?_)
  cases item <;> first | exact files_pure _ | exact (files_describe _).bind fun _ => files_throw rfl

theorem files_popType : Files P popType := by
  refine files_take (fun item => ?_)
  cases item <;> first | exact files_pure _ | exact (files_describe _).bind fun _ => files_throw rfl

theorem files_popClosure : Files P popClosure := by
  refine files_take (fun item => ?_)
  cases item <;> first | exact files_pure _ | exact (files_describe _).bind fun _ => files_throw rfl

theorem files_popTarget : Files P popTarget := by
  refine files_take (fun item => ?_)
  cases item <;> first | exact files_pure _ | exact (files_describe _).bind fun _ => files_throw rfl

theorem Step.Files.popMany {take : Step α} (h : Files P take) (n : Nat) (taken : List α) :
    Files P (Step.popMany take n taken) := by
  induction n generalizing taken with
  | zero => exact files_pure _
  | succ n ih => exact h.bind fun a => ih (a :: taken)

theorem clean_checkFree (env : Environment) (x shown : String) : Clean (env.checkFree x shown) := by
  unfold checkFree
  split
  · rintro e ⟨⟩
    rfl
  · exact clean_ok _

theorem files_declare (v : Variable) : Files P (declare v) :=
  (files_ask fun env => clean_checkFree env _ _).bind fun _ => (files_changeEnv _).bind fun _ =>
    files_get.bind fun _ => files_pure _

/-! ### Variables, fields and values -/

theorem files_store (x : VarId) (w v : Value) :
    Files P (changeEnv (fun env => env.assign x w) >>= fun _ => pushValue v) :=
  (files_changeEnv _).bind fun _ => files_pushValue v

theorem files_assign : Files P Step.assign :=
  files_popValue.bind fun v => files_popTarget.bind fun x => (files_typeOfVar x).bind fun t =>
    (files_ofExcept (Value.flawless_coerce v t).clean).bind fun w => files_store x w w

theorem files_compoundAssign (op : BinaryOp) : Files P (compoundAssign op) :=
  files_popValue.bind fun v => files_popValue.bind fun u => files_popTarget.bind fun x =>
    (files_typeOfVar x).bind fun t => (files_ofExcept (Value.flawless_binary op u v).clean).bind fun w =>
      (files_ofExcept (Value.flawless_narrow w t).clean).bind fun w => files_store x w w

theorem files_increment (op : BinaryOp) (fix : Fixity) : Files P (increment op fix) := by
  refine files_popTarget.bind fun x => (files_typeOfVar x).bind fun t => ?_
  extract_lets move
  have hmove : ∀ u, Files P (move u) := fun _ =>
    (files_ask fun env => (env.flawless_value x).clean).bind fun old =>
      (files_ofExcept (Value.flawless_binary op old _).clean).bind fun moved =>
        (files_ofExcept (Value.flawless_narrow moved t).clean).bind fun w => files_store x w _
  split
  · exact (files_throw rfl).bind hmove
  · exact hmove ⟨⟩

theorem files_load : Files P load := by
  refine files_get.bind fun r => ?_
  split
  · exact files_throw rfl
  · exact (files_ask fun env => (env.flawless_value _).clean).bind fun _ => files_pushValue _
  · exact (files_describe _).bind fun _ => files_throw rfl

theorem files_deref : Files P deref := by
  refine files_take fun item => ?_
  split
  · exact (files_ask fun env => (env.flawless_value _).clean).bind fun _ => files_pushValue _
  · exact files_push _

theorem files_staticField (c : Class) (x : String) : Files P (Step.staticField c x) := by
  unfold Step.staticField
  split
  · exact files_throw rfl
  · extract_lets find
    have hfind : ∀ u, Files P (find u) := by
      intro u
      refine files_get.bind fun r => ?_
      split
      · exact files_pure _
      · exact files_throw rfl
    split
    · exact (files_throw rfl).bind hfind
    · exact hfind ⟨⟩

theorem files_fieldOf (q : String) (t : TypeName) (v : Option Value) (x : String) : Files P (fieldOf q t v x) := by
  unfold fieldOf
  split
  · unfold arrayLength
    split
    · split
      · exact (files_changeEnv _).bind fun _ => files_get.bind fun _ => files_pure _
      · exact files_throw rfl
      · exact files_throw rfl
      · exact files_throw rfl
    · exact files_throw rfl
  · exact files_throw rfl
  · refine (files_ask fun env => (env.flawless_findClass _).clean).bind fun c => ?_
    split
    · exact files_throw rfl
    · split
      · exact files_staticField _ _
      · unfold instanceField
        split
        · refine files_get.bind fun r => ?_
          split
          · exact files_pure _
          · exact files_throw rfl
        · exact files_throw rfl
        · exact files_throw rfl
        · exact files_throw rfl

theorem files_select (x : String) : Files P (select x) := by
  refine files_take fun item => ?_
  split
  · exact (files_staticField _ x).bind fun _ => files_push _
  · refine files_get.bind fun r => ?_
    split
    · exact (files_fieldOf _ _ _ x).bind fun _ => files_push _
    · exact files_throw rfl
  · exact (files_fieldOf _ _ _ x).bind fun _ => files_push _
  · exact (files_describe _).bind fun _ => files_throw rfl

theorem files_arrayOf (t : TypeName) (n : Nat) : Files P (arrayOf t n) :=
  (files_popValue.popMany n []).bind fun vs => (files_ofExcept (flawless_coerceAll t vs).clean).bind fun _ =>
    (files_useEnv _).bind fun _ => files_pushValue _

theorem files_binary (op : BinaryOp) : Files P (perform Natives.empty (.binary op)) :=
  files_popValue.bind fun r => files_popValue.bind fun l =>
    (files_ofExcept (Value.flawless_binary op l r).clean).bind fun _ => files_pushValue _

theorem files_unary (op : UnaryOp) : Files P (perform Natives.empty (.unary op)) :=
  files_popValue.bind fun v => (files_ofExcept (Value.flawless_unary op v).clean).bind fun _ => files_pushValue _

/-! ### Calls -/

theorem files_typeOfField (x : String) : Files P (typeOfField x) :=
  files_popType.bind fun t => (files_ask fun env => (env.flawless_fieldType t x).clean).bind fun _ => files_push _

theorem files_override : Files P override := by
  refine files_take fun item => files_popClosure.bind fun k => ?_
  split
  · exact (files_ask fun env => clean_ok _).bind fun _ => (files_push _).bind fun _ => files_pushValue _
  · exact files_throw rfl
  · exact files_throw rfl
  · exact (files_describe _).bind fun _ => files_throw rfl

theorem files_overloadConstructor (d : String) (n : Nat) : Files P (overloadConstructor d n) :=
  (files_popType.popMany n []).bind fun ts =>
    (files_ask fun env => clean_resolveConstructor env d ts).bind fun _ => files_push _

theorem files_new (d : String) : Files P (Step.new d) := by
  intro r
  refine (new_ends d r).mono ?_ ?_
  · rintro - r' ⟨c, -, -, rfl⟩
    exact ⟨[], rfl, nofun⟩
  · rintro e r' (⟨he, -⟩ | ⟨c, y, -, -, rfl, -⟩)
    · exact (r.env.flawless_findClass d).clean e he
    · rfl

end Files

/-! ### Every item -/

/-- Performing the first item may put the second one on control.  An invocation is not among them, nor are the
items that a jump or the selection of a method leave. -/
inductive Orders : Item → Item → Prop
  | program {p : Program} {j : Item} : (∃ d, j = .classDecl d) ∨ (∃ x, j = .expr (.mainCall x)) → Orders (.program p) j
  | member {d : ClassDecl} {k : Callable} : Orders (.classDecl d) k.item
  | static {d : ClassDecl} {f : FieldDecl} : f ∈ d.fields → Orders (.classDecl d) (.field (f.elaborate d.name))
  | back {d : ClassDecl} {f : FrameId} : Orders (.classDecl d) (.restore f)
  | fields {f : FieldDecl} {d : Declarator} : d ∈ f.vars → Orders (.field f) (.field (f.only d))
  | setUp {f : FieldDecl} {d : Declarator} {e : Expr} {j : Item} : d ∈ f.vars → d.init = some e →
    j ∈ [.expr e, .assign, .pop] → Orders (.field f) j
  | block {body : List Stmt} {f : FrameId} {j : Item} : j ∈ body.map .stmt ++ [.restore f] →
    Orders (.stmt (.block body)) j
  | locals {t : TypeName} {vars : List Declarator} {d : Declarator} : d ∈ vars →
    Orders (.stmt (.declare t vars)) (.stmt (.declare t [d]))
  | declare {t : TypeName} {vars : List Declarator} {d : Declarator} {e : Expr} {j : Item} : d ∈ vars →
    d.init = some e → j ∈ [.expr e, .assign, .pop] → Orders (.stmt (.declare t vars)) j
  | effect {e : Expr} {j : Item} : j ∈ [.expr e, .pop] → Orders (.stmt (.expr e)) j
  | ret {e : Option Expr} {j : Item} : j ∈ [.expr (e.getD .void), .reset .ret] → Orders (.stmt (.ret e)) j
  | ite {c : Expr} {yes : Stmt} {no : Option Stmt} {j : Item} :
    j ∈ [.expr c, .branch [.stmt yes] (no.toList.map .stmt)] → Orders (.stmt (.ite c yes no)) j
  | loop {c : Expr} {body : Stmt} {f : FrameId} {j : Item} :
    j ∈ [.whileRound c body, .marker .brk, .restore f] → Orders (.stmt (.loop c body)) j
  | forLoop {init : List Stmt} {c : Option Expr} {update : List Stmt} {body : Stmt} {f : FrameId} {j : Item} :
    j ∈ init.map .stmt ++ [.forRound c update body, .marker .brk, .restore f] →
    Orders (.stmt (.forLoop init c update body)) j
  | switch {e : Expr} {arms : List (Arm Stmt)} {f : FrameId} {j : Item} :
    j ∈ [.expr e, .switch arms, .marker .brk, .restore f] → Orders (.stmt (.switch e arms)) j
  | breakOut : Orders (.stmt .breakOut) (.reset .brk)
  | continueLoop : Orders (.stmt .continueLoop) (.reset .cont)
  | construct {who : Delegate} {args : List Expr} {t : TypeName} {j : Item} :
    j ∈ args.map .typeOf ++ .overloadConstructor t.text args.length :: .expr (.name (.simple who.text)) ::
      args.map .expr ++ [.invoke (args.length + 1), .pop] → Orders (.stmt (.construct who args)) j
  | name {p : Path} {j : Item} : j ∈ [.find p, .deref] → Orders (.expr (.name p)) j
  | assign {p : Path} {e : Expr} {j : Item} : j ∈ [.find p, .expr e, .assign] → Orders (.expr (.assign p e)) j
  | compound {op : BinaryOp} {p : Path} {e : Expr} {j : Item} :
    j ∈ [.find p, .load, .expr e, .compoundAssign op] → Orders (.expr (.compound op p e)) j
  | increment {op : BinaryOp} {fix : Fixity} {p : Path} {j : Item} :
    j ∈ [.find p, .increment op fix] → Orders (.expr (.increment op fix p)) j
  | and {l r : Expr} {j : Item} : j ∈ [.expr l, .branch [.expr r] [.expr (.literal (.boolean false))]] →
    Orders (.expr (.binary .and l r)) j
  | or {l r : Expr} {j : Item} : j ∈ [.expr l, .branch [.expr (.literal (.boolean true))] [.expr r]] →
    Orders (.expr (.binary .or l r)) j
  | binary {op : BinaryOp} {l r : Expr} {j : Item} : j ∈ [.expr l, .expr r, .binary op] →
    Orders (.expr (.binary op l r)) j
  | unary {op : UnaryOp} {e : Expr} {j : Item} : j ∈ [.expr e, .unary op] → Orders (.expr (.unary op e)) j
  | call {q : Path} {x : String} {args : List Expr} {j : Item} :
    j ∈ .typeOf (.name q) :: args.map .typeOf ++ .overload x args.length q :: args.map .expr ++
      [.invoke args.length] → Orders (.expr (.call (.field q x) args)) j
  | new {x : String} {args : List Expr} {j : Item} :
    j ∈ args.map .typeOf ++ .overloadConstructor x args.length :: .new x :: args.map .expr ++
      [.invoke (args.length + 1)] → Orders (.expr (.new x args)) j
  | array {t : TypeName} {es : List Expr} {j : Item} : j ∈ es.map .expr ++ [.arrayOf t es.length] →
    Orders (.expr (.array t es)) j
  | find {p : Path} {x : String} {j : Item} : j ∈ [.find p, .select x] → Orders (.find (.field p x)) j
  | typeOf {p : Path} {x : String} {j : Item} : j ∈ [.typeOf (.name p), .typeOfField x] →
    Orders (.typeOf (.name (.field p x))) j
  | branch {yes no : List Item} {j : Item} : j ∈ yes ∨ j ∈ no → Orders (.branch yes no) j
  | whileRound {c : Expr} {body : Stmt} {f : FrameId} {j : Item} :
    j ∈ [.expr c, .branch [.stmt body, .marker .cont, .restore f, .whileRound c body] []] →
    Orders (.whileRound c body) j
  | forRound {c : Option Expr} {update : List Stmt} {body : Stmt} {f : FrameId} {j : Item} :
    j ∈ [.expr (c.getD (.literal (.boolean true))), .branch ([.stmt body, .marker .cont, .restore f]
      ++ update.map .stmt ++ [.forRound c update body]) []] → Orders (.forRound c update body) j
  | arms {arms : List (Arm Stmt)} {arm : Arm Stmt} {s : Stmt} : arm ∈ arms → s ∈ arm.body →
    Orders (.switch arms) (.stmt s)

section Orders

theorem files_evaluate {e : Expr} (he : ∀ x args, e ≠ .call (.simple x) args) :
    Files (Orders (.expr e)) (Step.evaluate e) := by
  unfold Step.evaluate
  split
  · exact files_pushValue _
  · exact files_pushValue _
  · exact files_schedule fun _ => .name
  · exact files_schedule fun _ => .assign
  · exact files_schedule fun _ => .compound
  · exact files_schedule fun _ => .increment
  · exact files_schedule fun _ => .and
  · exact files_schedule fun _ => .or
  · exact files_schedule fun _ => .binary
  · exact files_schedule fun _ => .unary
  · exact absurd rfl (he _ _)
  · exact files_schedule fun _ => .call
  · exact files_schedule fun _ => .new
  · exact files_schedule fun _ => .array

/-- One variable is declared. -/
theorem files_declareOne {P : Item → Prop} {t : TypeName} {d : Declarator} {default : Option Literal}
    (h : ∀ e, d.init = some e → ∀ j ∈ [Item.expr e, .assign, .pop], P j) : Files P (declareOne t d default) := by
  unfold declareOne
  split
  · rename_i e he
    exact (files_declare _).bind fun _ => (files_push _).bind fun _ => files_schedule (h e he)
  · exact (files_declare _).bind fun _ => files_pure _

theorem files_declareLocal (t : TypeName) (vars : List Declarator) :
    Files (Orders (.stmt (.declare t vars))) (declareLocal t vars) := by
  unfold declareLocal
  split
  · exact files_pure _
  · exact files_declareOne fun e he _ => .declare (.head _) he
  · refine files_schedule fun j hj => ?_
    obtain ⟨d, hd, rfl⟩ := List.mem_map.mp hj
    exact .locals hd

theorem files_declareStatic (f : FieldDecl) : Files (Orders (.field f)) (declareStatic f) := by
  unfold declareStatic
  split
  · exact files_pure _
  · rename_i d hvars
    exact files_declareOne fun e he _ => .setUp (by rw [hvars]; exact .head _) he
  · refine files_schedule fun j hj => ?_
    obtain ⟨d, hd, rfl⟩ := List.mem_map.mp hj
    exact .fields hd

theorem files_execute (s : Stmt) : Files (Orders (.stmt s)) (execute s) := by
  cases s with
  | block body => exact files_get.bind fun _ => (files_changeEnv _).bind fun _ => files_schedule fun _ => .block
  | declare t vars => exact files_declareLocal t vars
  | expr e => exact files_schedule fun _ => .effect
  | ret e => exact files_schedule fun _ => .ret
  | ite c yes no => exact files_schedule fun _ => .ite
  | loop c body => exact files_get.bind fun _ => files_schedule fun _ => .loop
  | forLoop init c update body =>
    exact files_get.bind fun _ => (files_changeEnv _).bind fun _ => files_schedule fun _ => .forLoop
  | switch e arms => exact files_get.bind fun _ => files_schedule fun _ => .switch
  | breakOut =>
    refine files_schedule fun j hj => ?_
    rw [List.mem_singleton.mp hj]
    exact .breakOut
  | continueLoop =>
    refine files_schedule fun j hj => ?_
    rw [List.mem_singleton.mp hj]
    exact .continueLoop
  | empty => exact files_pure _
  | construct who args =>
    exact (files_ask fun env => (env.flawless_findVariable _).clean).bind fun x => (files_typeOfVar x).bind fun _ =>
      files_schedule fun _ => .construct

theorem files_find (p : Path) : Files (Orders (.find p)) (find p) := by
  cases p with
  | field p x => exact files_schedule fun _ => .find
  | simple x =>
    refine (files_ask fun env => (env.flawless_findName x).clean).bind fun b => ?_
    cases b with
    | var id => exact files_push _
    | cls c => exact files_push _
    | closure k => exact files_throw rfl

theorem files_typeOf (e : Expr) : Files (Orders (.typeOf e)) (Step.typeOf e) := by
  unfold Step.typeOf
  split
  · exact files_schedule fun _ => .typeOf
  · exact (files_ask fun env => (env.flawless_nameType _).clean).bind fun _ => files_push _
  · exact (files_ask fun env => clean_staticType env _).bind fun _ => files_push _

theorem files_branch (yes no : List Item) : Files (Orders (.branch yes no)) (branch yes no) := by
  refine files_popValue.bind fun v => ?_
  split
  · exact files_schedule fun _ hj => .branch (.inl hj)
  · exact files_schedule fun _ hj => .branch (.inr hj)
  · exact files_throw rfl

theorem files_switch (arms : List (Arm Stmt)) : Files (Orders (.switch arms)) (switch arms) := by
  intro r
  rw [switch, ends_bind]
  refine (files_popValue (P := Orders (.switch arms)) r).mono (fun v r₁ hr₁ => ?_) (fun _ _ he => he)
  obtain ⟨new, hcontrol, hnew⟩ := hr₁
  simp only [ends_bind, ends_ofExcept]
  refine ⟨fun found hfound => ?_, fun e he => (flawless_entered? v arms e he).isBareCall⟩
  split
  · rename_i chosen hchosen
    have harms : ∀ arm ∈ chosen, arm ∈ arms := by
      intro arm harm
      cases found with
      | some entered =>
        cases hchosen
        exact mem_of_entered? hfound arm harm
      | none => exact mem_of_fallback? hchosen arm harm
    refine ⟨(chosen.flatMap Arm.body).map .stmt ++ new, ?_, fun j hj => ?_⟩
    · show _ ++ r₁.control = _
      rw [hcontrol, List.append_assoc]
    · rcases List.mem_append.mp hj with hj | hj
      · obtain ⟨s, hs, rfl⟩ := List.mem_map.mp hj
        obtain ⟨arm, harm, hs⟩ := List.mem_flatMap.mp hs
        exact .arms (harms arm harm) hs
      · exact hnew j hj
  · exact ⟨new, hcontrol, hnew⟩

theorem files_start (p : Program) : Files (Orders (.program p)) (start p) := by
  unfold start
  split
  · exact files_throw rfl
  · refine (files_ofExcept p.flawless_superclassesFirst.clean).bind fun ds => files_schedule fun j hj => ?_
    rcases List.mem_append.mp hj with hj | hj
    · obtain ⟨d, -, rfl⟩ := List.mem_map.mp hj
      exact .program (.inl ⟨d, rfl⟩)
    · exact .program (.inr ⟨_, List.mem_singleton.mp hj⟩)

theorem files_elaborateClass (d : ClassDecl) : Files (Orders (.classDecl d)) (elaborateClass d) := by
  have hsuper : Files (Orders (.classDecl d)) (superclassOf d) := by
    unfold superclassOf
    split
    · exact (files_ask fun env => (env.flawless_findClass _).clean).bind fun _ => files_pure _
    · exact files_pure _
  have hclass : ∀ c : Class, Files (Orders (.classDecl d)) (defineClass c) := by
    intro c
    refine (files_ask fun env => ?_).bind fun _ => files_changeEnv _
    unfold checkNewClass
    split
    · rintro e ⟨⟩
      rfl
    · exact clean_ok _
  refine hsuper.bind fun superclass => files_get.bind fun _ => (files_changeEnv _).bind fun _ =>
    files_get.bind fun _ => (hclass _).bind fun _ => files_schedule fun j hj => ?_
  simp only [List.mem_append, List.mem_map, List.mem_singleton] at hj
  rcases hj with (((⟨m, -, rfl⟩ | ⟨m, -, rfl⟩) | ⟨k, -, rfl⟩) | ⟨f, hf, rfl⟩) | rfl
  · exact .member (k := .method m)
  · exact .member (k := .method m)
  · exact .member (k := .constructor k)
  · obtain ⟨f', hf', rfl⟩ := List.mem_map.mp hf
    exact .static (List.mem_filter.mp hf').1
  · exact .back

theorem files_bindCallable {P : Item → Prop} (k : Callable) : Files P (bindCallable k) :=
  files_get.bind fun _ => (files_ask fun env => clean_checkFree env _ _).bind fun _ => files_changeEnv _

/-- An item that changes what is on control already, or puts the body of a closure there. -/
def Item.isFar : Item → Bool
  | .overload .. | .invoke _ | .reset _ => true
  | _ => false

/-- Every other item keeps to its orders. -/
theorem files_perform {i : Item} (hi : i.isFar = false) (hbare : ∀ x args, i ≠ .expr (.call (.simple x) args)) :
    Files (Orders i) (perform Natives.empty i) := by
  cases i with
  | program p => exact files_start p
  | classDecl d => exact files_elaborateClass d
  | method m => exact files_bindCallable _
  | constructor k => exact files_bindCallable _
  | field f => exact files_declareStatic f
  | stmt s => exact files_execute s
  | expr e => exact files_evaluate fun x args he => hbare x args (congrArg Item.expr he)
  | assign => exact files_assign
  | compoundAssign op => exact files_compoundAssign op
  | increment op fix => exact files_increment op fix
  | load => exact files_load
  | binary op => exact files_binary op
  | unary op => exact files_unary op
  | pop => exact files_pop.bind fun _ => files_pure _
  | find p => exact files_find p
  | deref => exact files_deref
  | select x => exact files_select x
  | arrayOf t n => exact files_arrayOf t n
  | restore f => exact files_changeEnv fun env => env.restore f
  | marker j => exact files_pure _
  | reset j => cases hi
  | branch yes no => exact files_branch yes no
  | whileRound c body => exact files_get.bind fun _ => files_schedule fun _ => .whileRound
  | forRound c update body => exact files_get.bind fun _ => files_schedule fun _ => .forRound
  | switch arms => exact files_switch arms
  | typeOf e => exact files_typeOf e
  | typeOfField x => exact files_typeOfField x
  | overload x n q => cases hi
  | override => exact files_override
  | overloadConstructor d n => exact files_overloadConstructor d n
  | new x => exact files_new x
  | invoke n => cases hi

/-! ### Faults -/

/-- `x` does not stop because of a call without a qualifier. -/
def Step.Spares {α : Type} (x : Step α) : Prop := ∀ r, Ends x r (fun _ _ => True) (fun e _ => e.isBareCall = false)

section Spares

variable {α β : Type} {x : Step α}

theorem Step.Files.spares {P : Item → Prop} (h : Files P x) : Spares x :=
  fun r => (h r).mono (fun _ _ _ => trivial) (fun _ _ he => he)

theorem Step.Spares.bind {f : α → Step β} (hx : Spares x) (hf : ∀ a, Spares (f a)) : Spares (x >>= f) := by
  intro r
  rw [ends_bind]
  exact (hx r).mono (fun a r₁ _ => hf a r₁) (fun _ _ he => he)

theorem spares_schedule (items : List Item) : Spares (schedule items) :=
  (files_schedule (P := fun _ => True) fun _ _ => trivial).spares

theorem spares_overload (x : String) (n : Nat) (q : Path) : Spares (overload x n q) := by
  have htypes : Spares (popTypes n) := (files_popType.popMany (P := fun _ => True) n []).spares
  have howner : Spares popType := (files_popType (P := fun _ => True)).spares
  refine htypes.bind fun ts => howner.bind fun t => ?_
  intro r
  simp only [ends_bind, ends_ask, ends_push]
  refine ⟨fun k _ => ?_, fun e he => clean_resolveMethod _ t x ts e he⟩
  rw [ends_ite]
  refine ⟨fun _ => trivial, fun _ => ?_⟩
  simp only [ends_bind, ends_get]
  split
  · rfl
  · trivial

theorem spares_reset (j : Jump) : Spares (reset j) := by
  intro r
  simp only [reset, ends_bind, ends_get]
  split
  · trivial
  · rfl

theorem clean_receiver (k : Closure) (args : List Value) : Clean (receiver k args) := by
  unfold receiver
  split
  · exact clean_ok _
  · split
    · exact clean_ok _
    all_goals
      rintro e ⟨⟩
      rfl

theorem spares_invoke (n : Nat) : Spares (invoke Natives.empty n) := by
  have hany : ∀ {α : Type} {x : Step α}, Files (fun _ => True) x → Spares x := fun h => h.spares
  have hparams : ∀ ps vs, Spares (bindParams ps vs) := by
    intro ps
    induction ps with
    | nil => exact fun _ => hany (files_pure _)
    | cons p ps ih =>
      intro vs
      cases vs with
      | nil => exact hany (files_pure _)
      | cons v vs =>
        exact (hany (files_ofExcept (Value.flawless_coerce v _).clean)).bind fun _ =>
          (hany (files_declare _)).bind fun _ => ih vs
  have henter : ∀ k, Spares (enter Natives.empty k) := by
    intro k
    unfold enter
    split
    · exact spares_schedule _
    · split
      · exact (spares_schedule _).bind fun _ => hany (files_throw rfl)
      · split
        · exact spares_schedule _
        · exact hany (files_throw rfl)
  have hthis : ∀ k object, Spares (bindReceiver k object) := by
    intro k object
    refine (hany (files_declare _)).bind fun _ =>
      (hany (files_ask fun env => (env.flawless_findClass _).clean)).bind fun c => ?_
    split
    · exact (hany (files_declare _)).bind fun _ => hany (files_pure _)
    · exact hany (files_pure _)
  refine (hany (files_popValue.popMany n [])).bind fun args => (hany files_popClosure).bind fun k => ?_
  intro r
  simp only [ends_bind, ends_ite, ends_throw]
  refine ⟨fun _ => rfl, fun _ => ?_⟩
  simp only [ends_here, ends_schedule, ends_ofExcept]
  refine ⟨fun object _ => ?_, fun e he => ?_⟩
  · have hbody : ∀ vs, Spares (bindParams k.callable.params vs >>= fun _ => enter Natives.empty k) :=
      fun vs => (hparams _ vs).bind fun _ => henter k
    have hextend : Spares (extend ((object.1.map Prod.snd).getD k.frame) k.callable.name) :=
      hany (files_changeEnv _)
    split
    · exact hextend.bind (fun _ => (hthis k _).bind fun _ => hbody _) _
    · exact hextend.bind (fun _ => hbody _) _
  · exact (clean_receiver k args) e he

/-- Only the evaluation of a call without a qualifier complains about one. -/
theorem perform_spares {i : Item} (hbare : ∀ x args, i ≠ .expr (.call (.simple x) args)) :
    Spares (perform Natives.empty i) := by
  cases hi : i.isFar with
  | false => exact (files_perform hi hbare).spares
  | true =>
    cases i with
    | overload x n q => exact spares_overload x n q
    | invoke n => exact spares_invoke n
    | reset j => exact spares_reset j
    | _ => cases hi

end Spares

/-! ### Steps -/

/-- What a step that performs `i` from `r` makes of control.  Most items keep to their orders; the selection of a
method may change an invocation that waits, a jump drops items, and an invocation enters a body. -/
inductive Hands (r : Registers) (i : Item) (c' : List Item) : Prop
  | orders (new : List Item) : i.isFar = false → (∀ j ∈ new, Orders i j) → c' = new ++ r.control → Hands r i c'
  | keeps (x : String) (n : Nat) (q : Path) : i = .overload x n q → c' = r.control → Hands r i c'
  | selects (x : String) (n : Nat) (q : Path) (new c : List Item) : i = .overload x n q →
    (∀ j ∈ new, j ∈ [.expr (.name q), .override]) → addReceiver? n r.control = some c → c' = new ++ c → Hands r i c'
  | jumps (j : Jump) : i = .reset j → unwind j r.control = .ok c' → Hands r i c'
  | enters (n : Nat) (k : Closure) (object : Option (Class × FrameId)) (body : List Stmt) : i = .invoke n →
    Calls r i k object → k.callable.body? = some body →
    c' = .stmt (.block body) :: .marker .ret :: .restore r.env.current :: r.control → Hands r i c'

section Steps

variable {r : Registers}

theorem overload_hands (x : String) (n : Nat) (q : Path) : Ends (overload x n q) r
    (fun _ r' => Hands r (.overload x n q) r'.control) (fun _ _ => True) := by
  rw [overload, ends_bind]
  refine takes_popType.popMany (fun ts s _ hs => ?_) (fun e s hs => trivial)
  rw [ends_bind]
  refine takes_popType _ _ _ (fun t below hs => ?_) (fun e s hs => trivial)
  simp only [ends_bind, ends_ask, ends_push]
  refine ⟨fun k hk => ?_, fun _ _ => trivial⟩
  rw [ends_ite]
  refine ⟨fun _ => .keeps x n q rfl rfl, fun _ => ?_⟩
  simp only [ends_bind, ends_get]
  split
  · trivial
  · rename_i control hcontrol
    refine .selects x n q _ control rfl (fun j hj => ?_) hcontrol rfl
    rcases List.mem_cons.mp hj with rfl | hj
    · exact .head _
    · split at hj
      · cases hj
      · exact .tail _ hj

/-- What every step makes of control. -/
theorem perform_hands (i : Item) : Ends (perform Natives.empty i) r (fun _ r' => Hands r i r'.control)
    (fun _ _ => True) := by
  cases hi : i.isFar with
  | false =>
    by_cases hbare : ∀ x args, i ≠ .expr (.call (.simple x) args)
    · refine (files_perform hi hbare r).mono (fun _ r' hr' => ?_) (fun _ _ _ => trivial)
      obtain ⟨new, hcontrol, hnew⟩ := hr'
      exact .orders new hi hnew hcontrol
    · -- a call without a qualifier is a fault
      push Not at hbare
      obtain ⟨x, args, rfl⟩ := hbare
      trivial
  | true =>
    cases i with
    | overload x n q => exact overload_hands x n q
    | invoke n =>
      refine (invoke_ends n).mono ?_ (fun _ _ _ => trivial)
      rintro - r' ⟨k, object, args, rest, below, vs, body, hn, hstash, hreceiver, hbody, rfl⟩
      exact .enters n k object body rfl ⟨n, args, rest, below, rfl, hn, hstash, hreceiver⟩ hbody rfl
    | reset j =>
      refine (reset_ends j).mono ?_ (fun _ _ _ => trivial)
      rintro - r' ⟨rest, hrest, rfl⟩
      exact .jumps j rfl hrest
    | _ => cases hi

theorem Machine.Next.hands {m m₁ : Machine} {i : Item} {c : List Item} (h : Next Natives.empty m m₁)
    (hc : m.registers.control = i :: c) :
    Hands { m.registers with control := c } i m₁.registers.control :=
  (perform_hands i).of_ok (h.perform hc)

end Steps

end Orders

end StashMachine
