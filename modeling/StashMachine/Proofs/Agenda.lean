import StashMachine.Proofs.Growth

/-!
# StashMachine.Proofs.Agenda — what a step leaves to do

A step takes an item off control and puts others there.

* `Item.isSimple`: items that stay in the current frame, hold no statements and neither mark a place nor jump.
* `Agenda r i new f`: performing `i` from `r` puts the items `new` on control, and the machine goes on in the
  frame `f`.
* `invoke_ends`: what an invocation makes of control, stash and environment.
* `perform_agenda`: every step keeps to its agenda.  Two items also change what is on control already: a jump
  drops items, and an instance method gives its invocation one argument more.
-/

namespace StashMachine

open Environment Step

/-- An item that stays in the current frame, holds no statements and neither marks a place nor jumps. -/
def Item.isSimple : Item → Bool
  | .program _ | .classDecl _ | .method _ | .constructor _ | .field _ | .stmt _ | .restore _ | .marker _
  | .reset _ | .branch _ _ | .whileRound _ _ | .forRound _ _ _ | .switch _ => false
  | _ => true

/-- The body of a callable that is not native. -/
def Callable.body? : Callable → Option (List Stmt)
  | .method m => if m.isNative then none else m.body
  | .constructor c => some c.body

/-- The two lists of a branch in the frame `f`: those of an operator, of an `if`, or of a round of a loop. -/
inductive Branches (f : FrameId) : List Item → List Item → Prop
  | operands (l r : Expr) : Branches f [.expr l] [.expr r]
  | stmts (yes no : List Stmt) : Branches f (yes.map .stmt) (no.map .stmt)
  | whileRound (c : Expr) (body : Stmt) :
    Branches f [.stmt body, .marker .cont, .restore f, .whileRound c body] []
  | forRound (c : Option Expr) (update : List Stmt) (body : Stmt) :
    Branches f ([.stmt body, .marker .cont, .restore f] ++ update.map .stmt ++ [.forRound c update body]) []

/-- Performing the item from `r` puts the items on control, and the machine goes on in the frame. -/
inductive Agenda (r : Registers) : Item → List Item → FrameId → Prop
  | simple {i : Item} {new : List Item} : (∀ f, i ≠ .restore f) → new.all Item.isSimple = true →
    Agenda r i new r.env.current
  | operator {e : Expr} {l : Expr} {yes no : Expr} :
    Agenda r (.expr e) [.expr l, .branch [.expr yes] [.expr no]] r.env.current
  | locals (t : TypeName) (vars : List Declarator) :
    Agenda r (.stmt (.declare t vars)) (vars.map (fun d => .stmt (.declare t [d]))) r.env.current
  | block (body : List Stmt) : Agenda r (.stmt (.block body))
    (body.map .stmt ++ [.restore r.env.current]) r.env.frames.size
  | ret (e : Option Expr) :
    Agenda r (.stmt (.ret e)) [.expr (e.getD .void), .reset .ret] r.env.current
  | ite (c : Expr) (yes : Stmt) (no : Option Stmt) : Agenda r (.stmt (.ite c yes no))
    [.expr c, .branch [.stmt yes] (no.toList.map .stmt)] r.env.current
  | loop (c : Expr) (body : Stmt) : Agenda r (.stmt (.loop c body))
    [.whileRound c body, .marker .brk, .restore r.env.current] r.env.current
  | forLoop (init : List Stmt) (c : Option Expr) (update : List Stmt) (body : Stmt) :
    Agenda r (.stmt (.forLoop init c update body))
      (init.map .stmt ++ [.forRound c update body, .marker .brk, .restore r.env.current]) r.env.frames.size
  | switch (e : Expr) (arms : List (Arm Stmt)) : Agenda r (.stmt (.switch e arms))
    [.expr e, .switch arms, .marker .brk, .restore r.env.current] r.env.current
  | breakOut : Agenda r (.stmt .breakOut) [.reset .brk] r.env.current
  | continueLoop : Agenda r (.stmt .continueLoop) [.reset .cont] r.env.current
  | whileRound (c : Expr) (body : Stmt) : Agenda r (.whileRound c body)
    [.expr c, .branch [.stmt body, .marker .cont, .restore r.env.current, .whileRound c body] []]
    r.env.current
  | forRound (c : Option Expr) (update : List Stmt) (body : Stmt) : Agenda r (.forRound c update body)
    [.expr (c.getD (.literal (.boolean true))), .branch ([.stmt body, .marker .cont, .restore r.env.current]
      ++ update.map .stmt ++ [.forRound c update body]) []] r.env.current
  | yes (yes no : List Item) : Agenda r (.branch yes no) yes r.env.current
  | no (yes no : List Item) : Agenda r (.branch yes no) no r.env.current
  | arms {arms chosen : List (Arm Stmt)} : (∀ arm ∈ chosen, arm ∈ arms) →
    Agenda r (.switch arms) ((chosen.flatMap Arm.body).map .stmt) r.env.frames.size
  | fields (fd : FieldDecl) :
    Agenda r (.field fd) (fd.vars.map (fun d => .field (fd.only d))) r.env.current
  | restore (f : FrameId) : Agenda r (.restore f) [] f
  | call {n : Nat} {k : Closure} {object : Option (Class × FrameId)} {body : List Stmt} :
    Calls r (.invoke n) k object → k.callable.body? = some body →
    Agenda r (.invoke n) [.stmt (.block body), .marker .ret, .restore r.env.current] r.env.frames.size

/-- What a step that performs `i` makes of control, and where it goes. -/
inductive Goes (r : Registers) (i : Item) (r' : Registers) : Prop
  | queues {new : List Item} {f : FrameId} : Agenda r i new f → r'.control = new ++ r.control →
    r'.env.current = f → Goes r i r'
  | jumps {j : Jump} : i = .reset j → unwind j r.control = .ok r'.control →
    r'.env.current = r.env.current → Goes r i r'
  | selects {x : String} {n : Nat} {q : Path} {new c : List Item} : i = .overload x n q →
    new.all Item.isSimple = true → addReceiver? n r.control = some c → r'.control = new ++ c →
    r'.env.current = r.env.current → Goes r i r'

/-- The names that performing an item may bind in the current frame. -/
def Item.binds : Item → List String
  | .stmt (.declare _ [d]) => [d.name]
  | .field ⟨_, _, [d]⟩ => [d.name]
  | _ => []

/-- What a step that performs `i` does: it keeps to its agenda, and of the frames that are there it changes
only the current one, which may get the names that the item declares. -/
structure Proceeds (r : Registers) (i : Item) (r' : Registers) : Prop where
  goes : Goes r i r'
  confined : ∀ f < r.env.frames.size, ∀ x, (f = r.env.current → x ∉ i.binds) →
    r'.env.bound? f x = r.env.bound? f x

/-! ### Bindings that stay -/

namespace Environment

/-- The frames of `env` bind in `env'` what they bound before. -/
structure Still (env env' : Environment) : Prop where
  size : env.frames.size ≤ env'.frames.size
  bound : ∀ f < env.frames.size, ∀ x, env'.bound? f x = env.bound? f x

namespace Still

variable {env env₁ env' : Environment}

theorem of_frames (h : env'.frames = env.frames) : Still env env' := by
  refine ⟨Nat.le_of_eq (by rw [h]), fun f _ x => ?_⟩
  rw [bound?, bound?, frame, frame, h]

theorem refl (env : Environment) : Still env env := .of_frames rfl

theorem trans (h : Still env env₁) (h' : Still env₁ env') : Still env env' := by
  refine ⟨Nat.le_trans h.size h'.size, fun f hf x => ?_⟩
  rw [h'.bound f (Nat.lt_of_lt_of_le hf h.size), h.bound f hf]

theorem extend (env : Environment) (around : FrameId) (name : String) : Still env (env.extend around name) := by
  refine ⟨?_, fun f _ x => bound?_extend _ _ _ _⟩
  rw [size_extend]
  exact Nat.le_succ _

/-- Variables of a frame that `env` does not have. -/
theorem addVariables (h : Still env env₁) (vs : List Variable) (hnew : env.frames.size ≤ env₁.current) :
    Still env (env₁.addVariables vs) := by
  induction vs generalizing env₁ with
  | nil => exact h
  | cons v vs ih =>
    refine ih ⟨Nat.le_trans h.size (Nat.le_of_eq (size_addBinding _ _ _ _).symm), fun f hf x => ?_⟩ hnew
    rw [bound?_addVariable, if_neg (by rintro ⟨rfl, -⟩; omega), h.bound f hf]

theorem instantiate (env : Environment) (c : Class) : Still env (env.instantiate c).2 := by
  obtain ⟨front, -, henv⟩ := exists_instantiate env c
  rw [henv]
  exact ((extend env c.frame objectFrame).addVariables _ (Nat.le_refl _)).trans (.of_frames rfl)

end Still
end Environment

/-! ### Steps that queue simple items only -/

/-- `x` queues simple items, stays in the current frame and binds nothing in the frames that are there. -/
def Step.Modest {α : Type} (x : Step α) : Prop :=
  ∀ r, Ends x r (fun _ r' => ∃ new, new.all Item.isSimple = true ∧ r'.control = new ++ r.control ∧
    r'.env.current = r.env.current ∧ Still r.env r'.env) (fun _ _ => True)

section Modest

variable {α β : Type} {x : Step α}

theorem modest_of_env (h : ∀ r, Ends x r (fun _ r' => r'.control = r.control ∧
    r'.env.current = r.env.current ∧ Still r.env r'.env) (fun _ _ => True)) : Modest x :=
  fun r => (h r).mono (fun _ _ hr => ⟨[], rfl, hr⟩) (fun _ _ _ => trivial)

theorem modest_of_same (h : ∀ r, Ends x r (fun _ r' => r'.control = r.control ∧ r'.env = r.env)
    (fun _ _ => True)) : Modest x := by
  refine modest_of_env (fun r => (h r).mono ?_ (fun _ _ _ => trivial))
  rintro _ r' ⟨hcontrol, henv⟩
  rw [henv]
  exact ⟨hcontrol, rfl, .refl _⟩

theorem modest_pure (a : α) : Modest (pure a) := modest_of_same (fun _ => ⟨rfl, rfl⟩)

theorem modest_throw (e : Fault) : Modest (throw e : Step α) := fun _ => trivial

theorem Step.Modest.bind {f : α → Step β} (hx : Modest x) (hf : ∀ a, Modest (f a)) : Modest (x >>= f) := by
  intro r
  rw [ends_bind]
  refine (hx r).mono ?_ (fun _ _ _ => trivial)
  rintro a r₁ ⟨new₁, hsimple₁, hcontrol₁, hcurrent₁, hstill₁⟩
  refine (hf a r₁).mono ?_ (fun _ _ _ => trivial)
  rintro b r₂ ⟨new₂, hsimple₂, hcontrol₂, hcurrent₂, hstill₂⟩
  refine ⟨new₂ ++ new₁, ?_, ?_, hcurrent₂.trans hcurrent₁, hstill₁.trans hstill₂⟩
  · rw [List.all_append, hsimple₁, hsimple₂]
    rfl
  · rw [hcontrol₂, hcontrol₁, List.append_assoc]

theorem modest_get : Modest (get : Step Registers) := modest_of_same (fun _ => ⟨rfl, rfl⟩)

theorem modest_ofExcept (a : Except Fault α) : Modest (Step.ofExcept a) := by
  cases a with
  | ok a => exact modest_pure a
  | error e => exact modest_throw e

theorem modest_ask (f : Environment → Except Fault α) : Modest (ask f) :=
  modest_get.bind (fun r => modest_ofExcept (f r.env))

theorem modest_push (item : StashItem) : Modest (push item) := modest_of_same (fun _ => ⟨rfl, rfl⟩)

theorem modest_pushValue (v : Value) : Modest (pushValue v) := modest_push _

theorem modest_schedule {c : List Item} (hc : c.all Item.isSimple = true) : Modest (schedule c) :=
  fun r => ⟨c, hc, rfl, rfl, .refl r.env⟩

theorem modest_describe (item : StashItem) : Modest (describe item) :=
  modest_of_same (fun _ => ⟨rfl, rfl⟩)

theorem modest_typeOfVar (id : VarId) : Modest (typeOfVar id) := modest_of_same (fun _ => ⟨rfl, rfl⟩)

theorem Step.Takes.modest {take : Step α} {wrap : α → StashItem} (h : Takes take wrap) : Modest take :=
  modest_of_same (fun r => h r _ _ (fun _ _ _ => ⟨rfl, rfl⟩) (fun _ _ _ => trivial))

theorem modest_pop : Modest pop :=
  modest_of_same (fun _ => ends_pop_of (fun _ _ _ => ⟨rfl, rfl⟩) (fun _ => trivial))

theorem Step.Takes.modest_popMany {take : Step α} {wrap : α → StashItem} (h : Takes take wrap) (n : Nat)
    (taken : List α) : Modest (Step.popMany take n taken) :=
  modest_of_same (fun _ => h.popMany (fun _ _ _ _ => ⟨rfl, rfl⟩) (fun _ _ _ => trivial))

/-! ### Variables and fields -/

/-- A value is stored, and one is left. -/
theorem modest_store (x : VarId) (w v : Value) :
    Modest (changeEnv (fun env => env.assign x w) >>= fun _ => pushValue v) :=
  Modest.bind (modest_of_env (fun _ => ⟨rfl, rfl, .of_frames rfl⟩)) fun _ => modest_pushValue v

theorem modest_assign : Modest Step.assign :=
  takes_popValue.modest.bind fun _ => takes_popTarget.modest.bind fun x =>
    (modest_typeOfVar x).bind fun _ => (modest_ofExcept _).bind fun w => modest_store x w w

theorem modest_compoundAssign (op : BinaryOp) : Modest (compoundAssign op) :=
  takes_popValue.modest.bind fun _ => takes_popValue.modest.bind fun _ =>
    takes_popTarget.modest.bind fun x => (modest_typeOfVar x).bind fun _ =>
      (modest_ofExcept _).bind fun _ => (modest_ofExcept _).bind fun w => modest_store x w w

theorem modest_increment (op : BinaryOp) (fix : Fixity) : Modest (increment op fix) := by
  refine takes_popTarget.modest.bind fun x => (modest_typeOfVar x).bind fun type => ?_
  extract_lets move
  have hmove : ∀ u, Modest (move u) := fun _ =>
    (modest_ask _).bind fun _ => (modest_ofExcept _).bind fun _ => (modest_ofExcept _).bind fun w =>
      modest_store x w _
  split
  · exact (modest_throw _).bind hmove
  · exact hmove ⟨⟩

theorem modest_load : Modest load := by
  refine modest_get.bind fun r => ?_
  split
  · exact modest_throw _
  · exact (modest_ask _).bind fun _ => modest_pushValue _
  · exact (modest_describe _).bind fun _ => modest_throw _

theorem modest_find (p : Path) : Modest (find p) := by
  cases p with
  | field p x => exact modest_schedule rfl
  | simple x =>
    refine (modest_ask _).bind fun b => ?_
    cases b with
    | var id => exact modest_push _
    | cls c => exact modest_push _
    | closure k => exact modest_throw _

theorem modest_deref : Modest deref := by
  refine modest_pop.bind fun item => ?_
  split
  · exact (modest_ask _).bind fun _ => modest_pushValue _
  · exact modest_push _

theorem modest_staticField (c : Class) (x : String) : Modest (Step.staticField c x) :=
  modest_of_same (fun r => (staticField_ends c x r).mono
    (fun _ _ h => ⟨by rw [h.1], by rw [h.1]⟩) (fun _ _ _ => trivial))

theorem modest_fieldOf (q : String) (t : TypeName) (v : Option Value) (x : String) :
    Modest (fieldOf q t v x) := by
  refine modest_of_env (fun r => (fieldOf_ends q t v x r).mono ?_ (fun _ _ _ => trivial))
  rintro id r' (⟨rfl, -⟩ | ⟨n, rfl, -⟩)
  · exact ⟨rfl, rfl, .refl _⟩
  · exact ⟨rfl, rfl, .of_frames rfl⟩

theorem modest_select (x : String) : Modest (select x) := by
  refine modest_pop.bind fun item => ?_
  split
  · exact (modest_staticField _ x).bind fun _ => modest_push _
  · refine modest_get.bind fun r => ?_
    split
    · exact (modest_fieldOf _ _ _ x).bind fun _ => modest_push _
    · exact modest_throw _
  · exact (modest_fieldOf _ _ _ x).bind fun _ => modest_push _
  · exact (modest_describe _).bind fun _ => modest_throw _

theorem modest_arrayOf (t : TypeName) (n : Nat) : Modest (arrayOf t n) :=
  (takes_popValue.modest_popMany n []).bind fun _ => (modest_ofExcept _).bind fun _ =>
    Modest.bind (modest_of_env (fun _ => ⟨rfl, rfl, .of_frames rfl⟩)) fun _ => modest_pushValue _

/-! ### Calls -/

theorem modest_typeOf (e : Expr) : Modest (Step.typeOf e) := by
  unfold Step.typeOf
  split
  · exact modest_schedule rfl
  · exact (modest_ask _).bind fun _ => modest_push _
  · exact (modest_ask _).bind fun _ => modest_push _

theorem modest_typeOfField (x : String) : Modest (typeOfField x) :=
  takes_popType.modest.bind fun _ => (modest_ask _).bind fun _ => modest_push _

theorem modest_override : Modest override := by
  refine modest_pop.bind fun item => takes_popClosure.modest.bind fun k => ?_
  split
  · exact (modest_ask _).bind fun _ => (modest_push _).bind fun _ => modest_pushValue _
  · exact modest_throw _
  · exact modest_throw _
  · exact (modest_describe _).bind fun _ => modest_throw _

theorem modest_overloadConstructor (d : String) (n : Nat) : Modest (overloadConstructor d n) :=
  (takes_popType.modest_popMany n []).bind fun _ => (modest_ask _).bind fun _ => modest_push _

theorem modest_new (d : String) : Modest (Step.new d) := by
  refine (modest_ask _).bind fun c => ?_
  refine Modest.bind (modest_of_env (fun _ => ⟨rfl, rfl, .instantiate _ c⟩)) fun made => ?_
  exact (modest_ofExcept made).bind fun _ => modest_pushValue _

/-! ### Expressions and declarations -/

theorem modest_binary (op : BinaryOp) : Modest (perform Natives.empty (.binary op)) :=
  takes_popValue.modest.bind fun _ => takes_popValue.modest.bind fun _ =>
    (modest_ofExcept _).bind fun _ => modest_pushValue _

theorem modest_unary (op : UnaryOp) : Modest (perform Natives.empty (.unary op)) :=
  takes_popValue.modest.bind fun _ => (modest_ofExcept _).bind fun _ => modest_pushValue _

theorem modest_dropTop : Modest (perform Natives.empty .pop) := modest_pop.bind fun _ => modest_pure _

theorem modest_construct (who : Delegate) (args : List Expr) : Modest (construct who args) :=
  (modest_ask _).bind fun x => (modest_typeOfVar x).bind fun _ =>
    modest_schedule (by simp [Item.isSimple])

end Modest

/-! ### Every step -/

section Steps

variable {r : Registers} {i : Item}

theorem Step.Modest.proceeds {x : Step Unit} (hx : Modest x) (hi : ∀ f, i ≠ .restore f) :
    Ends x r (fun _ r' => Proceeds r i r') (fun _ _ => True) := by
  refine (hx r).mono ?_ (fun _ _ _ => trivial)
  rintro - r' ⟨new, hsimple, hcontrol, hcurrent, hstill⟩
  exact ⟨.queues (.simple hi hsimple) hcontrol hcurrent, fun f hf x _ => hstill.bound f hf x⟩

/-- The step leaves the environment alone. -/
theorem Goes.proceeds {r' : Registers} (h : Goes r i r') (henv : r'.env = r.env) : Proceeds r i r' :=
  ⟨h, fun _ _ _ _ => by rw [henv]⟩

/-- The step opens a frame inside another one. -/
theorem Goes.proceeds_extend {r' : Registers} {around : FrameId} {name : String} (h : Goes r i r')
    (henv : r'.env = r.env.extend around name) : Proceeds r i r' :=
  ⟨h, fun _ _ _ _ => by rw [henv, bound?_extend]⟩

/-- One variable is declared in the current frame. -/
theorem declareOne_proceeds {t : TypeName} {d : Declarator} {default : Option Literal}
    (hi : d.name ∈ i.binds) (hrestore : ∀ f, i ≠ .restore f) :
    Ends (declareOne t d default) r (fun _ r' => Proceeds r i r') (fun _ _ => True) := by
  have hconfined : ∀ v : Variable, v.name = d.name → ∀ f < r.env.frames.size, ∀ x,
      (f = r.env.current → x ∉ i.binds) → (r.env.addVariable v).bound? f x = r.env.bound? f x := by
    intro v hv f _ x hx
    rw [bound?_addVariable, if_neg]
    rintro ⟨hf, -, rfl⟩
    exact hx hf (hv ▸ hi)
  unfold declareOne
  split
  · rename_i init _
    simp only [ends_bind, ends_declare, ends_push, ends_schedule]
    refine ⟨fun _ => ⟨?_, hconfined _ rfl⟩, fun _ => trivial⟩
    have hnew : [Item.expr init, .assign, .pop].all Item.isSimple = true := rfl
    exact .queues (.simple hrestore hnew) rfl rfl
  · simp only [ends_bind, ends_declare, ends_pure]
    exact ⟨fun _ => ⟨.queues (.simple hrestore List.all_nil) rfl rfl, hconfined _ rfl⟩, fun _ => trivial⟩

theorem evaluate_proceeds (e : Expr) :
    Ends (Step.evaluate e) r (fun _ r' => Proceeds r (.expr e) r') (fun _ _ => True) := by
  have hrestore : ∀ f, Item.expr e ≠ .restore f := by
    rintro f ⟨⟩
  have hsimple : ∀ {c : List Item}, c.all Item.isSimple = true →
      Ends (schedule c) r (fun _ r' => Proceeds r (.expr e) r') (fun _ _ => True) :=
    fun hc => (modest_schedule hc).proceeds hrestore
  unfold Step.evaluate
  split
  · exact (modest_pushValue _).proceeds hrestore
  · exact (modest_pushValue _).proceeds hrestore
  · exact hsimple rfl
  · exact hsimple rfl
  · exact hsimple rfl
  · exact hsimple rfl
  · exact Goes.proceeds (.queues .operator rfl rfl) rfl
  · exact Goes.proceeds (.queues .operator rfl rfl) rfl
  · exact hsimple rfl
  · exact hsimple rfl
  · trivial
  · exact hsimple (by simp [Item.isSimple])
  · exact hsimple (by simp [Item.isSimple])
  · exact hsimple (by simp [Item.isSimple])

theorem declareLocal_proceeds (t : TypeName) (vars : List Declarator) :
    Ends (declareLocal t vars) r (fun _ r' => Proceeds r (.stmt (.declare t vars)) r') (fun _ _ => True) := by
  unfold declareLocal
  split
  · exact (modest_pure ()).proceeds nofun
  · exact declareOne_proceeds (.head _) nofun
  · exact Goes.proceeds (.queues (.locals t vars) rfl rfl) rfl

theorem declareStatic_proceeds (fd : FieldDecl) :
    Ends (declareStatic fd) r (fun _ r' => Proceeds r (.field fd) r') (fun _ _ => True) := by
  obtain ⟨modifiers, type, vars⟩ := fd
  unfold declareStatic
  split
  · exact (modest_pure ()).proceeds nofun
  · rename_i d hvars
    obtain rfl : vars = [d] := hvars
    exact declareOne_proceeds (.head _) nofun
  · exact Goes.proceeds (.queues (.fields _) rfl rfl) rfl

theorem execute_proceeds (s : Stmt) :
    Ends (execute s) r (fun _ r' => Proceeds r (.stmt s) r') (fun _ _ => True) := by
  cases s with
  | block body => exact Goes.proceeds_extend (.queues (.block body) rfl rfl) rfl
  | declare t vars => exact declareLocal_proceeds t vars
  | expr e => exact (modest_schedule rfl).proceeds nofun
  | ret e => exact Goes.proceeds (.queues (.ret e) rfl rfl) rfl
  | ite c yes no => exact Goes.proceeds (.queues (.ite c yes no) rfl rfl) rfl
  | loop c body => exact Goes.proceeds (.queues (.loop c body) rfl rfl) rfl
  | forLoop init c update body => exact Goes.proceeds_extend (.queues (.forLoop init c update body) rfl rfl) rfl
  | switch e arms => exact Goes.proceeds (.queues (.switch e arms) rfl rfl) rfl
  | breakOut => exact Goes.proceeds (.queues .breakOut rfl rfl) rfl
  | continueLoop => exact Goes.proceeds (.queues .continueLoop rfl rfl) rfl
  | empty => exact (modest_pure ()).proceeds nofun
  | construct who args => exact (modest_construct who args).proceeds nofun

theorem branch_proceeds (yes no : List Item) :
    Ends (branch yes no) r (fun _ r' => Proceeds r (.branch yes no) r') (fun _ _ => True) := by
  rw [branch, ends_bind]
  refine takes_popValue _ _ _ (fun v s hs => ?_) (fun e s hs => trivial)
  split
  · exact Goes.proceeds (.queues (.yes yes no) rfl rfl) rfl
  · exact Goes.proceeds (.queues (.no yes no) rfl rfl) rfl
  · trivial

theorem switch_proceeds (arms : List (Arm Stmt)) :
    Ends (switch arms) r (fun _ r' => Proceeds r (.switch arms) r') (fun _ _ => True) := by
  have hrestore : ∀ f, Item.switch arms ≠ .restore f := by
    rintro f ⟨⟩
  rw [switch, ends_bind]
  refine takes_popValue _ _ _ (fun v s hs => ?_) (fun e s hs => trivial)
  simp only [ends_bind, ends_ofExcept]
  refine ⟨fun found hfound => ?_, fun _ _ => trivial⟩
  split
  · rename_i chosen hchosen
    have harms : ∀ arm ∈ chosen, arm ∈ arms := by
      intro arm harm
      cases found with
      | some entered =>
        cases hchosen
        exact mem_of_entered? hfound arm harm
      | none => exact mem_of_fallback? hchosen arm harm
    exact Goes.proceeds_extend (.queues (.arms harms) rfl rfl) rfl
  · exact Goes.proceeds (.queues (.simple hrestore List.all_nil) rfl rfl) rfl

/-- A jump unwinds control and changes nothing else. -/
theorem reset_ends (j : Jump) : Ends (reset j) r
    (fun _ r' => ∃ rest, unwind j r.control = .ok rest ∧ r' = { r with control := rest })
    (fun _ _ => True) := by
  simp only [reset, ends_bind, ends_get]
  split
  · rename_i rest hrest
    exact ⟨rest, hrest, rfl⟩
  · trivial

theorem reset_proceeds (j : Jump) :
    Ends (reset j) r (fun _ r' => Proceeds r (.reset j) r') (fun _ _ => True) := by
  refine (reset_ends j).mono ?_ (fun _ _ _ => trivial)
  rintro - r' ⟨rest, hrest, rfl⟩
  exact Goes.proceeds (.jumps rfl hrest rfl) rfl

theorem overload_proceeds (x : String) (n : Nat) (q : Path) :
    Ends (overload x n q) r (fun _ r' => Proceeds r (.overload x n q) r') (fun _ _ => True) := by
  have hrestore : ∀ f, Item.overload x n q ≠ .restore f := by
    rintro f ⟨⟩
  rw [overload, ends_bind]
  refine takes_popType.popMany (fun ts s _ hs => ?_) (fun e s hs => trivial)
  rw [ends_bind]
  refine takes_popType _ _ _ (fun t below hs => ?_) (fun e s hs => trivial)
  simp only [ends_bind, ends_ask, ends_push]
  refine ⟨fun k hk => ?_, fun _ _ => trivial⟩
  rw [ends_ite]
  refine ⟨fun _ => Goes.proceeds (.queues (.simple hrestore List.all_nil) rfl rfl) rfl, fun _ => ?_⟩
  simp only [ends_bind, ends_get]
  split
  · trivial
  · rename_i control hcontrol
    refine Goes.proceeds (.selects rfl ?_ hcontrol rfl rfl) rfl
    split <;> rfl

/-- Without natives, a closure is entered through its body. -/
theorem enter_body (k : Closure) (r : Registers) : Ends (enter Natives.empty k) r
    (fun _ r' => ∃ body, k.callable.body? = some body ∧
      r' = { r with control := .stmt (.block body) :: r.control }) (fun _ _ => True) := by
  unfold enter
  split
  · rename_i c hk
    exact ⟨c.body, by rw [hk]; rfl, rfl⟩
  · rename_i m hk
    rw [ends_ite]
    refine ⟨fun _ => trivial, fun hnative => ?_⟩
    split
    · rename_i body hbody
      refine ⟨body, ?_, rfl⟩
      rw [hk, Callable.body?, if_neg hnative, hbody]
    · trivial

/-- An invocation takes the arguments and the closure off the stash, adds the frame of the call with the
variables of the receiver and of the parameters, and queues the body over the way back. -/
theorem invoke_ends (n : Nat) : Ends (invoke Natives.empty n) r (fun _ r' => ∃ k object args rest below vs body,
      args.length = n ∧ r.stash = (args.map StashItem.value).reverse ++ .closure k :: below ∧
      receiver k args = .ok (object, rest) ∧ k.callable.body? = some body ∧
      r' = ⟨.stmt (.block body) :: .marker .ret :: .restore r.env.current :: r.control, below,
        (r.env.extend (callSite k object) k.callable.name).addVariables vs, r.output⟩)
    (fun _ _ => True) := by
  rw [invoke, ends_bind]
  refine takes_popValue.popMany (fun args s hlen hs => ?_) (fun e s hs => trivial)
  rw [ends_bind, List.append_nil]
  refine takes_popClosure _ _ _ (fun k below hk => ?_) (fun e s hs => trivial)
  obtain rfl : s = .closure k :: below := hk
  simp only [ends_bind, ends_ite, ends_throw]
  refine ⟨fun _ => trivial, fun _ => ?_⟩
  simp only [ends_here, ends_schedule, ends_ofExcept]
  refine ⟨?_, fun _ _ => trivial⟩
  rintro ⟨object, rest⟩ hreceiver
  -- binding the receiver and the parameters only adds variables to the new frame
  have hadds : ∀ {x : Step Unit} {r₁ : Registers}, Adds x (fun _ => True) →
      r₁ = ⟨.marker .ret :: .restore r.env.current :: r.control, below,
        r.env.extend (callSite k object) k.callable.name, r.output⟩ →
      Ends (x >>= fun _ => enter Natives.empty k) r₁ (fun _ r' => ∃ k object args rest below vs body,
        args.length = n ∧ r.stash = (args.map StashItem.value).reverse ++ .closure k :: below ∧
        receiver k args = .ok (object, rest) ∧ k.callable.body? = some body ∧
        r' = ⟨.stmt (.block body) :: .marker .ret :: .restore r.env.current :: r.control, below,
          (r.env.extend (callSite k object) k.callable.name).addVariables vs, r.output⟩) (fun _ _ => True) := by
    rintro x _ hx rfl
    rw [ends_bind]
    refine (hx _).mono ?_ (fun _ _ _ => trivial)
    rintro - r₂ ⟨vs, -, rfl⟩
    refine (enter_body k _).mono ?_ (fun _ _ _ => trivial)
    rintro - r₃ ⟨body, hbody, rfl⟩
    exact ⟨k, object, args, rest, below, vs, body, hlen, hs, hreceiver, hbody, rfl⟩
  have hparams : Adds (bindParams k.callable.params rest) (fun _ => True) :=
    bindParams_adds _ _ (fun _ _ _ _ _ _ => trivial)
  cases object with
  | none => exact hadds hparams rfl
  | some object =>
    have hthis : Adds (bindReceiver k object) (fun _ => True) := bindReceiver_adds k object (fun _ _ => trivial)
    rw [ends_extend]
    change Ends (do bindReceiver k object; bindParams k.callable.params rest; enter Natives.empty k) _ _ _
    rw [← bind_assoc]
    exact hadds (hthis.bind (fun _ => hparams)) rfl

theorem invoke_proceeds (n : Nat) :
    Ends (invoke Natives.empty n) r (fun _ r' => Proceeds r (.invoke n) r') (fun _ _ => True) := by
  refine (invoke_ends n).mono ?_ (fun _ _ _ => trivial)
  rintro - r' ⟨k, object, args, rest, below, vs, body, hlen, hs, hreceiver, hbody, rfl⟩
  have hcalls : Calls r (.invoke n) k object := ⟨n, args, rest, below, rfl, hlen, hs, hreceiver⟩
  have hstill : Still r.env ((r.env.extend (callSite k object) k.callable.name).addVariables vs) :=
    (Still.extend _ _ _).addVariables vs (Nat.le_refl _)
  exact ⟨.queues (.call hcalls hbody) rfl (current_addVariables _ _), fun f hf x _ => hstill.bound f hf x⟩

/-- An item of code: it neither declares a class nor binds a callable. -/
def Item.isStep : Item → Bool
  | .program _ | .classDecl _ | .method _ | .constructor _ => false
  | _ => true

/-- Every step of code keeps to its agenda. -/
theorem perform_agenda (hi : i.isStep = true) : Ends (perform Natives.empty i) r
    (fun _ r' => Proceeds r i r') (fun _ _ => True) := by
  cases i with
  | program p => cases hi
  | classDecl d => cases hi
  | method m => cases hi
  | constructor k => cases hi
  | field f => exact declareStatic_proceeds f
  | stmt s => exact execute_proceeds s
  | expr e => exact evaluate_proceeds e
  | assign => exact modest_assign.proceeds nofun
  | compoundAssign op => exact (modest_compoundAssign op).proceeds nofun
  | increment op fix => exact (modest_increment op fix).proceeds nofun
  | load => exact modest_load.proceeds nofun
  | binary op => exact (modest_binary op).proceeds nofun
  | unary op => exact (modest_unary op).proceeds nofun
  | pop => exact modest_dropTop.proceeds nofun
  | find p => exact (modest_find p).proceeds nofun
  | deref => exact modest_deref.proceeds nofun
  | select x => exact (modest_select x).proceeds nofun
  | arrayOf t n => exact (modest_arrayOf t n).proceeds nofun
  | restore f => exact ⟨.queues (.restore f) rfl rfl, fun _ _ _ _ => rfl⟩
  | marker j => exact (modest_pure ()).proceeds nofun
  | reset j => exact reset_proceeds j
  | branch yes no => exact branch_proceeds yes no
  | whileRound c body => exact Goes.proceeds (.queues (.whileRound c body) rfl rfl) rfl
  | forRound c update body => exact Goes.proceeds (.queues (.forRound c update body) rfl rfl) rfl
  | switch arms => exact switch_proceeds arms
  | typeOf e => exact (modest_typeOf e).proceeds nofun
  | typeOfField x => exact (modest_typeOfField x).proceeds nofun
  | overload x n q => exact overload_proceeds x n q
  | override => exact modest_override.proceeds nofun
  | overloadConstructor d n => exact (modest_overloadConstructor d n).proceeds nofun
  | new x => exact (modest_new x).proceeds nofun
  | invoke n => exact invoke_proceeds n

end Steps

end StashMachine
