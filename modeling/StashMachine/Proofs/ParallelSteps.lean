import StashMachine.Proofs.Lockstep

/-!
# StashMachine.Proofs.ParallelSteps — steps inside a frame, in two runs at once

The steps that stay in the current frame keep the registers of two runs alike that differ in the name of a parameter.

* `parallel_assign`, `parallel_find`, `parallel_select`, …: variables and fields.
* `parallel_evaluate`, `parallel_overload`, `parallel_override`, …: expressions and the choice of methods.
* `parallel_execute`: statements, but for those that open a frame.
-/

namespace StashMachine

open Environment Step

/-- Neither name is that of a receiver. -/
def Ordinary (x y : String) : Prop := ∀ who : Delegate, who.text ≠ x ∧ who.text ≠ y

variable {x y : String} {marks : List Bool} {b : Bool}

/-! ### Variables and fields -/

/-- Both runs store a value and leave one. -/
theorem parallel_store (id : VarId) {v v' w w' : Value} (hv : v.Alike marks v') (hw : w.Alike marks w') :
    Parallel x y marks b (fun _ _ => True) (changeEnv (fun env => env.assign id v) >>= fun _ => pushValue w)
      (changeEnv (fun env => env.assign id v') >>= fun _ => pushValue w') := by
  refine (parallel_changeEnv (fun env env' henv => ?_)).bind (fun _ _ _ => parallel_pushValue hw)
  exact ⟨henv.alike.assign id hv, henv.sheltered.keep (fun _ => rfl) (fun _ hx => hx), henv.mark⟩

theorem parallel_assign : Parallel x y marks b (fun _ _ => True) Step.assign Step.assign := by
  refine parallel_popValue.bind (fun v w hv => parallel_popTarget.bind ?_)
  rintro id _ rfl
  refine (parallel_typeOfVar id).bind ?_
  rintro t _ rfl
  exact (parallel_ofExcept (Value.agree_coerce hv t)).bind (fun _ _ hu => parallel_store id hu hu)

theorem parallel_compoundAssign (op : BinaryOp) :
    Parallel x y marks b (fun _ _ => True) (compoundAssign op) (compoundAssign op) := by
  refine parallel_popValue.bind (fun v w hv => parallel_popValue.bind (fun u u' hu => parallel_popTarget.bind ?_))
  rintro id _ rfl
  refine (parallel_typeOfVar id).bind ?_
  rintro t _ rfl
  exact (parallel_ofExcept (Value.agree_binary op hu hv)).bind (fun _ _ ha =>
    (parallel_ofExcept (Value.agree_narrow ha t)).bind (fun _ _ hn => parallel_store id hn hn))

theorem parallel_increment (op : BinaryOp) (fix : Fixity) :
    Parallel x y marks b (fun _ _ => True) (increment op fix) (increment op fix) := by
  refine parallel_popTarget.bind ?_
  rintro id _ rfl
  refine (parallel_typeOfVar id).bind ?_
  rintro t _ rfl
  extract_lets move
  have hmove : ∀ u, Parallel x y marks b (fun _ _ => True) (move u) (move u) := by
    intro u
    refine (parallel_ask (fun env env' henv => agree_value henv.alike id)).bind (fun v v' hv => ?_)
    refine (parallel_ofExcept (Value.agree_binary op hv (Value.alike_of_isSimple rfl))).bind (fun w w' hw => ?_)
    refine (parallel_ofExcept (Value.agree_narrow hw t)).bind (fun n n' hn => parallel_store id hn ?_)
    cases fix with
    | pre => exact hn
    | post => exact hv
  split
  · exact fun _ _ _ => Fault.Alike.same _
  · exact hmove ⟨⟩

theorem parallel_load : Parallel x y marks b (fun _ _ => True) load load := by
  refine parallel_get.bind (fun r r' hr => ?_)
  have hstash := hr.stash
  generalize r.stash = s at hstash ⊢
  generalize r'.stash = s' at hstash ⊢
  cases hstash with
  | nil => exact parallel_throw (.same _)
  | cons hitem _ =>
    have hfault := (parallel_describe (b := b) hitem).bind
      (fun _ _ ht => parallel_throw (R := fun (_ _ : Unit) => True) (.target ht))
    cases hitem with
    | var id =>
      exact (parallel_ask (fun env env' henv => agree_value henv.alike id)).bind (fun _ _ hv => parallel_pushValue hv)
    | _ => exact hfault

theorem parallel_find (p : Path) : Parallel x y marks b (fun _ _ => True) (find (p.rename (oldName x y b)))
    (find (p.rename (newName x y b))) := by
  cases p with
  | field p n => exact parallel_items [.find p, .select n] rfl
  | simple n =>
    refine (parallel_ask (fun env env' henv => agree_findName henv n)).bind (fun d d' hd => ?_)
    cases hd with
    | var id => exact parallel_push (.var id)
    | cls hc => exact parallel_push (.cls hc)
    | closure hk =>
      simp only [hk.descriptor]
      exact parallel_throw (.same _)

theorem parallel_deref : Parallel x y marks b (fun _ _ => True) deref deref := by
  refine parallel_pop.bind (fun item item' hitem => ?_)
  have hpush := parallel_push (b := b) hitem
  cases hitem with
  | var id =>
    exact (parallel_ask (fun env env' henv => agree_value henv.alike id)).bind (fun _ _ hv => parallel_pushValue hv)
  | _ => exact hpush

theorem parallel_staticField {c d : Class} (hc : c.Alike marks d) (n : String) :
    Parallel x y marks b Eq (Step.staticField c n) (Step.staticField d n) := by
  unfold Step.staticField
  have hfield := hc.findField? n
  have hname := Class.name_eq hc.bare
  generalize c.findField? n = old at hfield ⊢
  generalize d.findField? n = new at hfield ⊢
  cases hfield with
  | none =>
    simp only [hname]
    exact parallel_throw (.same _)
  | @some i i' hi =>
    simp only [hi.isStatic, hi.owner.name]
    split
    · exact fun _ _ _ => Fault.Alike.same _
    · refine parallel_get.bind (fun r r' hr => ?_)
      rw [ownVariable?_eq hr.env.alike hi.owner.frame hi.owner.outside n]
      split
      · exact parallel_pure rfl
      · exact parallel_throw (.same _)

theorem parallel_arrayLength {q q' : String} (hq : TextAlike x y q q') (n : String) {v v' : Option Value}
    (hv : Option.Rel (Value.Alike marks) v v') :
    Parallel x y marks b Eq (arrayLength q n v) (arrayLength q' n v') := by
  have hfault : Parallel x y marks b (@Eq VarId) (throw (.undeclaredVariable (q ++ "." ++ n)))
      (throw (.undeclaredVariable (q' ++ "." ++ n))) :=
    parallel_throw (.undeclaredVariable ((hq.append ".").append n))
  unfold arrayLength
  split
  · cases hv with
    | none => exact parallel_throw (.unassigned hq)
    | @some v w hv =>
      rcases hv.cases with ⟨hsimple, rfl⟩ | ⟨c, d, f, rfl, rfl, -, -⟩ | ⟨id, t, vs, ws, rfl, rfl, hlength⟩
      · cases w with
        | null => exact parallel_throw (.length hq)
        | array | object => cases hsimple
        | _ => exact hfault
      · exact hfault
      · simp only [hlength]
        exact parallel_fresh ⟨.same _, rfl, .some (Value.alike_of_isSimple rfl)⟩
  · exact hfault

theorem parallel_instanceField {q q' : String} (hq : TextAlike x y q q') {v v' : Option Value}
    (hv : Option.Rel (Value.Alike marks) v v') (n : String) :
    Parallel x y marks b Eq (instanceField q v n) (instanceField q' v' n) := by
  cases hv with
  | none => exact parallel_throw (.unassigned hq)
  | @some v w hv =>
    rcases hv.cases with ⟨hsimple, rfl⟩ | ⟨c, d, f, rfl, rfl, hc, hf⟩ | ⟨id, t, vs, ws, rfl, rfl, -⟩
    · cases w with
      | null => exact parallel_throw (.field hq)
      | array | object => cases hsimple
      | _ => exact parallel_throw (.same _)
    · refine parallel_get.bind (fun r r' hr => ?_)
      have hbound := hr.env.alike.bound_outside hf n
      have htext : Value.objectText d f = Value.objectText c f := by
        rw [Value.objectText, Value.objectText, Class.name_eq hc.bare]
      rw [bound?, bound?] at hbound
      simp only [htext]
      generalize (r.env.frame f).get? n = old at hbound ⊢
      generalize (r'.env.frame f).get? n = new at hbound ⊢
      cases hbound with
      | none => exact parallel_throw (.same _)
      | some hd =>
        cases hd with
        | var id => exact parallel_pure rfl
        | cls | closure => exact parallel_throw (.same _)
    · exact parallel_throw (.same _)

theorem parallel_fieldOf {q q' : String} (hq : TextAlike x y q q') (t : TypeName) {v v' : Option Value}
    (hv : Option.Rel (Value.Alike marks) v v') (n : String) :
    Parallel x y marks b Eq (fieldOf q t v n) (fieldOf q' t v' n) := by
  unfold fieldOf
  split
  · exact parallel_arrayLength hq n hv
  · exact parallel_throw (.same _)
  · refine (parallel_ask (fun env env' henv => agree_findClass henv.alike _)).bind (fun c d hc => ?_)
    have hfield := hc.findField? n
    generalize c.findField? n = old at hfield ⊢
    generalize d.findField? n = new at hfield ⊢
    cases hfield with
    | none => exact parallel_throw (.same _)
    | some hi =>
      simp only [hi.isStatic]
      split
      · exact parallel_staticField hc n
      · exact parallel_instanceField hq hv n

theorem parallel_select (n : String) : Parallel x y marks b (fun _ _ => True) (select n) (select n) := by
  have hpush : ∀ {s s' : Step VarId}, Parallel x y marks b Eq s s' → Parallel x y marks b (fun _ _ => True)
      (s >>= fun id => push (.var id)) (s' >>= fun id => push (.var id)) := by
    intro s s' hs
    refine hs.bind ?_
    rintro id _ rfl
    exact parallel_push (.var id)
  refine parallel_pop.bind (fun item item' hitem => ?_)
  have hfault := (parallel_describe (b := b) hitem).bind
    (fun _ _ ht => parallel_throw (R := fun (_ _ : Unit) => True) (.fieldOf (f := n) ht))
  cases hitem with
  | cls hc => exact hpush (parallel_staticField hc n)
  | var id =>
    refine parallel_get.bind (fun r r' hr => ?_)
    have hvar := hr.env.alike.var id
    generalize r.env.var? id = old at hvar ⊢
    generalize r'.env.var? id = new at hvar ⊢
    cases hvar with
    | none => exact parallel_throw (.same _)
    | @some v v' hv =>
      simp only [hv.type]
      exact hpush (parallel_fieldOf hv.name v.type hv.value n)
  | value hv =>
    simp only [hv.type]
    exact hpush (parallel_fieldOf (.same _) _ (.some hv) n)
  | _ => exact hfault

theorem parallel_arrayOf (t : TypeName) (n : Nat) :
    Parallel x y marks b (fun _ _ => True) (arrayOf t n) (arrayOf t n) := by
  refine (parallel_popMany parallel_popValue n .nil).bind (fun vs ws hvs => ?_)
  refine (parallel_ofExcept (Value.agree_coerceAll t hvs)).bind (fun us us' hus => ?_)
  refine Parallel.bind (R := Value.Alike marks) (fun r r' hr => ?_) (fun _ _ hv => parallel_pushValue hv)
  refine ⟨?_, ⟨hr.env.alike.createArray t us us', hr.env.sheltered.keep (fun _ => rfl) (fun _ hx => hx),
    hr.env.mark⟩, hr.stash, hr.control, hr.output⟩
  simp only [hr.env.alike.arrays]
  exact Value.alike_array _ t hus

/-! ### Expressions -/

theorem parallel_typeOf (e : Expr) : Parallel x y marks b (fun _ _ => True) (Step.typeOf (e.rename (oldName x y b)))
    (Step.typeOf (e.rename (newName x y b))) := by
  have hpush : ∀ {f f' : Environment → Except Fault TypeName},
      (∀ env env', Paired x y marks b env env' → Agree x y Eq (f env) (f' env')) →
      Parallel x y marks b (fun _ _ => True) (ask f >>= fun t => push (.type t))
        (ask f' >>= fun t => push (.type t)) := by
    intro f f' hf
    refine (parallel_ask hf).bind ?_
    rintro t _ rfl
    exact parallel_push (.type t)
  cases e with
  | name p =>
    cases p with
    | field p n => exact parallel_items [.typeOf (.name p), .typeOfField n] rfl
    | simple n => exact hpush (fun env env' henv => agree_nameType henv n)
  | call m args => cases m <;> exact hpush (fun env env' henv => agree_staticType henv (.call _ args))
  | _ => exact hpush (fun env env' henv => agree_staticType henv _)

theorem parallel_typeOfField (n : String) :
    Parallel x y marks b (fun _ _ => True) (typeOfField n) (typeOfField n) := by
  refine parallel_popType.bind ?_
  rintro t _ rfl
  refine (parallel_ask (fun env env' henv => agree_fieldType henv.alike t n)).bind ?_
  rintro u _ rfl
  exact parallel_push (.type u)

theorem parallel_evaluate (e : Expr) : Parallel x y marks b (fun _ _ => True)
    (Step.evaluate (e.rename (oldName x y b))) (Step.evaluate (e.rename (newName x y b))) := by
  cases e with
  | literal l => exact parallel_pushValue (Value.alike_of_isSimple (Value.isSimple_ofLiteral l))
  | void => exact parallel_pushValue (Value.alike_of_isSimple rfl)
  | name p => exact parallel_items [.find p, .deref] rfl
  | assign t v => exact parallel_items [.find t, .expr v, .assign] rfl
  | compound op t v => exact parallel_items [.find t, .load, .expr v, .compoundAssign op] rfl
  | increment op fix t => exact parallel_items [.find t, .increment op fix] rfl
  | binary op l r =>
    have hbranch : ∀ yes no : Expr, Parallel x y marks b (fun _ _ => True)
        (schedule [.expr (l.rename (oldName x y b)), .branch [.expr (yes.rename (oldName x y b))]
          [.expr (no.rename (oldName x y b))]])
        (schedule [.expr (l.rename (newName x y b)), .branch [.expr (yes.rename (newName x y b))]
          [.expr (no.rename (newName x y b))]]) :=
      fun yes no s s' hs => ⟨trivial, hs.env, hs.stash,
        .code (i := .expr l) rfl (.branch hs.env.mark (.operands yes no) hs.control), hs.output⟩
    cases op with
    | and => exact hbranch r (.literal (.boolean false))
    | or => exact hbranch (.literal (.boolean true)) r
    | _ => exact parallel_items [.expr l, .expr r, .binary _] rfl
  | unary op e => exact parallel_items [.expr e, .unary op] rfl
  | call m args =>
    cases m with
    | simple m => exact parallel_throw (.same _)
    | field q m =>
      have hitems : ∀ σ : String → String, Step.evaluate ((Expr.call (.field q m) args).rename σ)
          = schedule (List.map (Item.rename σ) (Item.typeOf (.name q) :: args.map .typeOf
            ++ Item.overload m args.length q :: args.map .expr ++ [Item.invoke args.length])) := by
        intro σ
        simp [Expr.rename, Step.evaluate, Item.rename, Function.comp_def]
      rw [hitems, hitems]
      exact parallel_items _ (by simp [Item.isPlain])
  | new c args =>
    have hitems : ∀ σ : String → String, Step.evaluate ((Expr.new c args).rename σ)
        = schedule (List.map (Item.rename σ) (args.map .typeOf ++ Item.overloadConstructor c args.length :: Item.new c
          :: args.map .expr ++ [Item.invoke (args.length + 1)])) := by
      intro σ
      simp [Expr.rename, Step.evaluate, Item.rename, Function.comp_def]
    rw [hitems, hitems]
    exact parallel_items _ (by simp [Item.isPlain])
  | array t es =>
    have hitems : ∀ σ : String → String, Step.evaluate ((Expr.array t es).rename σ)
        = schedule (List.map (Item.rename σ) (es.map .expr ++ [Item.arrayOf t es.length])) := by
      intro σ
      simp [Expr.rename, Step.evaluate, Item.rename, Function.comp_def]
    rw [hitems, hitems]
    exact parallel_items _ (by simp [Item.isPlain])

theorem parallel_binary (op : BinaryOp) : Parallel x y marks b (fun _ _ => True)
    (perform Natives.empty (.binary op)) (perform Natives.empty (.binary op)) :=
  parallel_popValue.bind fun _ _ hr => parallel_popValue.bind fun _ _ hl =>
    (parallel_ofExcept (Value.agree_binary op hl hr)).bind fun _ _ hv => parallel_pushValue hv

theorem parallel_unary (op : UnaryOp) : Parallel x y marks b (fun _ _ => True)
    (perform Natives.empty (.unary op)) (perform Natives.empty (.unary op)) :=
  parallel_popValue.bind fun _ _ hv =>
    (parallel_ofExcept (Value.agree_unary op hv)).bind fun _ _ hu => parallel_pushValue hu

/-! ### Declarations -/

theorem parallel_declareOne (t : TypeName) (d : Declarator) (default : Option Literal) :
    Parallel x y marks b (fun _ _ => True) (declareOne t (d.rename (oldName x y b)) default)
      (declareOne t (d.rename (newName x y b)) default) := by
  obtain ⟨name, init⟩ := d
  cases init with
  | some init =>
    refine Parallel.bind (parallel_declare (n := name) ⟨textAlike_name name, rfl, .none⟩ rfl rfl) ?_
    rintro id _ rfl
    exact (parallel_push (.var id)).bind (fun _ _ _ => parallel_items [.expr init, .assign, .pop] rfl)
  | none =>
    refine Parallel.bind (parallel_declare (n := name) ⟨textAlike_name name, rfl, ?_⟩ rfl rfl)
      (fun _ _ _ => parallel_pure trivial)
    cases default with
    | none => exact .none
    | some l => exact .some (Value.alike_of_isSimple (Value.isSimple_ofLiteral l))

theorem parallel_declareLocal (t : TypeName) (vars : List Declarator) : Parallel x y marks b (fun _ _ => True)
    (declareLocal t (vars.map (Declarator.rename (oldName x y b))))
    (declareLocal t (vars.map (Declarator.rename (newName x y b)))) := by
  match vars with
  | [] => exact parallel_pure trivial
  | [d] => exact parallel_declareOne t d none
  | d :: e :: rest =>
    have hitems : ∀ σ : String → String, declareLocal t ((d :: e :: rest).map (Declarator.rename σ))
        = schedule (List.map (Item.rename σ) ((d :: e :: rest).map (fun d => .stmt (.declare t [d])))) := by
      intro σ
      simp [declareLocal, Item.rename, Stmt.rename, Function.comp_def]
    rw [hitems, hitems]
    exact parallel_items _ (by simp [Item.isPlain])

theorem parallel_declareStatic (f : FieldDecl) : Parallel x y marks b (fun _ _ => True)
    (declareStatic { f with vars := f.vars.map (Declarator.rename (oldName x y b)) })
    (declareStatic { f with vars := f.vars.map (Declarator.rename (newName x y b)) }) := by
  obtain ⟨modifiers, type, vars⟩ := f
  match vars with
  | [] => exact parallel_pure trivial
  | [d] => exact parallel_declareOne type d _
  | d :: e :: rest =>
    have hitems : ∀ σ : String → String,
        declareStatic ⟨modifiers, type, (d :: e :: rest).map (Declarator.rename σ)⟩
        = schedule (List.map (Item.rename σ) ((d :: e :: rest).map (fun d => .field ⟨modifiers, type, [d]⟩))) := by
      intro σ
      simp [declareStatic, FieldDecl.only, Item.rename, Function.comp_def]
    rw [hitems, hitems]
    exact parallel_items _ (by simp [Item.isPlain])

/-! ### Calls -/

theorem Ordinary.oldName (h : Ordinary x y) (who : Delegate) : oldName x y b who.text = who.text :=
  oldName_of_ne (h who).2

theorem Ordinary.newName (h : Ordinary x y) (who : Delegate) : newName x y b who.text = who.text :=
  newName_of_ne (h who).1

theorem parallel_construct (hxy : Ordinary x y) (who : Delegate) (args : List Expr) :
    Parallel x y marks b (fun _ _ => True) (construct who (args.map (Expr.rename (oldName x y b))))
      (construct who (args.map (Expr.rename (newName x y b)))) := by
  have hfind : ∀ env env', Paired x y marks b env env' →
      Agree x y Eq (env.findVariable who.text) (env'.findVariable who.text) := by
    intro env env' henv
    have hfind := agree_findVariable henv who.text
    rwa [hxy.oldName, hxy.newName] at hfind
  refine (parallel_ask hfind).bind ?_
  rintro id _ rfl
  refine (parallel_typeOfVar id).bind ?_
  rintro t _ rfl
  have hitems : ∀ σ : String → String, σ who.text = who.text → List.map (Item.rename σ)
      (args.map .typeOf ++ Item.overloadConstructor t.text args.length :: Item.expr (.name (.simple who.text))
        :: args.map .expr ++ [Item.invoke (args.length + 1), Item.pop])
      = (args.map (Expr.rename σ)).map .typeOf
        ++ Item.overloadConstructor t.text (args.map (Expr.rename σ)).length :: Item.expr (.name (.simple who.text))
        :: (args.map (Expr.rename σ)).map .expr ++ [Item.invoke ((args.map (Expr.rename σ)).length + 1), Item.pop] := by
    intro σ hσ
    simp [Item.rename, Expr.rename, Path.rename, Function.comp_def, hσ]
  rw [← hitems _ (hxy.oldName who), ← hitems _ (hxy.newName who)]
  exact parallel_items _ (by simp [Item.isPlain])

/-- Both runs give their invocation one argument more, and go on. -/
theorem parallel_addReceiver {q q' : String} (hq : TextAlike x y q q') (m : String) (n : Nat)
    {next next' : Unit → Step Unit} (hnext : ∀ u, Parallel x y marks b (fun _ _ => True) (next u) (next' u)) :
    Parallel x y marks b (fun _ _ => True)
      (do let r ← get
          match addReceiver? n r.control with
          | none => do let u ← throw (.internal (.noInvocation q m)); next u
          | some control => do let u ← set { r with control := control }; next u)
      (do let r ← get
          match addReceiver? n r.control with
          | none => do let u ← throw (.internal (.noInvocation q' m)); next' u
          | some control => do let u ← set { r with control := control }; next' u) := by
  intro r r' hr
  have hadd := hr.control.addReceiver? n
  refine Pairs.bind ?_
  show Pairs x y (match addReceiver? n r.control with | none => _ | some c => _)
    (match addReceiver? n r'.control with | none => _ | some c => _) r r' _
  generalize addReceiver? n r.control = old at hadd ⊢
  generalize addReceiver? n r'.control = new at hadd ⊢
  cases hadd with
  | none => exact Fault.Alike.noInvocation hq
  | some hc => exact hnext () _ _ ⟨hr.env, hr.stash, hc, hr.output⟩

/-- Both runs call a method on `super`, or none does. -/
theorem Ordinary.rename_eq_super (h : Ordinary x y) (q : Path) :
    q.rename (StashMachine.oldName x y b) = .simple superName ↔
      q.rename (StashMachine.newName x y b) = .simple superName := by
  have hold : StashMachine.oldName x y b superName = superName := h.oldName .super
  have hnew : StashMachine.newName x y b superName = superName := h.newName .super
  cases q with
  | simple n =>
    rw [Path.rename, Path.rename, Path.simple.injEq, Path.simple.injEq]
    conv_lhs => rw [← hold]
    conv_rhs => rw [← hnew]
    exact oldName_eq_iff
  | field q n => simp [Path.rename]

theorem parallel_overload (hxy : Ordinary x y) (m : String) (n : Nat) (q : Path) :
    Parallel x y marks b (fun _ _ => True) (overload m n (q.rename (oldName x y b)))
      (overload m n (q.rename (newName x y b))) := by
  refine (parallel_popTypes n).bind ?_
  rintro ts _ rfl
  refine parallel_popType.bind ?_
  rintro t _ rfl
  refine (parallel_ask (fun env env' henv => agree_resolveMethod henv.alike t m ts)).bind (fun k k' hk => ?_)
  refine (parallel_push (.closure hk)).bind (fun _ _ _ => ?_)
  rw [hk.callable.isStatic]
  split
  · exact parallel_pure trivial
  · refine parallel_addReceiver (textAlike_path q) m n (fun _ => ?_)
    simp only [hxy.rename_eq_super]
    split
    · exact parallel_items [.expr (.name q)] rfl
    · exact parallel_items [.expr (.name q), .override] rfl

theorem parallel_override : Parallel x y marks b (fun _ _ => True) override override := by
  refine parallel_pop.bind (fun item item' hitem => parallel_popClosure.bind (fun k k' hk => ?_))
  have hfault := (parallel_describe (b := b) hitem).bind
    (fun _ _ ht => parallel_throw (R := fun (_ _ : Unit) => True) (.receiver (m := k.descriptor) ht))
  simp only [hk.descriptor, hk.className]
  cases hitem with
  | @value v w hv =>
    rcases hv.cases with ⟨hsimple, rfl⟩ | ⟨c, d, f, rfl, rfl, hc, hf⟩ | ⟨id, t, vs, ws, rfl, rfl, -⟩
    · cases w with
      | null => exact parallel_throw (.same _)
      | array | object => cases hsimple
      | _ => exact hfault
    · refine (parallel_ask (R := Closure.Alike x y marks) (fun env env' henv => ?_)).bind (fun l l' hl => ?_)
      · exact resolveOverride_alike henv.alike hc hk
      · exact (parallel_push (.closure hl)).bind (fun _ _ _ => parallel_pushValue hv)
    · exact hfault
  | cls hc => exact parallel_throw (.same _)
  | _ => exact hfault

theorem parallel_overloadConstructor (c : String) (n : Nat) :
    Parallel x y marks b (fun _ _ => True) (overloadConstructor c n) (overloadConstructor c n) := by
  refine (parallel_popTypes n).bind ?_
  rintro ts _ rfl
  exact (parallel_ask (fun env env' henv => agree_resolveConstructor henv.alike c ts)).bind
    (fun _ _ hk => parallel_push (.closure hk))

/-! ### Statements -/

theorem parallel_branch {f : FrameId} {yes no : List Item} (hf : marks[f]? = some b) (hb : Branches f yes no) :
    Parallel x y marks b (fun _ _ => True)
      (branch (yes.map (Item.rename (oldName x y b))) (no.map (Item.rename (oldName x y b))))
      (branch (yes.map (Item.rename (newName x y b))) (no.map (Item.rename (newName x y b)))) := by
  refine parallel_popValue.bind (fun v w hv => ?_)
  have hfault : Parallel x y marks b (fun (_ _ : Unit) => True)
      (throw (.typeMismatch (.conversion v.type (.primitive .boolean))))
      (throw (.typeMismatch (.conversion w.type (.primitive .boolean)))) := by
    rw [hv.type]
    exact parallel_throw (.same _)
  rcases hv.cases with ⟨hsimple, rfl⟩ | ⟨c, d, f, rfl, rfl, -, -⟩ | ⟨id, t, vs, ws, rfl, rfl, -⟩
  · cases w with
    | boolean value =>
      cases value with
      | true => exact parallel_schedule (fun _ _ h => (h.branches hf hb).1)
      | false => exact parallel_schedule (fun _ _ h => (h.branches hf hb).2)
    | _ => exact hfault
  · exact hfault
  · exact hfault

theorem reset_of_ok {j : Jump} {r : Registers} {rest : List Item} (h : unwind j r.control = .ok rest) :
    reset j r = .ok () { r with control := rest } := by
  simp only [reset, get_bind, h]
  rfl

theorem reset_of_error {j : Jump} {r : Registers} {rest : List Item} (h : unwind j r.control = .error rest) :
    reset j r = .error (.noMarker j) { r with control := rest } := by
  simp only [reset, get_bind, h]
  rfl

theorem parallel_reset (j : Jump) : Parallel x y marks b (fun _ _ => True) (reset j) (reset j) := by
  intro r r' hr
  rcases hr.control.unwind j with ⟨rest, rest', h, h', hrest⟩ | ⟨rest, rest', h, h'⟩
  · rw [Pairs, reset_of_ok h, reset_of_ok h']
    exact ⟨trivial, hr.env, hr.stash, hrest b, hr.output⟩
  · rw [Pairs, reset_of_error h, reset_of_error h']
    exact Fault.Alike.same _

theorem parallel_whileRound (e : Expr) (body : Stmt) : Parallel x y marks b (fun _ _ => True)
    (whileRound (e.rename (oldName x y b)) (body.rename (oldName x y b)))
    (whileRound (e.rename (newName x y b)) (body.rename (newName x y b))) := by
  refine parallel_here.bind ?_
  rintro f _ ⟨rfl, hf⟩
  refine parallel_schedule (fun c c' h => .code (i := .expr e) rfl ?_)
  exact .branch hf (.whileRound e body) h

theorem parallel_forRound (e : Option Expr) (update : List Stmt) (body : Stmt) :
    Parallel x y marks b (fun _ _ => True)
      (forRound (e.map (Expr.rename (oldName x y b))) (update.map (Stmt.rename (oldName x y b)))
        (body.rename (oldName x y b)))
      (forRound (e.map (Expr.rename (newName x y b))) (update.map (Stmt.rename (newName x y b)))
        (body.rename (newName x y b))) := by
  refine parallel_here.bind ?_
  rintro f _ ⟨rfl, hf⟩
  refine parallel_schedule (fun c c' h => ?_)
  have hbranch := Follows.branch hf (.forRound e update body) h
  have hexpr : ∀ σ : String → String, (e.map (Expr.rename σ)).getD (.literal (.boolean true))
      = (e.getD (.literal (.boolean true))).rename σ := by
    intro σ
    cases e <;> rfl
  have hround := Follows.code (i := .expr (e.getD (.literal (.boolean true)))) rfl hbranch
  simpa [Item.rename, Function.comp_def, hexpr] using hround

/-- A statement that opens a frame. -/
def Stmt.opens : Stmt → Bool
  | .block _ | .forLoop _ _ _ _ => true
  | _ => false

theorem parallel_execute (hxy : Ordinary x y) {s : Stmt} (hs : s.opens = false) :
    Parallel x y marks b (fun _ _ => True) (execute (s.rename (oldName x y b)))
      (execute (s.rename (newName x y b))) := by
  cases s with
  | block body => cases hs
  | forLoop init e update body => cases hs
  | declare t vars => exact parallel_declareLocal t vars
  | expr e => exact parallel_items [.expr e, .pop] rfl
  | ret e =>
    cases e with
    | none => exact parallel_items [.expr .void, .reset .ret] rfl
    | some e => exact parallel_items [.expr e, .reset .ret] rfl
  | ite e yes no =>
    intro r r' hr
    have hbranch := Follows.branch hr.env.mark (.stmts [yes] no.toList) hr.control
    refine ⟨trivial, hr.env, hr.stash, .code (i := .expr e) rfl ?_, hr.output⟩
    cases no <;> exact hbranch
  | loop e body =>
    refine parallel_here.bind ?_
    rintro f _ ⟨rfl, hf⟩
    exact parallel_schedule (fun c c' h => .code (i := .whileRound e body) rfl (.marker fun _ => .restore hf h))
  | switch e arms =>
    refine parallel_here.bind ?_
    rintro f _ ⟨rfl, hf⟩
    exact parallel_schedule (fun c c' h => .code (i := .expr e) rfl (.switch fun _ => .marker fun _ => .restore hf h))
  | breakOut => exact parallel_items [.reset .brk] rfl
  | continueLoop => exact parallel_items [.reset .cont] rfl
  | empty => exact parallel_pure trivial
  | construct who args => exact parallel_construct hxy who args

end StashMachine
