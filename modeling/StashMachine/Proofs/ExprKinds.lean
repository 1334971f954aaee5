import StashMachine.Proofs.OperatorTypes
import StashMachine.Proofs.Parsed
import StashMachine.Proofs.Refinement
import StashMachine.Proofs.TypedStore

/-!
# StashMachine.Proofs.ExprKinds — static types of expressions, and the kinds of their values

An elementary expression is built from literals, simple names, updates of variables and operators that evaluate
all their operands.

* `Environment.Fits`: variables hold values that fit their types.  `Environment.Restates env env'`: `env'` differs
  from `env` in the values of variables only.  An update of a variable keeps to both (`Fits.assign`,
  `Restates.assign`).
* `staticType_eq`: the static types of elementary expressions do not depend on values.
* `Predicted env e a env'`: the answer `a` of the expression `e` is of the kind of its static type in `env`.
  `Predicts e`: so it is wherever variables fit their types.
* `predicts_of_isElementary`: the answers of elementary expressions are predicted, with one lemma for each form.
* `static_types_predict_kinds`: so are the values that the machine evaluates them to.
-/

namespace StashMachine

open Environment Evaluation Machine

/-- Literals, simple names, updates of variables, and all operators but `&&` and `||`. -/
def Expr.isElementary : Expr → Bool
  | .literal _ | .name (.simple _) | .increment _ _ (.simple _) => true
  | .assign (.simple _) e | .compound _ (.simple _) e | .unary _ e => e.isElementary
  | .binary op l r => op != .and && op != .or && l.isElementary && r.isElementary
  | _ => false

/-! ### Environments -/

namespace Environment

variable {env env₁ env' : Environment} {x : VarId} {v : Value}

/-- The declared type of a variable. -/
abbrev declaredType (env : Environment) (x : VarId) : TypeName := ((env.var? x).map Variable.type).getD .void

/-- Every variable holds a value that fits its type. -/
def Fits (env : Environment) : Prop :=
  ∀ x y w, env.var? x = some y → y.value = some w → w.fits y.type = true

/-- The environments differ in the values of variables only. -/
structure Restates (env env' : Environment) : Prop where
  frames : env'.frames = env.frames
  current : env'.current = env.current
  types : ∀ x, (env'.var? x).map Variable.type = (env.var? x).map Variable.type

theorem Restates.refl (env : Environment) : Restates env env := ⟨rfl, rfl, fun _ => rfl⟩

theorem Restates.trans (h : Restates env env₁) (h' : Restates env₁ env') : Restates env env' :=
  ⟨h'.frames.trans h.frames, h'.current.trans h.current, fun x => (h'.types x).trans (h.types x)⟩

theorem Restates.declaredType (h : Restates env env') (x : VarId) : env'.declaredType x = env.declaredType x := by
  rw [Environment.declaredType, h.types]

theorem restates_assign (env : Environment) (x : VarId) (v : Value) : Restates env (env.assign x v) := by
  refine ⟨rfl, rfl, fun y => ?_⟩
  rw [var?_assign]
  split
  · cases env.var? y <;> rfl
  · rfl

theorem Fits.assign (h : env.Fits) (hv : v.fits (env.declaredType x) = true) : (env.assign x v).Fits := by
  intro y z w hy hw
  rw [var?_assign] at hy
  split at hy
  · rename_i hyx
    obtain ⟨z', hz', rfl⟩ := Option.map_eq_some_iff.mp hy
    cases hw
    rw [← hyx, Environment.declaredType, hz'] at hv
    exact hv
  · exact h y z w hy hw

/-- What is read fits the type of its variable. -/
theorem Fits.value (h : env.Fits) (hv : env.value x = .ok v) : v.fits (env.declaredType x) = true := by
  unfold Environment.value at hv
  split at hv
  · rename_i name type w hx
    cases hv
    have hfits := h x _ v hx rfl
    rwa [Environment.declaredType, hx]
  · cases hv
  · cases hv

end Environment

section Types

variable {env env' : Environment} {x : String} {op : BinaryOp}

theorem lookup?_eq (h : Restates env env') (x : String) : env'.lookup? x = env.lookup? x := by
  simp only [lookup?, lookupFrom?, chain, frame, h.frames, h.current]

theorem nameType_eq (h : Restates env env') (x : String) : env'.nameType x = env.nameType x := by
  simp only [nameType, findName, lookup?_eq h]
  cases env.lookup? x with
  | none => rfl
  | some b =>
    cases b with
    | var id => exact congrArg Except.ok (h.declaredType id)
    | cls c => rfl
    | closure k => rfl

/-- The static types of elementary expressions do not depend on the values of variables. -/
theorem staticType_eq (h : Restates env env') :
    ∀ e : Expr, e.isElementary = true → env'.staticType e = env.staticType e
  | .literal _, _ => rfl
  | .name (.simple x), _ | .assign (.simple x) _, _ | .compound _ (.simple x) _, _
  | .increment _ _ (.simple x), _ => nameType_eq h x
  | .binary op l r, he => by
    simp only [Expr.isElementary, Bool.and_eq_true] at he
    rw [staticType, staticType, staticType_eq h l he.1.2, staticType_eq h r he.2]
  | .unary op e, he => by rw [staticType, staticType, staticType_eq h e he]

/-- A simple name of a primitive type is a variable of that type. -/
theorem place_gives (x : String) : (Path.place (.simple x)).Gives env
    (fun a env' => env' = env ∧ ∀ p, env.nameType x = .ok (.primitive p) →
      ∃ id, a = .var id ∧ env.declaredType id = .primitive p) (fun _ _ => True) := by
  simp only [Path.place, gives_ask, findPlace, nameType]
  refine ⟨fun a ha => ⟨trivial, fun p hp => ?_⟩, fun _ _ => trivial⟩
  cases hx : env.findName x with
  | error f => rw [hx] at ha; cases ha
  | ok b =>
    rw [hx] at ha hp
    cases b with
    | var id =>
      cases ha
      exact ⟨id, rfl, Except.ok.inj hp⟩
    | cls c => cases hp
    | closure k => cases hp

end Types

/-! ### Answers -/

/-- The answer of an expression has left everything but the values of variables as it was, and it is a value of
the kind of its static type, if that is primitive. -/
structure Predicted (env : Environment) (e : Expr) (a : Answer) (env' : Environment) : Prop where
  restates : Restates env env'
  fits : env'.Fits
  kind : ∀ p, env.staticType e = .ok (.primitive p) → ∃ v, a = .value v ∧ v.isOf p = true

/-- Where all variables fit, the answers of the expression are predicted. -/
def Predicts (e : Expr) : Prop :=
  ∀ env : Environment, env.Fits → e.eval.Gives env (Predicted env e) (fun _ _ => True)

section Answers

variable {env env₁ : Environment} {e l r : Expr} {x : String} {id : VarId} {v w : Value}

theorem ofLiteral_isOf {l : Literal} {p : Primitive} (h : l.type = .primitive p) :
    (Value.ofLiteral l).isOf p = true := by
  cases l <;> cases h <;> rfl

theorem Predicted.isOf {t : TypeName} (h : Predicted env e (.value v) env₁) (ht : env.staticType e = .ok t) :
    ∀ p, t = .primitive p → v.isOf p = true := by
  rintro p rfl
  obtain ⟨_, ⟨⟩, hkind⟩ := h.kind p ht
  exact hkind

/-- An update of a variable stores a value that fits, and answers one that fits. -/
theorem predicted_update (hrestates : Restates env env₁) (hfits : env₁.Fits)
    (hid : ∀ p, env.nameType x = .ok (.primitive p) → ∃ id', Place.var id = .var id' ∧
      env.declaredType id' = .primitive p)
    (he : env.staticType e = env.nameType x) (hw : w.fits (env₁.declaredType id) = true)
    (hv : v.fits (env.declaredType id) = true) : Predicted env e (.value v) (env₁.assign id w) := by
  refine ⟨hrestates.trans (restates_assign _ _ _), hfits.assign hw, fun p hp => ⟨v, rfl, ?_⟩⟩
  obtain ⟨_, ⟨⟩, htype⟩ := hid p (he ▸ hp)
  rw [htype] at hv
  exact hv

theorem predicts_literal (l : Literal) : Predicts (.literal l) := by
  intro env hfits
  rw [Expr.eval, gives_pure]
  exact ⟨.refl env, hfits, fun p hp => ⟨_, rfl, ofLiteral_isOf (Except.ok.inj hp)⟩⟩

theorem predicts_name (x : String) : Predicts (.name (.simple x)) := by
  intro env hfits
  rw [Expr.eval, gives_bind]
  refine (place_gives x).mono ?_ (fun _ _ _ => trivial)
  rintro a _ ⟨rfl, ha⟩
  cases a with
  | cls c =>
    refine ⟨.refl _, hfits, fun p hp => ?_⟩
    obtain ⟨_, ⟨⟩, -⟩ := ha p hp
  | var id =>
    simp only [Place.read, gives_bind, gives_ask, gives_pure]
    refine ⟨fun v hv => ⟨.refl _, hfits, fun p hp => ⟨v, rfl, ?_⟩⟩, fun _ _ => trivial⟩
    obtain ⟨_, ⟨⟩, htype⟩ := ha p hp
    have hvfits := hfits.value hv
    rw [htype] at hvfits
    exact hvfits

theorem Predicts.assign (he : Predicts e) (x : String) : Predicts (.assign (.simple x) e) := by
  intro env hfits
  rw [Expr.eval, gives_bind]
  refine (place_gives x).mono ?_ (fun _ _ _ => trivial)
  rintro a _ ⟨rfl, ha⟩
  rw [gives_bind]
  refine (he _ hfits).mono ?_ (fun _ _ _ => trivial)
  rintro b env₁ ⟨hrestates, hfits₁, -⟩
  cases b with
  | cls c => exact trivial
  | value v =>
    cases a with
    | cls c => exact trivial
    | var id =>
      simp only [Answer.get, Place.target, gives_bind, gives_pure, gives_typeOf, gives_check, gives_store]
      refine ⟨fun w hw => ?_, fun _ _ => trivial⟩
      have hwfits := Value.fits_coerce hw
      exact predicted_update hrestates hfits₁ ha rfl hwfits (hrestates.declaredType id ▸ hwfits)

theorem Predicts.compound (he : Predicts e) (op : BinaryOp) (x : String) :
    Predicts (.compound op (.simple x) e) := by
  intro env hfits
  rw [Expr.eval, gives_bind]
  refine (place_gives x).mono ?_ (fun _ _ _ => trivial)
  rintro a _ ⟨rfl, ha⟩
  cases a with
  | cls c => exact trivial
  | var id =>
    simp only [Place.target, gives_bind, gives_pure, gives_ask]
    refine ⟨fun old _ => ?_, fun _ _ => trivial⟩
    refine (he _ hfits).mono ?_ (fun _ _ _ => trivial)
    rintro b env₁ ⟨hrestates, hfits₁, -⟩
    cases b with
    | cls c => exact trivial
    | value v =>
      simp only [Answer.get, gives_pure, gives_typeOf, gives_check, gives_store]
      refine ⟨fun u _ => ⟨fun w hw => ?_, fun _ _ => trivial⟩, fun _ _ => trivial⟩
      have hwfits := Value.fits_narrow hw
      exact predicted_update hrestates hfits₁ ha rfl hwfits (hrestates.declaredType id ▸ hwfits)

theorem predicts_increment (op : BinaryOp) (fix : Fixity) (x : String) :
    Predicts (.increment op fix (.simple x)) := by
  intro env hfits
  rw [Expr.eval, gives_bind]
  refine (place_gives x).mono ?_ (fun _ _ _ => trivial)
  rintro a _ ⟨rfl, ha⟩
  cases a with
  | cls c => exact trivial
  | var id =>
    simp only [Place.target, gives_bind, gives_pure, gives_typeOf]
    split
    · exact trivial
    · simp only [gives_bind, gives_ask, gives_check, gives_store, gives_pure]
      refine ⟨fun old hold => ⟨fun u _ => ⟨fun w hw => ?_, fun _ _ => trivial⟩, fun _ _ => trivial⟩,
        fun _ _ => trivial⟩
      have hwfits := Value.fits_narrow hw
      refine predicted_update (.refl _) hfits ha rfl hwfits ?_
      cases fix with
      | pre => exact hwfits
      | post => exact hfits.value hold

/-- The right operand is typed where the left one is evaluated, and evaluated where that has left its values. -/
theorem Predicts.binary (hl : Predicts l) (hr : Predicts r) (helementary : r.isElementary = true) {op : BinaryOp}
    (hand : op ≠ .and) (hor : op ≠ .or) : Predicts (.binary op l r) := by
  intro env hfits
  have hstrict : (Expr.binary op l r).eval = (do
      let a ← l.eval
      let v ← (← r.eval).get
      let u ← a.get
      return .value (← check (Value.binary op u v))) := by
    cases op <;> first | rfl | exact absurd rfl hand | exact absurd rfl hor
  rw [hstrict, gives_bind]
  refine (hl env hfits).mono ?_ (fun _ _ _ => trivial)
  intro a env₁ ha
  rw [gives_bind]
  refine (hr env₁ ha.fits).mono ?_ (fun _ _ _ => trivial)
  intro b env₂ hb
  cases b with
  | cls c => exact trivial
  | value v =>
    cases a with
    | cls c => exact trivial
    | value u =>
      simp only [Answer.get, gives_bind, gives_pure, gives_check]
      refine ⟨fun w hw => ⟨ha.restates.trans hb.restates, hb.fits, fun p hp => ⟨w, rfl, ?_⟩⟩, fun _ _ => trivial⟩
      obtain ⟨t, ht, hp⟩ := except_bind_eq_ok.mp hp
      obtain ⟨t', ht', hp⟩ := except_bind_eq_ok.mp hp
      rw [← staticType_eq ha.restates r helementary] at ht'
      exact binary_isOf hp (ha.isOf ht) (hb.isOf ht') hw

theorem Predicts.unary (he : Predicts e) (op : UnaryOp) : Predicts (.unary op e) := by
  intro env hfits
  rw [Expr.eval, gives_bind]
  refine (he _ hfits).mono ?_ (fun _ _ _ => trivial)
  intro a env₁ ha
  cases a with
  | cls c => exact trivial
  | value v =>
    simp only [Answer.get, gives_bind, gives_pure, gives_check]
    refine ⟨fun w hw => ⟨ha.restates, ha.fits, fun p hp => ⟨w, rfl, ?_⟩⟩, fun _ _ => trivial⟩
    obtain ⟨t, ht, hp⟩ := except_bind_eq_ok.mp hp
    exact unary_isOf hp (ha.isOf ht) hw

end Answers

/-- The answers of elementary expressions are predicted. -/
theorem predicts_of_isElementary : ∀ e : Expr, e.isElementary = true → Predicts e
  | .literal l, _ => predicts_literal l
  | .name (.simple x), _ => predicts_name x
  | .assign (.simple x) e, he => (predicts_of_isElementary e he).assign x
  | .compound op (.simple x) e, he => (predicts_of_isElementary e he).compound op x
  | .increment op fix (.simple x), _ => predicts_increment op fix x
  | .binary op l r, he => by
    simp only [Expr.isElementary, Bool.and_eq_true, bne_iff_ne] at he
    obtain ⟨⟨⟨hand, hor⟩, hl⟩, hr⟩ := he
    exact (predicts_of_isElementary l hl).binary (predicts_of_isElementary r hr) hr hand hor
  | .unary op e, he => (predicts_of_isElementary e he).unary op

theorem isCallFree_of_isElementary : ∀ e : Expr, e.isElementary = true → e.isCallFree = true
  | .literal _, _ | .name (.simple _), _ | .increment _ _ (.simple _), _ => rfl
  | .assign (.simple _) e, he | .compound _ (.simple _) e, he | .unary _ e, he =>
    isCallFree_of_isElementary e he
  | .binary _ l r, he => by
    simp only [Expr.isElementary, Bool.and_eq_true] at he
    rw [Expr.isCallFree, isCallFree_of_isElementary l he.1.2, isCallFree_of_isElementary r he.2]
    rfl

section Runs

variable {p : Program} {m : Machine} {e : Expr} {t : Primitive}

/-- In every state of a run, an elementary expression of a primitive static type is evaluated, within a number of
steps that the expression alone bounds, to a value of the kind of that type, or a step is faulty. -/
theorem static_types_predict_kinds (hm : Visited Natives.empty p m) (he : e.isElementary = true)
    (ht : m.registers.env.staticType e = .ok (.primitive t)) (natives : Natives) (K : List Item)
    (S : List StashItem) (out : List String) (steps : Nat) : ∃ n ≤ e.effort,
    (∃ v env', evaluate natives n ⟨⟨.expr e :: K, S, m.registers.env, out⟩, steps⟩ =
      .ok () ⟨⟨K, .value v :: S, env', out⟩, steps + n⟩ ∧ v.isOf t = true) ∨
    ∃ f m', evaluate natives n ⟨⟨.expr e :: K, S, m.registers.env, out⟩, steps⟩ = .error f m' := by
  have hfits : m.registers.env.Fits := (typed_of_visited hm).vars
  have hrun := (eval_refines e (isCallFree_of_isElementary e he) natives K S m.registers.env out steps).and
    (predicts_of_isElementary e he _ hfits)
  unfold Gives at hrun
  split at hrun
  · obtain ⟨⟨n, hn, -, hrun⟩, hpredicted⟩ := hrun
    obtain ⟨v, rfl, hv⟩ := hpredicted.kind t ht
    exact ⟨n, hn, .inl ⟨v, _, hrun, hv⟩⟩
  · obtain ⟨n, hn, -, m', hrun, -⟩ := hrun
    exact ⟨n, hn, .inr ⟨_, m', hrun⟩⟩

/-- In the middle of a run, `n++ * 'a'` is evaluated to a `long`. -/
theorem static_types_predict_kinds_product :
    let e : Expr := .binary .mul (.increment .add .post (.simple "n")) (.literal (.char 'a'))
    ∃ p m, Program.parse kindsSource = .ok p ∧ Visited Natives.empty p m ∧ e.isElementary = true ∧
      m.registers.env.staticType e = .ok (.primitive .long) ∧
      ∃ n v env', evaluate Natives.empty n ⟨⟨[.expr e], [], m.registers.env, []⟩, 0⟩ =
        .ok () ⟨⟨[], [.value v], env', []⟩, 0 + n⟩ ∧ v.isOf .long = true := by
  intro e
  have hrun : (sample? kindsSource 22).any (fun m => (m.registers.env.staticType e).toOption ==
      some (.primitive .long) && (after? Natives.empty e.effort
        ⟨⟨[.expr e], [], m.registers.env, []⟩, 0⟩).isSome) = true := by
    rw [sample?_eq_parseDecoded?]
    decide +kernel
  obtain ⟨m, hm, hrun⟩ := (Option.any_eq_true _ _).mp hrun
  obtain ⟨p, hp, hreached⟩ := exists_of_sample? hm
  simp only [Bool.and_eq_true, beq_iff_eq, Option.isSome_iff_exists] at hrun
  obtain ⟨htype, m₁, hdone⟩ := hrun
  have htype := eq_ok_of_toOption htype
  refine ⟨p, m, hp, .inl hreached, rfl, htype, ?_⟩
  obtain ⟨n, hn, ⟨v, env', hok, hv⟩ | ⟨f, m', herror⟩⟩ :=
    static_types_predict_kinds (.inl hreached) (e := e) rfl htype Natives.empty [] [] [] 0
  · exact ⟨n, v, env', hok, hv⟩
  · -- the whole run has no fault
    obtain ⟨k, hk⟩ := Nat.exists_eq_add_of_le hn
    rw [after?_eq_some, hk, evaluate_add, herror] at hdone
    cases hdone

end Runs

end StashMachine
