import StashMachine.Proofs.Descent
import StashMachine.Proofs.Evaluator

/-!
# StashMachine.Proofs.Refinement — the machine refines the evaluator

* `Above natives h k m`: from `m` on, control has more than `h` items before each of the next `k` steps.
* `Refines n given c x put`: with the items `given` on top of the stash, the items `c` on control do within `n`
  steps what the evaluation `x` does, whatever lies below on both stacks, and control is above what lies below
  until they are done.
* `Refines.seq`, `Refines.expand`, `Refines.frame`, …: one rule for each way items are put together.
* `Step.Does`: the same for an item that takes one step.
* `expression_refines`: the machine evaluates an expression without calls as the evaluator does.
* `exists_answer_of_until`: and if it comes down to the items below, then with the answer of the evaluator.
-/

namespace StashMachine

open Environment Step Evaluation Machine

/-- The item `i` does in one step what `x` does.  It takes `given` off the stash and puts `put a` there. -/
def Step.Does {α : Type} (given : List StashItem) (i : Item) (x : Evaluation α) (put : α → List StashItem) :
    Prop :=
  ∀ natives K S env out, x.Gives env
    (fun a env' => Ends (perform natives i) ⟨K, given ++ S, env, out⟩
      (fun _ r => r = ⟨K, put a ++ S, env', out⟩) (fun _ _ => False))
    (fun e env' => Ends (perform natives i) ⟨K, given ++ S, env, out⟩
      (fun _ _ => False) (fun e' r => e' = e ∧ r.env = env'))

/-- From `m` on, control has more than `h` items before each of the next `k` steps. -/
def Machine.Above (natives : Natives) (h k : Nat) (m : Machine) : Prop :=
  ∀ j < k, ∀ m', evaluate natives j m = .ok () m' → h < m'.height

/-- The items `c` do within `n` steps what `x` does.  They take `given` off the stash and put `put a` there, and
the items below them stay where they are. -/
def Refines {α : Type} (n : Nat) (given : List StashItem) (c : List Item) (x : Evaluation α)
    (put : α → List StashItem) : Prop :=
  ∀ natives K S env out steps, x.Gives env
    (fun a env' => ∃ k ≤ n, Above natives K.length k ⟨⟨c ++ K, given ++ S, env, out⟩, steps⟩ ∧
      evaluate natives k ⟨⟨c ++ K, given ++ S, env, out⟩, steps⟩ = .ok () ⟨⟨K, put a ++ S, env', out⟩, steps + k⟩)
    (fun e env' => ∃ k ≤ n, Above natives K.length k ⟨⟨c ++ K, given ++ S, env, out⟩, steps⟩ ∧
      ∃ m, evaluate natives k ⟨⟨c ++ K, given ++ S, env, out⟩, steps⟩ = .error e m ∧ m.registers.env = env')

section Above

variable {natives : Natives} {h h' k k' : Nat} {m m' m₁ : Machine} {f : Fault}

theorem next_of_lt_height (hm : h < m.height) (hfirst : evaluate natives 1 m = .ok () m₁) : Next natives m m₁ := by
  refine ⟨?_, hfirst⟩
  rw [isFinished, List.isEmpty_eq_false_iff]
  exact List.ne_nil_of_length_pos (Nat.zero_lt_of_lt hm)

theorem above_zero : Above natives h 0 m := fun _ hj => absurd hj (Nat.not_lt_zero _)

theorem above_one (hm : h < m.height) : Above natives h 1 m := by
  intro j hj m' hrun
  obtain rfl := Nat.lt_one_iff.mp hj
  cases hrun
  exact hm

theorem Machine.Above.mono (ha : Above natives h k m) (hh : h' ≤ h) : Above natives h' k m :=
  fun j hj m' hrun => Nat.lt_of_le_of_lt hh (ha j hj m' hrun)

theorem Machine.Above.add (ha : Above natives h k m) (hrun : evaluate natives k m = .ok () m₁)
    (ha' : Above natives h k' m₁) : Above natives h (k + k') m := by
  intro j hj m' hm'
  by_cases hjk : j < k
  · exact ha j hjk m' hm'
  · obtain ⟨i, rfl⟩ := Nat.exists_eq_add_of_le (Nat.le_of_not_lt hjk)
    rw [evaluate_add, hrun] at hm'
    exact ha' i (by omega) m' hm'

theorem Machine.Above.next (ha : Above natives h (k + 1) m) (hfirst : evaluate natives 1 m = .ok () m₁) :
    Above natives h k m₁ := by
  intro j hj m' hm'
  refine ha (j + 1) (Nat.succ_lt_succ hj) m' ?_
  rw [evaluate_succ, hfirst]
  exact hm'

/-- A run that stops with a fault above a height does so before it comes down to it. -/
theorem Machine.Above.fails (ha : Above natives h k m) (hm : h < m.height)
    (hrun : evaluate natives k m = .error f m') : Fails natives h f m m' := by
  induction k generalizing m with
  | zero => cases hrun
  | succ k ih =>
    rw [evaluate_succ] at hrun
    cases hfirst : evaluate natives 1 m with
    | ok _ m₁ =>
      rw [hfirst] at hrun
      have hk : 0 < k := Nat.pos_of_ne_zero (by rintro rfl; cases hrun)
      have hm₁ := ha 1 (Nat.succ_lt_succ hk) m₁ hfirst
      exact .next (next_of_lt_height hm hfirst) hm₁ (ih (ha.next hfirst) hm₁ hrun)
    | error e m₁ =>
      rw [hfirst] at hrun
      cases hrun
      exact .here hfirst

/-- A run that has been above a height comes down to it for the first time. -/
theorem Machine.Above.until (ha : Above natives h k m) (hm : h < m.height)
    (hrun : evaluate natives k m = .ok () m') (hm' : m'.height ≤ h) : Until natives h m m' := by
  induction k generalizing m with
  | zero =>
    cases hrun
    exact absurd hm (Nat.not_lt_of_le hm')
  | succ k ih =>
    rw [evaluate_succ] at hrun
    cases hfirst : evaluate natives 1 m with
    | ok _ m₁ =>
      rw [hfirst] at hrun
      have hnext := next_of_lt_height hm hfirst
      by_cases hlow : m₁.height ≤ h
      · -- there is no further step, for control is down already
        obtain rfl : k = 0 := Nat.eq_zero_of_not_pos (fun hk =>
          absurd (ha 1 (Nat.succ_lt_succ hk) m₁ hfirst) (Nat.not_lt_of_le hlow))
        cases hrun
        exact .last hnext hm'
      · exact .next hnext (Nat.lt_of_not_le hlow) (ih (ha.next hfirst) (Nat.lt_of_not_le hlow) hrun)
    | error e m₁ =>
      rw [hfirst] at hrun
      cases hrun

end Above

section Rules

variable {α β : Type} {n n' : Nat} {given given' : List StashItem} {c c' : List Item} {i : Item}
  {x : Evaluation α} {put : α → List StashItem}

theorem Refines.mono (h : Refines n given c x put) (hn : n ≤ n') : Refines n' given c x put := by
  intro natives K S env out steps
  refine (h natives K S env out steps).mono ?_ ?_
  · rintro a env' ⟨k, hk, hrun⟩
    exact ⟨k, Nat.le_trans hk hn, hrun⟩
  · rintro e env' ⟨k, hk, hfault⟩
    exact ⟨k, Nat.le_trans hk hn, hfault⟩

/-- What lies on the stash stays there. -/
theorem Refines.frame (h : Refines n [] c x put) (given : List StashItem) :
    Refines n given c x (fun a => put a ++ given) := by
  intro natives K S env out steps
  refine (h natives K (given ++ S) env out steps).mono ?_ (fun _ _ hrun => hrun)
  rintro a env' ⟨k, hk, habove, hrun⟩
  refine ⟨k, hk, habove, ?_⟩
  rw [List.append_assoc]
  exact hrun

/-- Nothing to do. -/
theorem refines_pure (a : α) (hput : put a = given) : Refines 0 given [] (pure a) put := by
  intro natives K S env out steps
  rw [gives_pure, hput]
  exact ⟨0, Nat.le_refl _, above_zero, rfl⟩

/-- One list of items after another does one evaluation after another.  What is known of the results of the
first may be used for the second. -/
theorem Refines.seq_of {P : α → Prop} {f : α → Evaluation β} {put' : β → List StashItem}
    (h : Refines n given c x put) (hx : ∀ env, x.Gives env (fun a _ => P a) (fun _ _ => True))
    (hf : ∀ a, P a → Refines n' (put a) c' (f a) put') : Refines (n + n') given (c ++ c') (x >>= f) put' := by
  intro natives K S env out steps
  have hlow : K.length ≤ (c' ++ K).length := by simp
  rw [gives_bind]
  refine ((h natives (c' ++ K) S env out steps).and (hx env)).mono ?_ ?_
  · rintro a env₁ ⟨⟨k, hk, habove, hrun⟩, ha⟩
    rw [← List.append_assoc] at hrun habove
    replace habove := habove.mono hlow
    refine (hf a ha natives K S env₁ out (steps + k)).mono ?_ ?_
    · rintro b env' ⟨k', hk', habove', hrun'⟩
      refine ⟨k + k', by omega, habove.add hrun habove', ?_⟩
      rw [evaluate_add, hrun, ← Nat.add_assoc]
      exact hrun'
    · rintro e env' ⟨k', hk', habove', m, hrun', hm⟩
      refine ⟨k + k', by omega, habove.add hrun habove', m, ?_, hm⟩
      rw [evaluate_add, hrun]
      exact hrun'
  · rintro e env' ⟨k, hk, habove, m, hrun, hm⟩
    rw [← List.append_assoc] at hrun habove
    exact ⟨k, by omega, habove.mono hlow, m, hrun, hm⟩

theorem Refines.seq {f : α → Evaluation β} {put' : β → List StashItem} (h : Refines n given c x put)
    (hf : ∀ a, Refines n' (put a) c' (f a) put') : Refines (n + n') given (c ++ c') (x >>= f) put' :=
  h.seq_of (P := fun _ => True) (fun _ => gives_of_forall (fun _ _ => trivial) (fun _ _ => trivial))
    (fun a _ => hf a)

/-- The result may be turned into another one that is shown in the same way. -/
theorem Refines.map {put' : β → List StashItem} (h : Refines n given c x put) (f : α → β)
    (hput : ∀ a, put' (f a) = put a) : Refines n given c (do return f (← x)) put' := by
  have hseq : Refines (n + 0) given (c ++ []) (x >>= fun a => pure (f a)) put' :=
    h.seq (fun a => refines_pure (f a) (hput a))
  simpa using hseq

theorem Step.Does.refines (h : Does given i x put) : Refines 1 given [i] x put := by
  intro natives K S env out steps
  have habove : Above natives K.length 1 ⟨⟨[i] ++ K, given ++ S, env, out⟩, steps⟩ :=
    above_one (Nat.lt_succ_self _)
  refine (h natives K S env out).mono ?_ ?_
  · intro a env' hends
    refine ⟨1, Nat.le_refl _, habove, ?_⟩
    rw [List.singleton_append, evaluate_one_cons]
    unfold Ends at hends
    split at hends
    · rename_i r hperform
      rw [hperform, hends]
    · cases hends
  · intro e env' hends
    unfold Ends at hends
    split at hends
    · cases hends
    · rename_i e' r hperform
      obtain ⟨rfl, henv⟩ := hends
      refine ⟨1, Nat.le_refl _, habove, ⟨r, steps⟩, ?_, henv⟩
      rw [List.singleton_append, evaluate_one_cons, hperform]

/-- An item that takes what is given, and is replaced by others. -/
theorem Refines.expand (h : Refines n given' c x put) (hi : ∀ natives K S env out,
    perform natives i ⟨K, given ++ S, env, out⟩ = .ok () ⟨c ++ K, given' ++ S, env, out⟩) :
    Refines (n + 1) given [i] x put := by
  intro natives K S env out steps
  have hfirst : evaluate natives 1 ⟨⟨[i] ++ K, given ++ S, env, out⟩, steps⟩ =
      .ok () ⟨⟨c ++ K, given' ++ S, env, out⟩, steps + 1⟩ := by
    rw [List.singleton_append, evaluate_one_cons, hi]
  have habove₁ : Above natives K.length 1 ⟨⟨[i] ++ K, given ++ S, env, out⟩, steps⟩ :=
    above_one (Nat.lt_succ_self _)
  refine (h natives K S env out (steps + 1)).mono ?_ ?_
  · rintro a env' ⟨k, hk, habove, hrun⟩
    refine ⟨1 + k, by omega, habove₁.add hfirst habove, ?_⟩
    rw [evaluate_add, hfirst, ← Nat.add_assoc]
    exact hrun
  · rintro e env' ⟨k, hk, habove, m, hrun, hm⟩
    refine ⟨1 + k, by omega, habove₁.add hfirst habove, m, ?_, hm⟩
    rw [evaluate_add, hfirst]
    exact hrun

end Rules

/-! ### Fields -/

/-- The step that does what an evaluation does, and leaves both stacks alone. -/
def Evaluation.lift {α : Type} (x : Evaluation α) : Step α := fun r =>
  match x r.env with
  | .ok a env => .ok a { r with env := env }
  | .error e env => .error e { r with env := env }

section Lift

variable {α β : Type}

@[simp] theorem lift_ask (f : Environment → Except Fault α) : (Evaluation.ask f).lift = Step.ask f := by
  funext r
  show (Evaluation.ask f).lift r = Step.ofExcept (f r.env) r
  unfold lift Evaluation.ask
  cases f r.env <;> rfl

@[simp] theorem lift_bind (x : Evaluation α) (f : α → Evaluation β) :
    (x >>= f).lift = x.lift >>= fun a => (f a).lift := by
  funext r
  simp only [lift, bind, EStateM.bind]
  cases x r.env <;> rfl

@[simp] theorem lift_allocate (v : Variable) : (Evaluation.allocate v).lift = fresh v := by
  funext r
  show (.ok r.env.vars.size { r with env := r.env.allocate v } : EStateM.Result _ _ _) =
    .ok (r.env.allocate v).newestVariable { r with env := r.env.allocate v }
  rw [newestVariable_allocate]

/-- A step that asks the environment and goes on from what it finds there. -/
theorem ask_eq (f : Environment → Except Fault α) (r : Registers) :
    Step.ask f r = Step.ofExcept (f r.env) r := rfl

theorem lift_get_bind (f : Environment → Evaluation α) (g : α → Step β) (r : Registers) :
    ((get >>= f : Evaluation α).lift >>= g) r = ((f r.env).lift >>= g) r := rfl

theorem pop_bind (f : StashItem → Step α) (i : StashItem) (K : List Item) (S : List StashItem)
    (env : Environment) (out : List String) :
    (pop >>= f) ⟨K, i :: S, env, out⟩ = f i ⟨K, S, env, out⟩ := rfl

theorem staticField_eq (c : Class) (x : String) :
    Step.staticField c x = (Evaluation.ask (staticPlace c x)).lift := by
  rw [lift_ask]
  funext r
  rw [ask_eq]
  unfold Step.staticField staticPlace
  cases c.findField? x with
  | none => rfl
  | some info =>
    by_cases hstatic : info.isStatic = true
    · simp only [hstatic, Bool.not_true, Bool.false_eq_true, if_false, if_true]
      simp only [get_bind, ownVariable?, bound?]
      cases (r.env.frame info.owner.frame).get? x with
      | none => rfl
      | some b => cases b <;> rfl
    · simp only [hstatic, Bool.not_false, if_true]
      rfl

theorem instanceField_eq (v : Variable) (x : String) :
    instanceField v.name v.value x = (Evaluation.ask (objectPlace v x)).lift := by
  rw [lift_ask]
  funext r
  rw [ask_eq]
  unfold instanceField objectPlace
  cases v.value with
  | none => rfl
  | some w =>
    cases w with
    | object d f =>
      simp only [get_bind, bound?]
      cases (r.env.frame f).get? x with
      | none => rfl
      | some b => cases b <;> rfl
    | _ => rfl

theorem arrayLength_eq (v : Variable) (x : String) :
    arrayLength v.name x v.value = (lengthPlace v x).lift := by
  unfold arrayLength lengthPlace
  by_cases hx : x = "length"
  · rw [if_pos hx, decide_eq_true hx]
    cases v.value with
    | none => rfl
    | some w =>
      cases w with
      | array id t elements => exact (lift_allocate _).symm
      | _ => rfl
  · rw [if_neg hx, decide_eq_false hx]
    rfl

theorem fieldOf_eq (v : Variable) (x : String) :
    fieldOf v.name v.type v.value x = (fieldPlace v x).lift := by
  unfold fieldOf fieldPlace
  cases v.type with
  | array t => exact arrayLength_eq v x
  | primitive p => rfl
  | named d | void | null =>
    simp only [lift_bind, lift_ask]
    congr 1
    funext c
    cases c.findField? x with
    | none => rfl
    | some info =>
      by_cases hstatic : info.isStatic = true
      · simp only [if_pos hstatic]
        exact staticField_eq c x
      · simp only [if_neg hstatic]
        exact instanceField_eq v x

/-- A field of a place is found and left. -/
theorem select_eq (x : String) (a : Place) (K : List Item) (S : List StashItem) (env : Environment)
    (out : List String) : select x ⟨K, a.item :: S, env, out⟩ =
      ((a.field x).lift >>= fun id => push (.var id)) ⟨K, S, env, out⟩ := by
  cases a with
  | cls c =>
    show (Step.staticField c x >>= fun id => push (.var id)) ⟨K, S, env, out⟩ = _
    rw [staticField_eq]
    rfl
  | var y =>
    rw [select, pop_bind, Place.field, lift_get_bind]
    simp only [Place.item, get_bind]
    cases env.var? y with
    | none => rfl
    | some v =>
      simp only [fieldOf_eq]

end Lift

/-! ### Names -/

/-- What a place puts on the stash. -/
abbrev Place.items (a : Place) : List StashItem := [a.item]

/-- What an answer puts on the stash. -/
abbrev Answer.items (a : Answer) : List StashItem := [a.item]

theorem find_simple_does (x : String) :
    Does [] (.find (.simple x)) (Evaluation.ask (findPlace x)) Place.items := by
  intro natives K S env out
  simp only [gives_ask, perform, find, ends_bind, ends_ask, findPlace]
  cases env.findName x with
  | error e => simp
  | ok b => cases b <;> simp [Place.item]

theorem select_does (x : String) (a : Place) :
    Does a.items (.select x) (a.field x) (fun id => (Place.var id).items) := by
  intro natives K S env out
  unfold Gives Ends
  simp only [perform, List.singleton_append, select_eq, lift, bind, EStateM.bind]
  cases (a.field x) env with
  | ok id env' => rfl
  | error e env' => exact ⟨rfl, rfl⟩

theorem find_refines (p : Path) : Refines p.effort [] [.find p] p.place Place.items := by
  induction p with
  | simple x => exact (find_simple_does x).refines
  | field p x ih =>
    have hselect : ∀ a : Place, Refines 1 a.items [.select x] (do return .var (← a.field x)) Place.items :=
      fun a => (select_does x a).refines.map Place.var (fun _ => rfl)
    have hseq : Refines (p.effort + 1) [] ([Item.find p] ++ [Item.select x]) _ Place.items := ih.seq hselect
    exact hseq.expand (fun _ _ _ _ _ => rfl)

theorem deref_does (a : Place) : Does a.items .deref a.read Answer.items := by
  intro natives K S env out
  cases a with
  | var x =>
    simp only [perform, deref, Place.read, Place.item, Answer.item, gives_bind, gives_ask, gives_pure,
      List.singleton_append, ends_bind, ends_pop, ends_ask, ends_pushValue]
    cases env.value x <;> simp
  | cls c => simp [perform, deref, Place.read, Place.item, Answer.item]

theorem name_refines (p : Path) :
    Refines (p.effort + 1) [] [.find p, .deref] (p.place >>= Place.read) Answer.items :=
  (find_refines p).seq (fun a => (deref_does a).refines)

/-! ### Updates -/

theorem assign_does (a : Place) (b : Answer) : Does (b.items ++ a.items) .assign (do
    let v ← b.get
    let x ← a.target
    let v ← check (v.coerce (← Evaluation.typeOf x))
    store x v
    return .value v) Answer.items := by
  intro natives K S env out
  cases b with
  | cls c => simp [perform, Step.assign, Answer.item, Answer.get]
  | value v =>
    cases a with
    | cls c => simp [perform, Step.assign, Answer.item, Answer.get, Place.item, Place.target]
    | var x =>
      simp only [perform, Step.assign, Answer.item, Answer.get, Place.item, Place.target,
        gives_bind, gives_pure, gives_typeOf, gives_check, gives_store, List.cons_append, List.nil_append,
        ends_bind, ends_popValue_value, ends_popTarget_var, ends_typeOfVar, ends_ofExcept, ends_changeEnv,
        ends_pushValue]
      cases v.coerce (((env.var? x).map Variable.type).getD .void) <;> simp

theorem load_does (a : Place) : Does a.items .load (do
    let x ← a.target
    return (x, ← Evaluation.ask (fun env => env.value x))) (fun xv => [.value xv.2, .var xv.1]) := by
  intro natives K S env out
  cases a with
  | cls c => simp [perform, load, Place.item, Place.target, StashItem.text]
  | var x =>
    simp only [perform, load, Place.item, Place.target, gives_bind, gives_pure, gives_ask,
      List.singleton_append, ends_bind, ends_get, ends_ask, ends_pushValue]
    cases env.value x <;> simp

theorem compoundAssign_does (op : BinaryOp) (x : VarId) (old : Value) (b : Answer) :
    Does (b.items ++ [.value old, .var x]) (.compoundAssign op) (do
      let v ← b.get
      let v ← check (Value.binary op old v)
      let v ← check (v.narrow (← Evaluation.typeOf x))
      store x v
      return .value v) Answer.items := by
  intro natives K S env out
  cases b with
  | cls c => simp [perform, compoundAssign, Answer.item, Answer.get]
  | value v =>
    simp only [perform, compoundAssign, Answer.item, Answer.get,
        gives_bind, gives_pure, gives_typeOf, gives_check, gives_store, List.cons_append, List.nil_append,
        ends_bind, ends_popValue_value, ends_popTarget_var, ends_typeOfVar, ends_ofExcept, ends_changeEnv,
        ends_pushValue]
    cases Value.binary op old v with
    | error e => simp
    | ok w =>
      simp only [Except.ok.injEq]
      cases w.narrow (((env.var? x).map Variable.type).getD .void) <;> simp_all

theorem increment_does (op : BinaryOp) (fix : Fixity) (a : Place) : Does a.items (.increment op fix) (do
    let x ← a.target
    let t ← Evaluation.typeOf x
    if t.isNumeric = false then throw (.typeMismatch (.step op t))
    let old ← Evaluation.ask (fun env => env.value x)
    let v ← check (Value.binary op old (.int 1))
    let v ← check (v.narrow t)
    store x v
    return .value (match fix with
      | .pre => v
      | .post => old)) Answer.items := by
  intro natives K S env out
  cases a with
  | cls c => simp [perform, increment, Place.item, Place.target]
  | var x =>
    simp only [perform, increment, Place.item, Place.target, Answer.item, gives_bind, gives_pure, gives_typeOf,
      List.singleton_append, ends_bind, ends_popTarget_var, ends_typeOfVar]
    generalize ((env.var? x).map Variable.type).getD .void = t
    by_cases ht : t.isNumeric = true
    · simp only [ht, Bool.true_eq_false, Bool.not_true, Bool.false_eq_true, if_false, gives_bind, gives_ask, gives_check,
        gives_store, gives_pure, ends_bind, ends_ask, ends_ofExcept, ends_changeEnv, ends_pushValue]
      cases env.value x with
      | error e => simp
      | ok old =>
        simp only [Except.ok.injEq]
        cases hv : Value.binary op old (.int 1) with
        | error e => simp [hv]
        | ok v =>
          cases hw : v.narrow t with
          | error e => simp [hv, hw]
          | ok w => cases fix <;> simp [hv, hw]
    · simp [ht]

theorem binary_does (op : BinaryOp) (a b : Answer) : Does (b.items ++ a.items) (.binary op) (do
    let v ← b.get
    let u ← a.get
    return .value (← check (Value.binary op u v))) Answer.items := by
  intro natives K S env out
  cases b with
  | cls c => simp [perform, Answer.item, Answer.get]
  | value v =>
    cases a with
    | cls c => simp [perform, Answer.item, Answer.get]
    | value u =>
      simp only [perform, Answer.item, Answer.get, gives_bind, gives_pure, gives_check, List.cons_append,
        List.nil_append, ends_bind, ends_popValue_value, ends_ofExcept, ends_pushValue]
      cases Value.binary op u v <;> simp

theorem unary_does (op : UnaryOp) (a : Answer) : Does a.items (.unary op) (do
    let v ← a.get
    return .value (← check (Value.unary op v))) Answer.items := by
  intro natives K S env out
  cases a with
  | cls c => simp [perform, Answer.item, Answer.get]
  | value v =>
    simp only [perform, Answer.item, Answer.get, gives_bind, gives_pure, gives_check,
      List.singleton_append, ends_bind, ends_popValue_value, ends_ofExcept, ends_pushValue]
    cases Value.unary op v <;> simp

/-! ### Arrays -/

theorem Answer.getAll_concat (as : List Answer) (a : Answer) :
    Answer.getAll (as ++ [a]) = do
      let v ← a.get
      let vs ← Answer.getAll as
      return vs ++ [v] := by
  induction as with
  | nil =>
    cases a <;> rfl
  | cons b as ih =>
    rw [List.cons_append, Answer.getAll, ih]
    cases a with
    | cls c => rfl
    | value v =>
      funext env
      simp only [Answer.get, Answer.getAll, pure_bind, bind_assoc, List.cons_append]

/-- Values are taken off the stash in the order in which answers are looked at. -/
theorem popMany_gives (as : List Answer) (taken : List Value) (K : List Item) (S : List StashItem)
    (env : Environment) (out : List String) : (Answer.getAll as.reverse).Gives env
    (fun vs env' => Ends (popMany popValue as.length taken) ⟨K, as.map Answer.item ++ S, env, out⟩
      (fun ws r => ws = vs ++ taken ∧ r = ⟨K, S, env', out⟩) (fun _ _ => False))
    (fun e env' => Ends (popMany popValue as.length taken) ⟨K, as.map Answer.item ++ S, env, out⟩
      (fun _ _ => False) (fun e' r => e' = e ∧ r.env = env')) := by
  induction as generalizing taken with
  | nil => simp [Answer.getAll, popMany]
  | cons a as ih =>
    rw [List.reverse_cons, Answer.getAll_concat]
    cases a with
    | cls c => simp [Answer.get, popMany, Answer.item]
    | value v =>
      simp only [Answer.get, pure_bind, gives_bind, gives_pure, List.length_cons, popMany, List.map_cons,
        Answer.item, List.cons_append, ends_bind, ends_popValue_value]
      refine (ih (v :: taken)).mono (fun vs env' h => ?_) (fun _ _ h => h)
      simpa using h

theorem arrayOf_does (t : TypeName) (as : List Answer) :
    Does (as.map Answer.item).reverse (.arrayOf t as.length) (do
      let vs ← Answer.getAll as
      let vs ← check (coerceAll t vs)
      return .value (← createArray t vs)) Answer.items := by
  intro natives K S env out
  have hpop := popMany_gives as.reverse [] K S env out
  simp only [List.reverse_reverse, List.length_reverse, List.map_reverse, List.append_nil] at hpop
  rw [gives_bind]
  refine hpop.mono (fun vs env' h => ?_) (fun e env' h => ?_)
  · simp only [gives_bind, gives_check, gives_createArray, gives_pure, perform, arrayOf, ends_bind, popValues]
    refine ⟨fun ws hws => h.mono ?_ (fun _ _ h => h), fun e he => h.mono ?_ (fun _ _ h => h.elim)⟩
    · rintro _ r ⟨rfl, rfl⟩
      simp [hws, Answer.item]
    · rintro _ r ⟨rfl, rfl⟩
      simp [he]
  · simp only [perform, arrayOf, ends_bind, popValues]
    exact h.mono (fun _ _ h => h.elim) (fun _ _ h => h)

/-! ### Expressions -/

/-- One of two lists of items goes on. -/
theorem branch_refines {n : Nat} {yes no : List Item} {x y : Evaluation Answer}
    (hyes : Refines n [] yes x Answer.items) (hno : Refines n [] no y Answer.items) (a : Answer) :
    Refines (n + 1) a.items [.branch yes no] (do if ← a.truth then x else y) Answer.items := by
  have hfault : ∀ e, (∀ env, a.truth env = .error e env) → (∀ natives K S env out,
      ∃ r, perform natives (.branch yes no) ⟨K, a.items ++ S, env, out⟩ = .error e r ∧ r.env = env) →
      Refines (n + 1) a.items [.branch yes no] (do if ← a.truth then x else y) Answer.items := by
    intro e htruth hperform
    have hdoes : Does a.items (.branch yes no) (do if ← a.truth then x else y) Answer.items := by
      intro natives K S env out
      rw [gives_bind]
      unfold Gives Ends
      rw [htruth]
      obtain ⟨r, hr, henv⟩ := hperform natives K S env out
      rw [hr]
      exact ⟨rfl, henv⟩
    exact hdoes.refines.mono (by omega)
  cases a with
  | cls c => exact hfault _ (fun _ => rfl) (fun _ _ _ _ _ => ⟨_, rfl, rfl⟩)
  | value v =>
    cases v with
    | boolean b =>
      cases b with
      | true => exact hyes.expand (fun _ _ _ _ _ => rfl)
      | false => exact hno.expand (fun _ _ _ _ _ => rfl)
    | _ => exact hfault _ (fun _ => rfl) (fun _ _ _ _ _ => ⟨_, rfl, rfl⟩)

theorem literal_refines (l : Literal) :
    Refines 1 [] [.expr (.literal l)] (pure (.value (.ofLiteral l))) Answer.items := by
  have hdoes : Does [] (.expr (.literal l)) (pure (.value (.ofLiteral l))) Answer.items := by
    intro natives K S env out
    simp [perform, Step.evaluate, Answer.item]
  exact hdoes.refines

/-- Every expression has one answer. -/
theorem gives_evalAll (es : List Expr) (env : Environment) :
    (Expr.evalAll es).Gives env (fun as _ => as.length = es.length) (fun _ _ => True) := by
  induction es generalizing env with
  | nil => rfl
  | cons e es ih =>
    simp only [Expr.evalAll, gives_bind, gives_pure]
    refine gives_of_forall (fun a env' => ?_) (fun _ _ => trivial)
    refine (ih env').mono (fun as _ h => ?_) (fun _ _ h => h)
    rw [List.length_cons, List.length_cons, h]

mutual

theorem eval_refines : ∀ (e : Expr), e.isCallFree = true → Refines e.effort [] [.expr e] e.eval Answer.items
  | .literal l, _ => literal_refines l
  | .void, _ => by
    have hdoes : Does [] (.expr .void) (pure (.value .void)) Answer.items := by
      intro natives K S env out
      simp [perform, Step.evaluate, Answer.item]
    exact hdoes.refines
  | .name p, _ => (name_refines p).expand (fun _ _ _ _ _ => rfl)
  | .assign p e, h => by
    have he := eval_refines e h
    have hseq : Refines (p.effort + (e.effort + 1)) [] ([Item.find p] ++ ([Item.expr e] ++ [Item.assign])) _
        Answer.items :=
      (find_refines p).seq (fun a => (he.frame a.items).seq (fun b => (assign_does a b).refines))
    exact (hseq.expand (fun _ _ _ _ _ => rfl)).mono (by rw [Expr.effort]; omega)
  | .compound op p e, h => by
    have he := eval_refines e h
    have hseq : Refines (p.effort + (1 + (e.effort + 1))) []
        ([Item.find p] ++ ([Item.load] ++ ([Item.expr e] ++ [Item.compoundAssign op]))) _ Answer.items :=
      (find_refines p).seq (fun a => (load_does a).refines.seq (fun xv =>
        (he.frame _).seq (fun b => (compoundAssign_does op xv.1 xv.2 b).refines)))
    simp only [bind_assoc, pure_bind] at hseq
    exact (hseq.expand (fun _ _ _ _ _ => rfl)).mono (by rw [Expr.effort]; omega)
  | .increment op fix p, _ => by
    have hseq : Refines (p.effort + 1) [] ([Item.find p] ++ [Item.increment op fix]) _ Answer.items :=
      (find_refines p).seq (fun a => (increment_does op fix a).refines)
    exact hseq.expand (fun _ _ _ _ _ => rfl)
  | .binary op l r, h => by
    rw [Expr.isCallFree, Bool.and_eq_true] at h
    have hl := eval_refines l h.1
    have hr := eval_refines r h.2
    have hbool : ∀ b, Refines (r.effort + 1) [] [.expr (.literal (.boolean b))]
        (pure (.value (.boolean b))) Answer.items :=
      fun b => (literal_refines (.boolean b)).mono (by omega)
    have hstrict : Refines (l.effort + r.effort + 2) [] [.expr l, .expr r, .binary op] (do
        let a ← l.eval
        let v ← (← r.eval).get
        let u ← a.get
        return .value (← check (Value.binary op u v))) Answer.items :=
      Refines.mono (hl.seq (fun a => (hr.frame a.items).seq (fun b => (binary_does op a b).refines))) (by omega)
    cases op with
    | and =>
      have hseq : Refines (l.effort + (r.effort + 1 + 1)) []
          ([Item.expr l] ++ [Item.branch [.expr r] [.expr (.literal (.boolean false))]]) _ Answer.items :=
        hl.seq (fun a => branch_refines (hr.mono (by omega)) (hbool false) a)
      exact (hseq.expand (fun _ _ _ _ _ => rfl)).mono (by rw [Expr.effort]; omega)
    | or =>
      have hseq : Refines (l.effort + (r.effort + 1 + 1)) []
          ([Item.expr l] ++ [Item.branch [.expr (.literal (.boolean true))] [.expr r]]) _ Answer.items :=
        hl.seq (fun a => branch_refines (hbool true) (hr.mono (by omega)) a)
      exact (hseq.expand (fun _ _ _ _ _ => rfl)).mono (by rw [Expr.effort]; omega)
    | _ => exact (hstrict.expand (fun _ _ _ _ _ => rfl)).mono (Nat.le_refl _)
  | .unary op e, h => by
    have he := eval_refines e h
    have hseq : Refines (e.effort + 1) [] ([Item.expr e] ++ [Item.unary op]) _ Answer.items :=
      he.seq (fun a => (unary_does op a).refines)
    exact hseq.expand (fun _ _ _ _ _ => rfl)
  | .array t es, h => by
    have hes := evalAll_refines es h
    have hseq : Refines (Expr.effortAll es + 1) [] (es.map .expr ++ [Item.arrayOf t es.length]) _ Answer.items :=
      hes.seq_of (gives_evalAll es) (fun as has => has ▸ (arrayOf_does t as).refines)
    exact hseq.expand (fun _ _ _ _ _ => rfl)
  | .call _ _, h => by cases h
  | .new _ _, h => by cases h

theorem evalAll_refines : ∀ (es : List Expr), Expr.areCallFree es = true →
    Refines (Expr.effortAll es) [] (es.map .expr) (Expr.evalAll es) (fun as => (as.map Answer.item).reverse)
  | [], _ => refines_pure [] rfl
  | e :: es, h => by
    rw [Expr.areCallFree, Bool.and_eq_true] at h
    have hes := evalAll_refines es h.2
    refine (eval_refines e h.1).seq (fun a => ?_)
    exact (hes.frame a.items).map (fun as => a :: as) (fun as => by simp)

end

/-- Whatever lies below on both stacks, an expression without calls takes a number of steps that the expression
alone bounds.  They leave what the evaluator answers, in the environment that it leaves, with control and stash
as they were below; or they stop with the fault that the evaluator stops with. -/
theorem expression_refines (natives : Natives) (e : Expr) (he : e.isCallFree = true) (K : List Item)
    (S : List StashItem) (env : Environment) (out : List String) (steps : Nat) : ∃ n ≤ e.effort,
    match e.eval env with
    | .ok a env' => evaluate natives n ⟨⟨.expr e :: K, S, env, out⟩, steps⟩ =
        .ok () ⟨⟨K, a.item :: S, env', out⟩, steps + n⟩
    | .error f env' => ∃ m, evaluate natives n ⟨⟨.expr e :: K, S, env, out⟩, steps⟩ = .error f m ∧
        m.registers.env = env' := by
  have hrefines := eval_refines e he natives K S env out steps
  unfold Gives at hrefines
  cases heval : e.eval env with
  | ok a env' =>
    rw [heval] at hrefines
    obtain ⟨n, hn, -, hrun⟩ := hrefines
    exact ⟨n, hn, hrun⟩
  | error f env' =>
    rw [heval] at hrefines
    obtain ⟨n, hn, -, hfault⟩ := hrefines
    exact ⟨n, hn, hfault⟩

/-- If a run comes down to what lies below an expression without calls, then with the answer of the evaluator. -/
theorem exists_answer_of_until {natives : Natives} {e : Expr} (he : e.isCallFree = true) {K : List Item} {m m' : Machine}
    (hc : m.registers.control = .expr e :: K) (hu : Until natives K.length m m') : ∃ a env',
      e.eval m.registers.env = .ok a env' ∧ m'.registers = ⟨K, a.item :: m.registers.stash, env', m.registers.output⟩ := by
  obtain ⟨⟨_, S, env, out⟩, steps⟩ := m
  obtain rfl := hc
  have hrefines := eval_refines e he natives K S env out steps
  have hhigh : K.length < (⟨⟨.expr e :: K, S, env, out⟩, steps⟩ : Machine).height := Nat.lt_succ_self _
  unfold Gives at hrefines
  split at hrefines
  · rename_i a env' heval
    obtain ⟨n, -, habove, hrun⟩ := hrefines
    refine ⟨a, env', heval, ?_⟩
    rw [hu.unique (habove.until hhigh hrun (Nat.le_refl _))]
    rfl
  · obtain ⟨n, -, habove, m, hrun, -⟩ := hrefines
    exact absurd hu (habove.fails hhigh hrun).not_until

/-- `y -= y = 3` subtracts the new value from the old one. -/
theorem expression_refines_twice :
    let y : Path := .simple "y"
    let e : Expr := .compound .sub y (.assign y (.literal (.int 3)))
    let env := Environment.initial.addVariable ⟨"y", .primitive .int, some (.int 10)⟩
    e.isCallFree = true ∧ ∃ n ≤ 8,
      evaluate Natives.empty n ⟨⟨[.expr e, .pop], [], env, []⟩, 0⟩ =
        .ok () ⟨⟨[.pop], [.value (.int 7)], env.assign 0 (.int 7), []⟩, 0 + n⟩ := by
  intro y e env
  refine ⟨rfl, ?_⟩
  obtain ⟨n, hn, hrun⟩ := expression_refines Natives.empty e rfl [.pop] [] env [] 0
  refine ⟨n, hn, ?_⟩
  have heval : e.eval env = .ok (.value (.int 7)) (env.assign 0 (.int 7)) := by rfl
  rw [heval] at hrun
  exact hrun

end StashMachine
