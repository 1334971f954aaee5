import StashMachine.Proofs.CallSteps
import StashMachine.Proofs.Descent

/-!
# StashMachine.Proofs.TypingSteps — typing by steps is typing by recursion

The machine types a dotted name segment by segment and the arguments of a call one after the other, with an item
of control for each; `staticType` recurs on the expression.

* `descends_typeOf`, `descends_typesOf`: what the items that type an expression and arguments come to.
* `ends_overload`: what selecting a method does.
* `Environment.selects`: the method that `staticType` selects for a call.
* `TypesTo`, `SelectsTo`: the types and methods that the machine finds, or the faults that stop it.
* `typing_steps_agree`: they are those of `staticType`.
-/

namespace StashMachine

open Environment Step Machine

section Typing

variable {natives : Natives} {h : Nat} {c : List Item} {s : List StashItem} {env : Environment}
  {out : List String} {Q : Registers → Prop} {F : Fault → Registers → Prop}

/-! ### Types -/

/-- A dotted name is typed segment by segment. -/
theorem descends_typeOf_name {q : Path} (hh : h ≤ c.length)
    (hok : ∀ t, env.pathType q = .ok t → Descends natives h ⟨c, .type t :: s, env, out⟩ Q F)
    (herror : ∀ f c' s', env.pathType q = .error f → F f ⟨c' ++ c, s' ++ s, env, out⟩) :
    Descends natives h ⟨.typeOf (.name q) :: c, s, env, out⟩ Q F := by
  induction q generalizing c s with
  | simple x =>
    refine descends_step hh ?_
    simp only [perform, Step.typeOf, ends_bind, ends_ask, ends_push]
    exact ⟨hok, fun f hf => herror f [] [] hf⟩
  | field q x ih =>
    refine descends_step hh ?_
    rw [perform, Step.typeOf, ends_schedule]
    refine ih (Nat.le_succ_of_le hh) (fun t ht => ?_) (fun f c' s' hf => ?_)
    · refine descends_step hh ?_
      simp only [perform, Step.typeOfField, ends_bind, ends_popType_type, ends_ask, ends_push]
      have hfield : env.pathType (.field q x) = env.fieldType t x := by rw [pathType, ht]; rfl
      exact ⟨fun u hu => hok u (hfield.trans hu), fun f hf => herror f [] [] (hfield.trans hf)⟩
    · -- the field that was to be typed next is left on control
      have hcontrol : c' ++ .typeOfField x :: c = (c' ++ [Item.typeOfField x]) ++ c := by simp
      show F f ⟨c' ++ .typeOfField x :: c, s' ++ s, env, out⟩
      rw [hcontrol]
      exact herror f _ s' (by rw [pathType, hf]; rfl)

/-- Whatever is not a name is typed in one step. -/
theorem descends_typeOf {e : Expr} (hh : h ≤ c.length)
    (hok : ∀ t, env.staticType e = .ok t → Descends natives h ⟨c, .type t :: s, env, out⟩ Q F)
    (herror : ∀ f c' s', env.staticType e = .error f → F f ⟨c' ++ c, s' ++ s, env, out⟩) :
    Descends natives h ⟨.typeOf e :: c, s, env, out⟩ Q F := by
  by_cases hname : ∃ q, e = .name q
  · obtain ⟨q, rfl⟩ := hname
    rw [staticType] at hok herror
    exact descends_typeOf_name hh hok herror
  · refine descends_step hh ?_
    rw [perform, Step.typeOf.eq_def]
    split
    · exact absurd ⟨_, rfl⟩ hname
    · exact absurd ⟨_, rfl⟩ hname
    · simp only [ends_bind, ends_ask, ends_push]
      exact ⟨hok, fun f hf => herror f [] [] hf⟩

/-- Arguments are typed from left to right, up to the first that has no type. -/
theorem descends_typesOf {es : List Expr} (hh : h ≤ c.length)
    (hok : ∀ ts, env.staticTypes es = .ok ts → ts.length = es.length →
      Descends natives h ⟨c, (ts.map StashItem.type).reverse ++ s, env, out⟩ Q F)
    (herror : ∀ f c' s', env.staticTypes es = .error f → F f ⟨c' ++ c, s' ++ s, env, out⟩) :
    Descends natives h ⟨es.map .typeOf ++ c, s, env, out⟩ Q F := by
  induction es generalizing s with
  | nil => exact hok [] rfl rfl
  | cons e es ih =>
    have hlength : h ≤ (es.map Item.typeOf ++ c).length := by
      rw [List.length_append]
      omega
    refine descends_typeOf (e := e) hlength (fun t ht => ih (fun ts hts hlen => ?_) (fun f c' s' hf => ?_))
      (fun f c' s' hf => ?_)
    · have htypes : env.staticTypes (e :: es) = .ok (t :: ts) := by
        rw [staticTypes, ht, hts]
        rfl
      have hrest := hok (t :: ts) htypes (by rw [List.length_cons, List.length_cons, hlen])
      rwa [List.map_cons, List.reverse_cons, List.append_assoc] at hrest
    · -- the types that were found are left on the stash
      have hstash : s' ++ .type t :: s = (s' ++ [StashItem.type t]) ++ s := by simp
      rw [hstash]
      exact herror f c' _ (by rw [staticTypes, ht, hf]; rfl)
    · show F f ⟨c' ++ (es.map Item.typeOf ++ c), s' ++ s, env, out⟩
      rw [← List.append_assoc]
      exact herror f _ s' (by rw [staticTypes, hf]; rfl)

/-! ### Selection -/

theorem ends_popTypes_map {Q : List TypeName → Registers → Prop} {F : Fault → Registers → Prop}
    (ts : List TypeName) (hQ : Q ts ⟨c, s, env, out⟩) :
    Ends (popTypes ts.length) ⟨c, (ts.map StashItem.type).reverse ++ s, env, out⟩ Q F := by
  have hlen : (ts.map StashItem.type).reverse.length = ts.length := by simp
  rw [← hlen]
  refine ends_popMany .type (P := fun i => ∃ t, i = .type t) ?_ ?_ [] (fun as has => ?_)
  · rintro i rest Q' ⟨t, rfl⟩ hQ'
    rw [ends_popType_type]
    exact hQ' t rfl
  · intro i hi
    obtain ⟨t, -, rfl⟩ := List.mem_map.mp (List.mem_reverse.mp hi)
    exact ⟨t, rfl⟩
  · rw [List.reverse_reverse] at has
    have hinj : Function.Injective StashItem.type := fun t u htu => by cases htu; rfl
    rw [List.append_nil, List.map_injective_iff.mpr hinj has]
    exact hQ

/-- The items that find the receiver of a call. -/
def receiverItems (q : Path) : List Item :=
  .expr (.name q) :: if q = .simple superName then [] else [.override]

/-- The method of a call is selected by the static types.  A static one is invoked as it is; for any other the
receiver is found first. -/
theorem ends_overload {x : String} {q : Path} {args : List Expr} {K : List Item} {t : TypeName}
    {ts : List TypeName} {Q : Unit → Registers → Prop} (hlen : ts.length = args.length)
    (hstatic : ∀ k, env.resolveMethod t x ts = .ok k → k.callable.isStatic = true →
      Q () ⟨args.map .expr ++ .invoke args.length :: K, .closure k :: s, env, out⟩)
    (hinstance : ∀ k, env.resolveMethod t x ts = .ok k → k.callable.isStatic = false →
      Q () ⟨receiverItems q ++ (args.map .expr ++ .invoke (args.length + 1) :: K), .closure k :: s, env, out⟩)
    (herror : ∀ f, env.resolveMethod t x ts = .error f →
      F f ⟨args.map .expr ++ .invoke args.length :: K, s, env, out⟩) :
    Ends (perform natives (.overload x args.length q)) ⟨args.map .expr ++ .invoke args.length :: K,
      (ts.map StashItem.type).reverse ++ .type t :: s, env, out⟩ Q F := by
  rw [perform, Step.overload, ends_bind]
  rw [← hlen] at hstatic hinstance herror ⊢
  refine ends_popTypes_map ts ?_
  simp only [ends_bind, ends_popType_type, ends_ask, ends_push, ends_ite, ends_pure]
  refine ⟨fun k hk => ⟨hstatic k hk, fun hk' => ?_⟩, herror⟩
  rw [hlen] at hinstance ⊢
  simp only [ends_get, addReceiver?_exprs, ends_bind, ends_set, ends_schedule]
  exact hinstance k hk (by simpa using hk')

end Typing

/-- The method that the static types of a qualifier and of arguments select. -/
def Environment.selects (env : Environment) (q : Path) (x : String) (args : List Expr) :
    Except Fault Closure := do
  let t ← env.pathType q
  let ts ← env.staticTypes args
  env.resolveMethod t x ts

theorem staticType_call (env : Environment) (q : Path) (x : String) (args : List Expr) :
    env.staticType (.call (.field q x) args) = (env.selects q x args).map (fun k => k.callable.result) := by
  rw [staticType, selects]
  cases env.pathType q with
  | error f => rfl
  | ok t =>
    cases env.staticTypes args with
    | error f => rfl
    | ok ts =>
      show (env.resolveMethod t x ts >>= fun k => pure k.callable.result) =
        (env.resolveMethod t x ts).map (fun k => k.callable.result)
      cases env.resolveMethod t x ts <;> rfl

/-- What a call queues for its arguments and its invocation. -/
def callItems (args : List Expr) (K : List Item) : List Item :=
  args.map .expr ++ .invoke args.length :: K

section Call

variable {natives : Natives} {q : Path} {x : String} {args : List Expr} {K : List Item} {S : List StashItem}
  {env : Environment} {out : List String} {Q : Registers → Prop} {F : Fault → Registers → Prop}

/-- A call queues its typing in front of the items below. -/
theorem next_call (steps : Nat) : Next natives ⟨⟨.expr (.call (.field q x) args) :: K, S, env, out⟩, steps⟩
    ⟨⟨.typeOf (.name q) :: (args.map .typeOf ++ .overload x args.length q :: callItems args K), S, env, out⟩,
      steps + 1⟩ := by
  have hcontrol : Item.typeOf (.name q) :: (args.map .typeOf ++ Item.overload x args.length q :: callItems args K) =
      (Item.typeOf (.name q) :: args.map .typeOf ++ Item.overload x args.length q :: args.map .expr ++
        [Item.invoke args.length]) ++ K := by
    simp [callItems]
  rw [hcontrol]
  exact next_iff.mpr ⟨_, _, rfl, rfl, rfl⟩

/-- The qualifier and the arguments of a call are typed before its method is selected. -/
theorem descends_selects {h : Nat} (hh : h ≤ (callItems args K).length + 1)
    (hok : ∀ t ts, env.selects q x args = env.resolveMethod t x ts → ts.length = args.length →
      Descends natives h ⟨.overload x args.length q :: callItems args K,
        (ts.map StashItem.type).reverse ++ .type t :: S, env, out⟩ Q F)
    (herror : ∀ f c s, env.selects q x args = .error f → F f ⟨c ++ K, s ++ S, env, out⟩) :
    Descends natives h ⟨.typeOf (.name q) :: (args.map .typeOf ++ .overload x args.length q ::
      callItems args K), S, env, out⟩ Q F := by
  have hbelow : ∀ (c' : List Item) , ∃ c, c' ++ Item.overload x args.length q :: callItems args K = c ++ K := by
    intro c'
    exact ⟨c' ++ Item.overload x args.length q :: (args.map .expr ++ [Item.invoke args.length]), by simp [callItems]⟩
  refine descends_typeOf_name ?_ (fun t ht => ?_) (fun f c' s' hf => ?_)
  · rw [List.length_append, List.length_cons]
    omega
  · refine descends_typesOf hh (fun ts hts hlen => hok t ts ?_ hlen) (fun f c' s' hf => ?_)
    · rw [selects, ht, hts]
      rfl
    · obtain ⟨c, hc⟩ := hbelow c'
      have hstash : s' ++ .type t :: S = (s' ++ [StashItem.type t]) ++ S := by simp
      rw [hc, hstash]
      exact herror f c _ (by rw [selects, ht, hf]; rfl)
  · obtain ⟨c, hc⟩ := hbelow (c' ++ args.map .typeOf)
    rw [← List.append_assoc, hc]
    exact herror f c s' (by rw [selects, hf]; rfl)

end Call

/-! ### Agreement -/

/-- A fault `f` stops the run from `m` before control is down to `h` items.  `K` and `S` are still at the bottom
of the stacks, and environment and output are as they were. -/
def Machine.FailsOver (natives : Natives) (h : Nat) (f : Fault) (K : List Item) (S : List StashItem)
    (m : Machine) : Prop :=
  ∃ m' c s, Fails natives h f m m' ∧ m'.registers = ⟨c ++ K, s ++ S, m.registers.env, m.registers.output⟩

/-- If `x` is a type, the run from `m` leaves it when control is back at `K`, and changes nothing else; if `x` is a
fault, it stops the run before. -/
def Machine.TypesTo (natives : Natives) (m : Machine) (K : List Item) (S : List StashItem)
    (x : Except Fault TypeName) : Prop :=
  (∀ t, x = .ok t → ∃ m', Until natives K.length m m' ∧
    m'.registers = ⟨K, .type t :: S, m.registers.env, m.registers.output⟩) ∧
  ∀ f, x = .error f → FailsOver natives K.length f K S m

/-- If `y` is a closure, the run from `m` comes to the selection of the method of a call, which leaves it in place
of the types that it is selected by, and changes nothing else but control; if `y` is a fault, it stops the run, in
the selection at the latest. -/
def Machine.SelectsTo (natives : Natives) (m : Machine) (q : Path) (x : String) (args : List Expr)
    (K : List Item) (S : List StashItem) (y : Except Fault Closure) : Prop :=
  (∀ k, y = .ok k → ∃ m₁ m₂, Until natives ((callItems args K).length + 1) m m₁ ∧
    m₁.registers.control = .overload x args.length q :: callItems args K ∧ Next natives m₁ m₂ ∧
    m₂.registers.stash = .closure k :: S ∧ m₂.registers.env = m.registers.env ∧
    m₂.registers.output = m.registers.output) ∧
  ∀ f, y = .error f → FailsOver natives (callItems args K).length f K S m

section Agreement

variable (natives : Natives) (K : List Item) (S : List StashItem) (env : Environment) (out : List String)
  (steps : Nat)

theorem typesTo_staticType (e : Expr) :
    TypesTo natives ⟨⟨.typeOf e :: K, S, env, out⟩, steps⟩ K S (env.staticType e) := by
  have hd : Descends natives K.length ⟨.typeOf e :: K, S, env, out⟩
      (fun r => ∃ t, env.staticType e = .ok t ∧ r = ⟨K, .type t :: S, env, out⟩)
      (fun f r => env.staticType e = .error f ∧ ∃ c s, r = ⟨c ++ K, s ++ S, env, out⟩) :=
    descends_typeOf (Nat.le_refl _) (fun t ht => descends_here (Nat.le_refl _) ⟨t, ht, rfl⟩)
      (fun f c s hf => ⟨hf, c, s, rfl⟩)
  rcases hd.above (Nat.lt_succ_self _) steps with ⟨m, hu, t, ht, hm⟩ | ⟨f, m, hfails, hf, c, s, hm⟩
  · refine ⟨fun t' ht' => ?_, fun f' hf' => ?_⟩
    · cases ht.symm.trans ht'
      exact ⟨m, hu, hm⟩
    · cases ht.symm.trans hf'
  · refine ⟨fun t' ht' => ?_, fun f' hf' => ?_⟩
    · cases hf.symm.trans ht'
    · cases hf.symm.trans hf'
      exact ⟨m, c, s, hfails, hm⟩

variable {K S env out}

/-- The typing of a call lies higher on control than what its selection leaves. -/
theorem length_callItems_lt (q : Path) (x : String) (args : List Expr) :
    (callItems args K).length + 1 < (Item.typeOf (.name q) ::
      (args.map .typeOf ++ .overload x args.length q :: callItems args K)).length := by
  simp only [List.length_cons, List.length_append, List.length_map]
  omega

/-- A call whose types select a closure comes to the selection, since no fault of the typing is left. -/
theorem selects_closure {q : Path} {x : String} {args : List Expr} {k : Closure}
    (hsel : env.selects q x args = .ok k) :
    ∃ m₁ m₂, Until natives ((callItems args K).length + 1)
        ⟨⟨.expr (.call (.field q x) args) :: K, S, env, out⟩, steps⟩ m₁ ∧
      m₁.registers.control = .overload x args.length q :: callItems args K ∧ Next natives m₁ m₂ ∧
      m₂.registers.stash = .closure k :: S ∧ m₂.registers.env = env ∧ m₂.registers.output = out := by
  have hd : Descends natives ((callItems args K).length + 1) ⟨.typeOf (.name q) ::
        (args.map .typeOf ++ .overload x args.length q :: callItems args K), S, env, out⟩
      (fun r => ∃ t ts, env.resolveMethod t x ts = .ok k ∧ ts.length = args.length ∧
        r = ⟨.overload x args.length q :: callItems args K,
          (ts.map StashItem.type).reverse ++ .type t :: S, env, out⟩) (fun _ _ => False) := by
    refine descends_selects (Nat.le_refl _) (fun t ts hts hlen => ?_) (fun f c s hf => ?_)
    · exact descends_here (Nat.le_refl _) ⟨t, ts, hts.symm.trans hsel, hlen, rfl⟩
    · cases hsel.symm.trans hf
  have hheight := length_callItems_lt (K := K) q x args
  obtain ⟨m₁, hu, t, ts, hk, hlen, hm₁⟩ | ⟨_, _, _, hfalse⟩ := hd.above hheight (steps + 1)
  · have hends : Ends (perform natives (.overload x args.length q)) ⟨callItems args K,
        (ts.map StashItem.type).reverse ++ .type t :: S, env, out⟩
        (fun _ r => r.stash = .closure k :: S ∧ r.env = env ∧ r.output = out) (fun _ _ => False) := by
      refine ends_overload hlen (fun k' hk' _ => ?_) (fun k' hk' _ => ?_) (fun f hf => ?_)
      · cases hk.symm.trans hk'
        exact ⟨rfl, rfl, rfl⟩
      · cases hk.symm.trans hk'
        exact ⟨rfl, rfl, rfl⟩
      · cases hk.symm.trans hf
    have hcontrol : m₁.registers.control = .overload x args.length q :: callItems args K := by rw [hm₁]
    obtain ⟨m₂, hnext, hm₂⟩ := exists_next natives hcontrol (by rw [hm₁]; exact hends)
    exact ⟨m₁, m₂, .next (next_call steps) hheight hu, hcontrol, hnext, hm₂⟩
  · exact hfalse.elim

/-- Any other call stops where its types are found, or in the selection. -/
theorem selects_fault {q : Path} {x : String} {args : List Expr} {f : Fault}
    (hsel : env.selects q x args = .error f) :
    FailsOver natives (callItems args K).length f K S
      ⟨⟨.expr (.call (.field q x) args) :: K, S, env, out⟩, steps⟩ := by
  have hd : Descends natives (callItems args K).length ⟨.typeOf (.name q) ::
        (args.map .typeOf ++ .overload x args.length q :: callItems args K), S, env, out⟩ (fun _ => False)
      (fun f' r => f' = f ∧ ∃ c s, r = ⟨c ++ K, s ++ S, env, out⟩) := by
    refine descends_selects (Nat.le_succ _) (fun t ts hts hlen => ?_) (fun f' c s hf => ?_)
    · rw [hsel] at hts
      refine descends_step (Nat.le_refl _) ?_
      refine ends_overload hlen (fun k hk _ => ?_) (fun k hk _ => ?_) (fun f' hf => ?_)
      · cases hts.trans hk
      · cases hts.trans hk
      · cases hts.trans hf
        exact ⟨rfl, args.map .expr ++ [Item.invoke args.length], [], by simp⟩
    · cases hsel.symm.trans hf
      exact ⟨rfl, c, s, rfl⟩
  have hheight := Nat.lt_of_succ_lt (length_callItems_lt (K := K) q x args)
  obtain ⟨_, _, hfalse⟩ | ⟨f', m, hfails, rfl, c, s, hm⟩ := hd.above hheight (steps + 1)
  · exact hfalse.elim
  · exact ⟨m, c, s, .next (next_call steps) hheight hfails, hm⟩

end Agreement

/-- Over any items below, an expression is typed by steps to the type or the fault that `staticType` finds.  A
call selects by steps the closure that `staticType` selects to find the type of the same call, or stops with the
fault that `staticType` stops with. -/
theorem typing_steps_agree (natives : Natives) (K : List Item) (S : List StashItem) (env : Environment)
    (out : List String) (steps : Nat) :
    (∀ e, TypesTo natives ⟨⟨.typeOf e :: K, S, env, out⟩, steps⟩ K S (env.staticType e)) ∧
    ∀ q x args,
      env.staticType (.call (.field q x) args) = (env.selects q x args).map (fun k => k.callable.result) ∧
      SelectsTo natives ⟨⟨.expr (.call (.field q x) args) :: K, S, env, out⟩, steps⟩ q x args K S
        (env.selects q x args) :=
  ⟨typesTo_staticType natives K S env out steps, fun q x args =>
    ⟨staticType_call env q x args, fun _ => selects_closure natives steps, fun _ => selects_fault natives steps⟩⟩

end StashMachine
