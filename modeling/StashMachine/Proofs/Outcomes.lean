import StashMachine.Proofs.Effects

/-!
# StashMachine.Proofs.Outcomes — every step, item by item

* `perform_outcome`: whatever the registers hold, a step without natives comes to an `Outcome` or, if it is
  faulty, to a `Halt`.  The steps of calls, statements and classes come one after the other, and at the end
  all items together.
* `Leads.var?`, `Leads.held`: where the variables and values after a step come from.
* `Machine.Visited`: a machine that a run comes to, or that its faulty step leaves; `Visited.induction`.
-/

namespace StashMachine

open Environment Step

variable {control : List Item} {stash s : List StashItem} {env : Environment} {out : List String}
  {i : Item}

/-- A move that only queues quiet items. -/
theorem schedule_moves {c : List Item} (hc : Queues ⟨control, stash, env, out⟩ i c) :
    MovesOnly (schedule c) ⟨control, stash, env, out⟩ i :=
  .scheduled .same hc (List.suffix_refl _)

/-! ### Calls -/

section Calls

theorem typeOf_moves (e : Expr) : MovesOnly (Step.typeOf e) ⟨control, stash, env, out⟩ i := by
  have hpush : ∀ x : Environment → Except Fault TypeName,
      MovesOnly (ask x >>= fun t => push (.type t)) ⟨control, stash, env, out⟩ i := by
    intro x
    simp only [MovesOnly, ends_bind, ends_ask, ends_push]
    exact ⟨fun t _ => .pushed .same (.type t) (List.suffix_refl _), fun e _ => Moves.refl _ i⟩
  unfold Step.typeOf
  split
  · exact schedule_moves (.quiet rfl)
  · exact hpush _
  · exact hpush _

theorem typeOfField_moves (x : String) :
    MovesOnly (typeOfField x) ⟨control, stash, env, out⟩ i := by
  rw [MovesOnly, typeOfField, ends_bind]
  refine takes_popType _ _ _ (fun t s hs => ?_) (fun e s hs => .popped .same hs)
  obtain rfl : stash = .type t :: s := hs
  simp only [ends_bind, ends_ask, ends_push]
  exact ⟨fun u _ => .pushed .same (.type u) ⟨[_], rfl⟩, fun e _ => .popped .same ⟨[_], rfl⟩⟩

/-- The queued invocation is the only item that changes. -/
theorem waits_of_addReceiver? {n : Nat} {c c' : List Item} (h : addReceiver? n c = some c') {j : Item}
    (hj : Waits j c') : Waits j c ∨ ∃ k, j = .invoke k := by
  fun_induction addReceiver? n c generalizing c' with
  | case1 n rest =>
    cases h
    cases hj with
    | head => exact .inr ⟨_, rfl⟩
    | tail hj => exact .inl (.tail hj)
  | case2 depth item rest ih =>
    obtain ⟨rest', hrest, rfl⟩ := Option.map_eq_some_iff.mp h
    cases hj with
    | head => exact .inl (.head rest)
    | tail hj => exact (ih hrest hj).imp .tail id
    | yes hj => exact .inl (.yes hj)
    | no hj => exact .inl (.no hj)
  | case3 => cases h

theorem overload_moves (x : String) (n : Nat) (q : Path) :
    MovesOnly (overload x n q) ⟨control, stash, env, out⟩ i := by
  rw [MovesOnly, overload, ends_bind]
  refine takes_popType.popMany (fun ts s _ hs => ?_) (fun e s hs => .popped .same hs)
  obtain rfl : stash = (ts.map .type).reverse ++ s := hs
  rw [ends_bind]
  refine takes_popType _ _ _ (fun t below hs => ?_)
    (fun e s' hs => .popped .same (List.IsSuffix.trans hs (List.suffix_append _ _)))
  obtain rfl : s = .type t :: below := hs
  have hsuffix : below <:+ (ts.map .type).reverse ++ .type t :: below :=
    (List.suffix_cons _ _).trans (List.suffix_append _ _)
  simp only [ends_bind, ends_ask, ends_push]
  refine ⟨fun k hk => ?_, fun e _ => .popped .same hsuffix⟩
  obtain ⟨_, -, _, -, hbound⟩ := exists_of_resolveMethod hk
  have hselected : Moves ⟨control, (ts.map .type).reverse ++ .type t :: below, env, out⟩ i
      ⟨control, .closure k :: below, env, out⟩ := .pushed .same (.closure ⟨_, _, hbound⟩) hsuffix
  rw [ends_ite]
  refine ⟨fun _ => hselected, fun _ => ?_⟩
  simp only [ends_bind, ends_get]
  split
  · exact hselected
  · rename_i control' hadd
    simp only [ends_bind, ends_set, ends_schedule]
    refine ⟨.same, hselected.stash, fun j hj => ?_⟩
    rcases waits_append.mp hj with hj | hj
    · have hquiet : List.all (.expr (.name q) :: if q = .simple superName then [] else [.override])
          Item.isQuiet = true := by split <;> rfl
      exact (Queues.quiet hquiet j hj).imp (fun h => waits_cons.mpr (.inl h)) id
    · refine (waits_of_addReceiver? hadd hj).imp .tail ?_
      rintro ⟨k, rfl⟩
      exact .code rfl

theorem binds_or_eq_of_resolveOverride (c : Class) (k : Closure) :
    env.Binds (env.resolveOverride c k) ∨ env.resolveOverride c k = k := by
  unfold resolveOverride
  cases hfind : (c.lineage.filterMap (fun d => env.ownClosure? d k.descriptor)).find?
      (fun k => !k.callable.isStatic) with
  | none => exact .inr rfl
  | some k' =>
    obtain ⟨d, -, hd⟩ := List.mem_filterMap.mp (List.mem_of_find?_eq_some hfind)
    exact .inl ⟨_, _, ownClosure?_eq_some.mp hd⟩

theorem override_moves : MovesOnly override ⟨control, stash, env, out⟩ i := by
  rw [MovesOnly, override, ends_bind]
  refine ends_pop_of (fun x s hs => ?_) (fun e => Moves.refl _ i)
  obtain rfl : stash = x :: s := hs
  rw [ends_bind]
  refine takes_popClosure _ _ _ (fun k below hs => ?_)
    (fun e s' hs => .popped .same (List.IsSuffix.trans hs (List.suffix_cons _ _)))
  obtain rfl : s = .closure k :: below := hs
  have hsuffix : below <:+ x :: .closure k :: below := ⟨[_, _], rfl⟩
  split
  · rename_i c f
    simp only [ends_bind, ends_ask, ends_push, ends_pushValue]
    refine ⟨fun k' hk' => ⟨.same, fun y hy => ?_, fun j hj => .inl (.tail hj)⟩, fun e he => by cases he⟩
    cases hk'
    -- the receiver stays, over the closure of its class
    rcases List.mem_cons.mp hy with rfl | hy
    · exact .inl (by simp)
    · rcases List.mem_cons.mp hy with rfl | hy
      · rcases binds_or_eq_of_resolveOverride c k with hk | hk
        · exact .inr (.closure hk)
        · exact .inl (by simp [hk])
      · exact .inl (by simp [hy])
  · exact .popped .same hsuffix
  · exact .popped .same hsuffix
  · exact .popped .same hsuffix

theorem overloadConstructor_moves (d : String) (n : Nat) :
    MovesOnly (overloadConstructor d n) ⟨control, stash, env, out⟩ i := by
  rw [MovesOnly, overloadConstructor, ends_bind]
  refine takes_popType.popMany (fun ts s _ hs => ?_) (fun e s hs => .popped .same hs)
  obtain rfl : stash = (ts.map .type).reverse ++ s := hs
  simp only [ends_bind, ends_ask, ends_push]
  refine ⟨fun k hk => ?_, fun e _ => .popped .same (List.suffix_append _ _)⟩
  obtain ⟨_, -, _, -, -, hbound⟩ := exists_of_resolveConstructor hk
  exact .pushed .same (.closure ⟨_, _, hbound⟩) (List.suffix_append _ _)

/-- An object is made, or its frame is left behind. -/
theorem new_outcome (x : String) (r : Registers) :
    Ends (Step.new x) r (fun _ r' => Outcome r (.new x) r') (fun _ r' => Halt r (.new x) r') := by
  refine (new_ends x r).mono ?_ ?_
  · rintro - r' ⟨c, hfind, hfields, rfl⟩
    exact .moves rfl (.pushed (.object rfl hfind hfields) (.object rfl hfind rfl) (List.suffix_refl _))
  · rintro e r' (⟨-, rfl⟩ | ⟨c, y, hfind, hy, -, rfl⟩)
    · exact .moves (Moves.refl _ _)
    · exact .aborted x c rfl hfind (by simp [hy]) rfl

/-! ### Invocations -/

/-- `x` binds variables of a kind in the current frame, and may stop on the way. -/
def Step.Adds {α : Type} (x : Step α) (ok : Variable → Prop) : Prop :=
  ∀ r, Ends x r (fun _ r' => ∃ vs, (∀ v ∈ vs, ok v) ∧ r' = { r with env := r.env.addVariables vs })
    (fun _ r' => ∃ vs, (∀ v ∈ vs, ok v) ∧ r' = { r with env := r.env.addVariables vs })

section Adds

variable {α β : Type} {ok : Variable → Prop}

theorem adds_pure (a : α) : Adds (pure a) ok := fun _ => ⟨[], by simp, rfl⟩

theorem adds_ofExcept (x : Except Fault α) : Adds (Step.ofExcept x) ok := by
  intro r
  rw [ends_ofExcept]
  exact ⟨fun _ _ => ⟨[], by simp, rfl⟩, fun _ _ => ⟨[], by simp, rfl⟩⟩

theorem adds_declare {v : Variable} (hv : ok v) : Adds (declare v) ok := by
  intro r
  rw [ends_declare]
  exact ⟨fun _ => ⟨[v], by simpa using hv, rfl⟩, fun _ => ⟨[], by simp, rfl⟩⟩

theorem Step.Adds.bind {x : Step α} {f : α → Step β} (hx : Adds x ok) (hf : ∀ a, Adds (f a) ok) :
    Adds (x >>= f) ok := by
  intro r
  rw [ends_bind]
  refine (hx r).mono ?_ (fun _ _ h => h)
  rintro a r' ⟨vs, hvs, rfl⟩
  have happend : ∀ ws : List Variable,
      (r.env.addVariables vs).addVariables ws = r.env.addVariables (vs ++ ws) :=
    fun ws => (List.foldl_append ..).symm
  have hall : ∀ ws : List Variable, (∀ v ∈ ws, ok v) → ∀ v ∈ vs ++ ws, ok v :=
    fun ws hws v hv => (List.mem_append.mp hv).elim (hvs v) (hws v)
  refine (hf a _).mono ?_ ?_ <;>
  · rintro _ r' ⟨ws, hws, rfl⟩
    exact ⟨vs ++ ws, hall ws hws, by rw [happend]⟩

/-- The variables of the receiver hold the object. -/
theorem bindReceiver_adds (k : Closure) (object : Class × FrameId)
    (hok : ∀ x d, ok ⟨x, .named d, some (.object object.1 object.2)⟩) :
    Adds (bindReceiver k object) ok := by
  refine (adds_declare (hok thisName k.className)).bind (fun _ => ?_)
  refine Adds.bind (fun r => ?_) (fun c => ?_)
  · exact adds_ofExcept _ r
  · split
    · exact (adds_declare (hok _ _)).bind (fun _ => adds_pure _)
    · exact adds_pure _

/-- Parameters hold arguments, converted to their types. -/
theorem bindParams_adds (ps : List Param) (vs : List Value)
    (hok : ∀ x t v w, v ∈ vs → v.coerce t = .ok w → ok ⟨x, t, some w⟩) :
    Adds (bindParams ps vs) ok := by
  induction ps generalizing vs with
  | nil => exact adds_pure _
  | cons p ps ih =>
    cases vs with
    | nil => exact adds_pure _
    | cons v vs =>
      intro r
      rw [bindParams, ends_bind, ends_ofExcept]
      refine ⟨fun w hw => ?_, fun e _ => ⟨[], by simp, rfl⟩⟩
      have hrest := ih vs (fun x t v' w' hv' => hok x t v' w' (.tail _ hv'))
      exact (adds_declare (hok p.name p.type v w (.head _) hw)).bind (fun _ => hrest) r

end Adds

/-- Without natives, entering a closure queues its body or stops. -/
theorem enter_queues (k : Closure) (r : Registers) : Ends (enter Natives.empty k) r
    (fun _ r' => ∃ c, c.all Item.isQuiet = true ∧ r' = { r with control := c ++ r.control })
    (fun _ r' => ∃ c, c.all Item.isQuiet = true ∧ r' = { r with control := c ++ r.control }) := by
  have hstop : ∃ c, c.all Item.isQuiet = true ∧ r = { r with control := c ++ r.control } := ⟨[], rfl, rfl⟩
  unfold enter
  split
  · exact ⟨[.stmt (.block _)], rfl, rfl⟩
  · rw [ends_ite]
    refine ⟨fun _ => ⟨[.reset .ret], rfl, rfl⟩, fun _ => ?_⟩
    split
    · exact ⟨[.stmt (.block _)], rfl, rfl⟩
    · exact hstop

/-- The receiver and the rest are the arguments of the closure. -/
theorem of_receiver {k : Closure} {args rest : List Value} {object : Option (Class × FrameId)}
    (h : receiver k args = .ok (object, rest)) :
    (∀ c f, object = some (c, f) → .object c f ∈ args) ∧ ∀ v ∈ rest, v ∈ args := by
  unfold receiver at h
  split at h
  · cases h
    exact ⟨nofun, fun v hv => hv⟩
  · split at h <;> cases h
    refine ⟨fun c f hcf => ?_, fun v hv => .tail _ hv⟩
    cases hcf
    exact .head _

/-- Variables are bound in the frame of a call, and the body is entered. -/
theorem Step.Adds.enter_moves {x : Step Unit} {r r₁ : Registers} {k : Closure}
    {object : Option (Class × FrameId)} (hx : Adds x (NewVariable r)) (hcalls : Calls r i k object)
    (hstash : r₁.stash <:+ r.stash)
    (hcontrol : r₁.control = .marker .ret :: .restore r.env.current :: r.control)
    (henv : r₁.env = r.env.extend (callSite k object) k.callable.name) :
    Ends (x >>= fun _ => enter Natives.empty k) r₁ (fun _ r' => Moves r i r')
      (fun _ r' => Moves r i r') := by
  have hmoves : ∀ vs c, (∀ v ∈ vs, NewVariable r v) → c.all Item.isQuiet = true →
      Moves r i { r₁ with env := r₁.env.addVariables vs, control := c ++ r₁.control } := by
    intro vs c hvs hc
    have hqueue : Queues r i (c ++ [Item.marker .ret, Item.restore r.env.current]) :=
      queues_append.mpr ⟨.quiet hc,
        queues_append (c := [.marker .ret]).mpr ⟨.quiet rfl, .restore⟩⟩
    have hscheduled : Moves r i ⟨_ ++ r.control, r₁.stash, _, r₁.output⟩ :=
      .scheduled (.call hcalls hvs) hqueue hstash
    simpa [henv, hcontrol] using hscheduled
  rw [ends_bind]
  refine (hx r₁).mono ?_ ?_
  · rintro - r' ⟨vs, hvs, rfl⟩
    refine (enter_queues k _).mono ?_ ?_ <;>
    · rintro _ r' ⟨c, hc, rfl⟩
      exact hmoves vs c hvs hc
  · rintro e r' ⟨vs, hvs, rfl⟩
    exact hmoves vs [] hvs rfl

theorem invoke_moves (n : Nat) (r : Registers) : MovesOnly (invoke Natives.empty n) r (.invoke n) := by
  rw [MovesOnly, invoke, ends_bind]
  refine takes_popValue.popMany (fun args s hlen hs => ?_) (fun e s hs => .popped .same hs)
  rw [ends_bind, List.append_nil]
  have hs' : s <:+ r.stash := hs ▸ List.suffix_append _ _
  refine takes_popClosure _ _ _ (fun k below hk => ?_)
    (fun e s' h => .popped .same (List.IsSuffix.trans h hs'))
  obtain rfl : s = .closure k :: below := hk
  have hsuffix : below <:+ r.stash := (List.suffix_cons _ _).trans hs'
  simp only [ends_bind, ends_ite, ends_throw]
  refine ⟨fun _ => .popped .same hsuffix, fun _ => ?_⟩
  simp only [ends_here, ends_schedule, ends_ofExcept]
  refine ⟨?_, fun e _ => ?_⟩
  · rintro ⟨object, rest⟩ hreceiver
    obtain ⟨hobject, hrest⟩ := of_receiver hreceiver
    have hargs : ∀ v ∈ args, Obtained r v := fun v hv => .stash (by simp [hs, hv])
    have hcalls : Calls r (.invoke n) k object := ⟨n, args, rest, below, rfl, hlen, hs, hreceiver⟩
    have hparams : Adds (bindParams k.callable.params rest) (NewVariable r) :=
      bindParams_adds _ _ (fun x t v w hv hw =>
        .assigned ((hargs v (hrest v hv)).coerce hw) (Value.fits_coerce hw))
    cases object with
    | none => exact hparams.enter_moves hcalls hsuffix rfl rfl
    | some object =>
      have hthis : Adds (bindReceiver k object) (NewVariable r) :=
        bindReceiver_adds k object (fun x d => .assigned (hargs _ (hobject _ _ rfl)) rfl)
      rw [ends_extend]
      change Ends (do bindReceiver k object; bindParams k.callable.params rest; enter Natives.empty k) _ _ _
      rw [← bind_assoc]
      exact (hthis.bind (fun _ => hparams)).enter_moves hcalls hsuffix rfl rfl
  · refine Moves.scheduled (c := [.marker .ret, .restore r.env.current]) .same ?_ hsuffix
    exact queues_append (c := [.marker .ret]).mpr ⟨.quiet rfl, .restore⟩

end Calls

/-! ### Expressions and statements -/

section Statements

theorem evaluate_moves (e : Expr) : MovesOnly (Step.evaluate e) ⟨control, stash, env, out⟩ i := by
  have hpush : ∀ v : Value, v.isSimple = true →
      Moves ⟨control, stash, env, out⟩ i ⟨control, .value v :: stash, env, out⟩ :=
    fun v hv => .pushed .same (.value (.simple hv)) (List.suffix_refl _)
  unfold Step.evaluate
  split
  · exact hpush _ (Value.isSimple_ofLiteral _)
  · exact hpush _ rfl
  · exact schedule_moves (.quiet rfl)
  · exact schedule_moves (.quiet rfl)
  · exact schedule_moves (.quiet rfl)
  · exact schedule_moves (.quiet rfl)
  · exact schedule_moves (queues_append (c := [.expr _]).mpr
      ⟨.quiet rfl, .branch (.quiet rfl) (.quiet rfl)⟩)
  · exact schedule_moves (queues_append (c := [.expr _]).mpr
      ⟨.quiet rfl, .branch (.quiet rfl) (.quiet rfl)⟩)
  · exact schedule_moves (.quiet rfl)
  · exact schedule_moves (.quiet rfl)
  · exact Moves.refl _ i
  · exact schedule_moves (.quiet (by simp [Item.isQuiet]))
  · exact schedule_moves (.quiet (by simp [Item.isQuiet]))
  · exact schedule_moves (.quiet (by simp [Item.isQuiet]))

theorem binary_moves (op : BinaryOp) :
    MovesOnly (perform Natives.empty (.binary op)) ⟨control, stash, env, out⟩ i := by
  simp only [MovesOnly, perform]
  rw [ends_bind]
  refine takes_popValue _ _ _ (fun v s hs => ?_) (fun e s hs => .popped .same hs)
  obtain rfl : stash = .value v :: s := hs
  rw [ends_bind]
  refine takes_popValue _ _ _ (fun w below hs => ?_)
    (fun e s' hs => .popped .same (List.IsSuffix.trans hs (List.suffix_cons _ _)))
  obtain rfl : s = .value w :: below := hs
  simp only [ends_bind, ends_ofExcept, ends_pushValue]
  exact ⟨fun u hu => .pushed .same (.value (.simple (Value.isSimple_binary hu))) ⟨[_, _], rfl⟩,
    fun e _ => .popped .same ⟨[_, _], rfl⟩⟩

theorem unary_moves (op : UnaryOp) :
    MovesOnly (perform Natives.empty (.unary op)) ⟨control, stash, env, out⟩ i := by
  simp only [MovesOnly, perform]
  rw [ends_bind]
  refine takes_popValue _ _ _ (fun v s hs => ?_) (fun e s hs => .popped .same hs)
  obtain rfl : stash = .value v :: s := hs
  simp only [ends_bind, ends_ofExcept, ends_pushValue]
  exact ⟨fun u hu => .pushed .same (.value (.simple (Value.isSimple_unary hu))) ⟨[_], rfl⟩,
    fun e _ => .popped .same ⟨[_], rfl⟩⟩

theorem pop_moves : MovesOnly (perform Natives.empty .pop) ⟨control, stash, env, out⟩ i := by
  simp only [MovesOnly, perform, ends_bind, ends_pure]
  refine ends_pop_of (fun x s hs => ?_) (fun e => Moves.refl _ i)
  obtain rfl : stash = x :: s := hs
  exact .popped .same (List.suffix_cons _ _)

theorem declareOne_moves {t : TypeName} {d : Declarator} {default : Option Literal}
    (hdefault : ∀ l, default = some l → (Value.ofLiteral l).fits t = true) :
    MovesOnly (declareOne t d default) ⟨control, stash, env, out⟩ i := by
  unfold declareOne
  split
  · rename_i init _
    simp only [MovesOnly, ends_bind, ends_declare, ends_push, ends_schedule]
    refine ⟨fun hfree => ?_, fun _ => Moves.refl _ i⟩
    have hdeclare : Effect ⟨control, stash, env, out⟩ i (env.addVariable ⟨d.name, t, none⟩) :=
      .declare (bindsHere_eq_false.mp hfree) .unassigned
    exact .of_parts (c := [.expr init, .assign, .pop]) [.var _] hdeclare (.quiet rfl)
      (fun x hx => List.mem_singleton.mp hx ▸ .var _) (List.suffix_refl _)
  · simp only [MovesOnly, ends_bind, ends_declare, ends_pure]
    refine ⟨fun hfree => ?_, fun _ => Moves.refl _ i⟩
    refine .popped (.declare (bindsHere_eq_false.mp hfree) (fun w hw => ?_)) (List.suffix_refl _)
    obtain ⟨l, rfl, rfl⟩ := Option.map_eq_some_iff.mp hw
    exact ⟨.simple (Value.isSimple_ofLiteral l), hdefault l rfl⟩

theorem declareLocal_moves (t : TypeName) (vars : List Declarator) :
    MovesOnly (declareLocal t vars) ⟨control, stash, env, out⟩ i := by
  unfold declareLocal
  split
  · exact Moves.refl _ i
  · exact declareOne_moves nofun
  · exact schedule_moves (.quiet (by simp [Item.isQuiet]))

theorem declareStatic_moves (f : FieldDecl) :
    MovesOnly (declareStatic f) ⟨control, stash, env, out⟩ i := by
  unfold declareStatic
  split
  · exact Moves.refl _ i
  · refine declareOne_moves (fun l hl => ?_)
    cases hl
    exact Value.fits_default f.type
  · exact schedule_moves (.quiet (by simp [Item.isQuiet]))

theorem construct_moves (who : Delegate) (args : List Expr) :
    MovesOnly (construct who args) ⟨control, stash, env, out⟩ i := by
  simp only [MovesOnly, construct, ends_bind, ends_ask, ends_typeOfVar]
  exact ⟨fun x _ => schedule_moves (.quiet (by simp [Item.isQuiet])), fun e _ => Moves.refl _ i⟩

theorem execute_moves (s : Stmt) : MovesOnly (execute s) ⟨control, stash, env, out⟩ (.stmt s) := by
  cases s with
  | block body =>
    refine Moves.scheduled (.block (.block body)) (queues_append.mpr ⟨?_, .restore⟩)
      (List.suffix_refl _)
    exact .quiet (by simp [Item.isQuiet])
  | declare t vars => exact declareLocal_moves t vars
  | expr e => exact schedule_moves (.quiet rfl)
  | ret e => exact schedule_moves (.quiet rfl)
  | ite c yes no =>
    refine schedule_moves (queues_append (c := [.expr c]).mpr ⟨.quiet rfl, .branch (.quiet rfl) ?_⟩)
    exact .quiet (by simp [Item.isQuiet])
  | loop c body =>
    exact schedule_moves (queues_append (c := [.whileRound c body, .marker .brk]).mpr
      ⟨.quiet rfl, .restore⟩)
  | forLoop init c update body =>
    refine Moves.scheduled (.block (.forLoop init c update body))
      (queues_append.mpr ⟨.quiet (by simp [Item.isQuiet]), ?_⟩) (List.suffix_refl _)
    exact queues_append (c := [.forRound c update body, .marker .brk]).mpr ⟨.quiet rfl, .restore⟩
  | switch e arms =>
    exact schedule_moves (queues_append (c := [.expr e, .switch arms, .marker .brk]).mpr
      ⟨.quiet rfl, .restore⟩)
  | breakOut => exact schedule_moves (.quiet rfl)
  | continueLoop => exact schedule_moves (.quiet rfl)
  | empty => exact Moves.refl _ _
  | construct who args => exact construct_moves who args

theorem whileRound_moves (c : Expr) (body : Stmt) :
    MovesOnly (whileRound c body) ⟨control, stash, env, out⟩ i := by
  refine schedule_moves (queues_append (c := [.expr c]).mpr ⟨.quiet rfl, .branch ?_ (.quiet rfl)⟩)
  refine queues_append (c := [.stmt body, .marker .cont]).mpr ⟨.quiet rfl, ?_⟩
  exact queues_append.mpr ⟨.restore, .quiet rfl⟩

theorem forRound_moves (c : Option Expr) (update : List Stmt) (body : Stmt) :
    MovesOnly (forRound c update body) ⟨control, stash, env, out⟩ i := by
  refine schedule_moves (queues_append (c := [.expr _]).mpr ⟨.quiet rfl, .branch ?_ (.quiet rfl)⟩)
  refine queues_append.mpr ⟨queues_append.mpr ⟨?_, .quiet (by simp [Item.isQuiet])⟩, .quiet rfl⟩
  exact queues_append (c := [.stmt body, .marker .cont]).mpr ⟨.quiet rfl, .restore⟩

theorem branch_moves (yes no : List Item) :
    MovesOnly (branch yes no) ⟨control, stash, env, out⟩ (.branch yes no) := by
  rw [MovesOnly, branch, ends_bind]
  refine takes_popValue _ _ _ (fun v s hs => ?_) (fun e s hs => .popped .same hs)
  obtain rfl : stash = .value v :: s := hs
  have hsuffix : s <:+ .value v :: s := List.suffix_cons _ _
  split
  · exact .scheduled .same (fun j hj => .inl (.yes hj)) hsuffix
  · exact .scheduled .same (fun j hj => .inl (.no hj)) hsuffix
  · exact .popped .same hsuffix

/-- Unwinding leaves the end of control, found or not. -/
theorem unwind_suffix (j : Jump) (c : List Item) :
    (∀ rest, unwind j c = .ok rest → rest <:+ c) ∧ ∀ rest, unwind j c = .error rest → rest <:+ c := by
  fun_induction unwind j c with
  | case1 =>
    refine ⟨nofun, fun rest h => ?_⟩
    cases h
    exact List.suffix_refl _
  | case2 rest =>
    refine ⟨fun rest' h => ?_, nofun⟩
    cases h
    exact List.suffix_cons _ _
  | case3 rest =>
    refine ⟨nofun, fun rest' h => ?_⟩
    cases h
    exact List.suffix_cons _ _
  | case4 k rest _ _ ih | case5 k rest _ ih =>
    exact ⟨fun rest' h => (ih.1 rest' h).trans (List.suffix_cons _ _),
      fun rest' h => (ih.2 rest' h).trans (List.suffix_cons _ _)⟩

theorem reset_moves (j : Jump) : MovesOnly (reset j) ⟨control, stash, env, out⟩ i := by
  have hrest : ∀ rest, rest <:+ control →
      Moves ⟨control, stash, env, out⟩ i ⟨rest, stash, env, out⟩ := by
    rintro rest ⟨front, rfl⟩
    exact ⟨.same, fun s hs => .inl hs, fun j hj => .inl (.tail (waits_append.mpr (.inr hj)))⟩
  simp only [MovesOnly, reset, ends_bind, ends_get]
  split
  · rename_i rest h
    exact hrest rest ((unwind_suffix j control).1 rest h)
  · rename_i rest h
    exact hrest rest ((unwind_suffix j control).2 rest h)

theorem switch_moves (arms : List (Arm Stmt)) :
    MovesOnly (switch arms) ⟨control, stash, env, out⟩ (.switch arms) := by
  rw [MovesOnly, switch, ends_bind]
  refine takes_popValue _ _ _ (fun v s hs => ?_) (fun e s hs => .popped .same hs)
  obtain rfl : stash = .value v :: s := hs
  have hsuffix : s <:+ .value v :: s := List.suffix_cons _ _
  simp only [ends_bind, ends_ofExcept]
  refine ⟨fun found _ => ?_, fun e _ => .popped .same hsuffix⟩
  split
  · exact .scheduled (.block (.switch arms)) (.quiet (by simp [Item.isQuiet])) hsuffix
  · exact .popped .same hsuffix

end Statements

/-! ### Programs and classes -/

section Classes

theorem start_moves (p : Program) : MovesOnly (start p) ⟨control, stash, env, out⟩ (.program p) := by
  unfold start
  split
  · exact Moves.refl _ _
  · simp only [MovesOnly, ends_bind, ends_ofExcept, ends_schedule]
    refine ⟨fun q hq => ?_, fun e _ => Moves.refl _ _⟩
    refine Moves.scheduled .same (queues_append.mpr ⟨fun j hj => ?_, .quiet rfl⟩) (List.suffix_refl _)
    obtain ⟨d, hd, rfl⟩ := exists_of_waits_map (by rintro _ _ _ ⟨⟩) hj
    refine .inr (.classDecl rfl ?_)
    rcases List.mem_append.mp hd with hd | hd
    · split at hd
      · cases hd
      · exact .inr (List.mem_singleton.mp hd)
    · exact .inl (Program.mem_of_superclassesFirst hq hd)

theorem ends_superclassOf_of {d : ClassDecl} {r : Registers} {Q : Option Class → Registers → Prop}
    {F : Fault → Registers → Prop} (hQ : ∀ superclass, IsSuperclass r.env d superclass → Q superclass r)
    (hF : ∀ e, F e r) : Ends (superclassOf d) r Q F := by
  unfold superclassOf
  split
  · rename_i x hx
    simp only [ends_bind, ends_ask, ends_pure]
    exact ⟨fun c hc => hQ _ (.inl ⟨x, c, hx, hc, rfl⟩), fun e _ => hF e⟩
  · rename_i hx
    exact hQ none (.inr ⟨hx, rfl⟩)

/-- A class is registered with its superclass, and its members are queued. -/
theorem elaborateClass_ends (d : ClassDecl) (r : Registers) : Ends (elaborateClass d) r
    (fun _ r' => ∃ (superclass : Option Class) (c : Class) (ks : List Callable),
      IsSuperclass r.env d superclass ∧
      c = d.elaborate r.env.frames.size superclass ∧ r.env.bound? global c.name = none ∧
      (∀ k ∈ ks, k ∈ c.toClassInfo.callables) ∧ r'.control =
        ks.map Callable.item ++ (c.staticFields.map .field ++ .restore r.env.current :: r.control) ∧
      r'.stash = r.stash ∧ r'.env = (r.env.extend (classSite superclass) d.name).addClass c)
    (fun _ r' => Halt r (.classDecl d) r') := by
  rw [elaborateClass, ends_bind]
  refine ends_superclassOf_of (fun superclass hsuper => ?_) (fun e => .moves (Moves.refl _ _))
  simp only [ends_bind, ends_here, ends_extend, ends_defineClass, ends_schedule, current_extend,
    bound?_extend]
  refine ⟨fun hfree => ?_, fun _ => .opened d superclass hsuper rfl⟩
  generalize hc : d.elaborate r.env.frames.size superclass = c at hfree ⊢
  refine ⟨superclass, c, c.instanceMethods.reverse.map .method ++ c.staticMethods.reverse.map .method
    ++ c.constructors.reverse.map .constructor, hsuper, hc.symm, hfree, fun k hk => ?_, ?_, trivial, rfl⟩
  · simp only [ClassInfo.callables, ClassInfo.methods, List.map_reverse, List.map_append,
      List.mem_append, List.mem_reverse] at hk ⊢
    exact hk
  · simp [Callable.item, Function.comp_def]

/-- A class is registered, or not at all. -/
theorem elaborateClass_outcome (d : ClassDecl) (r : Registers) :
    Ends (elaborateClass d) r (fun _ r' => Outcome r (.classDecl d) r')
      (fun _ r' => Halt r (.classDecl d) r') := by
  refine (elaborateClass_ends d r).mono ?_ (fun _ _ h => h)
  rintro - r' ⟨superclass, c, ks, hsuper, hc, hfree, hks, hcontrol, hstash, henv⟩
  exact .registers d superclass c ks rfl hsuper hc hfree hks hcontrol hstash henv

theorem bindCallable_outcome (k : Callable) (r : Registers) :
    Ends (bindCallable k) r (fun _ r' => Outcome r k.item r') (fun _ r' => Halt r k.item r') := by
  simp only [bindCallable, ends_bind, ends_get, ends_defineClosure]
  refine ⟨fun hfree => .binds k rfl (bindsHere_eq_false.mp hfree) rfl, fun _ => .moves (Moves.refl _ _)⟩

end Classes

/-! ### Every item -/

/-- What a step that performs an item comes to. -/
theorem perform_outcome (i : Item) (r : Registers) : Ends (perform Natives.empty i) r
    (fun _ r' => Outcome r i r') (fun _ r' => Halt r i r') := by
  have moves : ∀ {x : Step Unit}, MovesOnly x r i → i.isCallable = false →
      Ends x r (fun _ r' => Outcome r i r') (fun _ r' => Halt r i r') :=
    fun hx hi => hx.mono (fun _ _ => .moves hi) (fun _ _ => .moves)
  cases i with
  | program p => exact moves (start_moves p) rfl
  | classDecl d => exact elaborateClass_outcome d r
  | method m => exact bindCallable_outcome (.method m) r
  | constructor k => exact bindCallable_outcome (.constructor k) r
  | field f => exact moves (declareStatic_moves f) rfl
  | stmt s => exact moves (execute_moves s) rfl
  | expr e => exact moves (evaluate_moves e) rfl
  | assign => exact moves assign_moves rfl
  | compoundAssign op => exact moves (compoundAssign_moves op) rfl
  | increment op fix => exact moves (increment_moves op fix) rfl
  | load => exact moves load_moves rfl
  | binary op => exact moves (binary_moves op) rfl
  | unary op => exact moves (unary_moves op) rfl
  | pop => exact moves pop_moves rfl
  | find p => exact moves (find_moves p) rfl
  | deref => exact moves deref_moves rfl
  | select x => exact moves (select_moves x) rfl
  | arrayOf t n => exact moves (arrayOf_moves t n) rfl
  | restore f => exact moves (.popped (.restore rfl) (List.suffix_refl _)) rfl
  | marker j => exact moves (Moves.refl _ _) rfl
  | reset j => exact moves (reset_moves j) rfl
  | branch yes no => exact moves (branch_moves yes no) rfl
  | whileRound c body => exact moves (whileRound_moves c body) rfl
  | forRound c update body => exact moves (forRound_moves c update body) rfl
  | switch arms => exact moves (switch_moves arms) rfl
  | typeOf e => exact moves (typeOf_moves e) rfl
  | typeOfField x => exact moves (typeOfField_moves x) rfl
  | overload x n q => exact moves (overload_moves x n q) rfl
  | override => exact moves override_moves rfl
  | overloadConstructor d n => exact moves (overloadConstructor_moves d n) rfl
  | new x => exact new_outcome x r
  | invoke n => exact moves (invoke_moves n r) rfl

/-! ### The variables after a step -/

section Vars

variable {r r' : Registers} {i : Item} {env' : Environment} {x : VarId} {y : Variable}

theorem Environment.mem_of_var?_addVariables {env : Environment} {vs : List Variable}
    (h : (env.addVariables vs).var? x = some y) : env.var? x = some y ∨ y ∈ vs := by
  induction vs generalizing env with
  | nil => exact .inl h
  | cons v vs ih =>
    rcases ih h with h | h
    · rw [var?_addVariable] at h
      split at h
      · cases h
        exact .inr (.head _)
      · exact .inl h
    · exact .inr (.tail _ h)

/-- The new variables of an object, finished or not, are its fields. -/
theorem Environment.mem_of_var?_instantiate {env : Environment} {c : Class}
    (h : (env.instantiate c).2.var? x = some y) :
    env.var? x = some y ∨ ∃ field ∈ c.allInstanceVars, y = freshField field := by
  obtain ⟨front, hfront, henv⟩ := exists_instantiate env c
  rw [henv] at h
  refine (mem_of_var?_addVariables h).imp id (fun hy => ?_)
  obtain ⟨field, hfield, rfl⟩ := List.mem_map.mp (hfront.subset hy)
  exact ⟨field, hfield, rfl⟩

theorem newVariable_freshField (field : String × TypeName) : NewVariable r (freshField field) :=
  .assigned (.simple (Value.isSimple_ofLiteral _)) (Value.fits_default field.2)

/-- A variable is as it was before, or it is new or has got a value that fits. -/
theorem Effect.var? (h : Effect r i env') (hx : env'.var? x = some y) :
    r.env.var? x = some y ∨ NewVariable r y := by
  cases h with
  | same | restore | block | array => exact .inl hx
  | declare _ hv | allocate hv =>
    replace hx : (r.env.allocate _).var? x = some y := hx
    rw [var?_allocate] at hx
    split at hx
    · cases hx
      exact .inr hv
    · exact .inl hx
  | assign _ hw hfits =>
    rw [var?_assign] at hx
    split at hx
    · obtain ⟨z, hz, rfl⟩ := Option.map_eq_some_iff.mp hx
      refine .inr (fun w' hw' => ?_)
      cases hw'
      rename_i he
      exact ⟨hw, hfits z (he ▸ hz)⟩
    · exact .inl hx
  | object _ _ _ =>
    rcases mem_of_var?_instantiate hx with hx | ⟨field, -, rfl⟩
    · exact .inl hx
    · exact .inr (newVariable_freshField field)
  | call _ hvs =>
    rcases mem_of_var?_addVariables hx with hx | hy
    · exact .inl hx
    · exact .inr (hvs y hy)

/-- What a step leads to, whether it ends well or not. -/
def Leads (r : Registers) (i : Item) (r' : Registers) : Prop := Outcome r i r' ∨ Halt r i r'

/-- A variable after a step is as it was, or what it holds was come by. -/
theorem Leads.var? (h : Leads r i r') (hx : r'.env.var? x = some y) :
    r.env.var? x = some y ∨ NewVariable r y := by
  rcases h with (⟨-, h⟩ | ⟨k, -, -, rfl⟩ | ⟨d, superclass, c, ks, -, -, -, -, -, -, -, henv⟩) |
    (h | ⟨d, superclass, -, rfl⟩ | ⟨_, c, -, -, -, rfl⟩)
  · exact h.env.var? hx
  · exact .inl hx
  · rw [henv] at hx
    exact .inl hx
  · exact h.env.var? hx
  · exact .inl hx
  · rcases mem_of_var?_instantiate hx with hx | ⟨field, -, rfl⟩
    · exact .inl hx
    · exact .inr (newVariable_freshField field)

/-- An item of the stash after a step lay there before, or the step has put it there. -/
theorem Leads.leaves (h : Leads r i r') {s : StashItem} (hs : s ∈ r'.stash) :
    s ∈ r.stash ∨ Leaves r i r'.env s := by
  rcases h with (⟨-, h⟩ | ⟨k, -, -, rfl⟩ | ⟨d, superclass, c, ks, -, -, -, -, -, -, hstash, -⟩) |
    (h | ⟨d, superclass, -, rfl⟩ | ⟨_, c, -, -, -, rfl⟩)
  · exact h.stash s hs
  · exact .inl hs
  · exact .inl (hstash ▸ hs)
  · exact h.stash s hs
  · exact .inl hs
  · exact .inl hs

/-- Items that bind callables wait for themselves only. -/
theorem exists_of_waits_items {ks : List Callable} {j : Item} (h : Waits j (ks.map Callable.item)) :
    ∃ k ∈ ks, j = k.item :=
  exists_of_waits_map (fun k _ _ hk => by cases k <;> cases hk) h

/-- An item that waits after a step did so before, or the step has queued it, or it binds a callable. -/
theorem Leads.waits (h : Leads r i r') {j : Item} (hj : Waits j r'.control) :
    Waits j (i :: r.control) ∨ Queued r i j ∨ ∃ k : Callable, j = k.item := by
  rcases h with (⟨-, h⟩ | ⟨k, -, -, rfl⟩ | ⟨d, superclass, c, ks, -, -, -, -, -, hcontrol, -, -⟩) |
    (h | ⟨d, superclass, -, rfl⟩ | ⟨_, c, -, -, -, rfl⟩)
  · exact (h.control j hj).imp id .inl
  · exact .inl (.tail hj)
  · rw [hcontrol] at hj
    rcases waits_append.mp hj with hj | hj
    · obtain ⟨k, -, hk⟩ := exists_of_waits_items hj
      exact .inr (.inr ⟨k, hk⟩)
    · rcases waits_append.mp hj with hj | hj
      · obtain ⟨fd, -, rfl⟩ := exists_of_waits_map nofun hj
        exact .inr (.inl (.code rfl))
      · cases hj with
        | head => exact .inr (.inl .restore)
        | tail hj => exact .inl (.tail hj)
  · exact (h.control j hj).imp id .inl
  · exact .inl (.tail hj)
  · exact .inl (.tail hj)

/-- The registers hold a value: on the stash or in a variable. -/
def Held (r : Registers) (v : Value) : Prop :=
  .value v ∈ r.stash ∨ ∃ x y, r.env.var? x = some y ∧ y.value = some v

/-- `v` is the value `w`, or stands inside it as an element of an array. -/
inductive Value.Part (v : Value) : Value → Prop
  | refl : Part v v
  | element {id : Nat} {t : TypeName} {vs : List Value} {w : Value} :
    w ∈ vs → Part v w → Part v (.array id t vs)

/-- A value after a step was come by, or it is the object that the step has made. -/
theorem Leads.held (h : Leads r i r') {v : Value} (hv : Held r' v) : Obtained r v ∨
    ∃ x c, i = .new x ∧ r.env.findClass x = .ok c ∧ r'.env = (r.env.instantiate c).2 ∧
      v = .object c r.env.frames.size := by
  rcases hv with hv | ⟨x, y, hx, hv⟩
  · rcases h.leaves hv with hv | hleaves
    · exact .inl (.stash hv)
    · cases hleaves with
      | value hv => exact .inl hv
      | object hi hc henv => exact .inr ⟨_, _, hi, hc, henv, rfl⟩
  · rcases h.var? hx with hx | hnew
    · exact .inl (.var hx hv)
    · exact .inl (hnew v hv).1

/-- What holds of the parts of all values that are held, of simple values, and of arrays whose elements fit,
holds of the parts of all values that can be come by. -/
theorem Obtained.parts {R : Value → Prop} (hheld : ∀ v, Held r v → ∀ u, u.Part v → R u)
    (hsimple : ∀ v : Value, v.isSimple = true → R v)
    (harray : ∀ id t vs, (∀ v ∈ vs, v.fits t = true) → R (.array id t vs)) {v : Value}
    (hv : Obtained r v) : ∀ u, u.Part v → R u := by
  induction hv with
  | stash hv => exact hheld _ (.inl hv)
  | var hx hv => exact hheld _ (.inr ⟨_, _, hx, hv⟩)
  | simple hv =>
    intro u hu
    cases hu with
    | refl => exact hsimple _ hv
    | element => cases hv
  | array _ hfits ih =>
    intro u hu
    cases hu with
    | refl => exact harray _ _ _ hfits
    | element hw hu => exact ih _ hw u hu

/-- The same after a step, if it also holds of the object that the step may have made. -/
theorem Leads.parts {R : Value → Prop} (h : Leads r i r')
    (hheld : ∀ v, Held r v → ∀ u, u.Part v → R u) (hsimple : ∀ v : Value, v.isSimple = true → R v)
    (harray : ∀ id t vs, (∀ v ∈ vs, v.fits t = true) → R (.array id t vs))
    (hobject : ∀ x c, i = .new x → r.env.findClass x = .ok c → r'.env = (r.env.instantiate c).2 →
      R (.object c r.env.frames.size)) :
    ∀ v, Held r' v → ∀ u, u.Part v → R u := by
  intro v hv
  rcases h.held hv with hv | ⟨x, c, hi, hc, henv, rfl⟩
  · exact hv.parts hheld hsimple harray
  · intro u hu
    cases hu
    exact hobject x c hi hc henv

end Vars

/-! ### Runs -/

namespace Machine

variable {natives : Natives} {p : Program} {m : Machine}

/-- A run of the program `p` comes to `m`, or leaves `m` in a faulty step. -/
def Visited (natives : Natives) (p : Program) (m : Machine) : Prop :=
  Reached natives p m ∨ ∃ n e, evaluate natives n (initial.loadProgram p) = .error e m

/-- A machine that a faulty step leaves, with the one before. -/
theorem Visited.cases (h : Visited natives p m) : Reached natives p m ∨
    ∃ m₁ i c e, Reached natives p m₁ ∧ m₁.registers.control = i :: c ∧
      perform natives i { m₁.registers with control := c } = .error e m.registers := by
  rcases h with h | ⟨n, e, h⟩
  · exact .inl h
  · obtain ⟨k, m₁, hk, hlast⟩ := exists_of_evaluate_error h
    obtain ⟨i, c, hc, hperform⟩ := evaluate_one_error hlast
    exact .inr ⟨m₁, i, c, e, ⟨k, hk⟩, hc, hperform⟩

/-- What every step that ends well keeps holds of every machine that a run comes to. -/
theorem Reached.invariant {P : Registers → Prop} (hm : Reached Natives.empty p m)
    (hstart : P (initial.loadProgram p).registers)
    (hstep : ∀ i r r', P { r with control := i :: r.control } → Outcome r i r' → P r') :
    P m.registers := by
  refine hm.induction (P := fun m => P m.registers) hstart (fun m₁ m₂ _ h hnext => ?_)
  obtain ⟨i, c, hc, hperform, -⟩ := next_iff.mp hnext
  refine hstep i { m₁.registers with control := c } m₂.registers ?_
    ((perform_outcome i _).of_ok hperform)
  rw [← hc]
  exact h

/-- What every step keeps holds of every machine that a run visits. -/
theorem Visited.induction {P : Registers → Prop} (hm : Visited Natives.empty p m)
    (hstart : P (initial.loadProgram p).registers)
    (hstep : ∀ i r r', P { r with control := i :: r.control } → Leads r i r' → P r') :
    P m.registers := by
  have hreached : ∀ m, Reached Natives.empty p m → P m.registers :=
    fun m hm => hm.invariant hstart (fun i r r' h ho => hstep i r r' h (.inl ho))
  rcases hm.cases with hm | ⟨m₁, i, c, e, hm₁, hc, hperform⟩
  · exact hreached m hm
  · refine hstep i { m₁.registers with control := c } m.registers ?_
      (.inr ((perform_outcome i _).of_error hperform))
    rw [← hc]
    exact hreached m₁ hm₁

end Machine

end StashMachine
