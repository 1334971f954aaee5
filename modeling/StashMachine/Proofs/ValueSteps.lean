import StashMachine.Proofs.Track

/-!
# StashMachine.Proofs.ValueSteps — the steps inside expressions stay on track

One lemma for each item that an expression is evaluated by, calls apart.
-/

namespace StashMachine

open Environment Step

section ValueSteps

variable {g : Regime} {b : Base} {K c : List Item} {S s : List StashItem} {env : Environment}
  {out : List String} {σ : List Kind}

/-! ### Names -/

/-- Nothing odd is ever held by `super` that the regime does not know of. -/
def Regime.Knows (g : Regime) (env : Environment) : Prop :=
  g.careful → ∀ x v w, env.var? x = some v → v.name = superName → v.value = some w → g.odd w

theorem Sound.exists_var (hs : Sound g env) (hg : g.careful) {x : String} {id : VarId}
    (h : env.lookup? x = some (.var id)) : ∃ v, env.var? id = some v ∧ v.name = x := by
  obtain ⟨f, hf⟩ := exists_bound?_of_lookup? h
  exact hs.names hg f x id hf

theorem lookup?_of_findName {x : String} {b : Binding} (h : env.findName x = .ok b) :
    env.lookup? x = some b := by
  unfold findName at h
  split at h
  · cases h
    assumption
  · cases h

theorem find_stays (hsound : Sound g env) {p : Path}
    (hf : Flows g b (.find p :: c) .value env.current σ) (hs : List.Forall₂ (Holds g env) σ s) :
    Ends (find p) ⟨c ++ K, s ++ S, env, out⟩ (fun _ r => Stays g b K S env r)
      (fun e _ => g.Blames e) := by
  cases p with
  | field p x =>
    rcases hf with hf | ⟨y, hp, -⟩
    · exact Stays.value (c := .find p :: .select x :: c) (.refl env) (.inl ⟨_, rfl, hf⟩) hs
    · cases hp
  | simple x =>
    simp only [find, ends_bind, ends_ask]
    refine ⟨fun b hb => ?_, fun e he => (env.flawless_findName x).blames he⟩
    have hlookup := lookup?_of_findName hb
    cases b with
    | var id =>
      rcases hf with hf | ⟨y, hp, hy, hf⟩
      · refine Stays.value (s := .var id :: s) (.refl env) hf (.cons (holds_var (fun hg => ?_)) hs)
        obtain ⟨v, hv, -⟩ := hsound.exists_var hg hlookup
        exact ⟨v, hv⟩
      · cases hp
        refine Stays.value (s := .var id :: s) (.refl env) hf (.cons (.inl ⟨id, rfl, fun hg => ?_⟩) hs)
        obtain ⟨v, hv, hname⟩ := hsound.exists_var hg hlookup
        exact ⟨v, hv, hname.trans (hy hg)⟩
    | cls d =>
      rcases hf with hf | ⟨y, -, -, hf⟩
      · exact Stays.value (s := .cls d :: s) (.refl env) hf (.cons (.inr ⟨d, rfl⟩) hs)
      · exact Stays.value (s := .cls d :: s) (.refl env) hf (.cons (.inr ⟨d, rfl⟩) hs)
    | closure k => exact Regime.blames_of_ordinary trivial

theorem deref_stays (hknows : g.Knows env) (hf : Flows g b (.deref :: c) .value env.current σ)
    (hs : List.Forall₂ (Holds g env) σ s) :
    Ends deref ⟨c ++ K, s ++ S, env, out⟩ (fun _ r => Stays g b K S env r)
      (fun e _ => g.Blames e) := by
  rcases hf with ⟨τ, rfl, hf⟩ | ⟨τ, rfl, hf⟩
  · cases hs with
    | cons hi hs =>
      rcases hi with ⟨x, rfl, -⟩ | ⟨d, rfl⟩
      · simp only [deref, List.cons_append, ends_bind, ends_pop, ends_ask, ends_pushValue]
        refine ⟨fun v _ => ?_, fun e he => (env.flawless_value x).blames he⟩
        exact Stays.value (s := .value v :: _) (.refl env) hf (.cons (holds_value v) hs)
      · simp only [deref, List.cons_append, ends_bind, ends_pop, ends_push]
        exact Stays.value (s := .cls d :: _) (.refl env) hf (.cons (.inr ⟨d, rfl⟩) hs)
  · -- the variable is `super`, and what it holds becomes a receiver
    cases hs with
    | cons hi hs =>
      rcases hi with ⟨x, rfl, hx⟩ | ⟨d, rfl⟩
      · simp only [deref, List.cons_append, ends_bind, ends_pop, ends_ask, ends_pushValue]
        refine ⟨fun v hv => ?_, fun e he => (env.flawless_value x).blames he⟩
        refine Stays.value (s := .value v :: _) (.refl env) hf
          (.cons (holds_receiver (fun hg => .inr ?_)) hs)
        obtain ⟨y, hy, hname⟩ := hx hg
        refine hknows hg x y v hy hname ?_
        unfold Environment.value at hv
        rw [hy] at hv
        obtain ⟨n, t, w⟩ := y
        cases w with
        | none => cases hv
        | some w =>
          cases hv
          rfl
      · simp only [deref, List.cons_append, ends_bind, ends_pop, ends_push]
        exact Stays.value (s := .cls d :: _) (.refl env) hf (.cons (.inr ⟨d, rfl⟩) hs)

theorem load_stays (hf : Flows g b (.load :: c) .value env.current σ)
    (hs : List.Forall₂ (Holds g env) σ s) :
    Ends load ⟨c ++ K, s ++ S, env, out⟩ (fun _ r => Stays g b K S env r)
      (fun e _ => g.Blames e) := by
  obtain ⟨τ, rfl, hf⟩ := hf
  cases hs with
  | cons hi hs =>
    rcases hi with ⟨x, rfl, hx⟩ | ⟨d, rfl⟩
    · simp only [load, ends_bind, ends_get, List.cons_append, ends_ask, ends_pushValue]
      refine ⟨fun v _ => ?_, fun e he => (env.flawless_value x).blames he⟩
      exact Stays.value (s := .value v :: .var x :: _) (.refl env) hf
        (.cons (holds_value v) (.cons (holds_var hx) hs))
    · simp only [load, ends_bind, ends_get, List.cons_append, ends_describe, ends_throw]
      exact Regime.blames_of_ordinary trivial

/-! ### Fields -/

/-- A variable of the store. -/
def Valid (g : Regime) (x : VarId) (env : Environment) : Prop :=
  g.careful → ∃ v, env.var? x = some v

section Fields

variable {control : List Item} {stash : List StashItem}

theorem Step.keeps_pure {α : Type} {R : α → Environment → Prop} {a : α} (h : R a env) :
    Step.Keeps g (pure a) ⟨control, stash, env, out⟩ R :=
  ⟨rfl, rfl, rfl, .refl env, h⟩

theorem Step.keeps_throw {α : Type} {R : α → Environment → Prop} {e : Fault} (h : g.Blames e) :
    Step.Keeps g (throw e : Step α) ⟨control, stash, env, out⟩ R := h

theorem staticField_keeps (hsound : Sound g env) (d : Class) (x : String) :
    Step.Keeps g (Step.staticField d x) ⟨control, stash, env, out⟩ (Valid g) := by
  unfold Step.staticField
  split
  · exact Step.keeps_throw (Regime.blames_of_ordinary trivial)
  · rename_i info hinfo
    split
    · exact Step.keeps_throw (Regime.blames_of_ordinary trivial)
    · simp only [Step.Keeps, ends_bind, ends_get]
      split
      · rename_i id hid
        refine Step.keeps_pure (fun hg => ?_)
        have hbound : env.bound? info.owner.frame x = some (.var id) := by
          unfold ownVariable? at hid
          split at hid
          · cases hid
            assumption
          · cases hid
        obtain ⟨v, hv, -⟩ := hsound.names hg _ _ _ hbound
        exact ⟨v, hv⟩
      · exact Regime.blames_internal (fun _ => .inr (.inl ⟨_, _, rfl⟩))

theorem arrayLength_keeps (q x : String) (v : Option Value) :
    Step.Keeps g (arrayLength q x v) ⟨control, stash, env, out⟩ (Valid g) := by
  unfold arrayLength
  split
  · split
    · rename_i elements
      simp only [Step.Keeps, ends_fresh]
      refine ⟨trivial, trivial, rfl, .of_lasts ((Lasts.refl env).allocate _), fun _ => ?_⟩
      exact ⟨_, by rw [newestVariable_allocate, var?_allocate, if_pos rfl]⟩
    all_goals exact Step.keeps_throw (Regime.blames_of_ordinary trivial)
  · exact Step.keeps_throw (Regime.blames_of_ordinary trivial)

theorem instanceField_keeps (hsound : Sound g env) (q x : String) (v : Option Value) :
    Step.Keeps g (instanceField q v x) ⟨control, stash, env, out⟩ (Valid g) := by
  unfold instanceField
  split
  · rename_i d frame
    simp only [Step.Keeps, ends_bind, ends_get]
    split
    · rename_i id hid
      refine Step.keeps_pure (fun hg => ?_)
      obtain ⟨v, hv, -⟩ := hsound.names hg frame x id hid
      exact ⟨v, hv⟩
    · exact Regime.blames_internal (fun _ => .inr (.inr (.inl ⟨_, _, rfl⟩)))
  all_goals exact Step.keeps_throw (Regime.blames_of_ordinary trivial)

theorem fieldOf_keeps (hsound : Sound g env) (q : String) (t : TypeName) (v : Option Value)
    (x : String) : Step.Keeps g (fieldOf q t v x) ⟨control, stash, env, out⟩ (Valid g) := by
  unfold fieldOf
  split
  · exact arrayLength_keeps q x v
  · exact Step.keeps_throw (Regime.blames_of_ordinary trivial)
  · simp only [Step.Keeps, ends_bind, ends_ask]
    refine ⟨fun d _ => ?_, fun e he => (env.flawless_findClass _).blames he⟩
    split
    · exact Regime.blames_of_ordinary trivial
    · split
      · exact staticField_keeps hsound d x
      · exact instanceField_keeps hsound q x v

end Fields

theorem select_stays (hsound : Sound g env) {x : String}
    (hf : Flows g b (.select x :: c) .value env.current σ) (hs : List.Forall₂ (Holds g env) σ s) :
    Ends (select x) ⟨c ++ K, s ++ S, env, out⟩ (fun _ r => Stays g b K S env r)
      (fun e _ => g.Blames e) := by
  obtain ⟨τ, rfl, hf⟩ := hf
  -- whatever the field is found through, its variable takes the place of the qualifier
  have hpush : ∀ {t : Step VarId} {s'}, List.Forall₂ (Holds g env) τ s' →
      Step.Keeps g t ⟨c ++ K, s' ++ S, env, out⟩ (Valid g) →
      Ends (t >>= fun id => push (.var id)) ⟨c ++ K, s' ++ S, env, out⟩
        (fun _ r => Stays g b K S env r) (fun e _ => g.Blames e) := by
    intro t s' hs' ht
    refine ht.bind (fun id env' out' hcurrent hev hid => ?_)
    rw [ends_push]
    exact Stays.value (s := .var id :: s') hev (by rw [hcurrent]; exact hf)
      (.cons (holds_var hid) (holds_mono hev hs'))
  cases hs with
  | cons hi hs =>
    unfold select
    rw [List.cons_append, ends_bind, ends_pop]
    rcases hi with ⟨y, rfl, hy⟩ | ⟨d, rfl⟩
    · simp only [ends_bind, ends_get]
      split
      · rename_i v hv
        exact hpush hs (fieldOf_keeps hsound _ _ _ _)
      · rename_i hv
        rintro hg
        obtain ⟨v, hv'⟩ := hy hg
        have hnone : env.var? y = none := hv
        rw [hnone] at hv'
        cases hv'
    · exact hpush hs (staticField_keeps hsound d x)

/-! ### Assignments and operators -/

/-- Storing a value and leaving one. -/
theorem assigned_stays {τ : List Kind} {s' : List StashItem}
    (hf : Flows g b c .value env.current (.result :: τ)) (hs : List.Forall₂ (Holds g env) τ s')
    (x : VarId) (v w : Value) :
    Stays g b K S env ⟨c ++ K, .value w :: (s' ++ S), env.assign x v, out⟩ := by
  have hev : g.Evolves env (env.assign x v) := .of_lasts ((Lasts.refl env).assign x v)
  exact Stays.value (s := .value w :: s') hev hf (.cons (holds_value w) (holds_mono hev hs))

theorem assign_stays (hf : Flows g b (.assign :: c) .value env.current σ)
    (hs : List.Forall₂ (Holds g env) σ s) :
    Ends Step.assign ⟨c ++ K, s ++ S, env, out⟩ (fun _ r => Stays g b K S env r)
      (fun e _ => g.Blames e) := by
  obtain ⟨τ, rfl, hf⟩ := hf
  cases hs with
  | cons hv hs =>
    cases hs with
    | cons hx hs =>
      rw [Step.assign, ends_bind]
      refine ends_popResult hv (fun v => ?_)
      rw [ends_bind]
      refine ends_popPlace hx (fun x _ => ?_)
      simp only [ends_bind, ends_typeOfVar, ends_ofExcept, ends_changeEnv, ends_pushValue]
      exact ⟨fun w _ => assigned_stays hf hs x w w,
        fun e he => (Value.flawless_coerce _ _).blames he⟩

theorem compoundAssign_stays {op : BinaryOp}
    (hf : Flows g b (.compoundAssign op :: c) .value env.current σ)
    (hs : List.Forall₂ (Holds g env) σ s) :
    Ends (compoundAssign op) ⟨c ++ K, s ++ S, env, out⟩ (fun _ r => Stays g b K S env r)
      (fun e _ => g.Blames e) := by
  obtain ⟨τ, rfl, hf⟩ := hf
  cases hs with
  | cons hv hs =>
    cases hs with
    | cons hold hs =>
      cases hs with
      | cons hx hs =>
        rw [compoundAssign, ends_bind]
        refine ends_popResult hv (fun v => ?_)
        rw [ends_bind]
        refine ends_popResult hold (fun old => ?_)
        rw [ends_bind]
        refine ends_popPlace hx (fun x _ => ?_)
        simp only [ends_bind, ends_typeOfVar, ends_ofExcept, ends_changeEnv, ends_pushValue]
        refine ⟨fun w _ => ⟨fun n _ => assigned_stays hf hs x n n, fun e he => ?_⟩, fun e he => ?_⟩
        · exact (Value.flawless_narrow _ _).blames he
        · exact (Value.flawless_binary _ _ _).blames he

theorem increment_stays {op : BinaryOp} {fix : Fixity}
    (hf : Flows g b (.increment op fix :: c) .value env.current σ)
    (hs : List.Forall₂ (Holds g env) σ s) :
    Ends (increment op fix) ⟨c ++ K, s ++ S, env, out⟩ (fun _ r => Stays g b K S env r)
      (fun e _ => g.Blames e) := by
  obtain ⟨τ, rfl, hf⟩ := hf
  cases hs with
  | cons hx hs =>
    rw [increment, ends_bind]
    refine ends_popPlace hx (fun x _ => ?_)
    simp only [ends_bind, ends_typeOfVar, ends_ite, ends_throw, ends_ask, ends_ofExcept,
      ends_changeEnv, ends_pushValue]
    refine ⟨fun _ => Regime.blames_of_ordinary trivial, fun _ => ⟨fun old _ => ⟨fun moved _ =>
      ⟨fun new _ => assigned_stays hf hs x new _, fun e he => ?_⟩, fun e he => ?_⟩, fun e he => ?_⟩⟩
    · exact (Value.flawless_narrow _ _).blames he
    · exact (Value.flawless_binary _ _ _).blames he
    · exact (env.flawless_value _).blames he

theorem binary_stays {natives : Natives} {op : BinaryOp}
    (hf : Flows g b (.binary op :: c) .value env.current σ)
    (hs : List.Forall₂ (Holds g env) σ s) :
    Ends (perform natives (.binary op)) ⟨c ++ K, s ++ S, env, out⟩
      (fun _ r => Stays g b K S env r) (fun e _ => g.Blames e) := by
  obtain ⟨τ, rfl, hf⟩ := hf
  cases hs with
  | cons hr hs =>
    cases hs with
    | cons hl hs =>
      rw [perform, ends_bind]
      refine ends_popResult hr (fun r => ?_)
      rw [ends_bind]
      refine ends_popResult hl (fun l => ?_)
      simp only [ends_bind, ends_ofExcept, ends_pushValue]
      exact ⟨fun v _ => Stays.value (s := .value v :: _) (.refl env) hf (.cons (holds_value v) hs),
        fun e he => (Value.flawless_binary _ _ _).blames he⟩

theorem unary_stays {natives : Natives} {op : UnaryOp}
    (hf : Flows g b (.unary op :: c) .value env.current σ)
    (hs : List.Forall₂ (Holds g env) σ s) :
    Ends (perform natives (.unary op)) ⟨c ++ K, s ++ S, env, out⟩
      (fun _ r => Stays g b K S env r) (fun e _ => g.Blames e) := by
  obtain ⟨τ, rfl, hf⟩ := hf
  cases hs with
  | cons hv hs =>
    rw [perform, ends_bind]
    refine ends_popResult hv (fun v => ?_)
    simp only [ends_bind, ends_ofExcept, ends_pushValue]
    exact ⟨fun v _ => Stays.value (s := .value v :: _) (.refl env) hf (.cons (holds_value v) hs),
      fun e he => (Value.flawless_unary _ _).blames he⟩

theorem arrayOf_stays {t : TypeName} {n : Nat}
    (hf : Flows g b (.arrayOf t n :: c) .value env.current σ)
    (hs : List.Forall₂ (Holds g env) σ s) :
    Ends (arrayOf t n) ⟨c ++ K, s ++ S, env, out⟩ (fun _ r => Stays g b K S env r)
      (fun e _ => g.Blames e) := by
  obtain ⟨τ, rfl, hf⟩ := hf
  obtain ⟨top, rest, rfl, hn, htop, hs⟩ := forall₂_replicate hs
  rw [arrayOf, ends_bind, List.append_assoc]
  refine ends_popValues hn htop (fun vs _ => ?_)
  simp only [ends_bind, ends_ofExcept, ends_useEnv, ends_pushValue]
  refine ⟨fun ws _ => ?_, fun e he => (flawless_coerceAll _ _).blames he⟩
  have hev : g.Evolves env (env.createArray t ws).2 := .of_lasts ((Lasts.refl env).createArray t ws)
  exact Stays.value (s := .value _ :: rest) hev hf (.cons (holds_value _) (holds_mono hev hs))

/-! ### Expressions -/

/-- An expression queues items that leave one result. -/
theorem evaluate_stays {e : Expr} (hf : Flows g b c .value env.current (.result :: σ))
    (hs : List.Forall₂ (Holds g env) σ s) :
    Ends (Step.evaluate e) ⟨c ++ K, s ++ S, env, out⟩ (fun _ r => Stays g b K S env r)
      (fun e _ => g.Blames e) := by
  have hqueue : ∀ {items : List Item}, Flows g b (items ++ c) .value env.current σ →
      Ends (schedule items) ⟨c ++ K, s ++ S, env, out⟩ (fun _ r => Stays g b K S env r)
        (fun e _ => g.Blames e) := by
    intro items h
    rw [ends_schedule, ← List.append_assoc]
    exact Stays.value (.refl env) h hs
  cases e with
  | literal l => exact Stays.value (s := .value _ :: s) (.refl env) hf (.cons (holds_value _) hs)
  | void => exact Stays.value (s := .value _ :: s) (.refl env) hf (.cons (holds_value _) hs)
  | name p => exact hqueue (.inl (.inl ⟨σ, rfl, hf⟩))
  | assign p e => exact hqueue (.inl (.inl ⟨σ, rfl, hf⟩))
  | compound op p e => exact hqueue (.inl ⟨σ, rfl, .inl ⟨σ, rfl, hf⟩⟩)
  | increment op fix p => exact hqueue (.inl ⟨σ, rfl, hf⟩)
  | unary op e => exact hqueue (.inl ⟨σ, rfl, hf⟩)
  | binary op l r =>
    cases op with
    | and => exact hqueue (.inl ⟨σ, rfl, .inl ⟨r, _, rfl, rfl, hf⟩⟩)
    | or => exact hqueue (.inl ⟨σ, rfl, .inl ⟨_, r, rfl, rfl, hf⟩⟩)
    | _ => exact hqueue (.inl (.inl ⟨σ, rfl, hf⟩))
  | call m args =>
    cases m with
    | simple m => exact Regime.blames_of_ordinary trivial
    | field q m =>
      refine hqueue ?_
      simp only [List.cons_append, List.append_assoc]
      refine flows_typeOfs (.inl rfl) args ⟨σ, rfl, ?_⟩
      exact flows_pending args hf
  | new d args =>
    refine hqueue ?_
    simp only [List.cons_append, List.append_assoc]
    refine flows_typeOfs (.inl rfl) args ⟨σ, rfl, ?_⟩
    refine flows_exprs args ⟨σ, hf, .inr ⟨args.length, rfl, rfl⟩⟩
  | array t es =>
    refine hqueue ?_
    rw [List.append_assoc]
    exact flows_exprs es ⟨σ, rfl, hf⟩

/-- A name in the place of a receiver. -/
theorem evaluate_name_stays {x : String} (hx : g.careful → x = superName)
    (hf : Flows g b c .value env.current (.receiver :: σ)) (hs : List.Forall₂ (Holds g env) σ s) :
    Ends (Step.evaluate (.name (.simple x))) ⟨c ++ K, s ++ S, env, out⟩
      (fun _ r => Stays g b K S env r) (fun e _ => g.Blames e) :=
  Stays.value (c := .find (.simple x) :: .deref :: c) (.refl env)
    (.inr ⟨x, rfl, hx, .inr ⟨σ, rfl, hf⟩⟩) hs

end ValueSteps

end StashMachine
