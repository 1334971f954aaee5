import StashMachine.Proofs.Objects
import StashMachine.Proofs.ValueSteps

/-!
# StashMachine.Proofs.CallSteps — the steps of calls stay on track

* Typing, selection, overriding and construction, one lemma for each item.
* `invoke_stays`: an invocation takes as many arguments as were put down, and queues a body that only a
  `return` leads out of.
* `Natives.Neutral`: native code that behaves like a body.
-/

namespace StashMachine

open Environment Step

/-- Native code that leaves control and the current frame as it finds them, leaves one value on the
stash, and binds no closure that does not return. -/
def Natives.Neutral (natives : Natives) : Prop :=
  ∀ key native r r', natives.get? key = some native → native.call r = .ok () r' →
    r'.control = r.control ∧ r'.env.current = r.env.current ∧ (∃ v, r'.stash = .value v :: r.stash) ∧
      ∀ k, r'.env.Binds k → r.env.Binds k ∨ k.callable.Returns

theorem Natives.neutral_empty : Natives.empty.Neutral := by
  intro key native r r' h
  cases h

section CallSteps

variable {g : Regime} {b : Base} {K c : List Item} {S s : List StashItem} {env : Environment}
  {out : List String} {σ : List Kind} {l : Level}

/-! ### Types -/

theorem Level.stands_of_typing {s' : List StashItem} (hl : l = .value ∨ l = .opening)
    (h : l.Stands env s) : l.Stands env s' := by
  rcases hl with rfl | rfl <;> exact h

theorem typeOf_stays (hsound : Sound g env) (hl : l = .value ∨ l = .opening)
    (hstands : l.Stands env s) {e : Expr} (hf : Flows g b (.typeOf e :: c) l env.current σ)
    (hs : List.Forall₂ (Holds g env) σ s) :
    Ends (Step.typeOf e) ⟨c ++ K, s ++ S, env, out⟩ (fun _ r => Stays g b K S env r)
      (fun e _ => g.Blames e) := by
  replace hf : Flows g b c l env.current (.type :: σ) := by
    rcases hl with rfl | rfl <;> exact hf
  have hpush : ∀ {x : Environment → Except Fault TypeName}, (g.careful → Flawless (x env)) →
      Ends (ask x >>= fun t => push (.type t)) ⟨c ++ K, s ++ S, env, out⟩
        (fun _ r => Stays g b K S env r) (fun e _ => g.Blames e) := by
    intro x hx
    simp only [ends_bind, ends_ask, ends_push]
    refine ⟨fun t _ => ?_, fun e he hg => (hx hg).blames he hg⟩
    exact Stays.intro (s := .type t :: s) (.refl env) (l.stands_of_typing hl hstands) hf
      (.cons (holds_type t) hs)
  unfold Step.typeOf
  split
  · rename_i p x
    rw [ends_schedule]
    refine Stays.intro (c := .typeOf (.name p) :: .typeOfField x :: c) (.refl env) hstands ?_ hs
    rcases hl with rfl | rfl <;> exact ⟨σ, rfl, hf⟩
  · exact hpush (fun _ => env.flawless_nameType _)
  · exact hpush (fun hg => flawless_staticType (hsound.complete hg) e)

theorem typeOfField_stays (hl : l = .value ∨ l = .opening) (hstands : l.Stands env s) {x : String}
    (hf : Flows g b (.typeOfField x :: c) l env.current σ) (hs : List.Forall₂ (Holds g env) σ s) :
    Ends (typeOfField x) ⟨c ++ K, s ++ S, env, out⟩ (fun _ r => Stays g b K S env r)
      (fun e _ => g.Blames e) := by
  obtain ⟨τ, rfl, hf'⟩ : ∃ τ, σ = .type :: τ ∧ Flows g b c l env.current (.type :: τ) := by
    rcases hl with rfl | rfl <;> exact hf
  cases hs with
  | cons ht hs =>
    obtain ⟨t, rfl⟩ := ht
    simp only [typeOfField, List.cons_append, ends_bind, ends_popType_type, ends_ask, ends_push]
    refine ⟨fun u _ => ?_, fun e he => (env.flawless_fieldType _ _).blames he⟩
    exact Stays.intro (s := .type u :: _) (.refl env) (l.stands_of_typing hl hstands) hf'
      (.cons (holds_type u) hs)

/-! ### Selection -/

theorem addReceiver?_exprs (es : List Expr) (n : Nat) (rest : List Item) :
    addReceiver? es.length (es.map .expr ++ .invoke n :: rest)
      = some (es.map .expr ++ .invoke (n + 1) :: rest) := by
  induction es with
  | nil => rfl
  | cons e es ih => simp [addReceiver?, ih]

theorem overload_stays (hsound : Sound g env) {name : String} {n : Nat} {q : Path}
    (hf : Flows g b (.overload name n q :: c) .value env.current σ)
    (hs : List.Forall₂ (Holds g env) σ s) :
    Ends (overload name n q) ⟨c ++ K, s ++ S, env, out⟩ (fun _ r => Stays g b K S env r)
      (fun e _ => g.Blames e) := by
  obtain ⟨τ, rfl, hpending⟩ := hf
  obtain ⟨es, c', rfl, rfl, hf⟩ := exists_of_flows_pending hpending
  obtain ⟨top, below, rfl, hn, htop, hbelow⟩ := forall₂_replicate hs
  obtain ⟨_, rest, ⟨t, rfl⟩, hrest, rfl⟩ := List.forall₂_cons_left_iff.mp hbelow
  rw [overload, ends_bind, List.append_assoc top]
  refine ends_popTypes hn htop (fun ts hts => ?_)
  simp only [ends_bind, List.cons_append, ends_popType_type, ends_ask, ends_push]
  refine ⟨fun k hk => ?_, fun e he hg =>
    (flawless_resolveMethod (hsound.complete hg) _ _ _).blames he hg⟩
  have hk := hsound.callee_of_resolveMethod hk
  rw [hts] at hk
  rw [ends_ite]
  refine ⟨fun hstatic => ?_, fun hstatic => ?_⟩
  · -- no receiver: the invocation is right as it was queued
    rw [hstatic] at hk
    refine Stays.value (s := .closure k :: rest) (.refl env) ?_ (.cons (holds_callee hk) hrest)
    exact flows_exprs es ⟨τ, hf, .inl rfl⟩
  · -- the invocation takes the receiver as one argument more
    rw [Bool.not_eq_true] at hstatic
    rw [hstatic] at hk
    simp only [ends_bind, ends_get, List.append_assoc, List.cons_append, addReceiver?_exprs,
      ends_set, ends_schedule]
    have hargs : Flows g b (es.map .expr ++ Item.invoke (es.length + 1) :: c') .value env.current
        (.receiver :: .method es.length :: τ) :=
      flows_exprs es ⟨τ, hf, .inr ⟨es.length, rfl, rfl⟩⟩
    have hqueue : Flows g b (.expr (.name q) :: ((if q = .simple superName then [] else [Item.override])
        ++ (es.map .expr ++ Item.invoke (es.length + 1) :: c'))) .value env.current
        (.method es.length :: τ) := by
      by_cases hq : q = .simple superName
      · rw [if_pos hq]
        exact .inr ⟨superName, by rw [hq], fun _ => rfl, hargs⟩
      · rw [if_neg hq]
        exact .inl ⟨es.length, τ, rfl, hargs⟩
    exact Stays.of_eq (l := .value) (s := .closure k :: rest) (by simp) (.refl env) trivial hqueue
      (.cons (holds_method hk) hrest)

theorem override_stays (hsound : Sound g env)
    (hf : Flows g b (.override :: c) .value env.current σ) (hs : List.Forall₂ (Holds g env) σ s) :
    Ends override ⟨c ++ K, s ++ S, env, out⟩ (fun _ r => Stays g b K S env r)
      (fun e _ => g.Blames e) := by
  obtain ⟨n, τ, rfl, hf⟩ := hf
  cases hs with
  | cons hi hs =>
    cases hs with
    | cons hk hs =>
      obtain ⟨k, rfl, hk⟩ := hk
      simp only [override, List.cons_append, ends_bind, ends_pop, ends_popClosure_closure]
      rcases hi with ⟨v, rfl⟩ | ⟨d, rfl⟩
      · cases v with
        | object d frame =>
          simp only [ends_bind, ends_ask, ends_push, ends_pushValue]
          refine ⟨fun k' hk' => ?_, fun e he => by cases he⟩
          cases hk'
          exact Stays.value (s := .value (.object d frame) :: .closure _ :: _) (.refl env) hf
            (.cons (holds_receiver (fun _ => .inl ⟨d, frame, rfl⟩))
              (.cons (holds_method (hsound.callee_resolveOverride d hk)) hs))
        | _ => exact Regime.blames_of_ordinary trivial
      · exact Regime.blames_of_ordinary trivial

theorem overloadConstructor_stays (hsound : Sound g env) (hl : l = .value ∨ l = .opening)
    (hstands : l.Stands env s) {d : String} {n : Nat}
    (hf : Flows g b (.overloadConstructor d n :: c) l env.current σ)
    (hs : List.Forall₂ (Holds g env) σ s) :
    Ends (overloadConstructor d n) ⟨c ++ K, s ++ S, env, out⟩ (fun _ r => Stays g b K S env r)
      (fun e _ => g.Blames e) := by
  obtain ⟨τ, rfl, hf'⟩ : ∃ τ, σ = List.replicate n .type ++ τ ∧
      Flows g b c l env.current (.method n :: τ) := by
    rcases hl with rfl | rfl <;> exact hf
  obtain ⟨top, rest, rfl, hn, htop, hs⟩ := forall₂_replicate hs
  rw [overloadConstructor, ends_bind, List.append_assoc top]
  refine ends_popTypes hn htop (fun ts hts => ?_)
  simp only [ends_bind, ends_ask, ends_push]
  refine ⟨fun k hk => ?_, fun e he hg =>
    (flawless_resolveConstructor (hsound.complete hg) _ _).blames he hg⟩
  have hk := hsound.callee_of_resolveConstructor hk
  rw [hts] at hk
  exact Stays.intro (s := .closure k :: rest) (.refl env) (l.stands_of_typing hl hstands) hf'
    (.cons (holds_method hk) hs)

theorem new_stays {d : String} (hf : Flows g b (.new d :: c) .value env.current σ)
    (hs : List.Forall₂ (Holds g env) σ s) :
    Ends (Step.new d) ⟨c ++ K, s ++ S, env, out⟩ (fun _ r => Stays g b K S env r)
      (fun e _ => g.Blames e) := by
  refine (new_ends d _).mono ?_ ?_
  · rintro - r ⟨d, -, -, rfl⟩
    have hev : g.Evolves env (env.instantiate d).2 := .of_lasts (Lasts.instantiate env d)
    exact Stays.value (s := .value _ :: s) hev hf
      (.cons (holds_receiver (fun _ => .inl ⟨d, _, rfl⟩)) (holds_mono hev hs))
  · rintro e r (⟨he, -⟩ | ⟨c, y, -, -, rfl, -⟩)
    · exact (env.flawless_findClass _).blames he
    · exact Regime.blames_of_ordinary trivial

/-! ### Receivers and parameters -/

/-- The current frame itself binds the receiver, which is an object. -/
def BindsReceiver (env : Environment) : Prop :=
  ∃ x v d f, env.bound? env.current thisName = some (.var x) ∧ env.var? x = some v ∧
    v.value = some (.object d f)

theorem BindsReceiver.hasReceiver (h : BindsReceiver env) : HasReceiver env := by
  obtain ⟨x, v, d, f, hx, hv, ho⟩ := h
  exact ⟨x, v, d, f, lookup?_eq_of_bound? hx, hv, ho⟩

theorem HasReceiver.extend (h : HasReceiver env) (name : String) :
    HasReceiver (env.extend env.current name) := by
  obtain ⟨x, v, d, f, hx, hv, ho⟩ := h
  exact ⟨x, v, d, f, by rw [lookup?_extend, hx], hv, ho⟩

/-- Further variables do not hide the receiver, since its name is taken. -/
theorem BindsReceiver.addVariable (h : BindsReceiver env) {v : Variable}
    (hfree : env.bindsHere v.name = false) : BindsReceiver (env.addVariable v) := by
  obtain ⟨x, w, d, f, hx, hw, ho⟩ := h
  exact ⟨x, w, d, f, ((Lasts.refl env).declare hfree).kept _ _ _ hx, Lasts.var?_of_allocate hw, ho⟩

section Bind

variable {control : List Item} {stash : List StashItem}

theorem bindParams_keeps (ps : List Param) (vs : List Value) :
    Step.Keeps g (bindParams ps vs) ⟨control, stash, env, out⟩
      (fun _ env' => BindsReceiver env → BindsReceiver env') := by
  induction ps generalizing env vs with
  | nil => exact Step.keeps_pure id
  | cons p ps ih =>
    cases vs with
    | nil => exact Step.keeps_pure id
    | cons v vs =>
      simp only [bindParams, Step.Keeps, ends_bind, ends_ofExcept, ends_declare]
      refine ⟨fun w _ => ⟨fun hfree => ?_, fun _ => Regime.blames_of_ordinary trivial⟩,
        fun e he => (v.flawless_coerce _).blames he⟩
      refine (ih vs).mono ?_ (fun _ _ h => h)
      rintro - r ⟨hc, hst, hcurrent, hev, hbinds⟩
      refine ⟨hc, hst, hcurrent, ?_, fun h => hbinds (h.addVariable hfree)⟩
      exact Regime.Evolves.trans (.of_lasts ((Lasts.refl env).declare hfree)) hev

theorem bindReceiver_keeps (hsize : env.current < env.frames.size) (k : Closure)
    (object : Class × FrameId) :
    Step.Keeps g (bindReceiver k object) ⟨control, stash, env, out⟩
      (fun _ env' => BindsReceiver env') := by
  simp only [bindReceiver, Step.Keeps, ends_bind, ends_declare]
  refine ⟨fun hfree => ?_, fun _ => Regime.blames_of_ordinary trivial⟩
  generalize hthis : (⟨thisName, .named k.className, some (.object object.1 object.2)⟩ : Variable) = this
  have hname : this.name = thisName := by rw [← hthis]
  have hlasts : Lasts env (env.addVariable this) :=
    (Lasts.refl env).declare (by rw [hname]; exact hfree)
  have hbinds : BindsReceiver (env.addVariable this) := by
    refine ⟨env.vars.size, this, object.1, object.2, ?_, ?_, by rw [← hthis]⟩
    · rw [bound?_addVariable, if_pos ⟨rfl, hsize, hname.symm⟩]
    · rw [var?_addVariable, if_pos rfl]
  rw [ends_ask]
  refine ⟨fun d _ => ?_, fun e he => (flawless_findClass _ _).blames he⟩
  split
  · simp only [ends_bind, ends_declare, ends_pure]
    refine ⟨fun hfree' => ?_, fun _ => Regime.blames_of_ordinary trivial⟩
    exact ⟨trivial, trivial, rfl, .of_lasts (hlasts.declare hfree'), hbinds.addVariable hfree'⟩
  · exact ⟨rfl, rfl, rfl, .of_lasts hlasts, hbinds⟩

end Bind

/-! ### Invocations -/

section Enter

variable {natives : Natives} {env' : Environment} {k : Closure} {n : Nat} {isStatic : Bool} {τ : List Kind}

/-- The body of a constructor may start with a call of another one, as long as the receiver is
untouched. -/
theorem enter_constructor_stays {d : ConstructorDecl} (hk : g.Callee k isStatic n)
    (hd : k.callable = .constructor d) (hev : g.Evolves env env')
    (hland : Flows g b c .land env'.current τ) (hs : List.Forall₂ (Holds g env') τ s)
    (hthis : HasReceiver env') :
    Ends (schedule [.stmt (.block d.body)]) ⟨c ++ K, s ++ S, env', out⟩ (fun _ r => Stays g b K S env r)
      (fun e _ => g.Blames e) := by
  have hreturns : EndsInReturn d.body := by
    have h := hk.1
    rw [hd] at h
    exact h
  rw [ends_schedule]
  by_cases hplain : ∀ s ∈ d.body, g.Plain s
  · refine Stays.stmt (c := .stmt (.block d.body) :: c) hev ⟨fun hg => ?_, .inr ⟨hreturns, hland⟩⟩ hs
    exact Stmt.anyDelegates_eq_false.mpr (fun s' hs' => hplain s' hs' hg)
  · have hg : g.careful := by
      by_contra hg
      exact hplain (fun s' _ hg' => absurd hg' hg)
    have hlead : LeadsPlainly d.body := by
      have h := (hk.2 hg).2.2.2
      rw [hd] at h
      exact h
    rcases hlead with hall | ⟨args, rest, hbody, hrest⟩
    · exact absurd (fun s' hs' _ => hall s' hs') hplain
    · refine Stays.intro (l := .opening) (c := .stmt (.block d.body) :: c) hev hthis ?_ hs
      obtain ⟨before, e, hbefore⟩ := hreturns
      rw [hbody] at hbefore ⊢
      refine .inl ⟨args, rest, rfl, ?_, fun s' hs' _ => hrest s' hs', hland⟩
      cases before with
      | nil => cases hbefore
      | cons s₀ before =>
        cases hbefore
        exact ⟨before, e, rfl⟩

variable (hneutral : natives.Neutral) (hnative : g.careful → natives = [])

include hneutral hnative

/-- Native code leaves its result where a body would return it. -/
theorem callNative_stays (hev : g.Evolves env env') (hland : Flows g b c .land env'.current τ)
    (hs : List.Forall₂ (Holds g env') τ s) :
    Ends (callNative natives k) ⟨c ++ K, s ++ S, env', out⟩ (fun _ r => Stays g b K S env r)
      (fun e _ => g.Blames e) := by
  simp only [callNative, ends_bind, ends_schedule]
  split
  · rename_i native hget
    have hcareful : ¬ g.careful := by
      intro hg
      rw [hnative hg] at hget
      cases hget
    unfold Ends
    split
    · rename_i r' hcall
      obtain ⟨hc, hcurrent, ⟨v, hst⟩, hbinds⟩ := hneutral _ _ _ _ hget hcall
      have hev' : g.Evolves env' r'.env := ⟨hbinds, fun hg => absurd hg hcareful⟩
      refine ⟨hev.trans hev', .reset .ret :: c, .value v :: s, hc, hst, .value, .result :: τ,
        trivial, ⟨rfl, τ, rfl, .inr (flows_land_frame hland)⟩, ?_⟩
      exact .cons (holds_value v) (holds_mono hev' hs)
    · exact fun hg => absurd hg hcareful
  · exact Regime.blames_of_ordinary trivial

/-- A body is queued over the marker of its call. -/
theorem enter_stays (hk : g.Callee k isStatic n) (hev : g.Evolves env env')
    (hland : Flows g b c .land env'.current τ) (hs : List.Forall₂ (Holds g env') τ s)
    (hthis : ∀ d, k.callable = .constructor d → HasReceiver env') :
    Ends (enter natives k) ⟨c ++ K, s ++ S, env', out⟩ (fun _ r => Stays g b K S env r)
      (fun e _ => g.Blames e) := by
  unfold enter
  split
  · rename_i d hd
    exact enter_constructor_stays hk hd hev hland hs (hthis d hd)
  · rename_i m hm
    split
    · exact callNative_stays hneutral hnative hev hland hs
    · split
      · rename_i body hbody
        have hreturns := hk.1
        rw [hm] at hreturns
        rw [ends_schedule]
        refine Stays.stmt (c := .stmt (.block body) :: c) hev
          ⟨fun hg => ?_, .inr ⟨hreturns body hbody, hland⟩⟩ hs
        have hplain := (hk.2 hg).2.2.2
        rw [hm] at hplain
        exact Stmt.anyDelegates_eq_false.mpr (hplain body hbody)
      · exact Regime.blames_of_ordinary trivial

end Enter

/-- What an invocation finds on the stash: values or classes, over a closure that waits for as many,
and the receiver below the arguments. -/
theorem exists_call {n : Nat} (hf : Flows g b (.invoke n :: c) .value env.current σ)
    (hs : List.Forall₂ (Holds g env) σ s) :
    ∃ top k rest τ isStatic arity, s = top ++ .closure k :: rest ∧ top.length = n ∧
      (∀ i ∈ top, (∃ v, i = .value v) ∨ ∃ d, i = .cls d) ∧ g.Callee k isStatic arity ∧
      (isStatic = true ∧ arity = n ∨ isStatic = false ∧ arity + 1 = n ∧
        ∀ i, top.getLast? = some i → Holds g env .receiver i) ∧
      Flows g b c .value env.current (.result :: τ) ∧ List.Forall₂ (Holds g env) τ rest := by
  obtain ⟨τ, hf, rfl | ⟨n, rfl, rfl⟩⟩ := hf
  · obtain ⟨top, below, rfl, hn, htop, hbelow⟩ := forall₂_replicate hs
    obtain ⟨_, rest, ⟨k, rfl, hk⟩, hrest, rfl⟩ := List.forall₂_cons_left_iff.mp hbelow
    exact ⟨top, k, rest, τ, true, n, rfl, hn, htop, hk, .inl ⟨rfl, rfl⟩, hf, hrest⟩
  · obtain ⟨top, below, rfl, hn, htop, hbelow⟩ := forall₂_replicate hs
    obtain ⟨i, below, hi, hmethod, rfl⟩ := List.forall₂_cons_left_iff.mp hbelow
    obtain ⟨_, rest, ⟨k, rfl, hk⟩, hrest, rfl⟩ := List.forall₂_cons_left_iff.mp hmethod
    refine ⟨top ++ [i], k, rest, τ, false, n, by simp, by simp [hn], ?_, hk,
      .inr ⟨rfl, rfl, fun i' hi' => ?_⟩, hf, hrest⟩
    · intro i' hi'
      rcases List.mem_append.mp hi' with hi' | hi'
      · exact htop i' hi'
      · obtain rfl := List.mem_singleton.mp hi'
        rcases hi with ⟨v, rfl, -⟩ | hi
        · exact .inl ⟨v, rfl⟩
        · exact .inr hi
    · rw [List.getLast?_append_of_ne_nil _ (by simp)] at hi'
      cases hi'
      exact hi

/-- Closures that are not static split an object off their arguments. -/
theorem isSome_of_receiver {k : Closure} {vs args : List Value} {object : Option (Class × FrameId)}
    (hk : k.callable.isStatic = false) (h : receiver k vs = .ok (object, args)) : object.isSome := by
  unfold receiver at h
  rw [hk] at h
  simp only [Bool.false_eq_true, if_false] at h
  split at h <;> cases h
  rfl

/-- A receiver is refused only if it is odd. -/
theorem receiver_blames {k : Closure} {v : Value} {vs : List Value} {e : Fault}
    (hv : Holds g env .receiver (.value v)) (h : receiver k (v :: vs) = .error e) : g.Blames e := by
  unfold receiver at h
  split at h
  · cases h
  · split at h
    · cases h
    · cases h
      exact Regime.blames_of_ordinary trivial
    · rename_i w args hobject hnull heq
      cases heq
      cases h
      refine Regime.blames_internal (fun hg => .inr (.inr (.inr ⟨_, v, rfl, ?_, hnull, hobject⟩)))
      rcases hv with ⟨w, hw, hodd⟩ | ⟨d, hd⟩
      · cases hw
        rcases hodd hg with ⟨d, f, rfl⟩ | hodd
        · exact absurd rfl (hobject d f)
        · exact hodd
      · cases hd
    · rename_i heq
      cases heq

theorem invoke_stays {natives : Natives} (hneutral : natives.Neutral)
    (hnative : g.careful → natives = []) {n : Nat}
    (horigin : g.origin (.marker .ret :: .restore env.current :: c))
    (hf : Flows g b (.invoke n :: c) .value env.current σ) (hs : List.Forall₂ (Holds g env) σ s) :
    Ends (invoke natives n) ⟨c ++ K, s ++ S, env, out⟩ (fun _ r => Stays g b K S env r)
      (fun e _ => g.Blames e) := by
  obtain ⟨top, k, rest, τ, isStatic, arity, rfl, hn, htop, hk, hcount, hf', hrest⟩ :=
    exists_call hf hs
  rw [invoke, ends_bind, List.append_assoc top]
  refine ends_popValues hn htop (fun vs hvs => ?_)
  have hlen : vs.length = n := by
    have := congrArg List.length hvs
    simpa [hn] using this
  simp only [List.cons_append, ends_bind, ends_popClosure_closure, ends_ite, ends_throw]
  refine ⟨fun hne hg => ?_, fun _ => ?_⟩
  · -- a careful run puts down the right number of arguments
    obtain ⟨hstatic, harity, -⟩ := hk.2 hg
    refine absurd ?_ hne
    rcases hcount with ⟨rfl, rfl⟩ | ⟨rfl, rfl, -⟩ <;> simp [hstatic, harity, hlen]
  simp only [ends_here, ends_schedule, ends_ofExcept]
  refine ⟨?_, fun e he hg => ?_⟩
  · rintro ⟨object, args⟩ hreceiver
    simp only [ends_extend]
    have hev : ∀ f name, g.Evolves env (env.extend f name) :=
      fun f name => .of_lasts ((Lasts.refl env).extend f name)
    have hbody : ∀ env' out', g.Evolves env env' → (object.isSome → BindsReceiver env') →
        Ends (do bindParams k.callable.params args; enter natives k)
          ⟨.marker .ret :: .restore env.current :: (c ++ K), rest ++ S, env', out'⟩
          (fun _ r => Stays g b K S env r) (fun e _ => g.Blames e) := by
      intro env' out' hev' hobject
      refine (bindParams_keeps _ _).bind (fun _ env'' _ _ hev'' hbinds => ?_)
      have hev₂ := hev'.trans hev''
      refine enter_stays (c := .marker .ret :: .restore env.current :: c) hneutral hnative hk hev₂
        ⟨⟨_, c, rfl, horigin⟩, hf'⟩ (holds_mono hev₂ hrest) (fun d hd => ?_)
      have hstatic : k.callable.isStatic = false := by
        rw [hd]
        rfl
      exact (hbinds (hobject (isSome_of_receiver hstatic hreceiver))).hasReceiver
    cases object with
    | none => exact hbody _ _ (hev _ _) (by simp)
    | some object =>
      have hsize : ∀ f name, (env.extend f name).current < (env.extend f name).frames.size := by
        intro f name
        simp [Environment.extend]
      exact (bindReceiver_keeps (hsize _ _) k object).bind
        (fun _ env' out' _ hev' hbinds =>
          hbody env' out' ((hev _ _).trans hev') (fun _ => hbinds))
  · -- the first argument is what stands last above the closure
    obtain ⟨hstatic, -⟩ := hk.2 hg
    rcases hcount with ⟨rfl, -⟩ | ⟨rfl, rfl, hlast⟩
    · unfold receiver at he
      rw [if_pos hstatic] at he
      cases he
    · obtain ⟨v, args, rfl⟩ := List.exists_cons_of_length_eq_add_one hlen
      refine receiver_blames (hlast _ ?_) he hg
      rw [List.getLast?_eq_head?_reverse, ← hvs]
      rfl

end CallSteps

end StashMachine
