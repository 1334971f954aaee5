import StashMachine.Proofs.CallSteps
import StashMachine.Proofs.Unwind

/-!
# StashMachine.Proofs.StmtSteps — the steps of statements stay on track

* `Item.Opens`: the items that put down a marker with the way back to the current frame, or a jump.
* One lemma for each item that statements are executed by.
* `Escapes`: a jump has left the piece of control that is looked at.
* `perform_goes`: every step stays on track or is a jump that escapes, or it stops with a fault that is
  blamed on the program or is a jump that finds no marker.
-/

namespace StashMachine

open Environment Step

/-- Performed in the frame `f`, the item puts down the marker of a construct and behind it the way back
to `f`, or a jump. -/
inductive Item.Opens (f : FrameId) : Item → List Item → Prop
  | loop (c : Expr) (body : Stmt) : Opens f (.stmt (.loop c body)) [.marker .brk, .restore f]
  | forLoop (init : List Stmt) (c : Option Expr) (update : List Stmt) (body : Stmt) :
    Opens f (.stmt (.forLoop init c update body)) [.marker .brk, .restore f]
  | switch (e : Expr) (arms : List (Arm Stmt)) :
    Opens f (.stmt (.switch e arms)) [.marker .brk, .restore f]
  | whileRound (body : Stmt) (update : List Stmt) (c : Expr) (again : Stmt) :
    Opens f (.branch (.stmt body :: .marker .cont :: .restore f
        :: (update.map .stmt ++ [.whileRound c again])) [])
      (.marker .cont :: .restore f :: (update.map .stmt ++ [.whileRound c again]))
  | forRound (body : Stmt) (update : List Stmt) (c : Option Expr) (update' : List Stmt) (again : Stmt) :
    Opens f (.branch (.stmt body :: .marker .cont :: .restore f
        :: (update.map .stmt ++ [.forRound c update' again])) [])
      (.marker .cont :: .restore f :: (update.map .stmt ++ [.forRound c update' again]))
  | call (n : Nat) : Opens f (.invoke n) [.marker .ret, .restore f]
  | breakOut : Opens f (.stmt .breakOut) [.reset .brk]
  | continueLoop : Opens f (.stmt .continueLoop) [.reset .cont]

section StmtSteps

variable {g : Regime} {b : Base} {K c : List Item} {S s : List StashItem} {env : Environment}
  {out : List String} {σ : List Kind}

/-! ### Statements -/

theorem declareOne_stays {l : Level} (hl : l = .stmt ∨ l = .done) {t : TypeName} {d : Declarator}
    {default : Option Literal} (hf : Flows g b c l env.current σ)
    (hs : List.Forall₂ (Holds g env) σ s) :
    Ends (declareOne t d default) ⟨c ++ K, s ++ S, env, out⟩ (fun _ r => Stays g b K S env r)
      (fun e _ => g.Blames e) := by
  have hev : ∀ {v : Variable}, env.bindsHere v.name = false → g.Evolves env (env.addVariable v) :=
    fun hfree => .of_lasts ((Lasts.refl env).declare hfree)
  unfold declareOne
  split
  · rename_i init hinit
    simp only [ends_bind, ends_declare, ends_push, ends_schedule]
    refine ⟨fun hfree => ?_, fun _ => Regime.blames_of_ordinary trivial⟩
    refine Stays.value (c := .expr init :: .assign :: .pop :: c) (s := .var _ :: s) (hev hfree)
      (.inl ⟨σ, rfl, σ, rfl, ?_⟩) (.cons (holds_var (fun _ => ?_)) (holds_mono (hev hfree) hs))
    · rcases hl with rfl | rfl
      · exact .inl hf
      · exact .inr hf
    · exact ⟨_, by rw [newestVariable_addVariable, var?_addVariable, if_pos rfl]⟩
  · simp only [ends_bind, ends_declare, ends_pure]
    refine ⟨fun hfree => ?_, fun _ => Regime.blames_of_ordinary trivial⟩
    refine Stays.intro (hev hfree) ?_ hf (holds_mono (hev hfree) hs)
    rcases hl with rfl | rfl <;> trivial

theorem declareLocal_stays {t : TypeName} {vars : List Declarator}
    (hf : Flows g b c .stmt env.current σ) (hs : List.Forall₂ (Holds g env) σ s) :
    Ends (declareLocal t vars) ⟨c ++ K, s ++ S, env, out⟩ (fun _ r => Stays g b K S env r)
      (fun e _ => g.Blames e) := by
  unfold declareLocal
  split
  · exact Stays.stmt (.refl env) hf hs
  · exact declareOne_stays (.inl rfl) hf hs
  · rw [ends_schedule, ← List.append_assoc]
    have hmap : vars.map (fun d => Item.stmt (.declare t [d]))
        = (vars.map (fun d => Stmt.declare t [d])).map .stmt := by simp
    rw [hmap]
    refine Stays.stmt (.refl env) (flows_stmts (fun s' hs' _ => ?_) hf) hs
    obtain ⟨d, -, rfl⟩ := List.mem_map.mp hs'
    rfl

/-- A call of another constructor, seen as an expression that is dropped. -/
theorem construct_stays {l : Level} (hl : l = .value ∨ l = .opening) (hstands : l.Stands env s)
    {who : Delegate} {args : List Expr}
    (hwho : ∀ {c' : List Item}, Flows g b c' .value env.current (.receiver :: .method args.length :: σ) →
      Flows g b (.expr (.name (.simple who.text)) :: c') l env.current (.method args.length :: σ))
    (hf : Flows g b c .stmt env.current σ) (hs : List.Forall₂ (Holds g env) σ s) :
    Ends (construct who args) ⟨c ++ K, s ++ S, env, out⟩ (fun _ r => Stays g b K S env r)
      (fun e _ => g.Blames e) := by
  simp only [construct, ends_bind, ends_ask, ends_typeOfVar, ends_schedule]
  refine ⟨fun x _ => ?_, fun e he => (env.flawless_findVariable _).blames he⟩
  generalize (((env.var? x).map Variable.type).getD .void).text = d
  have hcall := hwho (flows_exprs args (c := .invoke (args.length + 1) :: .pop :: c)
    ⟨σ, ⟨σ, rfl, .inl hf⟩, .inr ⟨args.length, rfl, rfl⟩⟩)
  refine Stays.of_eq (c := args.map .typeOf ++ Item.overloadConstructor d args.length ::
    Item.expr (.name (.simple who.text)) :: (args.map .expr ++ Item.invoke (args.length + 1) :: .pop :: c))
    (by simp) (.refl env) hstands (flows_typeOfs hl args ?_) hs
  rcases hl with rfl | rfl <;> exact ⟨σ, rfl, hcall⟩

theorem execute_stays {s₀ : Stmt} (hplain : g.Plain s₀)
    (horigin : ∀ new, Item.Opens env.current (.stmt s₀) new → g.origin (new ++ c))
    (hf : Flows g b c .stmt env.current σ ∨ s₀.Leaves ∧ Flows g b c .land env.current σ)
    (hs : List.Forall₂ (Holds g env) σ s) :
    Ends (execute s₀) ⟨c ++ K, s ++ S, env, out⟩ (fun _ r => Stays g b K S env r)
      (fun e _ => g.Blames e) := by
  have hext : ∀ f name, g.Evolves env (env.extend f name) :=
    fun f name => .of_lasts ((Lasts.refl env).extend f name)
  have hback : ∀ {j f'}, j ≠ .ret → Item.Opens env.current (.stmt s₀) [.marker j, .restore env.current] →
      Flows g b c .stmt env.current σ →
      Flows g b (.marker j :: .restore env.current :: c) .stmt f' σ :=
    fun hj hopens h => ⟨hj, ⟨_, c, rfl, horigin _ hopens⟩, h⟩
  -- only a `return` and a body can stand where nothing but a `return` leads on
  have hnext : ¬ s₀.Leaves → Flows g b c .stmt env.current σ :=
    fun h => hf.resolve_right (fun hl => h hl.1)
  cases s₀ with
  | block body =>
    simp only [execute, ends_bind, ends_here, ends_extend, ends_schedule]
    have hbody : ∀ s' ∈ body, g.Plain s' :=
      fun s' hs' hg => Stmt.anyDelegates_eq_false.mp (hplain hg) s' hs'
    refine Stays.of_eq (l := .stmt) (c := body.map .stmt ++ .restore env.current :: c) (by simp)
      (hext _ _) trivial ?_ (holds_mono (hext _ _) hs)
    rcases hf with hf | ⟨hreturn, hf⟩
    · exact flows_stmts hbody hf
    · exact flows_body hreturn hbody (flows_land_frame hf)
  | ret e =>
    exact Stays.value (c := .expr (e.getD .void) :: .reset .ret :: c) (.refl env)
      (.inl ⟨rfl, σ, rfl, hf.imp id And.right⟩) hs
  | declare t vars => exact declareLocal_stays (hnext id) hs
  | expr e =>
    exact Stays.value (c := .expr e :: .pop :: c) (.refl env) (.inl ⟨σ, rfl, .inl (hnext id)⟩) hs
  | ite e yes no =>
    refine Stays.value (c := .expr e :: .branch [.stmt yes] (no.toList.map .stmt) :: c) (.refl env)
      (.inl ⟨σ, rfl, .inr (.inl ⟨[yes], no.toList, rfl, rfl, fun s' hs' hg => ?_, hnext id⟩)⟩) hs
    have h := hplain hg
    simp only [Stmt.delegates, Bool.or_eq_false_iff] at h
    rcases List.mem_append.mp hs' with hs' | hs'
    · obtain rfl := List.mem_singleton.mp hs'
      exact h.1
    · obtain rfl := Option.mem_toList.mp hs'
      exact h.2
  | loop e body =>
    exact Stays.stmt (c := .whileRound e body :: .marker .brk :: .restore env.current :: c) (.refl env)
      ⟨hplain, hback (by simp) (.loop e body) (hnext id)⟩ hs
  | forLoop init e update body =>
    simp only [execute, ends_bind, ends_here, ends_extend, ends_schedule]
    have hparts : g.careful → (∀ s' ∈ init, s'.delegates = false) ∧
        (∀ s' ∈ update, s'.delegates = false) ∧ body.delegates = false := by
      intro hg
      have h := hplain hg
      simp only [Stmt.delegates, Bool.or_eq_false_iff, Stmt.anyDelegates_eq_false] at h
      exact ⟨h.1.1, h.1.2, h.2⟩
    refine Stays.of_eq (l := .stmt)
      (c := init.map .stmt ++ .forRound e update body :: .marker .brk :: .restore env.current :: c)
      (by simp) (hext _ _) trivial ?_ (holds_mono (hext _ _) hs)
    refine flows_stmts (fun s' hs' hg => (hparts hg).1 s' hs') ⟨⟨?_, fun hg => (hparts hg).2.2⟩, ?_⟩
    · exact fun s' hs' hg => (hparts hg).2.1 s' hs'
    · exact hback (by simp) (.forLoop init e update body) (hnext id)
  | switch e arms =>
    refine Stays.value (c := .expr e :: .switch arms :: .marker .brk :: .restore env.current :: c)
      (.refl env) (.inl ⟨fun arm harm s' hs' hg => ?_, ⟨_, rfl⟩, σ, rfl, ?_⟩) hs
    · exact Stmt.armsDelegate_eq_false.mp (hplain hg) arm harm s' hs'
    · exact hback (by simp) (.switch e arms) (hnext id)
  | breakOut =>
    exact Stays.stmt (c := .reset .brk :: c) (.refl env) ⟨by simp, horigin _ .breakOut, hnext id⟩ hs
  | continueLoop =>
    exact Stays.stmt (c := .reset .cont :: c) (.refl env) ⟨by simp, horigin _ .continueLoop, hnext id⟩ hs
  | empty => exact Stays.stmt (.refl env) (hnext id) hs
  | construct who args =>
    refine construct_stays (.inl rfl) trivial (fun h => .inr ⟨_, rfl, fun hg => ?_, h⟩) (hnext id) hs
    have h := hplain hg
    cases who with
    | this => simp [Stmt.delegates] at h
    | super => rfl

/-! ### Rounds, branches and groups -/

theorem whileRound_stays {e : Expr} {body : Stmt}
    (hf : Flows g b (.whileRound e body :: c) .stmt env.current σ)
    (hs : List.Forall₂ (Holds g env) σ s) :
    Ends (Step.whileRound e body) ⟨c ++ K, s ++ S, env, out⟩ (fun _ r => Stays g b K S env r)
      (fun e _ => g.Blames e) := by
  obtain ⟨hbody, hf⟩ := hf
  exact Stays.value (c := .expr e :: .branch
    [.stmt body, .marker .cont, .restore env.current, .whileRound e body] [] :: c) (.refl env)
    (.inl ⟨σ, rfl, .inr (.inr ⟨body, [], _, rfl, rfl, hbody, by simp, hbody, hf⟩)⟩) hs

theorem forRound_stays {e : Option Expr} {update : List Stmt} {body : Stmt}
    (hf : Flows g b (.forRound e update body :: c) .stmt env.current σ)
    (hs : List.Forall₂ (Holds g env) σ s) :
    Ends (Step.forRound e update body) ⟨c ++ K, s ++ S, env, out⟩ (fun _ r => Stays g b K S env r)
      (fun e _ => g.Blames e) := by
  obtain ⟨hround, hf⟩ := hf
  exact Stays.value (c := .expr _ :: .branch (.stmt body :: .marker .cont :: .restore env.current ::
    (update.map .stmt ++ [Item.forRound e update body])) [] :: c) (.refl env)
    (.inl ⟨σ, rfl, .inr (.inr ⟨body, update, _, rfl, rfl, hround.2, hround.1, hround, hf⟩)⟩) hs

theorem branch_stays {yes no : List Item}
    (horigin : ∀ new, Item.Opens env.current (.branch yes no) new → g.origin (new ++ c))
    (hf : Flows g b (.branch yes no :: c) .value env.current σ)
    (hs : List.Forall₂ (Holds g env) σ s) :
    Ends (Step.branch yes no) ⟨c ++ K, s ++ S, env, out⟩ (fun _ r => Stays g b K S env r)
      (fun e _ => g.Blames e) := by
  obtain ⟨τ, rfl, hf⟩ := hf
  obtain ⟨i, rest, hi, hrest, rfl⟩ := List.forall₂_cons_left_iff.mp hs
  -- both lists of items fit in the place of the branch
  have hlists : ∃ l : Level, (∀ s', l.Stands env s') ∧ Flows g b (yes ++ c) l env.current τ ∧
      Flows g b (no ++ c) l env.current τ := by
    rcases hf with ⟨l, r, rfl, rfl, hf⟩ | ⟨y, n, rfl, rfl, hplain, hf⟩ |
      ⟨body, update, round, rfl, rfl, hbody, hupdate, hround, hf⟩
    · exact ⟨.value, fun _ => trivial, .inl hf, .inl hf⟩
    · exact ⟨.stmt, fun _ => trivial, flows_stmts (fun s' hs' => hplain s' (by simp [hs'])) hf,
        flows_stmts (fun s' hs' => hplain s' (by simp [hs'])) hf⟩
    · have hagain : Flows g b (List.map .stmt update ++ [round] ++ c) .stmt env.current τ := by
        rw [List.append_assoc]
        refine flows_stmts hupdate ?_
        cases round with
        | whileRound e body => exact ⟨hround, hf⟩
        | forRound e update body => exact ⟨hround, hf⟩
        | _ => exact hround.elim
      refine ⟨.stmt, fun _ => trivial, ⟨hbody, .inl ⟨by simp, ⟨_, _, rfl, ?_⟩, hagain⟩⟩, hf⟩
      cases round with
      | whileRound e again => exact horigin _ (.whileRound body update e again)
      | forRound e update' again => exact horigin _ (.forRound body update e update' again)
      | _ => exact hround.elim
  obtain ⟨l, hstands, hyes, hno⟩ := hlists
  rw [Step.branch, ends_bind]
  refine ends_popResult hi (fun v => ?_)
  split
  · rw [ends_schedule]
    exact Stays.of_eq (List.append_assoc ..).symm (.refl env) (hstands _) hyes hrest
  · rw [ends_schedule]
    exact Stays.of_eq (List.append_assoc ..).symm (.refl env) (hstands _) hno hrest
  · exact Regime.blames_of_ordinary trivial

theorem mem_of_entered? {v : Value} {arms chosen : List (Arm Stmt)}
    (h : entered? v arms = .ok (some chosen)) : ∀ arm ∈ chosen, arm ∈ arms := by
  induction arms with
  | nil => cases h
  | cons arm arms ih =>
    obtain ⟨here, -, h⟩ := except_bind_eq_ok.mp h
    split at h
    · cases h
      exact fun _ h => h
    · exact fun arm' h' => .tail _ (ih h arm' h')

theorem mem_of_fallback? {arms chosen : List (Arm Stmt)} (h : fallback? arms = some chosen) :
    ∀ arm ∈ chosen, arm ∈ arms := by
  induction arms with
  | nil => cases h
  | cons arm arms ih =>
    unfold fallback? at h
    split at h
    · cases h
      exact fun _ h => h
    · exact fun arm' h' => .tail _ (ih h arm' h')

theorem switch_stays {arms : List (Arm Stmt)}
    (hf : Flows g b (.switch arms :: c) .value env.current σ)
    (hs : List.Forall₂ (Holds g env) σ s) :
    Ends (Step.switch arms) ⟨c ++ K, s ++ S, env, out⟩ (fun _ r => Stays g b K S env r)
      (fun e _ => g.Blames e) := by
  obtain ⟨hplain, ⟨c', rfl⟩, τ, rfl, hf⟩ := hf
  obtain ⟨i, rest, hi, hrest, rfl⟩ := List.forall₂_cons_left_iff.mp hs
  rw [Step.switch, ends_bind]
  refine ends_popResult hi (fun v => ?_)
  rw [ends_bind, ends_ofExcept]
  refine ⟨fun found hfound => ?_, fun e he => (flawless_entered? _ _).blames he⟩
  split
  · rename_i chosen hchosen
    have hmem : ∀ arm ∈ chosen, arm ∈ arms := by
      cases found with
      | some found =>
        cases hchosen
        exact mem_of_entered? hfound
      | none => exact mem_of_fallback? hchosen
    simp only [ends_bind, ends_here, ends_extend, ends_schedule]
    have hev : g.Evolves env (env.extend env.current blockFrame) :=
      .of_lasts ((Lasts.refl env).extend _ _)
    refine Stays.of_eq (l := .stmt) (List.append_assoc ..).symm hev trivial
      (flows_stmts (fun s' hs' => ?_) (flows_marker_frame hf)) (holds_mono hev hrest)
    obtain ⟨arm, harm, hs'⟩ := List.mem_flatMap.mp hs'
    exact hplain arm (hmem arm harm) s' hs'
  · exact Stays.stmt (.refl env) hf hrest

/-! ### Jumps -/

/-- A jump has left the piece of control that is looked at, with a result if it was a `return`. -/
def Escapes (b : Base) (K : List Item) (S : List StashItem) (j : Jump) (r : Registers) : Prop :=
  (∃ f, b = .statement f) ∧ unwind j K = .ok r.control ∧
    (j ≠ .ret ∧ r.stash = S ∨
      j = .ret ∧ ∃ i, ((∃ v, i = .value v) ∨ ∃ d, i = .cls d) ∧ r.stash = i :: S)

/-- A jump finds no marker. -/
def Misses (i : Item) (control : List Item) (e : Fault) : Prop :=
  ∃ j rest, i = .reset j ∧ e = .noMarker j ∧ unwind j control = .error rest

theorem reset_ret_goes (hf : Flows g b (.reset .ret :: c) .value env.current σ)
    (hs : List.Forall₂ (Holds g env) σ s) :
    Ends (Step.reset .ret) ⟨c ++ K, s ++ S, env, out⟩
      (fun _ r => Stays g b K S env r ∨ Escapes b K S .ret r)
      (fun e _ => Misses (.reset .ret) (c ++ K) e) := by
  obtain ⟨-, τ, rfl, hf⟩ := hf
  obtain ⟨i, rest, hi, hrest, rfl⟩ := List.forall₂_cons_left_iff.mp hs
  simp only [Step.reset, ends_bind, ends_get]
  have hlands : (∃ f' c', unwind .ret (c ++ K) = .ok (.restore f' :: c' ++ K) ∧
      Flows g b c' .value f' (.result :: τ)) ∨
      (∃ E, b = .statement E) ∧ τ = [] ∧ unwind .ret (c ++ K) = unwind .ret K := by
    rcases hf with hf | hf
    · exact unwind_ret hf K
    · exact .inl (unwind_land hf K)
  rcases hlands with ⟨f', c', hunwind, hf⟩ | ⟨hb, rfl, hunwind⟩
  · rw [hunwind]
    exact .inl (Stays.value (c := .restore f' :: c') (.refl env) hf (.cons hi hrest))
  · rw [hunwind]
    cases hrest
    split
    · rename_i rest hrest
      exact .inr ⟨hb, hrest, .inr ⟨rfl, i, hi, rfl⟩⟩
    · rename_i rest hrest
      exact ⟨.ret, rest, rfl, rfl, hunwind.trans hrest⟩

theorem reset_jump_goes {j : Jump} (hf : Flows g b (.reset j :: c) .stmt env.current σ)
    (hs : List.Forall₂ (Holds g env) σ s) :
    Ends (Step.reset j) ⟨c ++ K, s ++ S, env, out⟩
      (fun _ r => Stays g b K S env r ∨ Escapes b K S j r)
      (fun e _ => Misses (.reset j) (c ++ K) e) := by
  obtain ⟨hj, -, hf⟩ := hf
  simp only [Step.reset, ends_bind, ends_get]
  rcases unwind_jump hj hf K with ⟨f', c', hunwind, hf⟩ | ⟨rest, hunwind⟩ | ⟨hb, rfl, hunwind⟩
  · rw [hunwind]
    exact .inl (Stays.stmt (c := .restore f' :: c') (.refl env) hf hs)
  · rw [hunwind]
    exact ⟨j, rest, rfl, rfl, hunwind⟩
  · rw [hunwind]
    cases hs
    split
    · rename_i rest hrest
      exact .inr ⟨hb, hrest, .inl ⟨hj, rfl⟩⟩
    · rename_i rest hrest
      exact ⟨j, rest, rfl, rfl, hunwind.trans hrest⟩

/-! ### The start of a constructor -/

theorem execute_opening_stays {s₀ : Stmt} (hthis : HasReceiver env)
    (hf : Flows g b (.stmt s₀ :: c) .opening env.current σ) (hs : List.Forall₂ (Holds g env) σ s) :
    Ends (execute s₀) ⟨c ++ K, s ++ S, env, out⟩ (fun _ r => Stays g b K S env r)
      (fun e _ => g.Blames e) := by
  rcases hf with ⟨args, body, rfl, hreturn, hplain, hf⟩ | ⟨args, rfl, hf⟩
  · simp only [execute, ends_bind, ends_here, ends_extend, ends_schedule]
    have hev : g.Evolves env (env.extend env.current blockFrame) :=
      .of_lasts ((Lasts.refl env).extend _ _)
    refine Stays.of_eq (l := .opening)
      (c := .stmt (.construct .this args) :: (body.map .stmt ++ .restore env.current :: c))
      (by simp) hev (hthis.extend _) (.inr ⟨args, rfl, ?_⟩) (holds_mono hev hs)
    exact flows_body hreturn hplain (flows_land_frame hf)
  · exact construct_stays (.inr rfl) hthis (fun h => ⟨rfl, h⟩) hf hs

theorem find_opening_stays {p : Path} (hthis : HasReceiver env)
    (hf : Flows g b (.find p :: c) .opening env.current σ) (hs : List.Forall₂ (Holds g env) σ s) :
    Ends (find p) ⟨c ++ K, s ++ S, env, out⟩ (fun _ r => Stays g b K S env r)
      (fun e _ => g.Blames e) := by
  obtain ⟨rfl, hf⟩ := hf
  obtain ⟨x, v, d, f, hx, hv, ho⟩ := hthis
  simp only [find, ends_bind, ends_ask]
  refine ⟨fun b' hb' => ?_, fun e he => (env.flawless_findName _).blames he⟩
  rw [lookup?_of_findName hb'] at hx
  cases hx
  exact Stays.intro (l := .opened) (s := .var x :: s) (.refl env) ⟨x, v, d, f, s, rfl, hv, ho⟩ hf
    (.cons (holds_var (fun _ => ⟨v, hv⟩)) hs)

theorem deref_opened_stays (hstands : Level.opened.Stands env s)
    (hf : Flows g b (.deref :: c) .opened env.current σ) (hs : List.Forall₂ (Holds g env) σ s) :
    Ends deref ⟨c ++ K, s ++ S, env, out⟩ (fun _ r => Stays g b K S env r)
      (fun e _ => g.Blames e) := by
  obtain ⟨x, v, d, f, rest, rfl, hv, ho⟩ := hstands
  obtain ⟨τ, rfl, hf⟩ := hf
  cases hs with
  | cons _ hrest =>
    simp only [deref, List.cons_append, ends_bind, ends_pop, ends_ask, ends_pushValue]
    refine ⟨fun w hw => ?_, fun e he => (env.flawless_value x).blames he⟩
    obtain ⟨n, t, value⟩ := v
    cases ho
    rw [Environment.value, hv] at hw
    cases hw
    exact Stays.value (s := .value _ :: rest) (.refl env) hf
      (.cons (holds_receiver (fun _ => .inl ⟨d, f, rfl⟩)) hrest)

/-! ### Every step -/

/-- Every step stays on track or is a jump that escapes, or it stops with a fault that is blamed on the
program or is a jump that finds no marker. -/
theorem perform_goes {natives : Natives} (hneutral : natives.Neutral)
    (hnative : g.careful → natives = []) (hsound : Sound g env) (hknows : g.Knows env) {i : Item}
    (horigin : ∀ new, Item.Opens env.current i new → g.origin (new ++ c))
    (h : OnTrack g b (i :: c) s env) :
    Ends (perform natives i) ⟨c ++ K, s ++ S, env, out⟩
      (fun _ r => Stays g b K S env r ∨ ∃ j, i = .reset j ∧ Escapes b K S j r)
      (fun e _ => g.Blames e ∨ Misses i (c ++ K) e) := by
  obtain ⟨l, σ, hstands, hf, hs⟩ := h
  have stays : ∀ {x : Step Unit}, Ends x ⟨c ++ K, s ++ S, env, out⟩
      (fun _ r => Stays g b K S env r) (fun e _ => g.Blames e) →
      Ends x ⟨c ++ K, s ++ S, env, out⟩
        (fun _ r => Stays g b K S env r ∨ ∃ j, i = .reset j ∧ Escapes b K S j r)
        (fun e _ => g.Blames e ∨ Misses i (c ++ K) e) :=
    fun hx => hx.mono (fun _ _ h => .inl h) (fun _ _ h => .inl h)
  have resets : ∀ {x : Step Unit} {j}, i = .reset j → Ends x ⟨c ++ K, s ++ S, env, out⟩
      (fun _ r => Stays g b K S env r ∨ Escapes b K S j r) (fun e _ => Misses i (c ++ K) e) →
      Ends x ⟨c ++ K, s ++ S, env, out⟩
        (fun _ r => Stays g b K S env r ∨ ∃ j, i = .reset j ∧ Escapes b K S j r)
        (fun e _ => g.Blames e ∨ Misses i (c ++ K) e) :=
    fun hi hx => hx.mono (fun _ _ h => h.imp id (fun h => ⟨_, hi, h⟩)) (fun _ _ h => .inr h)
  cases l with
  | land | pending => exact hstands.elim
  | done => exact hf.elim
  | value =>
    cases i with
    | expr e =>
      rcases hf with hf | ⟨x, rfl, hx, hf⟩
      · exact stays (evaluate_stays hf hs)
      · exact stays (evaluate_name_stays hx hf hs)
    | find p => exact stays (find_stays hsound hf hs)
    | deref => exact stays (deref_stays hknows hf hs)
    | select x => exact stays (select_stays hsound hf hs)
    | load => exact stays (load_stays hf hs)
    | assign => exact stays (assign_stays hf hs)
    | compoundAssign op => exact stays (compoundAssign_stays hf hs)
    | increment op fix => exact stays (increment_stays hf hs)
    | binary op => exact stays (binary_stays hf hs)
    | unary op => exact stays (unary_stays hf hs)
    | arrayOf t n => exact stays (arrayOf_stays hf hs)
    | typeOf e => exact stays (typeOf_stays hsound (.inl rfl) hstands hf hs)
    | typeOfField x => exact stays (typeOfField_stays (.inl rfl) hstands hf hs)
    | overload name n q => exact stays (overload_stays hsound hf hs)
    | overloadConstructor d n =>
      exact stays (overloadConstructor_stays hsound (.inl rfl) hstands hf hs)
    | override => exact stays (override_stays hsound hf hs)
    | new d => exact stays (new_stays hf hs)
    | invoke n => exact stays (invoke_stays hneutral hnative (horigin _ (.call n)) hf hs)
    | restore f => exact .inl (Stays.value (.of_lasts ((Lasts.refl env).restore f)) hf
        (holds_mono (.of_lasts ((Lasts.refl env).restore f)) hs))
    | pop =>
      obtain ⟨τ, rfl, hf⟩ := hf
      cases hs with
      | cons _ hs =>
        simp only [perform, List.cons_append, ends_bind, ends_pop, ends_pure]
        rcases hf with hf | hf
        · exact .inl (Stays.stmt (.refl env) hf hs)
        · exact .inl (Stays.intro (l := .done) (.refl env) trivial hf hs)
    | reset j =>
      obtain rfl := hf.1
      exact resets rfl (reset_ret_goes hf hs)
    | switch arms => exact stays (switch_stays hf hs)
    | branch yes no => exact stays (branch_stays horigin hf hs)
    | _ => exact hf.elim
  | stmt =>
    cases i with
    | stmt s₀ => exact stays (execute_stays hf.1 horigin hf.2 hs)
    | restore f => exact .inl (Stays.stmt (.of_lasts ((Lasts.refl env).restore f)) hf
        (holds_mono (.of_lasts ((Lasts.refl env).restore f)) hs))
    | marker j => exact .inl (Stays.stmt (.refl env) hf.2.2 hs)
    | reset j => exact resets rfl (reset_jump_goes hf hs)
    | whileRound e body => exact stays (whileRound_stays hf hs)
    | forRound e update body => exact stays (forRound_stays hf hs)
    | _ => exact hf.elim
  | opening =>
    cases i with
    | stmt s₀ => exact stays (execute_opening_stays hstands hf hs)
    | typeOf e => exact stays (typeOf_stays hsound (.inr rfl) hstands hf hs)
    | typeOfField x => exact stays (typeOfField_stays (.inr rfl) hstands hf hs)
    | overloadConstructor d n =>
      exact stays (overloadConstructor_stays hsound (.inr rfl) hstands hf hs)
    | expr e =>
      obtain ⟨rfl, hf⟩ := hf
      exact .inl (Stays.intro (l := .opening) (c := .find (.simple thisName) :: .deref :: c)
        (.refl env) hstands ⟨rfl, σ, rfl, hf⟩ hs)
    | find p => exact stays (find_opening_stays hstands hf hs)
    | _ => exact hf.elim
  | opened =>
    cases i with
    | deref => exact stays (deref_opened_stays hstands hf hs)
    | _ => exact hf.elim

end StmtSteps

end StashMachine
