import StashMachine.Proofs.Agenda
import StashMachine.Proofs.Counterparts

/-!
# StashMachine.Proofs.Lockstep — a program logic for two runs at once

* `Item.rename`: items of control with their variables renamed.
* `Follows x y marks b c c'`: two controls that differ in the name of a parameter.  Each item is performed in a frame
  that is marked or not, as the items before it lead there.
* `Registers.Alike x y marks b r r'`: the registers of two runs in a frame that is marked (`b`) or not.
* `Step.Pairs`: how two steps end, either both with results or both with faults that are alike;
  `Step.Parallel`: they end in registers that are alike, if they start there.  One rule for each way that steps are put
  together and for each move of the registers.
-/

namespace StashMachine

open Environment

/-! ### Items -/

namespace Item

/-- The item with its variables renamed, if it holds no other items. -/
def rename (σ : String → String) : Item → Item
  | field f => field { f with vars := f.vars.map (Declarator.rename σ) }
  | stmt s => stmt (s.rename σ)
  | expr e => expr (e.rename σ)
  | find p => find (p.rename σ)
  | whileRound c body => whileRound (c.rename σ) (body.rename σ)
  | forRound c update body => forRound (c.map (Expr.rename σ)) (update.map (Stmt.rename σ)) (body.rename σ)
  | switch arms => switch (Stmt.renameArms σ arms)
  | typeOf e => typeOf (e.rename σ)
  | overload x n q => overload x n (q.rename σ)
  | i => i

/-- An item of code that neither leaves the current frame nor marks a place, and holds no other items. -/
def isPlain : Item → Bool
  | program _ | classDecl _ | method _ | constructor _ | restore _ | marker _ | switch _ | branch _ _ => false
  | _ => true

end Item

/-- Two declarations of a class that differ in the name of a parameter of its constructors. -/
structure ClassDecl.Alike (x y : String) (d d' : ClassDecl) : Prop where
  name : d'.name = d.name
  superclass : d'.superclass = d.superclass
  fields : d'.fields = d.fields
  methods : d'.methods = d.methods
  constructors : ∀ hasSuper, List.Forall₂ (fun c c' => Callable.Alike x y
    (.constructor (c.elaborate (d.fields.filter (fun f => !f.isStatic)) hasSuper))
    (.constructor (c'.elaborate (d.fields.filter (fun f => !f.isStatic)) hasSuper))) d.constructors d'.constructors

/-- Two controls that differ in the name of a parameter, if the first item is performed in a frame that is marked
(`b`) or not.  Jumps come to markers from anywhere, and a `switch` opens a frame. -/
inductive Follows (x y : String) (marks : List Bool) : Bool → List Item → List Item → Prop
  | nil {b : Bool} : Follows x y marks b [] []
  | code {b : Bool} {i : Item} {c c' : List Item} : i.isPlain = true → Follows x y marks b c c' →
    Follows x y marks b (i.rename (oldName x y b) :: c) (i.rename (newName x y b) :: c')
  | branch {b : Bool} {f : FrameId} {yes no c c' : List Item} : marks[f]? = some b → Branches f yes no →
    Follows x y marks b c c' → Follows x y marks b
      (.branch (yes.map (Item.rename (oldName x y b))) (no.map (Item.rename (oldName x y b))) :: c)
      (.branch (yes.map (Item.rename (newName x y b))) (no.map (Item.rename (newName x y b))) :: c')
  | restore {b b' : Bool} {f : FrameId} {c c' : List Item} : marks[f]? = some b' → Follows x y marks b' c c' →
    Follows x y marks b (.restore f :: c) (.restore f :: c')
  | marker {b : Bool} {j : Jump} {c c' : List Item} : (∀ b', Follows x y marks b' c c') →
    Follows x y marks b (.marker j :: c) (.marker j :: c')
  | switch {b : Bool} {arms : List (Arm Stmt)} {c c' : List Item} : (∀ b', Follows x y marks b' c c') →
    Follows x y marks b (.switch (Stmt.renameArms (oldName x y b) arms) :: c)
      (.switch (Stmt.renameArms (newName x y b) arms) :: c')
  | callable {k k' : Callable} {c c' : List Item} : k.Alike x y k' → Follows x y marks false c c' →
    Follows x y marks false (k.item :: c) (k'.item :: c')
  | classDecl {d d' : ClassDecl} {c c' : List Item} : d.Alike x y d' → Follows x y marks false c c' →
    Follows x y marks false (.classDecl d :: c) (.classDecl d' :: c')
  | program {p p' : Program} {c c' : List Item} : List.Forall₂ (ClassDecl.Alike x y) p p' →
    Follows x y marks false c c' → Follows x y marks false (.program p :: c) (.program p' :: c')

section Follows

variable {x y : String} {marks : List Bool} {b : Bool} {c c' : List Item} {f : FrameId}

theorem Follows.append (h : Follows x y marks b c c') (new : List Bool) : Follows x y (marks ++ new) b c c' := by
  induction h with
  | nil => exact .nil
  | code hi _ ih => exact .code hi ih
  | branch hf hb _ ih => exact .branch (mark_append hf new) hb ih
  | restore hf _ ih => exact .restore (mark_append hf new) ih
  | marker _ ih => exact .marker ih
  | switch _ ih => exact .switch ih
  | callable hk _ ih => exact .callable hk ih
  | classDecl hd _ ih => exact .classDecl hd ih
  | program hp _ ih => exact .program hp ih

theorem Follows.items (new : List Item) (hnew : new.all Item.isPlain = true) (h : Follows x y marks b c c') :
    Follows x y marks b (new.map (Item.rename (oldName x y b)) ++ c)
      (new.map (Item.rename (newName x y b)) ++ c') := by
  induction new with
  | nil => exact h
  | cons i new ih =>
    rw [List.all_cons, Bool.and_eq_true] at hnew
    exact .code hnew.1 (ih hnew.2)

/-- The two lists of a branch. -/
theorem Follows.branches {yes no : List Item} (hf : marks[f]? = some b) (hb : Branches f yes no)
    (h : Follows x y marks b c c') :
    Follows x y marks b (yes.map (Item.rename (oldName x y b)) ++ c) (yes.map (Item.rename (newName x y b)) ++ c') ∧
      Follows x y marks b (no.map (Item.rename (oldName x y b)) ++ c)
        (no.map (Item.rename (newName x y b)) ++ c') := by
  cases hb with
  | operands l r => exact ⟨h.items [.expr l] rfl, h.items [.expr r] rfl⟩
  | stmts yes no => exact ⟨h.items _ (by simp [Item.isPlain]), h.items _ (by simp [Item.isPlain])⟩
  | whileRound e body =>
    refine ⟨.code (i := .stmt body) rfl (.marker fun _ => .restore hf ?_), h⟩
    exact .code (i := .whileRound e body) rfl h
  | forRound e update body =>
    have hround := h.items (update.map .stmt ++ [Item.forRound e update body]) (by simp [Item.isPlain])
    refine ⟨.code (i := .stmt body) rfl (.marker fun _ => .restore hf ?_), h⟩
    simpa [Item.rename, Function.comp_def] using hround

/-- A jump leads both runs to the same marker, from wherever they are. -/
theorem Follows.unwind (h : Follows x y marks b c c') (j : Jump) :
    (∃ rest rest', Step.unwind j c = .ok rest ∧ Step.unwind j c' = .ok rest' ∧
      ∀ b', Follows x y marks b' rest rest') ∨
    ∃ rest rest', Step.unwind j c = .error rest ∧ Step.unwind j c' = .error rest' := by
  induction h with
  | nil => exact .inr ⟨[], [], rfl, rfl⟩
  | @code b i c c' hi _ ih =>
    have hskip : ∀ (σ : String → String) (rest : List Item),
        Step.unwind j (i.rename σ :: rest) = Step.unwind j rest := by
      intro σ rest
      cases i <;> first | rfl | cases hi
    simpa only [hskip] using ih
  | branch _ _ _ ih => exact ih
  | restore _ _ ih => exact ih
  | @marker _ k c c' h ih =>
    rw [Step.unwind, Step.unwind]
    by_cases hk : k = j
    · rw [if_pos hk, if_pos hk]
      exact .inl ⟨c, c', rfl, rfl, h⟩
    · rw [if_neg hk, if_neg hk]
      split
      · exact .inr ⟨c, c', rfl, rfl⟩
      · exact ih false
  | switch _ ih => exact ih false
  | @callable k k' _ _ _ _ ih => cases k <;> cases k' <;> exact ih
  | classDecl _ _ ih => exact ih
  | program _ _ ih => exact ih

/-- The invocation that gets one argument more is the same in both runs. -/
theorem Follows.addReceiver? (h : Follows x y marks b c c') (n : Nat) :
    Option.Rel (Follows x y marks b) (Step.addReceiver? n c) (Step.addReceiver? n c') := by
  induction h generalizing n with
  | nil => cases n <;> exact .none
  | @code b i c c' hi hrest ih =>
    cases n with
    | zero =>
      cases i with
      | invoke m => exact .some (.code (i := .invoke (m + 1)) rfl hrest)
      | _ => exact .none
    | succ n => exact rel_map (ih n) (fun _ _ h => .code hi h)
  | branch hf hb _ ih =>
    cases n with
    | zero => exact .none
    | succ n => exact rel_map (ih n) (fun _ _ h => .branch hf hb h)
  | restore hf _ ih =>
    cases n with
    | zero => exact .none
    | succ n => exact rel_map (ih n) (fun _ _ h => .restore hf h)
  | marker _ ih =>
    cases n with
    | zero => exact .none
    | succ n => exact rel_map (rel_forall (fun b => ih b n)) (fun _ _ h => .marker h)
  | switch _ ih =>
    cases n with
    | zero => exact .none
    | succ n => exact rel_map (rel_forall (fun b => ih b n)) (fun _ _ h => .switch h)
  | @callable k k' _ _ hk _ ih =>
    cases n with
    | zero => cases k <;> cases k' <;> exact .none
    | succ n =>
      have hrest := rel_map (ih n) (fun _ _ h => Follows.callable hk h)
      cases k <;> cases k' <;> exact hrest
  | classDecl hd _ ih =>
    cases n with
    | zero => exact .none
    | succ n => exact rel_map (ih n) (fun _ _ h => .classDecl hd h)
  | program hp _ ih =>
    cases n with
    | zero => exact .none
    | succ n => exact rel_map (ih n) (fun _ _ h => .program hp h)

end Follows

/-! ### Registers -/

/-- The registers of two runs that differ in the name of a parameter, in a frame that is marked (`b`) or not. -/
structure Registers.Alike (x y : String) (marks : List Bool) (b : Bool) (r r' : Registers) : Prop where
  env : Paired x y marks b r.env r'.env
  stash : List.Forall₂ (StashItem.Alike x y marks) r.stash r'.stash
  control : Follows x y marks b r.control r'.control
  output : r'.output = r.output

namespace Step

variable {x y : String} {marks : List Bool} {b : Bool} {α β γ δ : Type} {r r' : Registers}

/-- Two steps end with results and registers that satisfy `Q`, or with faults that are alike. -/
def Pairs (x y : String) (s : Step α) (s' : Step β) (r r' : Registers)
    (Q : α → β → Registers → Registers → Prop) : Prop :=
  match s r, s' r' with
  | .ok a r₁, .ok a' r₁' => Q a a' r₁ r₁'
  | .error e _, .error e' _ => e.Alike x y e'
  | _, _ => False

/-- Two steps lead from registers that are alike to such registers, with results that are related. -/
def Parallel (x y : String) (marks : List Bool) (b : Bool) (R : α → β → Prop) (s : Step α) (s' : Step β) : Prop :=
  ∀ r r', r.Alike x y marks b r' → Pairs x y s s' r r' (fun a a' r₁ r₁' => R a a' ∧ r₁.Alike x y marks b r₁')

section Pairs

variable {s : Step α} {s' : Step β} {f : α → Step γ} {f' : β → Step δ} {R : α → β → Prop} {S : γ → δ → Prop}

theorem Pairs.mono {Q Q' : α → β → Registers → Registers → Prop} (h : Pairs x y s s' r r' Q)
    (hQ : ∀ a a' r₁ r₁', Q a a' r₁ r₁' → Q' a a' r₁ r₁') : Pairs x y s s' r r' Q' := by
  unfold Pairs at h ⊢
  split at h
  · exact hQ _ _ _ _ h
  · exact h
  · exact h.elim

theorem Pairs.bind {Q : γ → δ → Registers → Registers → Prop}
    (h : Pairs x y s s' r r' (fun a a' r₁ r₁' => Pairs x y (f a) (f' a') r₁ r₁' Q)) :
    Pairs x y (s >>= f) (s' >>= f') r r' Q := by
  unfold Pairs at h
  simp only [Pairs, Bind.bind, EStateM.bind]
  cases hs : s r <;> cases hs' : s' r' <;> simp only [hs, hs'] at h ⊢ <;> exact h

theorem Parallel.bind (h : Parallel x y marks b R s s')
    (hf : ∀ a a', R a a' → Parallel x y marks b S (f a) (f' a')) :
    Parallel x y marks b S (s >>= f) (s' >>= f') := by
  intro r r' hr
  refine Pairs.bind ((h r r' hr).mono ?_)
  rintro a a' r₁ r₁' ⟨ha, hr₁⟩
  exact hf a a' ha r₁ r₁' hr₁

theorem parallel_pure {a : α} {a' : β} (h : R a a') : Parallel x y marks b R (pure a) (pure a') :=
  fun _ _ hr => ⟨h, hr⟩

theorem parallel_throw {e e' : Fault} (h : e.Alike x y e') : Parallel x y marks b R (throw e) (throw e') :=
  fun _ _ _ => h

theorem pairs_ofExcept {Q : α → β → Registers → Registers → Prop} {a : Except Fault α} {a' : Except Fault β}
    (h : Agree x y R a a') (hQ : ∀ v w, R v w → Q v w r r') : Pairs x y (ofExcept a) (ofExcept a') r r' Q := by
  rcases h.cases with ⟨v, w, rfl, rfl, hv⟩ | ⟨e, e', rfl, rfl, he⟩
  · exact hQ v w hv
  · exact he

theorem pairs_ask {Q : α → β → Registers → Registers → Prop} {f : Environment → Except Fault α}
    {f' : Environment → Except Fault β} (h : Agree x y R (f r.env) (f' r'.env)) (hQ : ∀ v w, R v w → Q v w r r') :
    Pairs x y (ask f) (ask f') r r' Q := pairs_ofExcept h hQ

theorem parallel_ofExcept {a : Except Fault α} {a' : Except Fault β} (h : Agree x y R a a') :
    Parallel x y marks b R (ofExcept a) (ofExcept a') :=
  fun _ _ hr => pairs_ofExcept h (fun _ _ hv => ⟨hv, hr⟩)

theorem parallel_get : Parallel x y marks b (Registers.Alike x y marks b) get get := fun _ _ hr => ⟨hr, hr⟩

theorem parallel_ask {f : Environment → Except Fault α} {f' : Environment → Except Fault β}
    (h : ∀ env env', Paired x y marks b env env' → Agree x y R (f env) (f' env')) :
    Parallel x y marks b R (ask f) (ask f') :=
  fun _ _ hr => pairs_ask (h _ _ hr.env) (fun _ _ hv => ⟨hv, hr⟩)

end Pairs

/-! ### Moves of the registers -/

theorem parallel_changeEnv {f f' : Environment → Environment}
    (h : ∀ env env', Paired x y marks b env env' → Paired x y marks b (f env) (f' env')) :
    Parallel x y marks b (fun _ _ => True) (changeEnv f) (changeEnv f') :=
  fun r r' hr => ⟨trivial, h r.env r'.env hr.env, hr.stash, hr.control, hr.output⟩

theorem parallel_push {item item' : StashItem} (h : item.Alike x y marks item') :
    Parallel x y marks b (fun _ _ => True) (push item) (push item') :=
  fun _ _ hr => ⟨trivial, hr.env, .cons h hr.stash, hr.control, hr.output⟩

theorem parallel_pushValue {v w : Value} (h : v.Alike marks w) :
    Parallel x y marks b (fun _ _ => True) (pushValue v) (pushValue w) := parallel_push (.value h)

theorem parallel_schedule {new new' : List Item}
    (h : ∀ c c', Follows x y marks b c c' → Follows x y marks b (new ++ c) (new' ++ c')) :
    Parallel x y marks b (fun _ _ => True) (schedule new) (schedule new') :=
  fun _ _ hr => ⟨trivial, hr.env, hr.stash, h _ _ hr.control, hr.output⟩

theorem parallel_items (new : List Item) (hnew : new.all Item.isPlain = true) :
    Parallel x y marks b (fun _ _ => True) (schedule (new.map (Item.rename (oldName x y b))))
      (schedule (new.map (Item.rename (newName x y b)))) :=
  parallel_schedule (fun _ _ h => h.items new hnew)

theorem parallel_here : Parallel x y marks b (fun f f' => f' = f ∧ marks[f]? = some b) here here :=
  fun _ _ hr => ⟨⟨hr.env.alike.current, hr.env.mark⟩, hr⟩

theorem parallel_describe {item item' : StashItem} (h : item.Alike x y marks item') :
    Parallel x y marks b (TextAlike x y) (describe item) (describe item') := by
  intro r r' hr
  refine ⟨?_, hr⟩
  cases h with
  | value hv =>
    simp only [StashItem.text, hv.text]
    exact .same _
  | var id =>
    have hvar := hr.env.alike.var id
    simp only [StashItem.text]
    generalize r.env.var? id = old at hvar ⊢
    generalize r'.env.var? id = new at hvar ⊢
    cases hvar with
    | none => exact .same _
    | some hv => exact hv.text
  | cls hc =>
    simp only [StashItem.text, Class.name_eq hc.bare]
    exact .same _
  | closure hk =>
    simp only [StashItem.text, hk.text]
    exact .same _
  | type t => exact .same _

theorem parallel_typeOfVar (id : VarId) : Parallel x y marks b Eq (typeOfVar id) (typeOfVar id) :=
  fun _ _ hr => ⟨(typeOf_eq hr.env.alike id).symm, hr⟩

/-- Both runs take an item off the stash. -/
theorem parallel_pop : Parallel x y marks b (StashItem.Alike x y marks) pop pop := by
  rintro ⟨control, stash, env, output⟩ ⟨control', stash', env', output'⟩ ⟨henv, hstash, hcontrol, houtput⟩
  cases hstash with
  | nil => exact Fault.Alike.same _
  | cons hitem hstash => exact ⟨hitem, henv, hstash, hcontrol, houtput⟩

theorem parallel_popValue : Parallel x y marks b (Value.Alike marks) popValue popValue := by
  refine parallel_pop.bind (fun item item' h => ?_)
  have hfault := (parallel_describe (b := b) h).bind
    (fun _ _ ht => parallel_throw (R := Value.Alike marks) (.expected (w := .value) ht))
  cases h with
  | value hv => exact parallel_pure hv
  | _ => exact hfault

theorem parallel_popType : Parallel x y marks b Eq popType popType := by
  refine parallel_pop.bind (fun item item' h => ?_)
  have hfault := (parallel_describe (b := b) h).bind
    (fun _ _ ht => parallel_throw (R := @Eq TypeName) (.expected (w := .type) ht))
  cases h with
  | type t => exact parallel_pure rfl
  | _ => exact hfault

theorem parallel_popClosure : Parallel x y marks b (Closure.Alike x y marks) popClosure popClosure := by
  refine parallel_pop.bind (fun item item' h => ?_)
  have hfault := (parallel_describe (b := b) h).bind
    (fun _ _ ht => parallel_throw (R := Closure.Alike x y marks) (.expected (w := .closure) ht))
  cases h with
  | closure hk => exact parallel_pure hk
  | _ => exact hfault

theorem parallel_popTarget : Parallel x y marks b Eq popTarget popTarget := by
  refine parallel_pop.bind (fun item item' h => ?_)
  have hfault := (parallel_describe (b := b) h).bind (fun _ _ ht => parallel_throw (R := @Eq VarId) (.target ht))
  cases h with
  | var id => exact parallel_pure rfl
  | _ => exact hfault

theorem parallel_popMany {take : Step α} {take' : Step β} {R : α → β → Prop} (h : Parallel x y marks b R take take')
    (n : Nat) {taken : List α} {taken' : List β} (htaken : List.Forall₂ R taken taken') :
    Parallel x y marks b (List.Forall₂ R) (popMany take n taken) (popMany take' n taken') := by
  induction n generalizing taken taken' with
  | zero => exact parallel_pure htaken
  | succ n ih => exact h.bind (fun _ _ ha => ih (.cons ha htaken))

theorem parallel_popTypes (n : Nat) : Parallel x y marks b Eq (popTypes n) (popTypes n) := by
  have htype : Parallel x y marks b Eq popType popType := parallel_popType
  have h := parallel_popMany htype n .nil
  rw [List.forall₂_eq_eq_eq] at h
  exact h

theorem parallel_fresh {v v' : Variable} (h : v.Alike x y marks v') :
    Parallel x y marks b Eq (fresh v) (fresh v') := by
  intro r r' hr
  refine ⟨?_, ⟨hr.env.alike.allocate h, hr.env.sheltered.keep (fun _ => rfl) (fun _ hx => hx), hr.env.mark⟩,
    hr.stash, hr.control, hr.output⟩
  rw [newestVariable_allocate, newestVariable_allocate, hr.env.alike.vars]

/-- Both runs find a name free in the current frame, or both find it taken. -/
theorem bindsHere_eq {env env' : Environment} (h : env.Alike x y marks env') (hb : marks[env.current]? = some b)
    (n : String) : env'.bindsHere (newName x y b n) = env.bindsHere (oldName x y b n) := by
  have hbound := h.bound _ _ hb n
  rw [bound?, bound?] at hbound
  rw [bindsHere, bindsHere, Frame.has, Frame.has, h.current]
  generalize (env.frame env.current).get? (oldName x y b n) = old at hbound ⊢
  generalize (env'.frame env.current).get? (newName x y b n) = new at hbound ⊢
  cases hbound <;> rfl

theorem pairs_declare {Q : VarId → VarId → Registers → Registers → Prop} (henv : r.env.Alike x y marks r'.env)
    (hb : marks[r.env.current]? = some b) {v v' : Variable} (hv : v.Alike x y marks v') {n : String}
    (hn : v.name = oldName x y b n) (hn' : v'.name = newName x y b n)
    (hQ : (r.env.addVariable v).Alike x y marks (r'.env.addVariable v') → Q r.env.vars.size r.env.vars.size
      { r with env := r.env.addVariable v } { r' with env := r'.env.addVariable v' }) :
    Pairs x y (declare v) (declare v') r r' Q := by
  have hcheck : Agree x y (fun _ _ => True) (r.env.checkFree v.name v.name) (r'.env.checkFree v'.name v'.name) := by
    rw [checkFree, checkFree, hn', bindsHere_eq henv hb, ← hn, ← hn']
    split
    · exact .redeclaration hv.name
    · trivial
  refine Pairs.bind (pairs_ask hcheck (fun _ _ _ => ?_))
  have hid : (r.env.addVariable v).newestVariable = r.env.vars.size := newestVariable_addVariable v
  have hid' : (r'.env.addVariable v').newestVariable = r.env.vars.size :=
    (newestVariable_addVariable v').trans henv.vars
  show Q (r.env.addVariable v).newestVariable (r'.env.addVariable v').newestVariable _ _
  rw [hid, hid']
  exact hQ (henv.addVariable hb hv hn hn')

theorem parallel_declare {v v' : Variable} (h : v.Alike x y marks v') {n : String}
    (hn : v.name = oldName x y b n) (hn' : v'.name = newName x y b n) :
    Parallel x y marks b Eq (declare v) (declare v') :=
  fun _ _ hr => pairs_declare hr.env.alike hr.env.mark h hn hn' (fun henv =>
    ⟨rfl, ⟨henv, hr.env.sheltered.addVariable v, hr.env.mark⟩, hr.stash, hr.control, hr.output⟩)

end Step

end StashMachine
