import StashMachine.Proofs.ParallelSteps

/-!
# StashMachine.Proofs.ParallelFrames — steps that make frames, in two runs at once

* `Step.Onward`: both steps lead to registers that are alike, or stop with faults that are alike.
* `block_onward`, `switch_onward`, `new_onward`: blocks and objects.  A block is marked if the code around it is.
* `invoke_onward`: calls.  The frame of a call is marked if what is called has the parameter in question.
* `parallel_bindCallable`, `classDecl_onward`: callables and classes.  A frame of a class is never marked.
-/

namespace StashMachine

open Environment Step

variable {x y : String} {marks : List Bool} {b : Bool}

/-- Both steps lead to registers that are alike, or stop with faults that are alike. -/
def Step.Onward (x y : String) (s s' : Step Unit) (r r' : Registers) : Prop :=
  Pairs x y s s' r r' (fun _ _ r₁ r₁' => ∃ marks b, r₁.Alike x y marks b r₁')

theorem Step.Parallel.onward {s s' : Step Unit} (h : Parallel x y marks b (fun _ _ => True) s s') {r r' : Registers}
    (hr : r.Alike x y marks b r') : Onward x y s s' r r' :=
  (h r r' hr).mono (fun _ _ _ _ h => ⟨marks, b, h.2⟩)

section Frames

variable {env env' : Environment} {r r' : Registers}

theorem mark_new (h : env.Alike x y marks env') : (marks ++ [b])[env.frames.size]? = some b := by
  rw [← h.length, List.getElem?_append_right (Nat.le_refl _), Nat.sub_self]
  rfl

/-- A block is marked if the code around it is. -/
theorem Paired.block (h : Paired x y marks b env env') (name : String) :
    Paired x y (marks ++ [b]) b (env.extend env.current name) (env'.extend env'.current name) := by
  have hshelters : Shelters x (marks ++ [b]) (env.extend env.current name) b (env.chain env.current) :=
    (h.sheltered _ _ h.mark).mono [b] (fun f hf => by rwa [bound?_extend])
  refine ⟨?_, ?_, mark_new h.alike⟩
  · rw [h.alike.current]
    exact h.alike.extend _ _ b
  · refine h.sheltered.grow h.alike.length ((Grows.refl env).extend _ _) ?_
    rw [Environment.chain, outer_extend_new]
    cases b with
    | true => exact .block (mark_new h.alike) hshelters
    | false =>
      refine .outside (fun f hf => ?_)
      cases hshelters with
      | outside hchain =>
        rcases List.mem_cons.mp hf with rfl | hf
        · exact mark_new h.alike
        · exact hchain f hf

/-- What was alike stays alike when a frame is added. -/
theorem stash_append {s s' : List StashItem} (h : List.Forall₂ (StashItem.Alike x y marks) s s') (new : List Bool) :
    List.Forall₂ (StashItem.Alike x y (marks ++ new)) s s' := h.imp (fun _ _ hs => hs.append new)

theorem block_onward (hr : r.Alike x y marks b r') (body : List Stmt) :
    Onward x y (execute ((Stmt.block body).rename (oldName x y b))) (execute ((Stmt.block body).rename (newName x y b)))
      r r' := by
  have hcontrol := Follows.items (body.map .stmt) (by simp [Item.isPlain])
    (Follows.restore (b := b) (mark_append hr.env.mark [b]) (hr.control.append [b]))
  refine ⟨marks ++ [b], b, hr.env.block blockFrame, stash_append hr.stash _, ?_, hr.output⟩
  simp only [hr.env.alike.current]
  simpa [Item.rename, Function.comp_def] using hcontrol

theorem forLoop_onward (hr : r.Alike x y marks b r') (init : List Stmt) (e : Option Expr) (update : List Stmt)
    (body : Stmt) : Onward x y (execute ((Stmt.forLoop init e update body).rename (oldName x y b)))
      (execute ((Stmt.forLoop init e update body).rename (newName x y b))) r r' := by
  have hcontrol := Follows.items (init.map .stmt) (by simp [Item.isPlain])
    (Follows.code (b := b) (i := .forRound e update body) rfl (Follows.marker (j := .brk)
      fun _ => .restore (mark_append hr.env.mark [b]) (hr.control.append [b])))
  refine ⟨marks ++ [b], b, hr.env.block forFrame, stash_append hr.stash _, ?_, hr.output⟩
  simp only [hr.env.alike.current]
  simpa [Item.rename, Function.comp_def] using hcontrol

/-! #### Groups of a `switch` -/

theorem labelValue_rename (σ : String → String) (e : Expr) : labelValue (e.rename σ) = labelValue e := by
  cases e with
  | unary op e =>
    cases e with
    | call m args => cases op <;> cases m <;> rfl
    | _ => cases op <;> rfl
  | call m args => cases m <;> rfl
  | _ => rfl

theorem labelled_rename (σ : String → String) {v w : Value} (hv : v.Alike marks w) (labels : List Label) :
    labelled w (labels.map (Label.rename σ)) = labelled v labels := by
  induction labels with
  | nil => rfl
  | cons l labels ih =>
    cases l with
    | otherwise => exact ih
    | case e =>
      simp only [List.map_cons, Label.rename, labelled, labelValue_rename, hv.equal, ih]

theorem entered?_rename (σ : String → String) {v w : Value} (hv : v.Alike marks w) (arms : List (Arm Stmt)) :
    entered? w (Stmt.renameArms σ arms) = (entered? v arms).map (Option.map (Stmt.renameArms σ)) := by
  induction arms with
  | nil => rfl
  | cons arm arms ih =>
    rw [Stmt.renameArms, entered?, entered?, labelled_rename σ hv, ih]
    cases labelled v arm.labels with
    | error e => rfl
    | ok found => cases found <;> rfl

theorem fallback?_rename (σ : String → String) (arms : List (Arm Stmt)) :
    fallback? (Stmt.renameArms σ arms) = (fallback? arms).map (Stmt.renameArms σ) := by
  induction arms with
  | nil => rfl
  | cons arm arms ih =>
    have hlabels : (arm.labels.map (Label.rename σ)).any Label.isOtherwise = arm.labels.any Label.isOtherwise := by
      rw [List.any_map]
      refine congrArg (List.any arm.labels) (funext (fun l => ?_))
      cases l <;> rfl
    rw [Stmt.renameArms, fallback?, fallback?, hlabels, ih]
    split <;> rfl

theorem flatMap_body_rename (σ : String → String) (arms : List (Arm Stmt)) :
    (Stmt.renameArms σ arms).flatMap Arm.body = (arms.flatMap Arm.body).map (Stmt.rename σ) := by
  induction arms with
  | nil => rfl
  | cons arm arms ih => rw [Stmt.renameArms, List.flatMap_cons, List.flatMap_cons, List.map_append, ih,
      Stmt.renameAll_eq_map]

theorem switch_onward (hr : r.Alike x y marks b r') (arms : List (Arm Stmt)) :
    Onward x y (switch (Stmt.renameArms (oldName x y b) arms)) (switch (Stmt.renameArms (newName x y b) arms)) r r' := by
  refine Pairs.bind ((parallel_popValue r r' hr).mono ?_)
  rintro v w r r' ⟨hv, hr⟩
  rw [entered?_rename _ (Value.Alike.mk rfl hv.outside), entered?_rename _ hv, fallback?_rename, fallback?_rename]
  cases entered? v arms with
  | error e => exact Fault.Alike.same e
  | ok found =>
    have hchosen : ∀ σ : String → String, (found.map (Stmt.renameArms σ)).or ((fallback? arms).map (Stmt.renameArms σ))
        = (found.or (fallback? arms)).map (Stmt.renameArms σ) := by
      intro σ
      cases found <;> rfl
    simp only [Except.map, Step.ofExcept, pure_bind, hchosen]
    cases found.or (fallback? arms) with
    | none => exact ⟨marks, b, hr⟩
    | some chosen =>
      have hcontrol := Follows.items ((chosen.flatMap Arm.body).map .stmt) (by simp [Item.isPlain])
        (hr.control.append [b])
      refine ⟨marks ++ [b], b, hr.env.block blockFrame, stash_append hr.stash _, ?_, hr.output⟩
      simp only [flatMap_body_rename]
      simpa [Item.rename, Function.comp_def] using hcontrol

/-! #### Objects -/

/-- A frame inside one that is not marked, which is marked itself only if it binds the parameter. -/
theorem Sheltered.inside {env₁ : Environment} {site : FrameId} (h : Sheltered x marks env)
    (henv : env.Alike x y marks env') (hgrows : Grows env env₁)
    (houter : (env₁.frame env.frames.size).outer = env.chain site) (hsite : marks[site]? = some false)
    (hx : b = true → env₁.bound? env.frames.size x ≠ none) : Sheltered x (marks ++ [b]) env₁ := by
  refine h.grow henv.length hgrows ?_
  have houtside : ∀ f ∈ env.chain site, (marks ++ [b])[f]? = some false := by
    intro f hf
    cases h site false hsite with
    | outside hchain => exact mark_append (hchain f hf) [b]
  rw [Environment.chain, houter]
  cases b with
  | true => exact .call (mark_new henv) (hx rfl) houtside
  | false =>
    refine .outside (fun f hf => ?_)
    rcases List.mem_cons.mp hf with rfl | hf
    · exact mark_new henv
    · exact houtside f hf

theorem Class.Alike.repeatedField?_eq {c d : Class} (hc : c.Alike marks d) :
    d.repeatedField? = c.repeatedField? := by
  rw [← Class.repeatedField?_bare d, ← hc.bare, Class.repeatedField?_bare]

/-- The frame of an object is not marked. -/
theorem Paired.instantiate (h : Paired x y marks b env env') {c d : Class} (hc : c.Alike marks d)
    (hfields : c.repeatedField? = none) :
    Paired x y (marks ++ [false]) b (env.instantiate c).2 (env'.instantiate d).2 := by
  have hvars : d.allInstanceVars = c.allInstanceVars := by
    rw [← Class.allInstanceVars_bare d, ← hc.bare, Class.allInstanceVars_bare]
  have hfresh : ∀ v ∈ c.allInstanceVars.map freshField, Variable.Alike x y (marks ++ [false]) v v := by
    intro v hv
    obtain ⟨field, -, rfl⟩ := List.mem_map.mp hv
    exact ⟨.same _, rfl, .some (Value.alike_of_isSimple (Value.isSimple_ofLiteral _))⟩
  refine ⟨?_, ?_, mark_append h.mark _⟩
  · have hinside := (h.alike.extend c.frame objectFrame false).addVariables (mark_new h.alike) hfresh
    rw [snd_instantiate hfields, snd_instantiate (hc.repeatedField?_eq.trans hfields), hvars,
      ← Class.frame_eq hc.bare, h.alike.current]
    exact hinside.restore env.current
  · exact h.sheltered.inside h.alike (.instantiate env c) (outer_instantiate_new env c) (hc.outside _ (.head _)) nofun

theorem new_onward (hr : r.Alike x y marks b r') (n : String) : Onward x y (Step.new n) (Step.new n) r r' := by
  refine Pairs.bind ((parallel_ask (fun env env' henv => agree_findClass henv.alike n) r r' hr).mono ?_)
  rintro c d r r' ⟨hc, hr⟩
  show Pairs x y (Step.ofExcept (r.env.instantiate c).1 >>= pushValue)
    (Step.ofExcept (r'.env.instantiate d).1 >>= pushValue)
    { r with env := (r.env.instantiate c).2 } { r' with env := (r'.env.instantiate d).2 } _
  rw [fst_instantiate, fst_instantiate, hc.repeatedField?_eq]
  cases hfields : c.repeatedField? with
  | some z => exact Fault.Alike.same _
  | none =>
    have hobject : Value.Alike (marks ++ [false]) (.object c r.env.frames.size) (.object d r'.env.frames.size) := by
      rw [hr.env.alike.size]
      refine ⟨congrArg (Value.object · _) hc.bare, fun c' o ho => ?_⟩
      cases ho
      exact ⟨mark_new hr.env.alike, hc.outside.append _⟩
    exact ⟨marks ++ [false], b, hr.env.instantiate hc hfields, .cons (.value hobject) (stash_append hr.stash _),
      hr.control.append _, hr.output⟩

/-! #### Calls -/

/-- Both steps bind variables in the current frame, `names` among them, and do nothing else. -/
def Step.AddsAlike (x y : String) (marks : List Bool) (b : Bool) (names : List String) (s s' : Step Unit) : Prop :=
  ∀ r r', r.env.Alike x y marks r'.env → marks[r.env.current]? = some b →
    Pairs x y s s' r r' (fun _ _ r₁ r₁' => ∃ vs vs', names ⊆ vs.map Variable.name ∧
      r₁ = { r with env := r.env.addVariables vs } ∧ r₁' = { r' with env := r'.env.addVariables vs' } ∧
      r₁.env.Alike x y marks r₁'.env)

theorem addsAlike_nil : AddsAlike x y marks b [] (pure ()) (pure ()) :=
  fun _ _ henv _ => ⟨[], [], List.nil_subset _, rfl, rfl, henv⟩

theorem Step.AddsAlike.declare {names : List String} {s s' : Step Unit} (hs : AddsAlike x y marks b names s s')
    {v v' : Variable} (hv : v.Alike x y marks v') {n : String} (hn : v.name = oldName x y b n)
    (hn' : v'.name = newName x y b n) :
    AddsAlike x y marks b (v.name :: names) (Step.declare v >>= fun _ => s) (Step.declare v' >>= fun _ => s') := by
  intro r r' henv hb
  refine Pairs.bind (pairs_declare henv hb hv hn hn' (fun henv₁ => ?_))
  refine (hs { r with env := r.env.addVariable v } { r' with env := r'.env.addVariable v' } henv₁ hb).mono ?_
  rintro - - r₁ r₁' ⟨vs, vs', hnames, rfl, rfl, henv₂⟩
  exact ⟨v :: vs, v' :: vs', List.cons_subset_cons _ hnames, rfl, rfl, henv₂⟩

theorem Step.AddsAlike.seq {names : List String} {s s' t t' : Step Unit} (hs : AddsAlike x y marks b [] s s')
    (ht : AddsAlike x y marks b names t t') :
    AddsAlike x y marks b names (s >>= fun _ => t) (s' >>= fun _ => t') := by
  intro r r' henv hb
  refine Pairs.bind ((hs r r' henv hb).mono ?_)
  rintro - - r₁ r₁' ⟨vs, vs', -, rfl, rfl, henv₁⟩
  refine (ht { r with env := r.env.addVariables vs } { r' with env := r'.env.addVariables vs' } henv₁
    (by rwa [current_addVariables])).mono ?_
  rintro - - r₂ r₂' ⟨ws, ws', hnames, rfl, rfl, henv₂⟩
  refine ⟨vs ++ ws, vs' ++ ws', fun n hn => ?_, ?_, ?_, henv₂⟩
  · rw [List.map_append]
    exact List.mem_append_right _ (hnames hn)
  · simp only [addVariables, List.foldl_append]
  · simp only [addVariables, List.foldl_append]

theorem Step.AddsAlike.ofExcept {α β : Type} {R : α → β → Prop} {a : Except Fault α} {a' : Except Fault β}
    {names : List String} {f : α → Step Unit} {f' : β → Step Unit} (h : Agree x y R a a')
    (hf : ∀ v w, R v w → AddsAlike x y marks b names (f v) (f' w)) :
    AddsAlike x y marks b names (Step.ofExcept a >>= f) (Step.ofExcept a' >>= f') :=
  fun r r' henv hb => Pairs.bind (pairs_ofExcept h (fun v w hv => hf v w hv r r' henv hb))

/-- Parameters are bound under the names that the two runs have for them. -/
theorem addsAlike_bindParams (ps : List Param) {vs ws : List Value} (hvs : List.Forall₂ (Value.Alike marks) vs ws)
    (hlength : vs.length = ps.length) :
    AddsAlike x y marks b (ps.map (fun q => oldName x y b q.name))
      (bindParams (ps.map (fun q => { q with name := oldName x y b q.name })) vs)
      (bindParams (ps.map (fun q => { q with name := newName x y b q.name })) ws) := by
  induction ps generalizing vs ws with
  | nil => exact addsAlike_nil
  | cons q ps ih =>
    cases hvs with
    | nil => cases hlength
    | cons hv hvs =>
      refine .ofExcept (Value.agree_coerce hv q.type) (fun v w hv => ?_)
      exact (ih hvs (Nat.succ.inj hlength)).declare ⟨textAlike_name q.name, rfl, .some hv⟩ rfl rfl

theorem addsAlike_bindReceiver (hxy : Ordinary x y) {k k' : Closure} (hk : k.Alike x y marks k')
    {o o' : Class × FrameId} (ho : Value.Alike marks (.object o.1 o.2) (.object o'.1 o'.2)) :
    AddsAlike x y marks b [] (bindReceiver k o) (bindReceiver k' o') := by
  have hdeclare : ∀ (who : Delegate) (t : TypeName) {s s' : Step Unit}, AddsAlike x y marks b [] s s' →
      AddsAlike x y marks b [] (Step.declare ⟨who.text, t, some (.object o.1 o.2)⟩ >>= fun _ => s)
        (Step.declare ⟨who.text, t, some (.object o'.1 o'.2)⟩ >>= fun _ => s') := by
    intro who t s s' hs r r' henv hb
    have hadds : AddsAlike x y marks b [who.text] (Step.declare ⟨who.text, t, some (.object o.1 o.2)⟩ >>= fun _ => s)
        (Step.declare ⟨who.text, t, some (.object o'.1 o'.2)⟩ >>= fun _ => s') :=
      hs.declare ⟨.same _, rfl, .some ho⟩ (hxy.oldName who).symm (hxy.newName who).symm
    refine (hadds r r' henv hb).mono ?_
    rintro - - r₁ r₁' ⟨vs, vs', -, hr₁, hr₁', henv₁⟩
    exact ⟨vs, vs', List.nil_subset _, hr₁, hr₁', henv₁⟩
  unfold bindReceiver
  rw [hk.className]
  refine hdeclare .this _ ?_
  intro r r' henv hb
  refine Pairs.bind (pairs_ask (agree_findClass henv k.className) (fun c d hc => ?_))
  have hsuper : d.superclass?.map ClassInfo.bare = c.superclass?.map ClassInfo.bare := by
    rw [← Class.superclass?_bare, ← Class.superclass?_bare, hc.bare]
  cases hs : c.superclass? with
  | none =>
    rw [hs] at hsuper
    rw [Option.map_eq_none_iff.mp hsuper]
    exact addsAlike_nil r r' henv hb
  | some s =>
    rw [hs] at hsuper
    obtain ⟨s', hs', hbare⟩ := Option.map_eq_some_iff.mp hsuper
    have hname : s'.name = s.name := congrArg (fun c => c.name) hbare
    simp only [hs', hname]
    exact hdeclare .super _ addsAlike_nil r r' henv hb

/-- Both runs split the same receiver off the arguments. -/
theorem agree_receiver {k k' : Closure} (hk : k.Alike x y marks k') {vs ws : List Value}
    (hvs : List.Forall₂ (Value.Alike marks) vs ws) :
    Agree x y (fun p p' => Option.Rel (fun o o' => Value.Alike marks (.object o.1 o.2) (.object o'.1 o'.2)) p.1 p'.1 ∧
      List.Forall₂ (Value.Alike marks) p.2 p'.2 ∧ vs.length = p.2.length + if k.callable.isStatic then 0 else 1)
      (receiver k vs) (receiver k' ws) := by
  unfold receiver
  rw [hk.callable.isStatic, hk.className, hk.descriptor]
  split
  · exact ⟨.none, hvs, rfl⟩
  · cases hvs with
    | nil => exact .same _
    | @cons v w _ _ hv hvs =>
      rcases hv.cases with ⟨hsimple, rfl⟩ | ⟨c, d, f, rfl, rfl, -, -⟩ | ⟨id, t, us, us', rfl, rfl, -⟩
      · cases w with
        | array | object => cases hsimple
        | _ => exact .same _
      · exact ⟨.some hv, hvs, rfl⟩
      · simp only [hv.term]
        exact .same _

/-- Without natives, both runs enter the body of the closure. -/
theorem pairs_enter {k k' : Closure} (hk : k.Alike x y marks k') {t : Callable}
    (hold : k.callable = t.rename (oldName x y b)) (hnew : k'.callable = t.rename (newName x y b))
    {Q : Unit → Unit → Registers → Registers → Prop}
    (hQ : ∀ body : List Stmt, Q () ()
      { r with control := (Item.stmt (.block body)).rename (oldName x y b) :: r.control }
      { r' with control := (Item.stmt (.block body)).rename (newName x y b) :: r'.control }) :
    Pairs x y (enter Natives.empty k) (enter Natives.empty k') r r' Q := by
  have hblock : ∀ (σ : String → String) (body : List Stmt),
      (Item.stmt (.block body)).rename σ = .stmt (.block (body.map (Stmt.rename σ))) := by
    intro σ body
    simp [Item.rename, Stmt.rename]
  have hnative : k'.nativeName = k.nativeName := by
    rw [Closure.nativeName, Closure.nativeName, hk.className, hk.descriptor, hk.callable.result]
  simp only [hblock] at hQ
  unfold enter
  rw [hold, hnew]
  cases t with
  | constructor c => exact hQ c.body
  | method m =>
    have hisNative : ∀ σ, (m.rename σ).isNative = m.isNative := fun _ => rfl
    have hbody : ∀ σ, (m.rename σ).body = m.body.map (List.map (Stmt.rename σ)) := fun _ => rfl
    simp only [Callable.rename, hisNative, hbody]
    by_cases hm : m.isNative = true
    · rw [if_pos hm, if_pos hm, callNative, callNative, hnative]
      exact Fault.Alike.same _
    · rw [if_neg hm, if_neg hm]
      cases m.body with
      | none =>
        rw [hk.className, hk.descriptor]
        exact Fault.Alike.same _
      | some body => exact hQ body

theorem bound?_addVariables_ne_none (vs : List Variable) {n : String}
    (hsize : env.current < env.frames.size) (h : n ∈ vs.map Variable.name ∨ env.bound? env.current n ≠ none) :
    (env.addVariables vs).bound? env.current n ≠ none := by
  induction vs generalizing env with
  | nil => exact h.resolve_left List.not_mem_nil
  | cons v vs ih =>
    refine @ih (env.addVariable v) (Nat.lt_of_lt_of_eq hsize (size_addBinding ..).symm) ?_
    rw [current_addVariable, bound?_addVariable]
    by_cases hn : n = v.name
    · exact .inr (by simp [hsize, hn])
    · rcases h with h | h
      · exact .inl ((List.mem_cons.mp h).resolve_left hn)
      · exact .inr (by simpa [hn] using h)

/-- Both runs come to the body of a closure, in the frame of the call.  The frame is marked if the closure has the
parameter. -/
theorem call_onward (hr : r.Alike x y marks b r') {k k' : Closure} (hk : k.Alike x y marks k') {t : Callable} {b' : Bool}
    (hold : k.callable = t.rename (oldName x y b')) (hnew : k'.callable = t.rename (newName x y b'))
    (hparam : b' = true → x ∈ k.callable.params.map Param.name) {site : FrameId} (hsite : marks[site]? = some false)
    {s s' : Step Unit} (hs : AddsAlike x y (marks ++ [b']) b' (k.callable.params.map Param.name) s s') :
    Onward x y (s >>= fun _ => enter Natives.empty k) (s' >>= fun _ => enter Natives.empty k')
      ⟨.marker .ret :: .restore r.env.current :: r.control, r.stash, r.env.extend site k.callable.name, r.output⟩
      ⟨.marker .ret :: .restore r'.env.current :: r'.control, r'.stash, r'.env.extend site k'.callable.name,
        r'.output⟩ := by
  refine Pairs.bind ((hs _ _ ?_ (mark_new hr.env.alike)).mono ?_)
  · rw [hk.callable.name]
    exact hr.env.alike.extend site k.callable.name b'
  rintro - - r₁ r₁' ⟨vs, vs', hnames, rfl, rfl, henv⟩
  have hgrows := ((Grows.refl r.env).extend site k.callable.name).addVariables vs (Nat.le_refl _)
  have houter : (((r.env.extend site k.callable.name).addVariables vs).frame r.env.frames.size).outer
      = r.env.chain site := (outer_addVariables _ _ _).trans (outer_extend_new ..)
  have hbound : b' = true → ((r.env.extend site k.callable.name).addVariables vs).bound? r.env.frames.size x ≠ none :=
    fun hb => bound?_addVariables_ne_none vs (by rw [size_extend]; exact Nat.lt_succ_self _)
      (.inl (hnames (hparam hb)))
  refine pairs_enter hk hold hnew (fun body => ⟨marks ++ [b'], b', ⟨henv, ?_, ?_⟩, stash_append hr.stash _, ?_, hr.output⟩)
  · exact hr.env.sheltered.inside hr.env.alike hgrows houter hsite hbound
  · rw [current_addVariables]
    exact mark_new hr.env.alike
  · rw [hr.env.alike.current]
    exact .code (i := .stmt (.block body)) rfl
      (.marker fun _ => .restore (mark_append hr.env.mark _) (hr.control.append _))

theorem invoke_onward (hxy : Ordinary x y) (hr : r.Alike x y marks b r') (n : Nat) :
    Onward x y (invoke Natives.empty n) (invoke Natives.empty n) r r' := by
  refine Pairs.bind ((parallel_popMany parallel_popValue n .nil r r' hr).mono ?_)
  rintro vs ws r r' ⟨hvs, hr⟩
  refine Pairs.bind ((parallel_popClosure r r' hr).mono ?_)
  rintro k k' r r' ⟨hk, hr⟩
  dsimp only
  rw [hk.callable.isStatic, hk.callable.length_params, hk.className, hk.descriptor, ← hvs.length_eq]
  by_cases hlength : vs.length ≠ k.callable.params.length + if k.callable.isStatic then 0 else 1
  · rw [if_pos hlength, if_pos hlength]
    exact Fault.Alike.same _
  · rw [if_neg hlength, if_neg hlength]
    change Pairs x y (Step.ofExcept (receiver k vs) >>= _) (Step.ofExcept (receiver k' ws) >>= _)
      ⟨.marker .ret :: .restore r.env.current :: r.control, r.stash, r.env, r.output⟩
      ⟨.marker .ret :: .restore r'.env.current :: r'.control, r'.stash, r'.env, r'.output⟩ _
    refine Pairs.bind (pairs_ofExcept (agree_receiver hk hvs) ?_)
    rintro ⟨object, args⟩ ⟨object', args'⟩ ⟨hobject, hargs, hsplit⟩
    obtain ⟨t, b', hold, hnew, hparam⟩ := hk.callable
    have hparams : AddsAlike x y (marks ++ [b']) b' (k.callable.params.map Param.name)
        (bindParams k.callable.params args) (bindParams k'.callable.params args') := by
      have hcount : args.length = t.params.length := by
        have hrename : k.callable.params.length = t.params.length := by
          rw [hold, Callable.params_rename, List.length_map]
        dsimp only at hsplit
        omega
      have hadds := addsAlike_bindParams (x := x) (y := y) (b := b') t.params
        (hargs.imp (fun _ _ hv => hv.append [b'])) hcount
      rw [hold, hnew, Callable.params_rename, Callable.params_rename, List.map_map]
      exact hadds
    cases hobject with
    | none =>
      change Onward x y (bindParams k.callable.params args >>= fun _ => enter Natives.empty k)
        (bindParams k'.callable.params args' >>= fun _ => enter Natives.empty k')
        ⟨_, _, r.env.extend k.frame _, _⟩ ⟨_, _, r'.env.extend k'.frame _, _⟩
      rw [hk.frame]
      exact call_onward hr hk hold hnew hparam hk.outside hparams
    | @some o o' ho =>
      obtain ⟨c, f⟩ := o
      obtain ⟨c', f'⟩ := o'
      have hf : f' = f ∧ marks[f]? = some false := by
        injection ho.bare with _ hf
        exact ⟨hf.symm, (ho.outside c f .refl).1⟩
      obtain ⟨rfl, hf⟩ := hf
      have hreceiver := addsAlike_bindReceiver (b := b') hxy (hk.append [b']) (ho.append [b'])
      have honward := call_onward hr hk hold hnew hparam hf (hreceiver.seq hparams)
      rw [bind_assoc, bind_assoc] at honward
      exact honward

/-! #### Classes -/

/-- A class binds one of its callables. -/
theorem parallel_bindCallable {k k' : Callable} (hk : k.Alike x y k') :
    Parallel x y marks false (fun _ _ => True) (bindCallable k) (bindCallable k') := by
  refine parallel_get.bind (fun r r' hr => ?_)
  have hclosure : Closure.Alike x y marks ⟨k, r.env.current, r.env.currentName⟩
      ⟨k', r'.env.current, r'.env.currentName⟩ :=
    ⟨hk, hr.env.alike.current, hr.env.alike.currentName, hr.env.mark⟩
  refine (parallel_ask (R := fun _ _ => True) (fun env env' henv => ?_)).bind
    (fun _ _ _ => parallel_changeEnv (fun env env' henv => ?_))
  · have hhere : ∀ n, env'.bindsHere n = env.bindsHere n := bindsHere_eq henv.alike henv.mark
    rw [checkFree, checkFree, hclosure.descriptor, hclosure.text, hhere]
    split
    · exact .same _
    · trivial
  · exact ⟨henv.alike.addClosure henv.mark hclosure, henv.sheltered.addBinding _ _ _, henv.mark⟩

theorem ClassDecl.Alike.superName? {d d' : ClassDecl} (h : d.Alike x y d') : d'.superName? = d.superName? := by
  rw [ClassDecl.superName?, ClassDecl.superName?, h.superclass, h.name]

theorem Callable.Alike.bare_eq {c c' : ConstructorDecl} (h : Callable.Alike x y (.constructor c) (.constructor c')) :
    c.bare = c'.bare := by
  obtain ⟨t, b, hold, hnew, -⟩ := h
  cases t with
  | method m => cases hold
  | constructor t =>
    cases hold
    cases hnew
    rw [ConstructorDecl.bare_rename, ConstructorDecl.bare_rename]

theorem map_bare_eq {ks ks' : List ConstructorDecl}
    (h : List.Forall₂ (fun c c' => Callable.Alike x y (.constructor c) (.constructor c')) ks ks') :
    ks.map ConstructorDecl.bare = ks'.map ConstructorDecl.bare := by
  induction h with
  | nil => rfl
  | cons hk _ ih => rw [List.map_cons, List.map_cons, hk.bare_eq, ih]

/-- Elaboration makes classes that are alike. -/
theorem ClassDecl.Alike.elaborate {d d' : ClassDecl} (h : d.Alike x y d') {f : FrameId} (hf : marks[f]? = some false)
    {s s' : Option Class} (hs : Option.Rel (Class.Alike marks) s s') :
    (d.elaborate f s).Alike marks (d'.elaborate f s') := by
  have hsome : s'.isSome = s.isSome := by cases hs <;> rfl
  have hconstructors := map_bare_eq (List.forall₂_map_left_iff.mpr (List.forall₂_map_right_iff.mpr
    (h.constructors s.isSome)))
  have hancestors : ((s'.map Class.lineage).getD []).map ClassInfo.bare
      = ((s.map Class.lineage).getD []).map ClassInfo.bare := by
    cases hs with
    | none => rfl
    | @some c c' hc => exact congrArg Class.lineage hc.bare.symm
  refine ⟨?_, fun e he => ?_⟩
  · simp only [Class.bare, ClassInfo.bare, ClassDecl.elaborate, h.name, h.fields, h.methods, hsome, hconstructors,
      hancestors]
  · rcases List.mem_cons.mp he with rfl | he
    · exact hf
    · cases hs with
      | none => cases he
      | some hc => exact hc.outside e he

theorem Follows.callables {c c' : List Item} (h : Follows x y marks false c c') {ks ks' : List Callable}
    (hks : List.Forall₂ (Callable.Alike x y) ks ks') :
    Follows x y marks false (ks.map Callable.item ++ c) (ks'.map Callable.item ++ c') := by
  induction hks with
  | nil => exact h
  | cons hk _ ih => exact .callable hk ih

/-- What the elaboration of a class queues. -/
def Class.queue (c : Class) (previous : FrameId) : List Item :=
  c.instanceMethods.reverse.map .method ++ c.staticMethods.reverse.map .method
    ++ c.constructors.reverse.map .constructor ++ c.staticFields.map .field ++ [.restore previous]

/-- The callables of a class, in the order in which they are queued. -/
def Class.members (c : Class) : List Callable :=
  c.instanceMethods.reverse.map .method ++ c.staticMethods.reverse.map .method
    ++ c.constructors.reverse.map .constructor

theorem queue_eq (c : Class) (previous : FrameId) :
    c.queue previous = c.members.map Callable.item ++ (c.staticFields.map .field ++ [.restore previous]) := by
  simp [Class.queue, Class.members, Callable.item, Function.comp_def]

theorem members_alike {d d' : ClassDecl} (h : d.Alike x y d') (f : FrameId) {s s' : Option Class}
    (hs : s'.isSome = s.isSome) :
    List.Forall₂ (Callable.Alike x y) (d.elaborate f s).members (d'.elaborate f s').members := by
  have hmethods : ∀ ms : List MethodDecl,
      List.Forall₂ (Callable.Alike x y) (ms.map .method) (ms.map .method) :=
    fun ms => List.forall₂_same.mpr (fun k _ => .refl x y k)
  simp only [Class.members, ClassDecl.elaborate, h.methods, h.name, h.fields, hs]
  refine List.rel_append (List.rel_append (hmethods _) (hmethods _)) ?_
  rw [← List.map_reverse, ← List.map_reverse, List.map_map, List.map_map, List.forall₂_map_left_iff,
    List.forall₂_map_right_iff]
  exact List.rel_reverse (h.constructors s.isSome)

theorem staticFields_eq {d d' : ClassDecl} (h : d.Alike x y d') (f : FrameId) (s s' : Option Class) :
    (d'.elaborate f s').staticFields = (d.elaborate f s).staticFields := by
  simp only [ClassDecl.elaborate, h.fields, h.name]

theorem parallel_superclassOf {d d' : ClassDecl} (h : d.Alike x y d') :
    Parallel x y marks b (Option.Rel (Class.Alike marks)) (superclassOf d) (superclassOf d') := by
  rw [superclassOf, superclassOf, h.superName?]
  split
  · exact (parallel_ask (fun env env' henv => agree_findClass henv.alike _)).bind
      (fun _ _ hc => parallel_pure (.some hc))
  · exact parallel_pure .none

theorem parallel_defineClass {c d : Class} (h : c.Alike marks d) :
    Parallel x y marks b (fun _ _ => True) (defineClass c) (defineClass d) := by
  refine (parallel_ask (R := fun _ _ => True) (fun env env' henv => ?_)).bind
    (fun _ _ _ => parallel_changeEnv (fun env env' henv => ?_))
  · have hbound := henv.alike.bound_outside henv.alike.first c.name
    rw [bound?, bound?] at hbound
    rw [checkNewClass, checkNewClass, ← Class.name_eq h.bare, Frame.has, Frame.has]
    generalize (env.frame global).get? c.name = old at hbound ⊢
    generalize (env'.frame global).get? c.name = new at hbound ⊢
    cases hbound with
    | none => trivial
    | some => exact .same _
  · exact ⟨henv.alike.addClass h, henv.sheltered.addBinding _ _ _, henv.mark⟩

theorem classDecl_onward (hr : r.Alike x y marks false r') {d d' : ClassDecl} (hd : d.Alike x y d') :
    Onward x y (elaborateClass d) (elaborateClass d') r r' := by
  refine Pairs.bind ((parallel_superclassOf hd r r' hr).mono ?_)
  rintro s s' r r' ⟨hs, hr⟩
  have hsite : marks[(s.map (fun c => c.frame)).getD global]? = some false := by
    cases hs with
    | none => exact hr.env.alike.first
    | some hc => exact hc.outside _ (.head _)
  have hsite' : (s'.map (fun c => c.frame)).getD global = (s.map (fun c => c.frame)).getD global := by
    cases hs with
    | none => rfl
    | some hc => exact (Class.frame_eq hc.bare).symm
  have hr₁ : Registers.Alike x y (marks ++ [false]) false
      { r with env := r.env.extend ((s.map (fun c => c.frame)).getD global) d.name }
      { r' with env := r'.env.extend ((s'.map (fun c => c.frame)).getD global) d'.name } := by
    rw [hsite', hd.name]
    refine ⟨⟨hr.env.alike.extend _ _ false, ?_, mark_new hr.env.alike⟩, stash_append hr.stash _,
      hr.control.append _, hr.output⟩
    exact hr.env.sheltered.inside hr.env.alike ((Grows.refl _).extend _ _) (outer_extend_new ..) hsite nofun
  have hs₁ : Option.Rel (Class.Alike (marks ++ [false])) s s' := rel_mono hs (fun _ _ hc => hc.append _)
  have hclass := hd.elaborate (mark_new hr.env.alike) hs₁
  change Onward x y
    (defineClass (d.elaborate r.env.frames.size s) >>= fun _ =>
      schedule ((d.elaborate r.env.frames.size s).queue r.env.current))
    (defineClass (d'.elaborate r'.env.frames.size s') >>= fun _ =>
      schedule ((d'.elaborate r'.env.frames.size s').queue r'.env.current))
    { r with env := r.env.extend ((s.map (fun c => c.frame)).getD global) d.name }
    { r' with env := r'.env.extend ((s'.map (fun c => c.frame)).getD global) d'.name }
  rw [hr.env.alike.size, hr.env.alike.current]
  refine Parallel.onward ((parallel_defineClass hclass).bind (fun _ _ _ => parallel_schedule (fun c c' h => ?_))) hr₁
  have hsome : s'.isSome = s.isSome := by cases hs <;> rfl
  have hfields := Follows.items ((d.elaborate r.env.frames.size s).staticFields.map .field) (by simp [Item.isPlain])
    (Follows.restore (b := false) (mark_append hr.env.mark [false]) h)
  have hqueue := hfields.callables (members_alike hd r.env.frames.size hsome)
  rw [queue_eq, queue_eq, staticFields_eq hd _ s]
  simpa [Item.rename, Function.comp_def, oldName, newName, funext Declarator.rename_id] using hqueue

end Frames

end StashMachine
