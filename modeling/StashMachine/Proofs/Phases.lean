import StashMachine.Proofs.Registry
import StashMachine.Proofs.Runs
import StashMachine.Proofs.StmtSteps

/-!
# StashMachine.Proofs.Phases — where a run stands

A run of a program declares its classes one after the other, runs the initialisers of static fields on
the way, and then runs the main method.

* `Declares`: what control holds while classes are declared.
* `Phase`: a run is loaded, declares classes, initialises a static field, or runs the main method; in
  the last two control and stash fit together.
* `phase_step`: one step leads from phase to phase; `Phase.reached`: so does every run.
* `opened_of_turns`: markers and jumps on control were put down by the constructs that they belong to.
-/

namespace StashMachine

open Environment Step

/-- The regime of a piece of control over further items. -/
def Regime.over (g : Regime) (below : List Item) : Regime :=
  { g with origin := fun c => g.origin (c ++ below) }

theorem Regime.over_origin {g : Regime} {below c : List Item} :
    (g.over below).origin c ↔ g.origin (c ++ below) := Iff.rfl

/-- The callables that wait on top of control. -/
def pending : List Item → List Callable
  | .method m :: rest => .method m :: pending rest
  | .constructor k :: rest => .constructor k :: pending rest
  | _ => []

/-- The item that binds a callable. -/
def Callable.item : Callable → Item
  | .method m => .method m
  | .constructor k => .constructor k

/-- A callable that waits to be bound. -/
def Bindable (careful : Prop) (k : Callable) : Prop := k.Returns ∧ (careful → k.Plain)

/-- Control while classes are declared, from a frame on: classes, members, ways back to the frame that
a class was declared from, and at the end the call of the main method.  Callables stand in front of
everything else. -/
def Declares (careful : Prop) : FrameId → List Item → Prop
  | _, .expr _ :: rest => rest = []
  | f, .classDecl d :: rest =>
    f = global ∧ (careful → d.Plain) ∧ pending rest = [] ∧ Declares careful f rest
  | f, .method m :: rest => Bindable careful (.method m) ∧ Declares careful f rest
  | f, .constructor k :: rest => Bindable careful (.constructor k) ∧ Declares careful f rest
  | f, .field _ :: rest => pending rest = [] ∧ Declares careful f rest
  | _, .restore f :: rest => pending rest = [] ∧ Declares careful f rest
  | _, _ => False

/-- Where a run of the program `p` stands. -/
inductive Phase (g : Regime) (p : Program) (r : Registers) : Prop
  | loaded (hc : r.control = [.program p]) (hs : r.stash = []) (he : r.env = .initial)
  | declaring (hs : r.stash = []) (hd : Declares g.careful r.env.current r.control)
    (he : Forming g (pending r.control) r.env)
  | initialising (c below : List Item) (f : FrameId) (hc : r.control = c ++ below)
    (ht : OnTrack (g.over below) (.field f) c r.stash r.env) (hd : Declares g.careful f below)
    (hp : pending below = []) (he : Forming g [] r.env)
  | running (f : FrameId) (ht : OnTrack (g.over []) (.value f) r.control r.stash r.env)
    (he : Forming g [] r.env)

section Declares

variable {g : Regime} {f : FrameId} {D : List Item}

theorem declares_callables {ks : List Callable} (hks : ∀ k ∈ ks, Bindable g.careful k)
    (hD : Declares g.careful f D) : Declares g.careful f (ks.map Callable.item ++ D) := by
  induction ks with
  | nil => exact hD
  | cons k ks ih =>
    have ih' := ih (fun k' hk' => hks k' (by simp [hk']))
    have hk := hks k (by simp)
    cases k <;> exact ⟨hk, ih'⟩

theorem pending_callables (ks : List Callable) (D : List Item) :
    pending (ks.map Callable.item ++ D) = ks ++ pending D := by
  induction ks with
  | nil => rfl
  | cons k ks ih => cases k <;> simp [Callable.item, pending, ih]

theorem declares_fields (fs : List FieldDecl) (hp : pending D = []) (hD : Declares g.careful f D) :
    pending (fs.map .field ++ D) = [] ∧ Declares g.careful f (fs.map .field ++ D) := by
  induction fs with
  | nil => exact ⟨hp, hD⟩
  | cons fd fs ih => exact ⟨rfl, ih⟩

theorem declares_classes {ds : List ClassDecl} (hds : g.careful → ∀ d ∈ ds, d.Plain)
    (hp : pending D = []) (hD : Declares g.careful global D) :
    pending (ds.map .classDecl ++ D) = [] ∧ Declares g.careful global (ds.map .classDecl ++ D) := by
  induction ds with
  | nil => exact ⟨hp, hD⟩
  | cons d ds ih =>
    exact ⟨rfl, rfl, fun hg => hds hg d (by simp), ih (fun hg d' hd' => hds hg d' (by simp [hd']))⟩

/-- Nothing jumps, and there is nothing to jump to, where classes are declared. -/
theorem Declares.notMem_of_turns {i : Item} (hi : i.Turns) (h : Declares g.careful f D) : i ∉ D := by
  induction D generalizing f with
  | nil => exact h.elim
  | cons i' D ih =>
    have hne : ∀ {i'' : Item}, ¬ i''.Turns → i ≠ i'' := fun h he => h (he ▸ hi)
    cases i' with
    | expr e =>
      cases h
      exact List.not_mem_cons_of_ne_of_not_mem (hne (by rintro ⟨⟩)) List.not_mem_nil
    | classDecl d => exact List.not_mem_cons_of_ne_of_not_mem (hne (by rintro ⟨⟩)) (ih h.2.2.2)
    | method m => exact List.not_mem_cons_of_ne_of_not_mem (hne (by rintro ⟨⟩)) (ih h.2)
    | constructor k => exact List.not_mem_cons_of_ne_of_not_mem (hne (by rintro ⟨⟩)) (ih h.2)
    | field fd => exact List.not_mem_cons_of_ne_of_not_mem (hne (by rintro ⟨⟩)) (ih h.2)
    | restore f' => exact List.not_mem_cons_of_ne_of_not_mem (hne (by rintro ⟨⟩)) (ih h.2)
    | _ => exact h.elim

end Declares

/-! ### The steps of declarations -/

section Steps

variable {g : Regime} {p : Program} {D : List Item} {env : Environment} {out : List String}

theorem plain_root : ClassDecl.root.Plain where
  name := by decide
  methods := by simp [ClassDecl.root, ClassDecl.methods]
  constructors := by
    intro k hk
    simp only [ClassDecl.root, ClassDecl.constructors, List.filterMap_cons, List.filterMap_nil,
      List.mem_singleton] at hk
    subst hk
    exact ConstructorDecl.implicit_plain _

theorem Program.mem_of_superclassesFirst {q : Program} (h : p.superclassesFirst = .ok q)
    {d : ClassDecl} (hd : d ∈ q) : d ∈ p := by
  unfold superclassesFirst at h
  split at h
  · cases h
    obtain ⟨i, -, hi⟩ := List.mem_filterMap.mp hd
    exact List.mem_of_getElem? hi
  · cases h

theorem Program.flawless_climb (placed : List Nat) (room : Nat) (chain : List Nat)
    (i : Option Nat) : Flawless (p.climb placed room chain i) := by
  fun_induction climb p placed room chain i with
  | case1 => simp
  | case2 => simp
  | case3 => simp
  | case4 => simp
  | case5 _ _ _ _ _ ih => exact ih

theorem Program.flawless_superclassesFirst (p : Program) : Flawless p.superclassesFirst := by
  have hplace : ∀ is placed, Flawless (p.place placed is) := by
    intro is
    induction is with
    | nil => simp [place]
    | cons i is ih =>
      intro placed
      unfold place
      split
      · exact ih _
      · rename_i e he
        have h := Program.flawless_climb (p := p) placed (p.length + 1) [] (some i)
        rw [he] at h
        exact fun e' he' => h e' (by cases he'; rfl)
  unfold superclassesFirst
  split
  · simp
  · rename_i e he
    have h := hplace (List.range p.length) []
    rw [he] at h
    exact fun e' he' => h e' (by cases he'; rfl)

theorem start_phase (hp : g.careful → ∀ d ∈ p, d.Plain) :
    Ends (start p) ⟨[], [], .initial, out⟩ (fun _ r => Phase g p r) (fun e _ => g.Blames e) := by
  unfold start
  split
  · exact Regime.blames_of_ordinary trivial
  · simp only [ends_bind, ends_ofExcept, ends_schedule, List.append_nil]
    refine ⟨fun q hq => ?_, fun e he => p.flawless_superclassesFirst.blames he⟩
    have hplain : g.careful → ∀ d ∈ (if p.any (fun c => c.name == rootName) then []
        else [ClassDecl.root]) ++ q, d.Plain := by
      intro hg d hd
      rcases List.mem_append.mp hd with hd | hd
      · split at hd
        · cases hd
        · obtain rfl := List.mem_singleton.mp hd
          exact plain_root
      · exact hp hg d (Program.mem_of_superclassesFirst hq hd)
    obtain ⟨hpending, hdeclares⟩ := declares_classes (D := [.expr (.mainCall _)]) hplain rfl rfl
    refine .declaring rfl hdeclares ?_
    rw [hpending]
    exact .initial g

theorem elaborateClass_phase {d : ClassDecl}
    (hD : Declares g.careful env.current (.classDecl d :: D)) (he : Forming g [] env) :
    Ends (elaborateClass d) ⟨D, [], env, out⟩ (fun _ r => Phase g p r) (fun e _ => g.Blames e) := by
  obtain ⟨hglobal, hplain, hp, hD⟩ := hD
  rw [elaborateClass, ends_bind]
  refine ends_superclassOf (fun superclass hsuper => ?_)
  simp only [ends_bind, ends_here, ends_extend, ends_defineClass, ends_schedule, current_extend,
    bound?_extend]
  refine ⟨fun hfree => ?_, fun _ => Regime.blames_of_ordinary trivial⟩
  generalize hc : d.elaborate env.frames.size superclass = c at hfree ⊢
  let ks : List Callable := c.instanceMethods.reverse.map .method
    ++ c.staticMethods.reverse.map .method ++ c.constructors.reverse.map .constructor
  have hks : c.toClassInfo.callables.Perm ks := by
    simp only [ks, ClassInfo.callables, ClassInfo.methods, List.map_append, List.map_reverse]
    exact ((List.reverse_perm _).symm.append (List.reverse_perm _).symm).append
      (List.reverse_perm _).symm
  have hitems : c.instanceMethods.reverse.map Item.method ++ c.staticMethods.reverse.map Item.method
      ++ c.constructors.reverse.map Item.constructor = ks.map Callable.item := by
    simp [ks, Callable.item, Function.comp_def]
  rw [hitems]
  simp only [List.append_assoc]
  have hrest := declares_fields c.staticFields (D := .restore env.current :: D) (f := env.frames.size)
    (g := g) rfl ⟨hp, hD⟩
  refine .declaring rfl (declares_callables (fun k hk => ?_) hrest.2) ?_
  · rw [← hks.mem_iff, ← hc] at hk
    exact ⟨returns_of_mem_callables hk, fun hg => plain_of_mem_callables (hplain hg) hk⟩
  · refine he.addClass hplain hsuper _ hc.symm hfree ?_
    rw [pending_callables, List.singleton_append, hrest.1, List.append_nil]
    exact hks

theorem bindCallable_phase {k : Callable} (hk : Bindable g.careful k) (hD : Declares g.careful env.current D)
    (he : Forming g (k :: pending D) env) :
    Ends (bindCallable k) ⟨D, [], env, out⟩ (fun _ r => Phase g p r) (fun e _ => g.Blames e) := by
  simp only [bindCallable, ends_bind, ends_get, ends_defineClosure]
  refine ⟨fun hfree => .declaring rfl hD ?_, fun _ => Regime.blames_of_ordinary trivial⟩
  exact he.addClosure hk.1 hk.2 rfl hfree

/-- Code that runs while classes are declared. -/
theorem Phase.of_stays {f : FrameId} (hp : pending D = []) (hD : Declares g.careful f D)
    (he : Forming g [] env) {r : Registers}
    (h : Stays (g.over D) (.field f) D [] env r) : Phase g p r := by
  obtain ⟨hev, c, s, hc, hs, ht⟩ := h
  rw [List.append_nil] at hs
  exact .initialising c D f hc (hs ▸ ht) hD hp (he.evolves hev)

theorem declareStatic_phase {fd : FieldDecl} (hp : pending D = []) (hD : Declares g.careful env.current D)
    (he : Forming g [] env) :
    Ends (declareStatic fd) ⟨D, [], env, out⟩ (fun _ r => Phase g p r) (fun e _ => g.Blames e) := by
  unfold declareStatic
  split
  · exact .declaring rfl hD (hp ▸ he)
  · refine Ends.mono ?_ (fun _ r hr => .of_stays hp hD he hr) (fun _ _ hb => hb)
    exact declareOne_stays (.inr rfl) (b := .field env.current) (K := D) (c := []) (S := []) (s := [])
      (σ := []) ⟨rfl, rfl⟩ .nil
  · rw [ends_schedule]
    have hmap : ∀ vars : List Declarator, vars.map (fun d => Item.field (fd.only d))
        = (vars.map fd.only).map .field := by simp
    rw [hmap]
    obtain ⟨hpending, hdeclares⟩ := declares_fields (fd.vars.map fd.only) hp hD
    exact .declaring rfl hdeclares (hpending ▸ he)

/-! ### Every step -/

theorem Forming.over_sound (he : Forming g [] env) (D : List Item) : Sound (g.over D) env :=
  ⟨he.returns, he.keys, he.names, he.sound.complete⟩

section Every

variable {natives : Natives} {i : Item} {c : List Item} {s : List StashItem}

/-- How a piece of control ends. -/
theorem OnTrack.nil {b : Base} (h : OnTrack g b [] s env) :
    (∃ f, b = .value f ∧ env.current = f ∧ List.Forall₂ (Holds g env) [.result] s) ∨
      ∃ f, (b = .statement f ∨ b = .field f) ∧ env.current = f ∧ s = [] := by
  obtain ⟨l, σ, -, hf, hs⟩ := h
  cases b with
  | value f =>
    cases l with
    | value =>
      obtain ⟨hf, rfl⟩ := hf
      exact .inl ⟨f, rfl, hf, hs⟩
    | _ => exact hf.elim
  | statement f =>
    cases l with
    | stmt =>
      obtain ⟨hf, rfl⟩ := hf
      cases hs
      exact .inr ⟨f, .inl rfl, hf, rfl⟩
    | _ => exact hf.elim
  | field f =>
    cases l with
    | done =>
      obtain ⟨hf, rfl⟩ := hf
      cases hs
      exact .inr ⟨f, .inr rfl, hf, rfl⟩
    | _ => exact hf.elim

variable (hneutral : natives.Neutral) (hnative : g.careful → natives = []) (hknows : g.Knows env)
  (horigin : ∀ new, Item.Opens env.current i new → g.origin (new ++ c))

include hneutral hnative hknows horigin

theorem running_step {f : FrameId} (ht : OnTrack (g.over []) (.value f) (i :: c) s env)
    (he : Forming g [] env) :
    Ends (perform natives i) ⟨c, s, env, out⟩ (fun _ r => Phase g p r)
      (fun e _ => g.Blames e ∨ Misses i c e) := by
  have h : Ends (perform natives i) ⟨c ++ [], s ++ [], env, out⟩ _ _ :=
    perform_goes (g := g.over []) hneutral hnative (he.over_sound []) hknows
      (fun new hopens => by
        rw [Regime.over_origin, List.append_nil]
        exact horigin new hopens) ht
  rw [List.append_nil, List.append_nil] at h
  refine h.mono ?_ (fun _ _ hb => hb)
  rintro - r (⟨hev, c', s', hc, hs, ht⟩ | ⟨j, -, ⟨f, hf⟩, -⟩)
  · rw [List.append_nil] at hc hs
    subst hc hs
    exact .running _ ht (he.evolves hev)
  · cases hf

theorem declaring_step (hd : Declares g.careful env.current (i :: c))
    (he : Forming g (pending (i :: c)) env) :
    Ends (perform natives i) ⟨c, [], env, out⟩ (fun _ r => Phase g p r)
      (fun e _ => g.Blames e ∨ Misses i c e) := by
  have blames : ∀ {x : Step Unit}, Ends x ⟨c, [], env, out⟩ (fun _ r => Phase g p r)
      (fun e _ => g.Blames e) → Ends x ⟨c, [], env, out⟩ (fun _ r => Phase g p r)
      (fun e _ => g.Blames e ∨ Misses i c e) :=
    fun hx => hx.mono (fun _ _ h => h) (fun _ _ h => .inl h)
  cases i with
  | expr e =>
    cases hd
    exact running_step hneutral hnative hknows horigin
      ⟨.value, [], trivial, .inl ⟨rfl, rfl⟩, .nil⟩ he
  | classDecl d => exact blames (elaborateClass_phase hd he)
  | method m => exact blames (bindCallable_phase hd.1 hd.2 he)
  | constructor k => exact blames (bindCallable_phase hd.1 hd.2 he)
  | field fd => exact blames (declareStatic_phase hd.1 hd.2 he)
  | restore f =>
    refine .declaring rfl hd.2 ?_
    rw [hd.1]
    exact he.evolves (.of_lasts ((Lasts.refl env).restore f))
  | _ => exact hd.elim

theorem initialising_step {c' below : List Item} {f : FrameId} (hc : i :: c = c' ++ below)
    (ht : OnTrack (g.over below) (.field f) c' s env) (hd : Declares g.careful f below)
    (hpend : pending below = []) (he : Forming g [] env) :
    Ends (perform natives i) ⟨c, s, env, out⟩ (fun _ r => Phase g p r)
      (fun e _ => g.Blames e ∨ Misses i c e) := by
  cases c' with
  | nil =>
    -- the initialiser is done, and the declarations go on
    rcases ht.nil with ⟨f', hf', -⟩ | ⟨f', hf' | hf', hcurrent, rfl⟩
    · cases hf'
    · cases hf'
    · cases hf'
      subst hc
      exact declaring_step hneutral hnative hknows horigin (hcurrent ▸ hd) (hpend ▸ he)
  | cons i' c' =>
    cases hc
    have h : Ends (perform natives i) ⟨c' ++ below, s ++ [], env, out⟩ _ _ :=
      perform_goes (g := g.over below) hneutral hnative (he.over_sound below) hknows
        (fun new hopens => by
          rw [Regime.over_origin, List.append_assoc]
          exact horigin new hopens) ht
    rw [List.append_nil] at h
    refine h.mono ?_ (fun _ _ hb => hb)
    rintro - r (hstays | ⟨j, -, ⟨f, hf⟩, -⟩)
    · exact .of_stays hpend hd he hstays
    · cases hf

/-- One step leads from phase to phase. -/
theorem phase_step (hp : g.careful → ∀ d ∈ p, d.Plain) (h : Phase g p ⟨i :: c, s, env, out⟩) :
    Ends (perform natives i) ⟨c, s, env, out⟩ (fun _ r => Phase g p r)
      (fun e _ => g.Blames e ∨ Misses i c e) := by
  rcases h with ⟨hc, rfl, rfl⟩ | ⟨rfl, hd, he⟩ | ⟨c', below, f, hc, ht, hd, hpend, he⟩ | ⟨f, ht, he⟩
  · cases hc
    exact (start_phase hp).mono (fun _ _ h => h) (fun _ _ h => .inl h)
  · exact declaring_step hneutral hnative hknows horigin hd he
  · exact initialising_step hneutral hnative hknows horigin hc ht hd hpend he
  · exact running_step hneutral hnative hknows horigin ht he

end Every

end Steps

/-! ### Markers -/

section Markers

variable {g : Regime} {p : Program} {r : Registers}

/-- Markers and jumps only stand on control while code runs. -/
theorem Phase.exists_flows (h : Phase g p r) {front rest : List Item} {i : Item} (hi : i.Turns)
    (hc : r.control = front ++ i :: rest) :
    ∃ D c b l f σ, rest = c ++ D ∧ Flows (g.over D) b (front ++ i :: c) l f σ := by
  rcases h with ⟨hc', -, -⟩ | ⟨-, hd, -⟩ | ⟨c, below, f, hc', ht, hd, -, -⟩ | ⟨f, ht, -⟩
  · rw [hc', eq_comm, List.append_eq_singleton_iff] at hc
    rcases hc with ⟨-, hc⟩ | ⟨-, hc⟩ <;> cases hc
    cases hi
  · exact absurd (by simp [hc]) (hd.notMem_of_turns hi)
  · obtain ⟨l, σ, -, hf, -⟩ := ht
    rw [hc'] at hc
    rcases List.append_eq_append_iff.mp hc with ⟨d, rfl, hbelow⟩ | ⟨d, rfl, hrest⟩
    · exact absurd (by simp [hbelow]) (hd.notMem_of_turns hi)
    · cases d with
      | nil =>
        rw [List.nil_append] at hrest
        exact absurd (by simp [← hrest]) (hd.notMem_of_turns hi)
      | cons i' d =>
        cases hrest
        exact ⟨below, d, _, l, _, σ, rfl, hf⟩
  · obtain ⟨l, σ, -, hf, -⟩ := ht
    rw [hc] at hf
    exact ⟨[], rest, _, l, _, σ, (List.append_nil rest).symm, hf⟩

/-- Behind every marker on control stands the way back to the frame of its construct. -/
theorem Phase.exists_restore (h : Phase g p r) {front rest : List Item} {j : Jump}
    (hc : r.control = front ++ .marker j :: rest) : ∃ f c, rest = .restore f :: c := by
  obtain ⟨D, c, b, l, f, σ, rfl, hf⟩ := h.exists_flows (.marker j) hc
  obtain ⟨f', c', rfl⟩ := exists_restore_of_marker hf
  exact ⟨f', c' ++ D, rfl⟩

/-- Markers and jumps on control have an origin. -/
theorem Phase.origin_of_turns (h : Phase g p r) {front rest : List Item} {i : Item} (hi : i.Turns)
    (hc : r.control = front ++ i :: rest) : g.origin (i :: rest) := by
  obtain ⟨D, c, b, l, f, σ, rfl, hf⟩ := h.exists_flows hi hc
  exact Regime.over_origin.mp (hf.origin_of_turns hi)

theorem OnTrack.origin {b : Base} {c : List Item} {s : List StashItem} {env : Environment}
    {o : List Item → Prop} (h : OnTrack g b c s env)
    (ho : ∀ front i rest, c = front ++ i :: rest → i.Turns → o (i :: rest)) :
    OnTrack { g with origin := o } b c s env := by
  obtain ⟨l, σ, hl, hf, hs⟩ := h
  exact ⟨l, σ, hl, hf.origin ho, hs.imp (fun κ _ hi => by cases κ <;> exact hi)⟩

/-- Whatever is true of the markers and jumps on control may be asked of them. -/
theorem Phase.origin {o : List Item → Prop} (h : Phase g p r)
    (ho : ∀ front i rest, r.control = front ++ i :: rest → i.Turns → o (i :: rest)) :
    Phase { g with origin := o } p r := by
  have forming : ∀ {pend}, Forming g pend r.env → Forming { g with origin := o } pend r.env :=
    fun he => ⟨he.returns, he.keys, he.names, he.complete, he.classes, he.place⟩
  rcases h with ⟨hc, hs, he⟩ | ⟨hs, hd, he⟩ | ⟨c, below, f, hc, ht, hd, hp, he⟩ | ⟨f, ht, he⟩
  · exact .loaded hc hs he
  · exact .declaring hs hd (forming he)
  · refine .initialising c below f hc (ht.origin (fun front i rest hc' hi => ?_)) hd hp (forming he)
    exact ho front i (rest ++ below) (by rw [hc, hc']; simp) hi
  · refine .running f (ht.origin (fun front i rest hc' hi => ?_)) (forming he)
    exact ho front i (rest ++ []) (by rw [hc', List.append_nil]) hi

/-- An item that declares nothing is on top of a piece of control that fits. -/
theorem Phase.exists_track (h : Phase g p r) {i : Item} {c : List Item} (hc : r.control = i :: c)
    (hprogram : ∀ q, i ≠ .program q) (hi : ∀ f D, ¬ Declares g.careful f (i :: D)) :
    ∃ D c' b, (∀ f, b ≠ .statement f) ∧ c = c' ++ D ∧ OnTrack (g.over D) b (i :: c') r.stash r.env := by
  rcases h with ⟨hc', -, -⟩ | ⟨-, hd, -⟩ | ⟨c', below, f, hc', ht, hd, -, -⟩ | ⟨f, ht, -⟩
  · rw [hc'] at hc
    cases hc
    exact absurd rfl (hprogram p)
  · rw [hc] at hd
    exact absurd hd (hi _ _)
  · rw [hc'] at hc
    cases c' with
    | nil =>
      rw [List.nil_append] at hc
      rw [hc] at hd
      exact absurd hd (hi _ _)
    | cons i c' =>
      cases hc
      exact ⟨below, c', _, by simp, rfl, ht⟩
  · rw [hc] at ht
    exact ⟨[], c, _, by simp, by simp, ht⟩

/-- A `return` always finds its call. -/
theorem Phase.exists_unwind_ret (h : Phase g p r) {c : List Item}
    (hc : r.control = .reset .ret :: c) : ∃ rest, unwind .ret c = .ok rest := by
  obtain ⟨D, c', b, hb, rfl, l, σ, hl, hf, -⟩ := h.exists_track hc nofun (fun _ _ h => h)
  cases l with
  | value =>
    obtain ⟨-, τ, rfl, hf | hf⟩ := hf
    · rcases unwind_ret hf D with ⟨f', c'', h, -⟩ | ⟨⟨f, hf'⟩, -⟩
      · exact ⟨_, h⟩
      · exact absurd hf' (hb f)
    · obtain ⟨f', c'', h, -⟩ := unwind_land hf D
      exact ⟨_, h⟩
  | stmt => exact absurd rfl hf.1
  | land => exact hl.elim
  | pending left all => exact hl.elim
  | _ => exact hf.elim

/-- Behind the selection of a method stand the arguments of its call. -/
theorem Phase.exists_arguments (h : Phase g p r) {x : String} {n : Nat} {q : Path} {c : List Item}
    (hc : r.control = .overload x n q :: c) :
    ∃ (es : List Expr) (rest : List Item), es.length = n ∧ c = es.map .expr ++ .invoke n :: rest := by
  obtain ⟨D, c', b, -, rfl, l, σ, hl, hf, -⟩ := h.exists_track hc nofun (fun _ _ h => h)
  cases l with
  | value =>
    obtain ⟨τ, -, hpending⟩ := hf
    obtain ⟨es, c'', hlen, rfl, -⟩ := exists_of_flows_pending hpending
    exact ⟨es, c'' ++ D, hlen, by simp⟩
  | pending left all => exact hl.elim
  | _ => exact hf.elim

/-- The environment of a run is sound, except for the callables that wait on control. -/
theorem Phase.exists_forming (h : Phase g p r) :
    ∃ pend, Forming g pend r.env ∧ (pend = [] ∨ pend = pending r.control) := by
  rcases h with ⟨-, -, he⟩ | ⟨-, -, he⟩ | ⟨c, below, f, -, -, -, -, he⟩ | ⟨f, -, he⟩
  · exact ⟨[], he ▸ .initial g, .inl rfl⟩
  · exact ⟨_, he, .inr rfl⟩
  · exact ⟨[], he, .inl rfl⟩
  · exact ⟨[], he, .inl rfl⟩

/-- Closures of a run return. -/
theorem Phase.returns (h : Phase g p r) {k : Closure} (hk : r.env.Binds k) : k.callable.Returns := by
  obtain ⟨pend, he, -⟩ := h.exists_forming
  exact he.returns k hk

end Markers

/-! ### Every run -/

section Runs

open Machine

variable {g : Regime} {p : Program} {natives : Natives} {m : Machine}

/-- Every run goes through the phases, wherever its markers and jumps come from. -/
theorem Phase.reached (hneutral : natives.Neutral) (hnative : g.careful → natives = [])
    (hp : g.careful → ∀ d ∈ p, d.Plain)
    (hknows : ∀ m, Reached natives p m → g.Knows m.registers.env)
    (horigin : ∀ c, g.origin c) (hm : Reached natives p m) : Phase g p m.registers := by
  refine hm.induction (P := fun m => Phase g p m.registers) (.loaded rfl rfl rfl)
    (fun m₁ m₂ h₁ hphase hnext => ?_)
  obtain ⟨i, c, hc, hperform, -⟩ := next_iff.mp hnext
  refine (phase_step hneutral hnative (hknows m₁ h₁) (fun _ _ => horigin _) hp ?_).of_ok
    hperform
  exact hc ▸ hphase

/-- The regime that asks for everything. -/
def Regime.strict : Regime := ⟨True, fun _ => True, fun _ => True⟩

theorem Regime.strict_knows (env : Environment) : Regime.strict.Knows env :=
  fun _ _ _ _ _ _ _ => trivial

/-- A run without natives goes through the phases, and the most is known of it. -/
theorem Phase.strict (hp : ∀ d ∈ p, d.Plain) (hm : Reached Natives.empty p m) :
    Phase .strict p m.registers :=
  .reached Natives.neutral_empty (fun _ => rfl) (fun _ => hp) (fun _ _ => Regime.strict_knows _)
    (fun _ => trivial) hm

/-- One step of a run of the program put down the first items of `c`: a marker with the way back to the
frame that the step was taken in, or a jump. -/
def Opened (natives : Natives) (p : Program) (c : List Item) : Prop :=
  ∃ m₀ m₁ item below new front, Reached natives p m₀ ∧ Next natives m₀ m₁ ∧
    m₀.registers.control = item :: below ∧ Item.Opens m₀.registers.env.current item new ∧
    c = new ++ below ∧ m₁.registers.control = front ++ c

/-- Markers and jumps on control were put down by the constructs and statements that they belong to. -/
theorem opened_of_turns (hneutral : natives.Neutral) (hm : Reached natives p m) {front rest : List Item}
    {i : Item} (hi : i.Turns) (hc : m.registers.control = front ++ i :: rest) :
    Opened natives p (i :: rest) := by
  let g (o : List Item → Prop) : Regime := ⟨False, fun _ => True, o⟩
  suffices h : Phase (g (Opened natives p)) p m.registers from h.origin_of_turns hi hc
  refine hm.induction (P := fun m => Phase (g (Opened natives p)) p m.registers)
    (.loaded rfl rfl rfl) (fun m₁ m₂ h₁ hphase hnext => ?_)
  obtain ⟨i, c, hc, hperform, -⟩ := next_iff.mp hnext
  -- what the step puts down is only known to stand on control once the step is done
  let soon (c' : List Item) : Prop :=
    Opened natives p c' ∨ ∃ new, Item.Opens m₁.registers.env.current i new ∧ c' = new ++ c
  have hphase₁ : Phase (g soon) p m₁.registers :=
    hphase.origin (fun front i rest hfront hi => .inl (hphase.origin_of_turns hi hfront))
  have hphase₂ : Phase (g soon) p m₂.registers := by
    refine (phase_step (g := g soon) hneutral False.elim False.elim
      (fun new hopens => .inr ⟨new, hopens, rfl⟩) False.elim ?_).of_ok hperform
    exact hc ▸ hphase₁
  refine hphase₂.origin (fun front i' rest hfront hi => ?_)
  rcases hphase₂.origin_of_turns hi hfront with ho | ⟨new, hopens, hnew⟩
  · exact ho
  · exact ⟨m₁, m₂, i, c, new, front, h₁, hnext, hc, hopens, hnew, hfront⟩

end Runs

end StashMachine
