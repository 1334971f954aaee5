import StashMachine.Proofs.StaticFields

/-!
# StashMachine.Proofs.StaticTypes — the types that static fields are set up with

A class sets its static fields up one by one, in the order of their declarations, and the initialisers run code
in between.

* `waiting f g c`: the static fields that wait on control to be set up in the frame `f`.
* `waiting_next`: code neither drops any of them nor adds one.
* `Underway r`: the static fields of a class are those that it has set up, and then those that wait.
* `type_of_ownVariable`: so the variable of a static field has the type of the first declaration of its name.
-/

namespace StashMachine

open Environment Step Machine

/-- The names that a field declaration declares, with their type. -/
def FieldDecl.typed (fd : FieldDecl) : List (String × TypeName) := fd.vars.map (fun d => (d.name, fd.type))

/-- The static fields with their types, in the order of declaration. -/
def ClassInfo.staticVars (c : ClassInfo) : List (String × TypeName) := c.staticFields.flatMap FieldDecl.typed

/-- The type of the variable that a class binds under a name in its own frame. -/
def Environment.ownType? (env : Environment) (c : ClassInfo) (x : String) : Option TypeName :=
  (env.ownVariable? c x).bind (fun id => (env.var? id).map Variable.type)

/-- The static fields that the items set up in the frame `f`, if the first one is performed in the frame `g`. -/
def waiting (f : FrameId) : FrameId → List Item → List (String × TypeName)
  | _, [] => []
  | _, .restore h :: c => waiting f h c
  | g, .field fd :: c => (if g = f then fd.typed else []) ++ waiting f g c
  | g, _ :: c => waiting f g c

/-- The item sets up no static field, and does not change the frame when it is performed. -/
def Item.isSettled : Item → Bool
  | .restore _ | .field _ => false
  | _ => true

/-! ### What waits -/

section Waiting

variable {f g h : FrameId} {i : Item} {c c' new front : List Item}

theorem waiting_cons (hi : i.isSettled = true) : waiting f g (i :: c) = waiting f g c := by
  cases i <;> first | rfl | cases hi

theorem waiting_append (hnew : ∀ i ∈ new, i.isSettled = true) : waiting f g (new ++ c) = waiting f g c := by
  induction new with
  | nil => rfl
  | cons i new ih =>
    rw [List.cons_append, waiting_cons (hnew i (.head _))]
    exact ih (fun j hj => hnew j (.tail _ hj))

theorem waiting_simple (hnew : new.all Item.isSimple = true) : waiting f g (new ++ c) = waiting f g c := by
  refine waiting_append (fun i hi => ?_)
  have hsimple := List.all_eq_true.mp hnew i hi
  cases i <;> first | rfl | cases hsimple

theorem waiting_stmts (ss : List Stmt) : waiting f g (ss.map .stmt ++ c) = waiting f g c := by
  refine waiting_append (fun i hi => ?_)
  obtain ⟨s, -, rfl⟩ := List.mem_map.mp hi
  rfl

/-- The frame that a way back leads to decides, whatever frames come before. -/
theorem waiting_back (hfront : ∀ fd, .field fd ∉ front) :
    waiting f g (front ++ .restore h :: c) = waiting f h c := by
  induction front generalizing g with
  | nil => rfl
  | cons i front ih =>
    have hrest : ∀ g, waiting f g (front ++ .restore h :: c) = waiting f h c :=
      fun g => ih (g := g) (fun fd hfd => hfront fd (.tail _ hfd))
    cases i with
    | restore h' => exact hrest h'
    | field fd => exact absurd (.head _) (hfront fd)
    | _ => exact hrest g

theorem waiting_fields (fds : List FieldDecl) : waiting f g (fds.map .field ++ c) =
    (if g = f then fds.flatMap FieldDecl.typed else []) ++ waiting f g c := by
  induction fds with
  | nil => simp
  | cons fd fds ih =>
    rw [List.map_cons, List.cons_append, waiting, ih]
    split <;> simp

theorem waiting_addReceiver? {n : Nat} (hc : addReceiver? n c = some c') : waiting f g c' = waiting f g c := by
  fun_induction addReceiver? n c generalizing c' g with
  | case1 n rest =>
    cases hc
    rfl
  | case2 depth item rest ih =>
    obtain ⟨rest', hrest, rfl⟩ := Option.map_eq_some_iff.mp hc
    have hsame : ∀ g, waiting f g rest' = waiting f g rest := fun g => ih hrest
    cases item with
    | restore h => exact hsame h
    | field fd => rw [waiting, waiting, hsame]
    | _ => exact hsame g
  | case3 => cases hc

/-- The lists of a branch lead back to its frame. -/
theorem waiting_branches {yes no : List Item} (hb : Branches g yes no) :
    waiting f g (yes ++ c) = waiting f g c ∧ waiting f g (no ++ c) = waiting f g c := by
  cases hb with
  | operands l r => exact ⟨rfl, rfl⟩
  | stmts yes no => exact ⟨waiting_stmts yes, waiting_stmts no⟩
  | whileRound e body => exact ⟨rfl, rfl⟩
  | forRound e update body =>
    refine ⟨?_, rfl⟩
    rw [List.append_assoc, List.append_assoc]
    exact waiting_stmts update

end Waiting

/-! ### Control of a run -/

section Control

variable {regime : Regime} {b : Base} {l : Level} {f : FrameId} {σ : List Kind} {p : Program} {r : Registers}
  {c front rest : List Item} {j : Jump}

/-- An item that no code can begin with is nowhere in code. -/
theorem Flows.notMem {i : Item} (hi : ∀ c l f σ, ¬ Flows regime b (i :: c) l f σ) (h : Flows regime b c l f σ) :
    i ∉ c := by
  induction c generalizing l f σ with
  | nil => exact List.not_mem_nil
  | cons i' c ih =>
    have hhead : i ≠ i' := by
      rintro rfl
      exact hi c l f σ h
    obtain ⟨l', f', σ', h'⟩ := Item.asks_next h
    exact List.not_mem_cons_of_ne_of_not_mem hhead (ih h')

/-- Code that fits declares no static fields. -/
theorem Flows.notMem_field (h : Flows regime b c l f σ) (fd : FieldDecl) : .field fd ∉ c := by
  refine h.notMem (fun c l f σ h => ?_)
  cases l with
  | pending left all => cases left <;> exact h.elim
  | _ => exact h.elim

/-- No static field waits in front of a marker. -/
theorem Phase.notMem_field (h : Phase regime p r) (hc : r.control = front ++ .marker j :: rest)
    (fd : FieldDecl) : .field fd ∉ front := by
  obtain ⟨D, c, b, l, f, σ, -, hflows⟩ := h.exists_flows (.marker j) hc
  exact fun hfd => hflows.notMem_field fd (List.mem_append_left _ hfd)

/-- Behind the arms of a `switch` stands its marker. -/
theorem Phase.exists_marker {arms : List (Arm Stmt)} (h : Phase regime p r)
    (hc : r.control = .switch arms :: c) : ∃ g c', c = .marker .brk :: .restore g :: c' := by
  obtain ⟨D, c₁, b, -, rfl, l, σ, hl, hf, -⟩ := h.exists_track hc nofun (fun _ _ h => h)
  cases l with
  | value =>
    obtain ⟨-, ⟨c₂, rfl⟩, -⟩ := hf
    have hmarker : r.control = [Item.switch arms] ++ .marker .brk :: (c₂ ++ D) := hc
    obtain ⟨g, c', hrest⟩ := h.exists_restore hmarker
    exact ⟨g, c', congrArg (List.cons _) hrest⟩
  | pending left all => exact hl.elim
  | _ => exact hf.elim

end Control

section Steps

variable {p : Program} {m m₁ : Machine} {i : Item} {c : List Item} {f : FrameId}

/-- A step of code leaves alone what waits. -/
theorem waiting_next (hp : ∀ d ∈ p, d.Plain) (hm : Reached Natives.empty p m)
    (hnext : Next Natives.empty m m₁) (hc : m.registers.control = i :: c) (hi : i.isStep = true)
    (hfield : ∀ fd, i ≠ .field fd) : waiting f m₁.registers.env.current m₁.registers.control =
      waiting f m.registers.env.current (i :: c) := by
  have hphase := Phase.strict hp hm
  have hwalks := walks_of_reached hm
  rw [hc] at hwalks
  have hstands := hwalks.stands
  rcases (hnext.proceeds hc hi).goes with ⟨hagenda, hcontrol, hcurrent⟩ | @⟨j, rfl, hunwind, hcurrent⟩ |
    ⟨rfl, hsimple, hadd, hcontrol, hcurrent⟩
  · rw [hcontrol, hcurrent]
    cases hagenda with
    | simple hrestore hsimple =>
      rw [waiting_simple hsimple, waiting_cons]
      cases i <;> first | rfl | exact absurd rfl (hrestore _) | exact absurd rfl (hfield _)
    | locals t vars =>
      refine waiting_append (fun i hi => ?_)
      obtain ⟨d, -, rfl⟩ := List.mem_map.mp hi
      rfl
    | block body =>
      rw [List.append_assoc]
      exact waiting_back (by simp)
    | forLoop init e update body =>
      rw [List.append_assoc]
      exact waiting_stmts init
    | yes yes no => exact (waiting_branches hstands.1).1
    | no yes no => exact (waiting_branches hstands.1).2
    | arms =>
      -- the frame that is opened lasts up to the marker behind the arms
      obtain ⟨g, c', rfl⟩ := hphase.exists_marker hc
      exact waiting_stmts _
    | fields fd => exact absurd rfl (hfield fd)
    | _ => rfl
  · rw [hcurrent]
    obtain ⟨front, rfl, -⟩ := exists_of_unwind_eq_ok hunwind
    rw [← List.cons_append] at hc
    obtain ⟨g, c', hrest⟩ := hphase.exists_restore hc
    have hfront : ∀ fd, Item.field fd ∉ front ++ [Item.marker j] := by
      intro fd hfd
      rcases List.mem_append.mp hfd with hfd | hfd
      · exact hphase.notMem_field hc fd (.tail _ hfd)
      · cases List.mem_singleton.mp hfd
    have hback := waiting_back (f := f) (g := m.registers.env.current) (h := g) (c := c') hfront
    rw [List.append_assoc] at hback
    rw [waiting_cons rfl, hrest]
    exact hback.symm
  · rw [hcontrol, hcurrent, waiting_simple hsimple, waiting_cons rfl]
    exact waiting_addReceiver? hadd

end Steps

/-! ### What is set up -/

/-- The static fields of every class are those that it has set up, each with its type, and then those that
wait. -/
structure Underway (r : Registers) : Prop where
  made : ∀ f, waiting f r.env.current r.control ≠ [] → f < r.env.frames.size
  types : ∀ x c, r.env.findClass x = .ok c →
    ∃ done, c.staticVars = done ++ waiting c.frame r.env.current r.control ∧
      ∀ y, r.env.ownType? c.toClassInfo y = done.lookup y

theorem ownVariable?_of_bound? {env env' : Environment} {c : ClassInfo} {x : String}
    (h : env'.bound? c.frame x = env.bound? c.frame x) : env'.ownVariable? c x = env.ownVariable? c x := by
  refine Option.ext (fun id => ?_)
  rw [ownVariable?_eq_some, ownVariable?_eq_some, h]

/-- The variables are the same if each of them was one before. -/
theorem ownVariable?_of_grows {env env' : Environment} {c : ClassInfo} {x : String} (hgrows : Grows env env')
    (h : ∀ id, env'.bound? c.frame x = some (.var id) → env.bound? c.frame x = some (.var id)) :
    env'.ownVariable? c x = env.ownVariable? c x := by
  refine Option.ext (fun id => ?_)
  rw [ownVariable?_eq_some, ownVariable?_eq_some]
  exact ⟨h id, hgrows.kept _ _ _⟩

theorem ownType?_of_bound?_eq_none {env : Environment} {c : ClassInfo} {x : String}
    (h : env.bound? c.frame x = none) : env.ownType? c x = none := by
  have hfree : env.ownVariable? c x = none := by
    refine Option.eq_none_iff_forall_ne_some.mpr (fun id hid => ?_)
    rw [ownVariable?_eq_some, h] at hid
    cases hid
  rw [ownType?, hfree]
  rfl

/-- The variable that a class has just declared has its type. -/
theorem ownType?_addVariable {env : Environment} {c : ClassInfo} {v : Variable} (hc : env.current = c.frame)
    (hlt : c.frame < env.frames.size) : (env.addVariable v).ownType? c v.name = some v.type := by
  have hbound : (env.addVariable v).ownVariable? c v.name = some env.vars.size := by
    rw [ownVariable?_eq_some, bound?_addVariable, hc, if_pos ⟨rfl, hlt, rfl⟩]
  rw [ownType?, hbound, Option.bind_some, var?_addVariable, if_pos rfl]
  rfl

section Underway

variable {p : Program} {m m₁ : Machine} {i : Item} {c : List Item} {x y : String} {d : Class}
  {env' : Environment}

/-- The frame of a class has been made for it. -/
theorem plays_of_findClass (hm : Reached Natives.empty p m) (hd : m.registers.env.findClass x = .ok d) :
    d.frame < m.registers.env.frames.size ∧ Plays p d.frame (.cls d) := by
  obtain ⟨roles, hscoped, hplays⟩ := exists_scoped hm
  have hrole := (hscoped.layout.classes x d hd).2
  exact ⟨hscoped.layout.lt_size hrole, hplays _ _ hrole⟩

/-- Variables keep their types. -/
theorem ownType?_of_grows (hp : ∀ d ∈ p, d.Plain) (hm : Reached Natives.empty p m)
    (hgrows : Grows m.registers.env env') {k : ClassInfo}
    (h : env'.ownVariable? k y = m.registers.env.ownVariable? k y) :
    env'.ownType? k y = m.registers.env.ownType? k y := by
  rw [ownType?, ownType?, h]
  cases hid : m.registers.env.ownVariable? k y with
  | none => rfl
  | some id =>
    obtain ⟨v, hv, -⟩ := exists_variable hp hm (ownVariable?_eq_some.mp hid)
    obtain ⟨v', hv', -, htype⟩ := hgrows.types id v hv
    rw [Option.bind_some, Option.bind_some, hv, hv', Option.map_some, Option.map_some, htype]

/-- A step that declares no variable in the frame of a class, and leaves alone what waits. -/
theorem Underway.keep {r : Registers} (hp : ∀ d ∈ p, d.Plain) (hm : Reached Natives.empty p m)
    (h : Underway m.registers) (hgrows : Grows m.registers.env r.env)
    (hclasses : ∀ x d, r.env.findClass x = .ok d → m.registers.env.findClass x = .ok d)
    (hvars : ∀ x d, m.registers.env.findClass x = .ok d → ∀ y,
      r.env.ownVariable? d.toClassInfo y = m.registers.env.ownVariable? d.toClassInfo y)
    (hwaiting : ∀ f, waiting f r.env.current r.control =
      waiting f m.registers.env.current m.registers.control) : Underway r := by
  refine ⟨fun f hf => ?_, fun x d hd => ?_⟩
  · rw [hwaiting] at hf
    exact Nat.lt_of_lt_of_le (h.made f hf) hgrows.size
  · have hold := hclasses x d hd
    obtain ⟨done, hstatic, htypes⟩ := h.types x d hold
    refine ⟨done, by rw [hwaiting, hstatic], fun y => ?_⟩
    rw [ownType?_of_grows hp hm hgrows (hvars x d hold y), htypes]

/-- Statements declare nothing in the frames of classes. -/
theorem notMem_binds (hm : Reached Natives.empty p m) (hc : m.registers.control = i :: c)
    (hfield : ∀ fd, i ≠ .field fd) (hd : Plays p m.registers.env.current (.cls d)) : y ∉ i.binds := by
  intro hy
  have hstands := walks_of_reached hm
  rw [hc] at hstands
  unfold Item.binds at hy
  split at hy
  · rcases hstands.stands with hblock | ⟨k, object, hcall⟩
    · cases hd.unique hblock
    · cases hd.unique hcall
  · exact hfield _ rfl
  · cases hy

theorem Underway.code (hp : ∀ d ∈ p, d.Plain) (hm : Reached Natives.empty p m) (h : Underway m.registers)
    (hnext : Next Natives.empty m m₁) (hc : m.registers.control = i :: c) (hi : i.isStep = true)
    (hfield : ∀ fd, i ≠ .field fd) : Underway m₁.registers := by
  have heffect := (hnext.moves hc hi).env
  refine h.keep hp hm heffect.grows (fun x d => heffect.lasts.findClass.mp) (fun x d hd y => ?_) (fun f => ?_)
  · obtain ⟨hlt, hplays⟩ := plays_of_findClass hm hd
    refine ownVariable?_of_bound? ((hnext.proceeds hc hi).confined d.frame hlt y (fun hcurrent => ?_))
    exact notMem_binds hm hc hfield (hcurrent ▸ hplays)
  · rw [hc]
    exact waiting_next hp hm hnext hc hi hfield

theorem Underway.callable {k : Callable} (hp : ∀ d ∈ p, d.Plain) (hm : Reached Natives.empty p m)
    (h : Underway m.registers) (hnext : Next Natives.empty m m₁) (hc : m.registers.control = k.item :: c) :
    Underway m₁.registers := by
  have hgrows := hnext.grows
  have hr := hnext.binds_callable hc
  have hbound : ∀ {f x b}, m₁.registers.env.bound? f x = some b →
      m.registers.env.bound? f x = some b ∨ ∃ k, b = .closure k := by
    intro f x b hb
    rw [hr] at hb
    replace hb : (m.registers.env.addBinding _ _ (.closure _)).bound? f x = some b := hb
    rw [bound?_addBinding] at hb
    split at hb
    · exact .inr ⟨_, (Option.some.inj hb).symm⟩
    · exact .inl hb
  refine h.keep hp hm hgrows (fun x d hd => ?_) (fun x d hd y => ownVariable?_of_grows hgrows (fun id hid => ?_))
    (fun f => ?_)
  · rw [findClass_eq_ok] at hd ⊢
    rcases hbound hd with hd | ⟨k, hk⟩
    · exact hd
    · cases hk
  · rcases hbound hid with hid | ⟨k, hk⟩
    · exact hid
    · cases hk
  · rw [hr, hc]
    cases k <;> rfl

/-- What the declaration of a class does: the class gets a frame of its own, in which its static fields wait. -/
structure OpensClass (r r' : Registers) (c : List Item) (new : Class) : Prop where
  frame : new.frame = r.env.frames.size
  size : r'.env.frames.size = r.env.frames.size + 1
  waits : ∀ f, waiting f r'.env.current r'.control =
    (if new.frame = f then new.staticVars else []) ++ waiting f r.env.current c
  classes : ∀ x d, r'.env.findClass x = .ok d → r.env.findClass x = .ok d ∨ d = new
  vars : ∀ f x id, r'.env.bound? f x = some (.var id) → r.env.bound? f x = some (.var id)

theorem Machine.Next.opensClass {decl : ClassDecl} (hnext : Next Natives.empty m m₁)
    (hc : m.registers.control = .classDecl decl :: c) :
    ∃ new, OpensClass m.registers m₁.registers c new := by
  have hperform := hnext.perform hc
  obtain ⟨superclass, new, ks, -, hnew, -, -, hcontrol, -, henv⟩ := (elaborateClass_ends decl _).of_ok hperform
  replace henv : m₁.registers.env =
      (m.registers.env.extend (classSite superclass) decl.name).addClass new := henv
  have hframe : new.frame = m.registers.env.frames.size := by
    rw [hnew]
    rfl
  have hcurrent : m₁.registers.env.current = new.frame := by
    rw [henv, hframe]
    rfl
  refine ⟨new, hframe, ?_, fun f => ?_, fun x d hd => ?_, fun f x id hid => ?_⟩
  · rw [henv]
    exact (size_addBinding ..).trans (size_extend ..)
  · rw [hcurrent, hcontrol, waiting_append, waiting_fields]
    · rfl
    · intro i hi
      obtain ⟨k, -, rfl⟩ := List.mem_map.mp hi
      cases k <;> rfl
  · rw [findClass_eq_ok, henv] at hd
    rcases bound?_addClass hd with hd | ⟨hb, -⟩
    · exact .inl (findClass_eq_ok.mpr hd)
    · exact .inr (by cases hb; rfl)
  · rw [henv] at hid
    rcases bound?_addClass hid with hid | ⟨hb, -⟩
    · exact hid
    · cases hb

/-- A class that is declared has all its static fields to set up. -/
theorem Underway.classDecl {decl : ClassDecl} (hp : ∀ d ∈ p, d.Plain) (hm : Reached Natives.empty p m)
    (h : Underway m.registers) (hnext : Next Natives.empty m m₁)
    (hc : m.registers.control = .classDecl decl :: c) : Underway m₁.registers := by
  obtain ⟨new, hopens⟩ := hnext.opensClass hc
  have hmade : ∀ f, waiting f m.registers.env.current c ≠ [] → f < m.registers.env.frames.size := by
    intro f hf
    refine h.made f ?_
    rw [hc]
    exact hf
  have htypes : ∀ k y, m₁.registers.env.ownType? k y = m.registers.env.ownType? k y := by
    refine fun k y => ownType?_of_grows hp hm hnext.grows ?_
    exact ownVariable?_of_grows hnext.grows (hopens.vars k.frame y)
  refine ⟨fun f hf => ?_, fun x d hd => ?_⟩
  · rw [hopens.waits] at hf
    by_cases hold : waiting f m.registers.env.current c = []
    · rw [hold, List.append_nil] at hf
      have hnew : new.frame = f := by
        by_contra hne
        exact hf (if_neg hne)
      rw [← hnew, hopens.frame, hopens.size]
      exact Nat.lt_succ_self _
    · exact Nat.lt_of_lt_of_le (hmade f hold) hnext.grows.size
  · rw [hopens.waits]
    rcases hopens.classes x d hd with hd | rfl
    · obtain ⟨hlt, -⟩ := plays_of_findClass hm hd
      obtain ⟨done, hstatic, hdone⟩ := h.types x d hd
      refine ⟨done, ?_, fun y => by rw [htypes, hdone]⟩
      rw [if_neg (hopens.frame ▸ Nat.ne_of_gt hlt), hstatic, hc]
      rfl
    · have hnone : waiting d.frame m.registers.env.current c = [] := by
        by_contra hne
        exact Nat.lt_irrefl _ (hopens.frame ▸ hmade d.frame hne)
      refine ⟨[], ?_, fun y => ?_⟩
      · rw [if_pos rfl, hnone, List.append_nil]
        rfl
      · rw [htypes]
        exact ownType?_of_bound?_eq_none (bound?_eq_none_of_size_le (Nat.le_of_eq hopens.frame.symm) y)

theorem declareStatic_ends (fd : FieldDecl) (r : Registers) : Ends (declareStatic fd) r
    (fun _ r' => r'.env = r.env ∧ r'.control = (fd.vars.map fd.only).map .field ++ r.control ∨
      ∃ v new, fd.typed = [(v.name, v.type)] ∧ r.env.bound? r.env.current v.name = none ∧
        r'.env = r.env.addVariable v ∧ r'.control = new ++ r.control ∧ new.all Item.isSimple = true)
    (fun _ _ => True) := by
  unfold declareStatic
  split
  · rename_i hvars
    exact .inl ⟨rfl, by rw [hvars]; rfl⟩
  · rename_i d hvars
    have htyped : fd.typed = [(d.name, fd.type)] := by
      rw [FieldDecl.typed, hvars]
      rfl
    unfold declareOne
    split
    · rename_i init _
      simp only [ends_bind, ends_declare, ends_push, ends_schedule]
      refine ⟨fun hfree => .inr ⟨⟨d.name, fd.type, none⟩, [.expr init, .assign, .pop], htyped, ?_⟩,
        fun _ => trivial⟩
      exact ⟨bindsHere_eq_false.mp hfree, rfl, rfl, rfl⟩
    · simp only [ends_bind, ends_declare, ends_pure]
      refine ⟨fun hfree => .inr ⟨⟨d.name, fd.type, some (.ofLiteral (.default fd.type))⟩, [], htyped, ?_⟩,
        fun _ => trivial⟩
      exact ⟨bindsHere_eq_false.mp hfree, rfl, rfl, rfl⟩
  · refine .inl ⟨rfl, ?_⟩
    rw [List.map_map]
    rfl

/-- The first static field that waits gets its variable. -/
theorem Underway.declare {r : Registers} {v : Variable} (hp : ∀ d ∈ p, d.Plain) (hm : Reached Natives.empty p m)
    (h : Underway m.registers) (hgrows : Grows m.registers.env r.env)
    (hclasses : ∀ x d, r.env.findClass x = .ok d → m.registers.env.findClass x = .ok d)
    (hfree : m.registers.env.bound? m.registers.env.current v.name = none)
    (henv : r.env = m.registers.env.addVariable v)
    (hwaiting : ∀ f, waiting f m.registers.env.current m.registers.control =
      (if m.registers.env.current = f then [(v.name, v.type)] else []) ++
        waiting f r.env.current r.control) : Underway r := by
  refine ⟨fun f hf => ?_, fun x d hd => ?_⟩
  · refine Nat.lt_of_lt_of_le (h.made f ?_) hgrows.size
    rw [hwaiting]
    exact fun hnone => hf (List.append_eq_nil_iff.mp hnone).2
  · replace hd := hclasses x d hd
    obtain ⟨hlt, -⟩ := plays_of_findClass hm hd
    obtain ⟨done, hstatic, hdone⟩ := h.types x d hd
    have hkept : ∀ y, ¬ (d.frame = m.registers.env.current ∧ y = v.name) →
        r.env.ownType? d.toClassInfo y = done.lookup y := by
      intro y hy
      rw [← hdone]
      refine ownType?_of_grows hp hm hgrows (ownVariable?_of_bound? ?_)
      rw [henv, bound?_addVariable, if_neg (fun hnew => hy ⟨hnew.1, hnew.2.2⟩)]
    rw [hwaiting] at hstatic
    by_cases hcurrent : m.registers.env.current = d.frame
    · rw [if_pos hcurrent] at hstatic
      refine ⟨done ++ [(v.name, v.type)], by rw [hstatic, List.append_assoc], fun y => ?_⟩
      rw [List.lookup_append]
      by_cases hy : y = v.name
      · have hnone : done.lookup v.name = none := by
          rw [← hdone]
          exact ownType?_of_bound?_eq_none (hcurrent ▸ hfree)
        rw [hy, hnone, henv, ownType?_addVariable hcurrent hlt]
        simp
      · rw [hkept y (fun h => hy h.2)]
        simp [List.lookup_cons, beq_false_of_ne hy]
    · rw [if_neg hcurrent] at hstatic
      exact ⟨done, hstatic, fun y => hkept y (fun h => hcurrent h.1.symm)⟩

/-- A static field is set up as the next one of its class. -/
theorem Underway.field {fd : FieldDecl} (hp : ∀ d ∈ p, d.Plain) (hm : Reached Natives.empty p m)
    (h : Underway m.registers) (hnext : Next Natives.empty m m₁) (hc : m.registers.control = .field fd :: c) :
    Underway m₁.registers := by
  have hlasts := (hnext.moves hc rfl).env.lasts
  have hold : ∀ f, waiting f m.registers.env.current m.registers.control =
      (if m.registers.env.current = f then fd.typed else []) ++ waiting f m.registers.env.current c := by
    intro f
    rw [hc]
    rfl
  have hperform := hnext.perform hc
  rcases (declareStatic_ends fd _).of_ok hperform with
    ⟨henv, hcontrol⟩ | ⟨v, new, htyped, hfree, henv, hcontrol, hsimple⟩
  · replace henv : m₁.registers.env = m.registers.env := henv
    replace hcontrol : m₁.registers.control = (fd.vars.map fd.only).map .field ++ c := hcontrol
    refine h.keep hp hm hnext.grows (fun x d => hlasts.findClass.mp) (fun x d hd y => by rw [henv]) (fun f => ?_)
    have htyped : (fd.vars.map fd.only).flatMap FieldDecl.typed = fd.typed := by
      rw [List.flatMap_map]
      exact (List.map_eq_flatMap ..).symm
    rw [hold, henv, hcontrol, waiting_fields, htyped]
  · refine h.declare hp hm hnext.grows (fun x d => hlasts.findClass.mp) hfree henv (fun f => ?_)
    rw [hold, htyped, hcontrol, henv, waiting_simple hsimple]
    rfl

theorem Underway.next (hp : ∀ d ∈ p, d.Plain) (hm : Reached Natives.empty p m) (h : Underway m.registers)
    (hnext : Next Natives.empty m m₁) : Underway m₁.registers := by
  obtain ⟨i, c, hc, hperform, -⟩ := next_iff.mp hnext
  cases i with
  | program q =>
    obtain ⟨ds, e, hcontrol, henv⟩ := (start_ends q _).of_ok hperform
    replace henv : m₁.registers.env = m.registers.env := henv
    refine h.keep hp hm hnext.grows (fun x d hd => henv ▸ hd) (fun x d hd y => by rw [henv]) (fun f => ?_)
    rw [hcontrol, henv, hc, waiting_append]
    · rfl
    · intro i hi
      obtain ⟨d, -, rfl⟩ := List.mem_map.mp hi
      rfl
  | classDecl d => exact h.classDecl hp hm hnext hc
  | method k => exact h.callable hp hm hnext (k := .method k) hc
  | constructor k => exact h.callable hp hm hnext (k := .constructor k) hc
  | field fd => exact h.field hp hm hnext hc
  | _ => exact h.code hp hm hnext hc rfl nofun

/-- Wherever a run stands, static fields are set up in their order. -/
theorem underway_of_reached (hp : ∀ d ∈ p, d.Plain) (hm : Reached Natives.empty p m) :
    Underway m.registers := by
  refine hm.induction (P := fun m => Underway m.registers) ⟨fun f hf => absurd rfl hf, fun x d hd => ?_⟩
    (fun _ _ hm h hnext => h.next hp hm hnext)
  rw [show (initial.loadProgram p).registers.env = .initial from rfl, findClass_eq_ok, bound?_initial] at hd
  cases hd

/-- The variable of a static field has the type of the first declaration of its name. -/
theorem type_of_ownVariable (hp : ∀ d ∈ p, d.Plain) (hm : Reached Natives.empty p m)
    (hd : m.registers.env.findClass x = .ok d) {id : VarId}
    (hid : m.registers.env.ownVariable? d.toClassInfo y = some id) :
    ∃ v, m.registers.env.var? id = some v ∧ d.staticVars.lookup y = some v.type := by
  obtain ⟨v, hv, -⟩ := exists_variable hp hm (ownVariable?_eq_some.mp hid)
  obtain ⟨done, hstatic, hdone⟩ := (underway_of_reached hp hm).types x d hd
  refine ⟨v, hv, ?_⟩
  have htype : done.lookup y = some v.type := by
    rw [← hdone, ownType?, hid, Option.bind_some, hv]
    rfl
  rw [hstatic, List.lookup_append, htype]
  rfl

end Underway

/-! ### Fields by name -/

section Fields

variable {p : Program} {m : Machine} {c : Class} {x : String} {id : VarId}

theorem FieldDecl.lookup_typed {fd : FieldDecl} {x : String} :
    fd.typed.lookup x = if fd.declares x = true then some fd.type else none := by
  rw [typed, declares]
  induction fd.vars with
  | nil => rfl
  | cons d vars ih =>
    rw [List.map_cons, List.lookup_cons, List.any_cons, ih]
    by_cases hx : x = d.name
    · simp [hx]
    · rw [beq_false_of_ne hx, beq_false_of_ne (Ne.symm hx), Bool.false_or]

/-- The first declaration of a name is looked up. -/
theorem lookup_typed_of_find? {fds : List FieldDecl} {fd : FieldDecl}
    (h : fds.find? (fun f => f.declares x) = some fd) :
    (fds.flatMap FieldDecl.typed).lookup x = some fd.type := by
  induction fds with
  | nil => cases h
  | cons fd' fds ih =>
    rw [List.flatMap_cons, List.lookup_append, FieldDecl.lookup_typed]
    rw [List.find?_cons] at h
    by_cases hx : fd'.declares x = true
    · rw [hx] at h
      cases h
      rw [if_pos hx]
      rfl
    · rw [Bool.not_eq_true] at hx
      rw [hx] at h
      rw [hx, if_neg Bool.false_ne_true, ih h]
      rfl

/-- A static field that is found through a class has the type that the class finds. -/
theorem StaticField.exists_type (hp : ∀ d ∈ p, d.Plain) (hm : Reached Natives.empty p m)
    (hc : m.registers.env.findClass c.name = .ok c) (h : StaticField m.registers.env c x id) :
    ∃ info, c.findField? x = some info ∧ ∃ v, m.registers.env.var? id = some v ∧ v.type = info.type := by
  obtain ⟨info, hinfo, hstatic, hid⟩ := h
  refine ⟨info, hinfo, ?_⟩
  obtain ⟨before, owner, after, hlineage, howner, -⟩ := List.findSome?_eq_some_iff.mp hinfo
  have hmem : owner ∈ c.lineage := hlineage ▸ List.mem_append_right _ (.head _)
  obtain ⟨d, rfl, -, hd⟩ := plays_of_mem_lineage hm hc hmem
  unfold ClassInfo.ownField? at howner
  split at howner
  · rename_i fd hfd
    cases howner
    obtain ⟨v, hv, htype⟩ := type_of_ownVariable hp hm hd (ownVariable?_eq_some.mpr hid)
    refine ⟨v, hv, ?_⟩
    rw [ClassInfo.staticVars, lookup_typed_of_find? hfd] at htype
    exact (Option.some.inj htype).symm
  · obtain ⟨fd, -, rfl⟩ := Option.map_eq_some_iff.mp howner
    cases hstatic

end Fields

end StashMachine
