import StashMachine.Proofs.Agenda
import StashMachine.Proofs.Heap

/-!
# StashMachine.Proofs.Places — where code stands, and which frames bind which names

* `Stands p f i`: the item `i` may be performed in the frame `f`: statements in the frames of calls and blocks,
  and the set-up of a static field in the frame of the class that declares it.
* `Walks p f c`: so it will be for all items of control, each in the frame that the ones before lead to.
  `walks_of_reached`: so it is wherever a run stands.
* `place_of_variable`: the frames of classes bind their static fields, and besides only the frames of objects,
  calls and blocks bind variables.
* `class_is_global`, `mem_of_closure_bound`: where classes and closures are bound.
* `Receives env f k object`, `invoke_receives`: a call on an object binds `this`, `super` and the parameters in its
  frame.  `this_of_call`: `this` is declared with the class of the closure there.
-/

namespace StashMachine

open Environment Step Machine

/-- The frame of a call or of a block. -/
def IsLocal (p : Program) (f : FrameId) : Prop := Plays p f .block ∨ IsCall p f

/-- A static field of the class is declared under the name. -/
def ClassInfo.HasStatic (c : ClassInfo) (x : String) : Prop := ∃ fd ∈ c.staticFields, fd.declares x = true

/-- The item may be performed in the frame. -/
def Stands (p : Program) (f : FrameId) : Item → Prop
  | .field fd => ∃ c : Class, Plays p f (.cls c) ∧ ∀ d ∈ fd.vars, c.HasStatic d.name
  | .stmt _ | .whileRound _ _ | .forRound _ _ _ | .switch _ => IsLocal p f
  | .branch yes no => Branches f yes no ∧ (IsLocal p f ∨ ∃ l r, yes = [.expr l] ∧ no = [.expr r])
  | _ => True

/-- Every item stands where it may when its turn comes, if the first one is performed in the frame `f`.  Jumps
come to markers from anywhere, and a `switch` opens a frame. -/
def Walks (p : Program) : FrameId → List Item → Prop
  | _, [] => True
  | _, .restore g :: c => Walks p g c
  | _, .marker _ :: c => ∀ f, Walks p f c
  | f, .switch arms :: c => Stands p f (.switch arms) ∧ ∀ f, Walks p f c
  | f, i :: c => Stands p f i ∧ Walks p f c

section Walks

variable {p : Program} {f : FrameId} {c c' : List Item}

theorem Walks.stands {i : Item} (h : Walks p f (i :: c)) : Stands p f i := by
  cases i with
  | restore g => trivial
  | marker j => trivial
  | _ => exact h.1

theorem Walks.rest {i : Item} (h : Walks p f (i :: c)) (hi : ∀ g, i ≠ .restore g) : Walks p f c := by
  cases i with
  | restore g => exact absurd rfl (hi g)
  | marker j => exact h f
  | switch arms => exact h.2 f
  | _ => exact h.2

/-- What comes behind the first item may be exchanged. -/
theorem Walks.of_tail {i : Item} (h : Walks p f (i :: c)) (hc : ∀ g, Walks p g c → Walks p g c') :
    Walks p f (i :: c') := by
  cases i with
  | restore g => exact hc g h
  | marker j => exact fun g => hc g (h g)
  | switch arms => exact ⟨h.1, fun g => hc g (h.2 g)⟩
  | _ => exact ⟨h.1, hc f h.2⟩

theorem Walks.simple {new : List Item} (hnew : new.all Item.isSimple = true) (h : Walks p f c) :
    Walks p f (new ++ c) := by
  induction new with
  | nil => exact h
  | cons i new ih =>
    rw [List.all_cons, Bool.and_eq_true] at hnew
    have hrest := ih hnew.2
    cases i <;> first | exact ⟨trivial, hrest⟩ | cases hnew.1

theorem Walks.stmts (hf : IsLocal p f) (ss : List Stmt) (h : Walks p f c) :
    Walks p f (ss.map .stmt ++ c) := by
  induction ss with
  | nil => exact h
  | cons s ss ih => exact ⟨hf, ih⟩

/-- The static fields of a class are set up in its frame. -/
theorem Walks.fields {d : Class} (hf : Plays p f (.cls d)) {fds : List FieldDecl}
    (hfds : ∀ fd ∈ fds, ∀ v ∈ fd.vars, d.HasStatic v.name) (h : Walks p f c) :
    Walks p f (fds.map .field ++ c) := by
  induction fds with
  | nil => exact h
  | cons fd fds ih =>
    exact ⟨⟨d, hf, hfds fd (.head _)⟩, ih (fun fd' hfd' => hfds fd' (.tail _ hfd'))⟩

theorem Walks.branches {yes no : List Item} (hf : IsLocal p f) (hb : Branches f yes no) (h : Walks p f c) :
    Walks p f (yes ++ c) ∧ Walks p f (no ++ c) := by
  cases hb with
  | operands l r => exact ⟨⟨trivial, h⟩, trivial, h⟩
  | stmts yes no => exact ⟨.stmts hf yes h, .stmts hf no h⟩
  | whileRound e body => exact ⟨⟨hf, fun _ => ⟨hf, h⟩⟩, h⟩
  | forRound e update body =>
    have hrest : Walks p f (update.map .stmt ++ (.forRound e update body :: c)) := .stmts hf update ⟨hf, h⟩
    refine ⟨⟨hf, fun g => ?_⟩, h⟩
    simpa [Walks] using hrest

/-- A jump may come from anywhere. -/
theorem Walks.of_unwind {j : Jump} (h : Walks p f c) (hj : unwind j c = .ok c') (g : FrameId) :
    Walks p g c' := by
  obtain ⟨front, rfl, -⟩ := exists_of_unwind_eq_ok hj
  clear hj
  induction front generalizing f with
  | nil => exact h g
  | cons i front ih =>
    cases i with
    | restore g => exact ih h
    | marker k => exact ih (h g)
    | switch arms => exact ih (h.2 g)
    | _ => exact ih h.2

theorem Walks.of_addReceiver? {n : Nat} (h : Walks p f c) (hc : addReceiver? n c = some c') :
    Walks p f c' := by
  fun_induction addReceiver? n c generalizing c' f with
  | case1 n rest =>
    cases hc
    exact ⟨trivial, h.2⟩
  | case2 depth item rest ih =>
    obtain ⟨rest', hrest, rfl⟩ := Option.map_eq_some_iff.mp hc
    exact h.of_tail (fun g hg => ih hg hrest)
  | case3 => cases hc

end Walks

/-! ### Frames that a step makes -/

section Steps

variable {p : Program} {m m₁ : Machine} {i : Item} {c : List Item}

/-- The frame that a step goes to was made by it, if there was none of that number before. -/
theorem plays_of_next {ρ : Role} (hm : Reached Natives.empty p m) (hc : m.registers.control = i :: c)
    (hnext : Next Natives.empty m m₁) (hcurrent : m₁.registers.env.current = m.registers.env.frames.size)
    (hmakes : Makes { m.registers with control := c } i ρ) : Plays p m.registers.env.frames.size ρ := by
  obtain ⟨roles, hscoped, -⟩ := exists_scoped (hm.next hnext)
  obtain ⟨ρ', hρ', -⟩ := hscoped.current
  have hlt := hscoped.layout.lt_size hρ'
  rw [hcurrent] at hlt
  exact .inr ⟨m, m₁, i, c, hm, hc, hnext, rfl, hlt, hmakes⟩

/-- Code goes on walking. -/
theorem Walks.of_goes {r r' : Registers} (hblock : i.OpensBlock → r'.env.current = r.env.frames.size →
      IsLocal p r.env.frames.size)
    (hcall : ∀ k object, Calls r i k object → r'.env.current = r.env.frames.size →
      IsLocal p r.env.frames.size)
    (h : Walks p r.env.current (i :: r.control)) (hgoes : Goes r i r') :
    Walks p r'.env.current r'.control := by
  have hstands := h.stands
  rcases hgoes with ⟨hagenda, hcontrol, hcurrent⟩ | ⟨rfl, hunwind, hcurrent⟩ |
    ⟨rfl, hsimple, hadd, hcontrol, hcurrent⟩
  · rw [hcurrent, hcontrol]
    cases hagenda with
    | simple hi hsimple => exact .simple hsimple (h.rest hi)
    | operator => exact ⟨trivial, ⟨.operands _ _, .inr ⟨_, _, rfl, rfl⟩⟩, h.2⟩
    | locals t vars =>
      have hstmts := Walks.stmts hstands (vars.map (fun d => .declare t [d])) h.2
      rw [List.map_map] at hstmts
      exact hstmts
    | block body =>
      rw [List.append_assoc]
      exact .stmts (hblock (.block body) hcurrent) body h.2
    | ret e => exact ⟨trivial, trivial, h.2⟩
    | ite e yes no => exact ⟨trivial, ⟨.stmts [yes] no.toList, .inl hstands⟩, h.2⟩
    | loop e body => exact ⟨hstands, fun _ => h.2⟩
    | forLoop init e update body =>
      have hlocal := hblock (.forLoop init e update body) hcurrent
      rw [List.append_assoc]
      exact .stmts hlocal init ⟨hlocal, fun _ => h.2⟩
    | switch e arms => exact ⟨trivial, hstands, fun _ _ => h.2⟩
    | breakOut => exact ⟨trivial, h.2⟩
    | continueLoop => exact ⟨trivial, h.2⟩
    | whileRound e body => exact ⟨trivial, ⟨.whileRound e body, .inl hstands⟩, h.2⟩
    | forRound e update body => exact ⟨trivial, ⟨.forRound e update body, .inl hstands⟩, h.2⟩
    | yes yes no =>
      rcases hstands with ⟨hbranches, hlocal | ⟨l, e, rfl, rfl⟩⟩
      · exact (Walks.branches hlocal hbranches h.2).1
      · exact ⟨trivial, h.2⟩
    | no yes no =>
      rcases hstands with ⟨hbranches, hlocal | ⟨l, e, rfl, rfl⟩⟩
      · exact (Walks.branches hlocal hbranches h.2).2
      · exact ⟨trivial, h.2⟩
    | arms => exact .stmts (hblock (.switch _) hcurrent) _ (h.2 _)
    | fields fd =>
      obtain ⟨d, hd, hvars⟩ := hstands
      have hstatic : ∀ fd' ∈ fd.vars.map fd.only, ∀ v ∈ fd'.vars, d.HasStatic v.name := by
        intro fd' hfd' v hv
        obtain ⟨v', hv', rfl⟩ := List.mem_map.mp hfd'
        obtain rfl := List.mem_singleton.mp hv
        exact hvars v hv'
      have hfields := Walks.fields hd hstatic h.2
      rw [List.map_map] at hfields
      exact hfields
    | restore f => exact h
    | call hcalls hbody => exact ⟨hcall _ _ hcalls hcurrent, fun _ => h.2⟩
  · exact h.2.of_unwind hunwind _
  · rw [hcurrent, hcontrol]
    exact .simple hsimple (h.2.of_addReceiver? hadd)

/-- A program queues its classes and the call of its main method. -/
theorem start_ends (q : Program) (r : Registers) : Ends (start q) r
    (fun _ r' => ∃ (ds : List ClassDecl) (e : Expr), r'.control = ds.map .classDecl ++ .expr e :: r.control ∧
      r'.env = r.env)
    (fun _ _ => True) := by
  unfold start
  split
  · trivial
  · rename_i main _
    simp only [ends_bind, ends_ofExcept, ends_schedule]
    exact ⟨fun ds _ => ⟨_, .mainCall main.name, List.append_assoc .., trivial⟩, fun _ _ => trivial⟩

theorem Walks.classDecls {f : FrameId} (ds : List ClassDecl) (h : Walks p f c) :
    Walks p f (ds.map .classDecl ++ c) := by
  induction ds with
  | nil => exact h
  | cons d ds ih => exact ⟨trivial, ih⟩

theorem Walks.callables {f : FrameId} (ks : List Callable) (h : Walks p f c) :
    Walks p f (ks.map Callable.item ++ c) := by
  induction ks with
  | nil => exact h
  | cons k ks ih => cases k <;> exact ⟨trivial, ih⟩

/-- What a step of code does. -/
theorem Machine.Next.proceeds (hnext : Next Natives.empty m m₁) (hc : m.registers.control = i :: c)
    (hi : i.isStep = true) : Proceeds { m.registers with control := c } i m₁.registers :=
  (perform_agenda hi).of_ok (hnext.perform hc)

theorem Machine.Next.outcome (hnext : Next Natives.empty m m₁) (hc : m.registers.control = i :: c) :
    Outcome { m.registers with control := c } i m₁.registers :=
  (perform_outcome i _).of_ok (hnext.perform hc)

/-- A step only adds to the store. -/
theorem Machine.Next.grows (hnext : Next Natives.empty m m₁) : Grows m.registers.env m₁.registers.env := by
  obtain ⟨i, c, hc, -⟩ := next_iff.mp hnext
  exact Leads.grows (r := { m.registers with control := c }) (.inl (hnext.outcome hc))

/-- A step that performs a callable binds it. -/
theorem Machine.Next.binds_callable {k : Callable} (hnext : Next Natives.empty m m₁)
    (hc : m.registers.control = k.item :: c) : m₁.registers = { m.registers with
      control := c
      env := m.registers.env.addClosure ⟨k, m.registers.env.current, m.registers.env.currentName⟩ } := by
  rcases hnext.outcome hc with ⟨hcallable, -⟩ | ⟨k', hk', -, hr⟩ | ⟨d, _, _, _, hd, -⟩
  · cases k <;> cases hcallable
  · obtain rfl : k = k' := by cases k <;> cases k' <;> cases hk' <;> rfl
    exact hr
  · cases k <;> cases hd

/-- The items that declarations put on control. -/
def Item.isOutline : Item → Bool
  | .classDecl _ | .method _ | .constructor _ | .field _ | .expr _ | .restore _ => true
  | _ => false

/-- A step that declares puts declarations on control, the call of the main method and the way back. -/
theorem Machine.Next.declares (hnext : Next Natives.empty m m₁) (hc : m.registers.control = i :: c)
    (hi : i.isStep = false) :
    ∃ new, m₁.registers.control = new ++ c ∧ new.all Item.isOutline = true := by
  have hperform := hnext.perform hc
  cases i with
  | program q =>
    obtain ⟨ds, e, hcontrol, -⟩ := (start_ends q _).of_ok hperform
    refine ⟨ds.map .classDecl ++ [Item.expr e], by rw [hcontrol]; simp, ?_⟩
    simp [Item.isOutline]
  | classDecl d =>
    obtain ⟨superclass, k, ks, -, -, -, -, hcontrol, -⟩ := (elaborateClass_ends d _).of_ok hperform
    refine ⟨ks.map Callable.item ++ k.staticFields.map .field ++ [Item.restore m.registers.env.current],
      by rw [hcontrol]; simp, ?_⟩
    rw [List.all_eq_true]
    intro j hj
    simp only [List.mem_append, List.mem_map, List.mem_singleton] at hj
    rcases hj with (⟨k, -, rfl⟩ | ⟨fd, -, rfl⟩) | rfl
    · cases k <;> rfl
    · rfl
    · rfl
  | method d =>
    rw [hnext.binds_callable (k := .method d) hc]
    exact ⟨[], rfl, rfl⟩
  | constructor d =>
    rw [hnext.binds_callable (k := .constructor d) hc]
    exact ⟨[], rfl, rfl⟩
  | _ => cases hi

/-- A step leaves code where it may stand. -/
theorem Walks.next (hm : Reached Natives.empty p m)
    (h : Walks p m.registers.env.current m.registers.control) (hnext : Next Natives.empty m m₁) :
    Walks p m₁.registers.env.current m₁.registers.control := by
  obtain ⟨i, c, hc, hperform, -⟩ := next_iff.mp hnext
  rw [hc] at h
  by_cases hi : i.isStep = true
  · refine Walks.of_goes (r := { m.registers with control := c }) (fun hopens hcurrent => ?_)
      (fun k object hcalls hcurrent => ?_) h (hnext.proceeds hc hi).goes
    · exact .inl (plays_of_next hm hc hnext hcurrent (.block hopens))
    · exact .inr ⟨k, object, plays_of_next hm hc hnext hcurrent (.call hcalls)⟩
  · cases i with
    | program q =>
      obtain ⟨ds, e, hcontrol, henv⟩ := (start_ends q _).of_ok hperform
      rw [hcontrol, henv]
      exact .classDecls ds ⟨trivial, h.2⟩
    | classDecl d =>
      obtain ⟨superclass, k, ks, hsuper, hk, -, -, hcontrol, -, henv⟩ := (elaborateClass_ends d _).of_ok hperform
      have hcurrent : m₁.registers.env.current = m.registers.env.frames.size := by
        rw [henv]
        rfl
      have hplays := plays_of_next hm hc hnext hcurrent (.cls rfl hsuper)
      rw [hcontrol, hcurrent]
      refine .callables ks (.fields (hk ▸ hplays) (fun fd hfd v hv => ?_) h.2)
      exact ⟨fd, hfd, List.any_eq_true.mpr ⟨v, hv, beq_self_eq_true _⟩⟩
    | method d =>
      rw [hnext.binds_callable (k := .method d) hc]
      exact h.2
    | constructor d =>
      rw [hnext.binds_callable (k := .constructor d) hc]
      exact h.2
    | _ => exact absurd rfl hi

/-- Wherever a run stands, code is where it may stand. -/
theorem walks_of_reached (hm : Reached Natives.empty p m) :
    Walks p m.registers.env.current m.registers.control :=
  hm.induction (P := fun m => Walks p m.registers.env.current m.registers.control) ⟨trivial, trivial⟩
    (fun _ _ hm h hnext => h.next hm hnext)

/-- A step of code moves. -/
theorem Machine.Next.moves (hnext : Next Natives.empty m m₁) (hc : m.registers.control = i :: c)
    (hi : i.isStep = true) : Moves { m.registers with control := c } i m₁.registers := by
  rcases hnext.outcome hc with ⟨-, hmoves⟩ | ⟨k, rfl, -⟩ | ⟨_, _, _, _, rfl, -⟩
  · exact hmoves
  · cases k <;> cases hi
  · cases hi

/-! ### Variables -/

/-- In the run of the program, the frame `f` binds a variable under the name `x`: a static field of its class, a
field of its object, a variable of its call, or one that a statement of its block has declared. -/
inductive VariablePlace (p : Program) (f : FrameId) (x : String) : Prop
  | static {d : Class} : Plays p f (.cls d) → d.HasStatic x → VariablePlace p f x
  | field {d : Class} : Plays p f (.object d) → VariablePlace p f x
  | call : IsCall p f → VariablePlace p f x
  | block {m₀ : Machine} {t : TypeName} {d : Declarator} {c : List Item} : Plays p f .block →
    Reached Natives.empty p m₀ → m₀.registers.control = .stmt (.declare t [d]) :: c → d.name = x →
    VariablePlace p f x

/-- A name that an item declares has its place in the current frame. -/
theorem VariablePlace.of_binds {x : String} (hm : Reached Natives.empty p m)
    (hc : m.registers.control = i :: c) (hx : x ∈ i.binds) :
    VariablePlace p m.registers.env.current x := by
  have hwalks := walks_of_reached hm
  rw [hc] at hwalks
  have hstands := hwalks.stands
  unfold Item.binds at hx
  split at hx
  · rename_i t d
    obtain rfl := List.mem_singleton.mp hx
    rcases hstands with hblock | hcall
    · exact .block hblock hm hc rfl
    · exact .call hcall
  · rename_i modifiers t d
    obtain rfl := List.mem_singleton.mp hx
    obtain ⟨k, hk, hvars⟩ := hstands
    exact .static hk (hvars d (.head _))
  · cases hx

/-- Every variable that a frame binds has its place there. -/
theorem place_of_variable {f : FrameId} {x : String} {id : VarId} (hm : Reached Natives.empty p m)
    (h : m.registers.env.bound? f x = some (.var id)) : VariablePlace p f x := by
  refine hm.induction (P := fun m => ∀ f x id, m.registers.env.bound? f x = some (.var id) →
    VariablePlace p f x) (fun f x id h => ?_) (fun m m₁ hm ih hnext f x id h => ?_) f x id h
  · rw [show (initial.loadProgram p).registers.env = .initial from rfl, bound?_initial] at h
    cases h
  · obtain ⟨i, c, hc, hperform, -⟩ := next_iff.mp hnext
    by_cases hi : i.isStep = true
    · have hproceeds := hnext.proceeds hc hi
      -- the new frame of an object or of a call holds new variables, and the current frame those of a declaration
      have hnew : ∀ ρ, Makes { m.registers with control := c } i ρ →
          m₁.registers.env.frames.size = m.registers.env.frames.size + 1 →
          Plays p m.registers.env.frames.size ρ :=
        fun ρ hmakes hsize => .inr ⟨m, m₁, i, c, hm, hc, hnext, rfl,
          Nat.lt_of_lt_of_eq (Nat.lt_succ_self _) hsize.symm, hmakes⟩
      have heffect := (hnext.moves hc hi).env
      generalize henv : m₁.registers.env = env₁ at heffect h hnew
      cases heffect with
      | same | restore | allocate | assign | array => exact ih f x id h
      | block =>
        rw [bound?_extend] at h
        exact ih f x id h
      | declare =>
        by_cases hx : f = m.registers.env.current ∧ x ∈ i.binds
        · rw [hx.1]
          exact .of_binds hm hc hx.2
        · have hold := h
          rw [bound?_addVariable] at h
          split at h
          · rename_i v _ hf
            have hsame := hproceeds.confined f (hf.1 ▸ hf.2.1) x (fun hf hmem => hx ⟨hf, hmem⟩)
            rw [henv, hold] at hsame
            exact ih f x id hsame.symm
          · exact ih f x id h
      | object hnewi hfind =>
        by_cases hf : f = m.registers.env.frames.size
        · subst hf
          exact .field (hnew _ (.object hnewi hfind) (size_instantiate _ _))
        · rw [bound?_instantiate_of_ne _ _ hf] at h
          exact ih f x id h
      | call hcalls =>
        by_cases hf : f = m.registers.env.frames.size
        · subst hf
          refine .call ⟨_, _, hnew _ (.call hcalls) ?_⟩
          exact (size_addVariables _ _).trans (size_extend ..)
        · rw [bound?_addVariables_of_ne _ _ hf, bound?_extend] at h
          exact ih f x id h
    · have hcallable : ∀ k : Callable, i = k.item → VariablePlace p f x := by
        rintro k rfl
        rw [hnext.binds_callable hc] at h
        replace h : (m.registers.env.addBinding _ _ (.closure _)).bound? f x = some (.var id) := h
        rw [bound?_addBinding] at h
        split at h
        · cases h
        · exact ih f x id h
      cases i with
      | program q =>
        obtain ⟨ds, e, -, henv⟩ := (start_ends q _).of_ok hperform
        rw [henv] at h
        exact ih f x id h
      | classDecl d =>
        obtain ⟨_, _, _, -, -, -, -, -, -, henv⟩ := (elaborateClass_ends d _).of_ok hperform
        rw [henv] at h
        rcases bound?_addClass h with h | ⟨hb, -⟩
        · exact ih f x id h
        · cases hb
      | method d => exact hcallable (.method d) rfl
      | constructor d => exact hcallable (.constructor d) rfl
      | _ => exact absurd rfl hi

/-! ### Classes -/

/-- Classes are bound in the global frame only. -/
theorem class_is_global {f : FrameId} {x : String} {d : Class} (hm : Reached Natives.empty p m)
    (h : m.registers.env.bound? f x = some (.cls d)) : f = global := by
  refine hm.invariant (P := fun r => ∀ f x d, r.env.bound? f x = some (.cls d) → f = global)
    (fun f x d h => ?_) (fun i r r' ih ho f x d h => ?_) f x d h
  · rw [show (initial.loadProgram p).registers.env = .initial from rfl, bound?_initial] at h
    cases h
  · rcases ho with ⟨-, hmoves⟩ | ⟨k, -, -, rfl⟩ | ⟨_, _, _, _, -, -, -, -, -, -, -, henv⟩
    · rcases hmoves.env.lasts.fresh f x _ h with h | ⟨_, _, hb, -⟩
      · exact ih f x d h
      · cases hb
    · replace h : (r.env.addBinding _ _ (.closure _)).bound? f x = some (.cls d) := h
      rw [bound?_addBinding] at h
      split at h
      · cases h
      · exact ih f x d h
    · rw [henv] at h
      rcases bound?_addClass h with h | ⟨-, -, hf⟩
      · exact ih f x d h
      · exact hf

/-- A closure is bound under a key, which is no identifier. -/
theorem mem_of_closure_bound {f : FrameId} {x : String} {k : Closure} (hm : Reached Natives.empty p m)
    (h : m.registers.env.bound? f x = some (.closure k)) : '(' ∈ x.toList := by
  obtain ⟨roles, hscoped, -⟩ := exists_scoped hm
  obtain ⟨_, -, -, -, hx, -⟩ := hscoped.layout.closures f x k h
  rw [← hx, Closure.descriptor, Callable.descriptor, toList_descriptor]
  simp

/-! ### The receiver -/

/-- The frame binds `this` to a variable that is declared with the class. -/
def BindsThis (env : Environment) (f : FrameId) (className : String) : Prop :=
  ∃ id v, env.bound? f thisName = some (.var id) ∧ env.var? id = some v ∧ v.type = .named className

theorem BindsThis.grows {env env' : Environment} {f : FrameId} {className : String}
    (h : BindsThis env f className) (hg : Grows env env') : BindsThis env' f className := by
  obtain ⟨id, v, hbound, hv, htype⟩ := h
  obtain ⟨v', hv', -, htype'⟩ := hg.types id v hv
  exact ⟨id, v', hg.kept _ _ _ hbound, hv', htype'.trans htype⟩

/-- The frame binds the name to a variable of the type, which holds the value. -/
def Stores (env : Environment) (f : FrameId) (x : String) (t : TypeName) (w : Value) : Prop :=
  ∃ id, env.bound? f x = some (.var id) ∧ env.var? id = some ⟨x, t, some w⟩

theorem Stores.keep {env env' : Environment} {f : FrameId} {x : String} {t : TypeName} {w : Value}
    (h : Stores env f x t w) (hlasts : Lasts env env')
    (hvars : ∀ id v, env.var? id = some v → env'.var? id = some v) : Stores env' f x t w := by
  obtain ⟨id, hbound, hv⟩ := h
  exact ⟨id, hlasts.kept _ _ _ hbound, hvars id _ hv⟩

theorem stores_addVariable (env : Environment) (x : String) (t : TypeName) (w : Value)
    (hsize : env.current < env.frames.size) : Stores (env.addVariable ⟨x, t, some w⟩) env.current x t w := by
  refine ⟨env.vars.size, ?_, ?_⟩
  · rw [bound?_addVariable, if_pos ⟨rfl, hsize, rfl⟩]
  · rw [var?_addVariable, if_pos rfl]

/-- The frame of a call of the closure on the object binds `this`, `super` if the class of the closure has a
superclass, the parameters, and nothing else. -/
structure Receives (env : Environment) (f : FrameId) (k : Closure) (object : Class × FrameId) : Prop where
  this : Stores env f thisName (.named k.className) (.object object.1 object.2)
  super : ∀ d s, env.findClass k.className = .ok d → d.superclass? = some s →
    Stores env f superName (.named s.name) (.object object.1 object.2)
  only : ∀ x b, env.bound? f x = some b → x = thisName ∨ x ∈ k.callable.params.map Param.name ∨
    x = superName ∧ ∃ d s, env.findClass k.className = .ok d ∧ d.superclass? = some s

/-- A name that new variables bind is one of theirs. -/
theorem Environment.bound?_of_addVariables {env : Environment} {vs : List Variable} {f : FrameId} {x : String}
    {b : Binding} (h : (env.addVariables vs).bound? f x = some b) :
    env.bound? f x = some b ∨ x ∈ vs.map Variable.name := by
  by_cases hx : x ∈ vs.map Variable.name
  · exact .inr hx
  · rw [bound?_addVariables_of_notMem env f hx] at h
    exact .inl h

/-- The parameters are bound behind the receiver. -/
theorem Receives.addVariables {env : Environment} {f : FrameId} {k : Closure} {object : Class × FrameId}
    (h : Receives env f k object) {vs : List Variable} (hlasts : Lasts env (env.addVariables vs))
    (hvs : ∀ v ∈ vs, v.name ∈ k.callable.params.map Param.name) : Receives (env.addVariables vs) f k object := by
  have hvars : ∀ id v, env.var? id = some v → (env.addVariables vs).var? id = some v := fun _ _ => var?_addVariables env
  refine ⟨h.this.keep hlasts hvars, fun d s hd hs => ?_, fun x b hb => ?_⟩
  · exact (h.super d s (hlasts.findClass.mp hd) hs).keep hlasts hvars
  · rcases bound?_of_addVariables hb with hb | hx
    · rcases h.only x b hb with hx | hx | ⟨hx, d, s, hd, hs⟩
      · exact .inl hx
      · exact .inr (.inl hx)
      · exact .inr (.inr ⟨hx, d, s, hlasts.findClass.mpr hd, hs⟩)
    · obtain ⟨v, hv, rfl⟩ := List.mem_map.mp hx
      exact .inr (.inl (hvs v hv))

theorem bindReceiver_receives (k : Closure) (object : Class × FrameId) {r : Registers}
    (hsize : r.env.current < r.env.frames.size) (hempty : ∀ x, r.env.bound? r.env.current x = none) :
    Ends (bindReceiver k object) r (fun _ r' => Receives r'.env r.env.current k object) (fun _ _ => True) := by
  have hadds : ∀ (env : Environment) (v : Variable), env.addVariable v = env.addVariables [v] := fun _ _ => rfl
  simp only [bindReceiver, ends_bind, ends_declare]
  refine ⟨fun _ => ?_, fun _ => trivial⟩
  have hthis := stores_addVariable r.env thisName (.named k.className) (.object object.1 object.2) hsize
  rw [hadds] at hthis ⊢
  have hbound : ∀ x b, (r.env.addVariables [⟨thisName, .named k.className,
      some (.object object.1 object.2)⟩]).bound? r.env.current x = some b → x = thisName := by
    intro x b hb
    rcases bound?_of_addVariables hb with hb | hx
    · rw [hempty] at hb
      cases hb
    · exact List.mem_singleton.mp hx
  have hcurrent := current_addVariables r.env [⟨thisName, .named k.className, some (.object object.1 object.2)⟩]
  have hsize₁ := size_addVariables r.env [⟨thisName, .named k.className, some (.object object.1 object.2)⟩]
  generalize r.env.addVariables [⟨thisName, .named k.className, some (.object object.1 object.2)⟩] = env
    at hthis hbound hcurrent hsize₁
  rw [← hcurrent] at hthis hbound ⊢
  rw [← hcurrent, ← hsize₁] at hsize
  rw [ends_ask]
  refine ⟨fun d hd => ?_, fun _ _ => trivial⟩
  split
  · rename_i s hs
    simp only [ends_bind, ends_declare, ends_pure]
    refine ⟨fun hfree => ?_, fun _ => trivial⟩
    have hlasts := (Lasts.refl env).declare (v := ⟨superName, .named s.name, some (.object object.1 object.2)⟩) hfree
    have hsuper := stores_addVariable env superName (.named s.name) (.object object.1 object.2) hsize
    rw [hadds] at hlasts hsuper ⊢
    refine ⟨hthis.keep hlasts (fun _ _ => var?_addVariables env), fun d' s' hd' hs' => ?_, fun x b hb => ?_⟩
    · have heq := (hlasts.findClass.mp hd').symm.trans hd
      cases heq
      rw [hs] at hs'
      cases hs'
      exact hsuper
    · rcases bound?_of_addVariables hb with hb | hx
      · exact .inl (hbound x b hb)
      · exact .inr (.inr ⟨List.mem_singleton.mp hx, d, s, hlasts.findClass.mpr hd, hs⟩)
  · rename_i hnone
    refine ⟨hthis, fun d' s' hd' hs' => ?_, fun x b hb => .inl (hbound x b hb)⟩
    have heq : Except.ok (ε := Fault) d' = .ok d := hd'.symm.trans hd
    cases heq
    rw [hnone] at hs'
    cases hs'

/-- Parameters are bound under their own names. -/
theorem bindParams_names (ps : List Param) (vs : List Value) :
    Adds (bindParams ps vs) (fun v => v.name ∈ ps.map Param.name) := by
  induction ps generalizing vs with
  | nil => exact adds_pure _
  | cons p ps ih =>
    cases vs with
    | nil => exact adds_pure _
    | cons v vs =>
      have hrest : Adds (bindParams ps vs) (fun v => v.name ∈ (p :: ps).map Param.name) :=
        fun r => (ih vs r).mono (fun _ _ ⟨ws, hws, hr⟩ => ⟨ws, fun w hw => .tail _ (hws w hw), hr⟩)
          (fun _ _ ⟨ws, hws, hr⟩ => ⟨ws, fun w hw => .tail _ (hws w hw), hr⟩)
      exact (adds_ofExcept _).bind fun w => (adds_declare (.head _)).bind fun _ => hrest

/-- A call on an object binds `this`, `super` and the parameters in its frame. -/
theorem invoke_receives (n : Nat) (r : Registers) : Ends (invoke Natives.empty n) r
    (fun _ r' => ∀ k object, Calls r (.invoke n) k (some object) →
      Receives r'.env r.env.frames.size k object) (fun _ _ => True) := by
  rw [invoke, ends_bind]
  refine takes_popValue.popMany (fun args s hlen hs => ?_) (fun e s hs => trivial)
  rw [ends_bind, List.append_nil]
  refine takes_popClosure _ _ _ (fun k below hk => ?_) (fun e s hs => trivial)
  obtain rfl : s = .closure k :: below := hk
  simp only [ends_bind, ends_ite, ends_throw]
  refine ⟨fun _ => trivial, fun _ => ?_⟩
  simp only [ends_here, ends_schedule, ends_ofExcept]
  refine ⟨?_, fun _ _ => trivial⟩
  rintro ⟨object, rest⟩ hreceiver
  have hcalls : Calls r (.invoke n) k object := ⟨n, args, rest, below, rfl, hlen, hs, hreceiver⟩
  cases object with
  | none =>
    -- the stash says what is called, so it is called on no object
    have hnone : ∀ {x : Step Unit} {r₁ : Registers}, Ends x r₁ (fun _ r' => ∀ k object,
        Calls r (.invoke n) k (some object) → Receives r'.env r.env.frames.size k object)
        (fun _ _ => True) := by
      intro x r₁
      unfold Ends
      split
      · rintro k' object hcalls'
        cases (hcalls.unique hcalls').2
      · trivial
    exact hnone
  | some object =>
    rw [ends_extend]
    change Ends (bindReceiver k object >>= fun _ => bindParams k.callable.params rest >>= fun _ =>
      enter Natives.empty k) _ _ _
    rw [ends_bind]
    have hsize : r.env.frames.size < (r.env.extend object.2 k.callable.name).frames.size := by
      rw [size_extend]
      exact Nat.lt_succ_self _
    have hempty : ∀ x, (r.env.extend object.2 k.callable.name).bound? r.env.frames.size x = none := by
      intro x
      rw [bound?_extend, bound?_eq_none_of_size_le (Nat.le_refl _)]
    refine (bindReceiver_receives k object (r := ⟨_, below, r.env.extend object.2 k.callable.name, r.output⟩)
      hsize hempty).mono ?_ (fun _ _ _ => trivial)
    intro _ r₁ hreceives
    rw [ends_bind]
    refine ((bindParams_names k.callable.params rest r₁).and
      (bindParams_keeps (g := .strict) _ _)).mono ?_ (fun _ _ _ => trivial)
    rintro - r₂ ⟨⟨vs, hvs, henv⟩, -, -, -, hevolves, -⟩
    refine (enter_queues k r₂).mono ?_ (fun _ _ _ => trivial)
    rintro - r₃ ⟨c, -, rfl⟩ k' object' hcalls'
    obtain ⟨rfl, hobject⟩ := hcalls.unique hcalls'
    cases hobject
    have hlasts := hevolves.2 trivial
    rw [henv] at hlasts ⊢
    exact hreceives.addVariables hlasts hvs

/-- A frame that a step makes has the role that it is made for. -/
theorem makes_of_plays {f : FrameId} {ρ : Role} (hm : Reached Natives.empty p m)
    (hc : m.registers.control = i :: c) (hnext : Next Natives.empty m m₁)
    (hle : m.registers.env.frames.size ≤ f) (hlt : f < m₁.registers.env.frames.size) (hplays : Plays p f ρ) :
    f = m.registers.env.frames.size ∧ Makes { m.registers with control := c } i ρ := by
  obtain ⟨roles, hscoped, -⟩ := exists_scoped hm
  have hsize := hscoped.layout.size
  have hscoped₁ : Scoped roles { m.registers with control := i :: c } := by
    rw [← hc]
    exact hscoped
  obtain ⟨new, hfills, hscoped₁⟩ := Scoped.outcome (r := { m.registers with control := c }) hscoped₁
    (hnext.outcome hc)
  have hsize₁ := hscoped₁.layout.size
  rw [List.length_append, hsize] at hsize₁
  rw [← hsize₁] at hlt
  rcases hfills with rfl | ⟨ρ', rfl, hmakes⟩
  · exact absurd hlt (Nat.not_lt.mpr hle)
  · obtain rfl : f = m.registers.env.frames.size := Nat.le_antisymm (Nat.lt_succ_iff.mp hlt) hle
    refine ⟨rfl, ?_⟩
    have hplays' : Plays p m.registers.env.frames.size ρ' := .inr ⟨m, m₁, i, c, hm, hc, hnext, rfl, hsize₁ ▸ hlt, hmakes⟩
    rw [hplays.unique hplays']
    exact hmakes

/-- The frame of a call on an object binds `this`, declared with the class of the closure. -/
theorem this_of_call {f : FrameId} {k : Closure} {object : Class × FrameId} (hm : Reached Natives.empty p m)
    (hplays : Plays p f (.call k (some object))) (hf : f < m.registers.env.frames.size) :
    BindsThis m.registers.env f k.className := by
  refine hm.induction (P := fun m => ∀ f k object, Plays p f (.call k (some object)) →
    f < m.registers.env.frames.size → BindsThis m.registers.env f k.className)
    (fun f k object hplays hf => ?_) (fun m m₁ hm ih hnext f k object hplays hf => ?_) f k object hplays hf
  · obtain rfl : f = global := Nat.lt_one_iff.mp hf
    cases hplays.unique (.inl ⟨rfl, rfl⟩)
  · obtain ⟨i, c, hc, hperform, -⟩ := next_iff.mp hnext
    have hgrows := hnext.grows
    by_cases hold : f < m.registers.env.frames.size
    · exact (ih f k object hplays hold).grows hgrows
    · obtain ⟨rfl, hmakes⟩ := makes_of_plays hm hc hnext (Nat.le_of_not_lt hold) hf hplays
      cases hmakes with
      | call hcalls =>
        obtain ⟨n, _, _, _, rfl, -⟩ := id hcalls
        obtain ⟨id, hbound, hv⟩ := ((invoke_receives n _).of_ok hperform k object hcalls).this
        exact ⟨id, _, hbound, hv, rfl⟩

end Steps

end StashMachine
