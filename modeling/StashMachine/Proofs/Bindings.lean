import StashMachine.Proofs.ClassQueue
import StashMachine.Proofs.Signatures
import StashMachine.Proofs.Stored

/-!
# StashMachine.Proofs.Bindings — frames bind closures under descriptors, and nothing else

* `NamedControl p c`, `NamedStore p r`: what waits on control declares names and callables of the program `p`, and in the
  store variables are bound under such names and closures under their descriptors.
* `Agenda.waits_member`: of methods, constructors and fields, a step of code queues parts of the field it performs only.
* `Named.perform`: all names stay those of the program, whatever item is performed.
* `Natives.LeaveNames`: native code that brings no names, closures or code into a run.  `Named.reached`,
  `Named.visited`: with such code, all names are those of the program wherever a run stands.
* `descriptors_identify_signatures`: descriptors tell signatures apart, and keys of native code also classes and
  results; and a frame binds a descriptor to closures of that signature only.
-/

namespace StashMachine

open Environment Step Machine Grammar

/-! ### Members on control -/

/-- An item that binds a callable or sets up a static field. -/
def Item.isMember : Item → Bool
  | .method _ | .constructor _ | .field _ => true
  | _ => false

/-- The member that an item declares is one of the program. -/
def Item.MemberOf (p : Program) : Item → Prop
  | .method m => p.Has (.method m)
  | .constructor k => p.Has (.constructor k)
  | .field f => ∀ d ∈ f.vars, p.Names d.name
  | _ => True

/-- No member waits in the items. -/
def Inert (c : List Item) : Prop := ∀ j, Waits j c → j.isMember = false

section Members

variable {p : Program} {r r' : Registers} {i j : Item} {c c' new : List Item} {f : FrameId}

theorem Item.memberOf_of_isMember (h : j.isMember = false) : j.MemberOf p := by
  cases j with
  | method | constructor | field => cases h
  | _ => trivial

theorem Item.memberOf_item (k : Callable) : k.item.MemberOf p ↔ p.Has k := by cases k <;> exact Iff.rfl

@[simp] theorem inert_nil : Inert [] := fun _ h => absurd h not_waits_nil

@[simp] theorem inert_cons : Inert (i :: c) ↔
    (i.isMember = false ∧ ∀ yes no, i = .branch yes no → Inert yes ∧ Inert no) ∧ Inert c := by
  constructor
  · intro h
    refine ⟨⟨h i (.head c), ?_⟩, fun j hj => h j (.tail hj)⟩
    rintro yes no rfl
    exact ⟨fun j hj => h j (.yes hj), fun j hj => h j (.no hj)⟩
  · rintro ⟨⟨hi, hbranch⟩, hc⟩ j hj
    cases hj with
    | head => exact hi
    | tail hj => exact hc j hj
    | yes hj => exact (hbranch _ _ rfl).1 j hj
    | no hj => exact (hbranch _ _ rfl).2 j hj

@[simp] theorem inert_append : Inert (c ++ c') ↔ Inert c ∧ Inert c' := by
  simp only [Inert, waits_append, or_imp, forall_and]

@[simp] theorem inert_stmts (ss : List Stmt) : Inert (ss.map .stmt) := by
  intro j hj
  obtain ⟨s, -, rfl⟩ := exists_of_waits_map nofun hj
  rfl

theorem inert_simple (h : new.all Item.isSimple = true) : Inert new := by
  induction new with
  | nil => exact inert_nil
  | cons i new ih =>
    rw [List.all_cons, Bool.and_eq_true] at h
    refine inert_cons.mpr ⟨⟨?_, ?_⟩, ih h.2⟩
    · cases i <;> first | rfl | cases h.1
    · rintro yes no rfl
      cases h.1

/-- Of members, a step of code queues parts of the field that it performs only. -/
theorem Agenda.waits_member (h : Agenda r i new f) (hj : Waits j new) (hmember : j.isMember = true) :
    Waits j [i] ∨ ∃ fd d, i = .field fd ∧ d ∈ fd.vars ∧ j = .field (fd.only d) := by
  have hnot : Inert new → False := fun hinert => by simp [hinert j hj] at hmember
  cases h with
  | yes => exact .inl (.yes hj)
  | no => exact .inl (.no hj)
  | fields fd =>
    obtain ⟨d, hd, rfl⟩ := exists_of_waits_map nofun hj
    exact .inr ⟨fd, d, rfl, hd, rfl⟩
  | locals t vars =>
    obtain ⟨d, -, rfl⟩ := exists_of_waits_map nofun hj
    cases hmember
  | simple _ hsimple => exact (hnot (inert_simple hsimple)).elim
  | _ => exact (hnot (by simp [Item.isMember])).elim

theorem Goes.waits_member (h : Goes r i r') (hj : Waits j r'.control) (hmember : j.isMember = true) :
    Waits j (i :: r.control) ∨ ∃ fd d, i = .field fd ∧ d ∈ fd.vars ∧ j = .field (fd.only d) := by
  rcases h with ⟨hagenda, hcontrol, -⟩ | ⟨rfl, hunwind, -⟩ | ⟨rfl, hsimple, hadd, hcontrol, -⟩
  · rw [hcontrol] at hj
    rcases waits_append.mp hj with hj | hj
    · exact (hagenda.waits_member hj hmember).imp (fun h => waits_cons.mpr (.inl h)) id
    · exact .inl (.tail hj)
  · obtain ⟨front, hfront, -⟩ := exists_of_unwind_eq_ok hunwind
    refine .inl (.tail ?_)
    rw [hfront]
    exact waits_append.mpr (.inr (.tail hj))
  · rw [hcontrol] at hj
    rcases waits_append.mp hj with hj | hj
    · simp [inert_simple hsimple j hj] at hmember
    · rcases waits_of_addReceiver? hadd hj with hj | ⟨n, rfl⟩
      · exact .inl (.tail hj)
      · cases hmember

end Members

/-! ### Names of a program -/

/-- What waits on control declares names and callables of the program. -/
structure NamedControl (p : Program) (c : List Item) : Prop where
  members : ∀ j, Waits j c → j.MemberOf p
  locals : ∀ x ∈ localsOf c, p.Names x

/-- Variables have names of the program and are bound under them, the lineages of classes come from the program, and
closures are those of its callables, bound under their descriptors. -/
structure NamedStore (p : Program) (r : Registers) : Prop where
  lineages : ∀ x c, r.env.findClass x = .ok c → ∀ d ∈ c.lineage,
    ∃ decl g superclass, p.Declares decl ∧ d = (decl.elaborate g superclass).toClassInfo
  stash : ∀ k, .closure k ∈ r.stash → p.Has k.callable
  vars : ∀ id v, r.env.var? id = some v → p.Names v.name
  bound : ∀ f x id, r.env.bound? f x = some (.var id) → p.Names x
  closures : ∀ f x k, r.env.bound? f x = some (.closure k) → k.descriptor = x ∧ p.Has k.callable

/-- All names in the registers are those of the program. -/
structure Named (p : Program) (r : Registers) : Prop where
  origins : Origins p r
  control : NamedControl p r.control
  store : NamedStore p r

section Named

variable {p : Program} {r r' : Registers} {i : Item} {c new : List Item} {env : Environment}

theorem Named.initial (p : Program) : Named p (Machine.initial.loadProgram p).registers := by
  have hbound : ∀ f x, (Machine.initial.loadProgram p).registers.env.bound? f x = none := bound?_initial
  refine ⟨.initial p, ⟨fun j hj => ?_, fun x hx => ?_⟩, ⟨fun x c hc => ?_, nofun, fun id v hv => ?_, fun f x id h => ?_,
    fun f x k h => ?_⟩⟩
  · cases hj with
    | head => trivial
    | tail hj => cases hj
  · simp [loadProgram, Machine.initial, Registers.initial, Item.locals] at hx
  · rw [findClass_eq_ok, hbound] at hc
    cases hc
  · cases hv
  · rw [hbound] at h
    cases h
  · rw [hbound] at h
    cases h

/-! ### Control -/

theorem NamedControl.append (hnew : NamedControl p new) (hc : NamedControl p c) : NamedControl p (new ++ c) := by
  refine ⟨fun j hj => (waits_append.mp hj).elim (hnew.members j) (hc.members j), fun x hx => ?_⟩
  rw [localsOf_append, List.mem_append] at hx
  exact hx.elim (hnew.locals x) (hc.locals x)

theorem NamedControl.tail (h : NamedControl p (i :: c)) : NamedControl p c :=
  ⟨fun j hj => h.members j (.tail hj), fun x hx => h.locals x (by simp [hx])⟩

theorem NamedControl.of_inert (h : Inert c) (hlocals : localsOf c = []) : NamedControl p c := by
  refine ⟨fun j hj => Item.memberOf_of_isMember (h j hj), fun x hx => ?_⟩
  rw [hlocals] at hx
  cases hx

/-- What a step of code queues it finds in the item that it performs or in the callable that it enters. -/
theorem NamedControl.goes (h : NamedControl p (i :: r.control)) (hstash : ∀ k, .closure k ∈ r.stash → p.Has k.callable)
    (hgoes : Goes r i r') : NamedControl p r'.control := by
  refine ⟨fun j hj => ?_, fun x hx => ?_⟩
  · cases hmember : j.isMember with
    | false => exact Item.memberOf_of_isMember hmember
    | true =>
      rcases hgoes.waits_member hj hmember with hj | ⟨fd, d, rfl, hd, rfl⟩
      · exact h.members j hj
      · intro d' hd'
        obtain rfl := List.mem_singleton.mp hd'
        exact h.members (.field fd) (.head _) _ hd
  · rcases hgoes.mem_locals hx with hx | ⟨k, object, ⟨n, args, rest, below, -, -, hs, -⟩, hx⟩
    · exact h.locals x hx
    · exact .local (hstash k (by simp [hs])) hx

/-- A class queues its callables. -/
theorem NamedControl.callables {ks : List Callable} (hks : ∀ k ∈ ks, p.Has k) : NamedControl p (ks.map Callable.item) := by
  refine ⟨fun j hj => ?_, fun x hx => ?_⟩
  · obtain ⟨k, hk, rfl⟩ := exists_of_waits_items hj
    exact (Item.memberOf_item k).mpr (hks k hk)
  · have hnone : ∀ k : Callable, k.item.locals = [] := fun k => by cases k <;> simp [Callable.item, Item.locals]
    rw [localsOf_eq_nil (by simp [hnone])] at hx
    cases hx

/-- A class queues its static fields. -/
theorem NamedControl.fields {d : ClassDecl} {g : FrameId} {superclass : Option Class} (hd : p.Declares d) :
    NamedControl p ((d.elaborate g superclass).staticFields.map .field) := by
  refine ⟨fun j hj => ?_, fun x hx => ?_⟩
  · obtain ⟨fd, hfd, rfl⟩ := exists_of_waits_map nofun hj
    obtain ⟨fd', hfd', rfl⟩ := List.mem_map.mp hfd
    intro v hv
    obtain ⟨v', hv', rfl⟩ := List.mem_map.mp hv
    have hname : p.Names v'.name := .field hd (List.mem_filter.mp hfd').1 hv'
    exact hname
  · rw [localsOf_eq_nil (by simp [Item.locals])] at hx
    cases hx

/-- A step that ends well queues names and callables of the program. -/
theorem Named.control_of_ok (h : Named p { r with control := i :: r.control })
    (hperform : perform Natives.empty i r = .ok () r') : NamedControl p r'.control := by
  cases i with
  | program q =>
    obtain ⟨ds, e, hcontrol, -⟩ := (start_ends q r).of_ok hperform
    rw [hcontrol, List.append_cons]
    refine NamedControl.append (.of_inert ?_ ?_) h.control.tail
    · refine inert_append.mpr ⟨fun j hj => ?_, by simp [Item.isMember]⟩
      obtain ⟨d, -, rfl⟩ := exists_of_waits_map nofun hj
      rfl
    · refine localsOf_eq_nil (fun i hi => ?_)
      simp only [List.mem_append, List.mem_map, List.mem_singleton] at hi
      rcases hi with ⟨d, -, rfl⟩ | rfl <;> rfl
  | classDecl d =>
    obtain ⟨superclass, _, ks, -, rfl, -, hks, hcontrol, -⟩ := (elaborateClass_ends d r).of_ok hperform
    have hd : p.Declares d := h.origins.decls d (.head _)
    have hrestore : NamedControl p [.restore r.env.current] :=
      .of_inert (by simp [Item.isMember]) (by simp [Item.locals])
    rw [hcontrol]
    exact (NamedControl.callables (fun k hk => ⟨d, hd, .inr ⟨_, _, hks k hk⟩⟩)).append
      ((NamedControl.fields hd).append (hrestore.append h.control.tail))
  | method m =>
    rw [(bindCallable_control (.method m) r).of_ok hperform]
    exact h.control.tail
  | constructor k =>
    rw [(bindCallable_control (.constructor k) r).of_ok hperform]
    exact h.control.tail
  | _ => exact h.control.goes h.store.stash ((perform_agenda rfl).of_ok hperform).goes

/-! ### The store -/

/-- The names that an item declares. -/
theorem NamedControl.binds (h : NamedControl p (i :: c)) {x : String} (hx : x ∈ i.binds) : p.Names x := by
  unfold Item.binds at hx
  split at hx
  · rename_i t d
    obtain rfl := List.mem_singleton.mp hx
    exact h.locals d.name (by simp [Item.locals, Stmt.locals])
  · rename_i modifiers t d
    obtain rfl := List.mem_singleton.mp hx
    exact h.members _ (.head _) d (.head _)
  · cases hx

/-- What a step stores has a name of the program. -/
theorem Named.stored (h : Named p { r with control := i :: r.control }) {x : VarId} {y : Variable}
    (hy : Stored r i x y) : p.Names y.name := by
  cases hy with
  | declared hx => exact h.control.binds hx
  | default hx => exact h.control.binds hx
  | field hi hfind hfield =>
    obtain ⟨d, hd, hfield⟩ := List.mem_flatMap.mp hfield
    obtain ⟨decl, g, superclass, hdecl, rfl⟩ := h.store.lineages _ _ hfind d hd
    obtain ⟨fd, hfd, hfield⟩ := List.mem_flatMap.mp hfield
    obtain ⟨v, hv, rfl⟩ := List.mem_map.mp hfield
    exact .field hdecl (List.mem_filter.mp hfd).1 hv
  | length n => exact .length
  | receiver v hname =>
    rcases hname with rfl | rfl
    · exact .this
    · exact .super
  | argument hpasses hcoerce =>
    obtain ⟨args, object, rest, below, -, hs, -, hmem⟩ := hpasses
    exact .param (h.store.stash _ (by simp [hs])) (List.of_mem_zip hmem).1
  | @assigned y _ _ _ hi hs hv hcoerce => exact h.store.vars x y hv
  | @narrowed y _ _ _ _ _ hv => exact h.store.vars x y hv

theorem Named.store_of_leads (h : Named p { r with control := i :: r.control }) (hleads : Leads r i r')
    (hstocks : Stocks (Stored r i) r.env r'.env) : NamedStore p r' := by
  have hvars : ∀ id v, r'.env.var? id = some v → p.Names v.name := fun id v hv =>
    (hstocks id v hv).elim (h.store.vars id v) h.stored
  refine ⟨fun x c hc d hd => ?_, fun k hk => ?_, hvars, fun f x id hx => ?_, fun f x k hx => ?_⟩
  · rcases hleads.fresh (findClass_eq_ok.mp hc) with hold | hnew
    · exact h.store.lineages x c (findClass_eq_ok.mpr hold) d hd
    · cases hnew with
      | cls hi hsuper hx =>
        subst hi
        rw [lineage_elaborate] at hd
        rcases List.mem_cons.mp hd with rfl | hd
        · exact ⟨_, _, _, h.origins.decls _ (.head _), rfl⟩
        · rcases hsuper with ⟨y, s, -, hs, rfl⟩ | ⟨-, rfl⟩
          · exact h.store.lineages y s hs d hd
          · cases hd
  · rcases hleads.leaves hk with hk | hk
    · exact h.store.stash k hk
    · cases hk with
      | closure hbinds =>
        obtain ⟨f, x, hx⟩ := hbinds
        exact (h.store.closures f x k hx).2
  · rcases hleads.fresh hx with hold | hnew
    · exact h.store.bound f x id hold
    · cases hnew with
      | var hv hname => exact hname ▸ hvars _ _ hv
  · rcases hleads.fresh hx with hold | hnew
    · exact h.store.closures f x k hold
    · cases hnew with
      | closure hi hkey => exact ⟨hkey, (Item.memberOf_item _).mp (hi ▸ h.control.members i (.head _))⟩

/-- Without native code, all names stay those of the program. -/
theorem Named.perform (h : Named p { r with control := i :: r.control }) : Ends (perform Natives.empty i) r
    (fun _ r' => Named p r') (fun _ r' => Origins p r' ∧ NamedStore p r') := by
  cases hperform : Step.perform Natives.empty i r with
  | ok a r' =>
    have hleads : Leads r i r' := .inl ((perform_outcome i r).of_ok hperform)
    rw [Ends, hperform]
    exact ⟨h.origins.leads hleads, h.control_of_ok hperform,
      h.store_of_leads hleads ((perform_stored i r).of_ok hperform)⟩
  | error e r' =>
    have hleads : Leads r i r' := .inr ((perform_outcome i r).of_error hperform)
    rw [Ends, hperform]
    exact ⟨h.origins.leads hleads, h.store_of_leads hleads ((perform_stored i r).of_error hperform)⟩

end Named

/-! ### Native code -/

/-- From `r` to `r'` nothing is queued, no closure comes on the stash, no name is bound and no variable gets a new one. -/
structure Abides (r r' : Registers) : Prop where
  control : r'.control = r.control
  stash : ∀ k, .closure k ∈ r'.stash → .closure k ∈ r.stash
  bound : ∀ f x b, r'.env.bound? f x = some b → r.env.bound? f x = some b
  vars : ∀ id v, r'.env.var? id = some v → ∃ v', r.env.var? id = some v' ∧ v'.name = v.name

/-- Native code that brings no names into a run. -/
def Natives.LeaveNames (natives : Natives) : Prop :=
  ∀ key native r, natives.get? key = some native →
    Ends native.call r (fun _ r' => Abides r r') (fun _ r' => Abides r r')

theorem Natives.leaveNames_empty : Natives.empty.LeaveNames := by
  intro key native r h
  cases h

section Natives

variable {p : Program} {natives : Natives} {r r' : Registers} {i : Item} {m : Machine}

theorem Abides.named (h : Abides r r') (hr : Named p r) : Named p r' := by
  refine ⟨⟨fun q hq => ?_, fun d hd => ?_, fun f x c hc => hr.origins.classes f x c (h.bound f x _ hc)⟩,
    h.control ▸ hr.control, ⟨fun x c hc => ?_, fun k hk => hr.store.stash k (h.stash k hk), fun id v hv => ?_,
      fun f x id hx => hr.store.bound f x id (h.bound f x _ hx),
      fun f x k hx => hr.store.closures f x k (h.bound f x _ hx)⟩⟩
  · exact hr.origins.programs q (h.control ▸ hq)
  · exact hr.origins.decls d (h.control ▸ hd)
  · exact hr.store.lineages x c (findClass_eq_ok.mpr (h.bound _ _ _ (findClass_eq_ok.mp hc)))
  · obtain ⟨v', hv', hname⟩ := h.vars id v hv
    exact hname ▸ hr.store.vars id v' hv'

/-- A faulty way into a body leaves control as it was, but for a jump. -/
theorem Step.Adds.enter_control {x : Step Unit} {ok : Variable → Prop} {k : Closure} (hx : Adds x ok)
    (hr : NamedControl p r.control) :
    Ends (x >>= fun _ => enter Natives.empty k) r (fun _ _ => True) (fun _ r' => NamedControl p r'.control) := by
  rw [ends_bind]
  refine (hx r).mono ?_ ?_
  · rintro - r₁ ⟨vs, -, rfl⟩
    unfold enter
    split
    · trivial
    · rw [ends_ite]
      refine ⟨fun _ => ?_, fun _ => ?_⟩
      · have hjump : NamedControl p [.reset .ret] := .of_inert (by simp [Item.isMember]) (by simp [Item.locals])
        exact hjump.append hr
      · split
        · trivial
        · exact hr
  · rintro e r₁ ⟨vs, -, rfl⟩
    exact hr

/-- A faulty call leaves no more on control than the marks that lead back. -/
theorem invoke_control (n : Nat) (hr : NamedControl p r.control) :
    Ends (invoke Natives.empty n) r (fun _ _ => True) (fun _ r' => NamedControl p r'.control) := by
  have hmarks : NamedControl p ([Item.marker .ret, Item.restore r.env.current] ++ r.control) :=
    NamedControl.append (.of_inert (by simp [Item.isMember]) (by simp [Item.locals])) hr
  rw [invoke, ends_bind]
  refine takes_popValue.popMany (fun args s _ _ => ?_) (fun _ _ _ => hr)
  rw [ends_bind]
  refine takes_popClosure _ _ _ (fun k below _ => ?_) (fun _ _ _ => hr)
  simp only [ends_bind, ends_ite, ends_throw]
  refine ⟨fun _ => hr, fun _ => ?_⟩
  simp only [ends_here, ends_schedule, ends_ofExcept]
  refine ⟨?_, fun _ _ => hmarks⟩
  rintro ⟨object, rest⟩ -
  have hparams : Adds (bindParams k.callable.params rest) (fun _ => True) :=
    bindParams_adds _ _ (fun _ _ _ _ _ _ => trivial)
  cases object with
  | none => exact hparams.enter_control hmarks
  | some object =>
    have hthis : Adds (bindReceiver k object) (fun _ => True) := bindReceiver_adds k object (fun _ _ => trivial)
    rw [ends_extend]
    change Ends (do bindReceiver k object; bindParams k.callable.params rest; enter Natives.empty k) _ _ _
    rw [← bind_assoc]
    exact (hthis.bind (fun _ => hparams)).enter_control hmarks

/-- With native code that leaves names alone, all names stay those of the program, too. -/
theorem Named.step (hnatives : natives.LeaveNames) (h : Named p { r with control := i :: r.control }) :
    Ends (Step.perform natives i) r (fun _ r' => Named p r') (fun _ r' => Origins p r' ∧ NamedStore p r') := by
  cases i with
  | invoke n =>
    have hempty := h.perform
    rcases supplies_perform natives (.invoke n) r with hsame | ⟨key, native, r₀, hget, hmissing, hcall⟩
    · unfold Ends
      rw [hsame]
      exact hempty
    · obtain ⟨horigins, hstore⟩ := hempty.of_error hmissing
      have hcontrol := (invoke_control n h.control.tail).of_error hmissing
      have hends := hnatives key native r₀ hget
      unfold Ends at hends ⊢
      rw [hcall]
      split at hends
      · exact hends.named ⟨horigins, hcontrol, hstore⟩
      · have hnamed := hends.named ⟨horigins, hcontrol, hstore⟩
        exact ⟨hnamed.origins, hnamed.store⟩
  | _ => exact h.perform

/-- Wherever a run stands, all names are those of the program. -/
theorem Named.reached (hnatives : natives.LeaveNames) (hm : Reached natives p m) : Named p m.registers := by
  refine hm.induction (P := fun m => Named p m.registers) (.initial p) (fun m m₁ _ ih hnext => ?_)
  obtain ⟨i, c, hc, hperform, -⟩ := next_iff.mp hnext
  refine (Named.step (r := { m.registers with control := c }) hnatives ?_).of_ok hperform
  rw [← hc]
  exact ih

/-- The same holds of the names in a store that a faulty step leaves. -/
theorem Named.visited (hnatives : natives.LeaveNames) (hm : Visited natives p m) :
    Origins p m.registers ∧ NamedStore p m.registers := by
  rcases hm.cases with hm | ⟨m₁, i, c, e, hm₁, hc, hperform⟩
  · have hnamed := Named.reached hnatives hm
    exact ⟨hnamed.origins, hnamed.store⟩
  · refine (Named.step (r := { m₁.registers with control := c }) hnatives ?_).of_error hperform
    rw [← hc]
    exact Named.reached hnatives hm₁

end Natives

/-! ### Lookups by descriptors -/

section Lookups

variable {source source' : String} {p p' : Program} {k k' : Closure}

/-- Two descriptors are equal if and only if both belong to constructors or both to methods of the same name, and the
types of the parameters are equal; the keys of native code are equal if and only if besides the classes and the results
are.  A descriptor is the name neither of a class nor of a field nor of a variable, so whatever a frame binds under it in
a run is a closure of that very signature. -/
theorem descriptors_identify_signatures (h : Program.parse source = .ok p) (h' : Program.parse source' = .ok p')
    (hk : p.Closes k) (hk' : p'.Closes k') :
    (k.descriptor = k'.descriptor ↔
      k.callable.Namesakes k'.callable ∧ k.callable.paramTypes = k'.callable.paramTypes) ∧
    (k.nativeName = k'.nativeName ↔
      (k.callable.Namesakes k'.callable ∧ k.callable.paramTypes = k'.callable.paramTypes) ∧
        k.className = k'.className ∧ k.callable.result = k'.callable.result) ∧
    (∀ x, p'.Names x → k.descriptor ≠ x) ∧
    ∀ natives m f b, natives.LeaveNames → Visited natives p' m → m.registers.env.bound? f k.descriptor = some b →
      ∃ c, b = .closure c ∧ p'.Has c.callable ∧ c.callable.Namesakes k.callable ∧
        c.callable.paramTypes = k.callable.paramTypes := by
  have hw := hk.has.written h
  have hkeys := descriptor_eq_iff hw (hk'.has.written h')
  refine ⟨hkeys, (nativeName_eq_iff h h' hk hk').trans (and_congr_left' hkeys),
    fun x hx => hx.not_descriptor h' k.callable, fun natives m f b hnatives hm hb => ?_⟩
  obtain ⟨horigins, hstore⟩ := Named.visited hnatives hm
  cases b with
  | var id => exact absurd rfl ((hstore.bound f _ id hb).not_descriptor h' k.callable)
  | cls c =>
    obtain ⟨hx, d, g, superclass, hd, rfl⟩ := horigins.classes f _ c hb
    exact absurd hx ((Program.Names.cls hd).not_descriptor h' k.callable)
  | closure c =>
    obtain ⟨hkey, hc⟩ := hstore.closures f _ c hb
    obtain ⟨hnames, htypes⟩ := (descriptor_eq_iff (hc.written h') hw).mp hkey
    exact ⟨c, rfl, hc, hnames, htypes⟩

/-- A source with two methods of one name. -/
def overloadedSource : String :=
  "class A \x7b void f(int x) \x7b \x7d void f(long x) \x7b \x7d public static void main(String[] a) \x7b \x7d \x7d"

/-- The closure that a frame binds under a descriptor. -/
def closureAt? (m : Machine) (f : FrameId) (x : String) : Option Closure :=
  match m.registers.env.bound? f x with
  | some (.closure k) => some k
  | _ => none

theorem bound?_of_closureAt? {m : Machine} {f : FrameId} {x : String} (h : closureAt? m f x = some k) :
    m.registers.env.bound? f x = some (.closure k) := by
  unfold closureAt? at h
  split at h
  · rename_i k' hk'
    cases h
    exact hk'
  · cases h

/-- The two methods are told apart, and the frame of the class binds the descriptor of the first to its closure. -/
theorem descriptors_identify_signatures_overloaded : ∃ p k k' m c, Program.parse overloadedSource = .ok p ∧
    p.Closes k ∧ p.Closes k' ∧ Reached Natives.empty p m ∧ k.descriptor = "f(int)" ∧ k'.descriptor = "f(long)" ∧
    ¬ (k.callable.Namesakes k'.callable ∧ k.callable.paramTypes = k'.callable.paramTypes) ∧
    k.nativeName ≠ k'.nativeName ∧ ¬ p.Names "f(int)" ∧
    m.registers.env.bound? 2 "f(int)" = some (.closure c) ∧ c.callable.paramTypes = k.callable.paramTypes := by
  have hrun : (sample? overloadedSource 7).any (fun m =>
      (closureAt? m 2 "f(int)").isSome && (closureAt? m 2 "f(long)").isSome) = true := by
    rw [sample?_eq_parseDecoded?]
    decide +kernel
  obtain ⟨m, hm, hbinds⟩ := (Option.any_eq_true _ _).mp hrun
  obtain ⟨p, hp, hreached⟩ := exists_of_sample? hm
  rw [Bool.and_eq_true, Option.isSome_iff_exists, Option.isSome_iff_exists] at hbinds
  obtain ⟨⟨c, hc⟩, c', hc'⟩ := hbinds
  have hbound := bound?_of_closureAt? hc
  have hstore := (Named.reached Natives.leaveNames_empty hreached).store
  obtain ⟨hkey, d, hd, hhas⟩ := hstore.closures 2 _ c hbound
  obtain ⟨hkey', d', hd', hhas'⟩ := hstore.closures 2 _ c' (bound?_of_closureAt? hc')
  -- the two callables as closures of their classes
  let k : Closure := ⟨c.callable, c.frame, d.name⟩
  let k' : Closure := ⟨c'.callable, c'.frame, d'.name⟩
  have hk : p.Closes k := ⟨d, hd, hhas, rfl⟩
  have hk' : p.Closes k' := ⟨d', hd', hhas', rfl⟩
  have hdiffer : k.descriptor ≠ k'.descriptor := by
    rw [show k.descriptor = "f(int)" from hkey, show k'.descriptor = "f(long)" from hkey']
    decide
  obtain ⟨hkeys, hnatives, hnames, hlookup⟩ := descriptors_identify_signatures hp hp hk hk'
  obtain ⟨c₁, hc₁, -, -, htypes⟩ := hlookup Natives.empty m 2 (.closure c) Natives.leaveNames_empty (.inl hreached)
    (by rw [show k.descriptor = "f(int)" from hkey]; exact hbound)
  cases hc₁
  refine ⟨p, k, k', m, c, hp, hk, hk', hreached, hkey, hkey', fun h => hdiffer (hkeys.mpr h), fun h => ?_,
    fun h => hnames _ h hkey, hbound, htypes⟩
  exact hdiffer (hkeys.mpr (hnatives.mp h).1)

end Lookups

end StashMachine
