import StashMachine.Proofs.Kinds
import StashMachine.Proofs.Names
import StashMachine.Proofs.Phases

/-!
# StashMachine.Proofs.Effects — what one step can do

Without natives, a step from the registers `r` that performs the item `i` does little, whatever the
registers hold.

* `Obtained r v`: a value that the step can come by.
* `Effect r i env`: what the step makes of the environment.
* `Leaves r i env s`, `Queued r i j`: what it puts on the stash and on control.
* `Moves r i r'`: all of this together.  Two kinds of steps are known in full: `Outcome.binds` and
  `Outcome.registers`, which declare callables and classes.
* `Outcome`, `Halt`: what comes of a step that ends well, and of a faulty one.

The steps of variables and fields are gone through here, all others in `StashMachine.Proofs.Outcomes`.
-/

namespace StashMachine

open Environment Step

/-! ### Control -/

/-- The item `j` waits on control, or in one of the two lists of a branch that waits there. -/
inductive Waits (j : Item) : List Item → Prop
  | head (c : List Item) : Waits j (j :: c)
  | tail {i : Item} {c : List Item} : Waits j c → Waits j (i :: c)
  | yes {yes no c : List Item} : Waits j yes → Waits j (.branch yes no :: c)
  | no {yes no c : List Item} : Waits j no → Waits j (.branch yes no :: c)

/-- An item that neither declares a class or a callable nor leads back to a frame. -/
def Item.isCode : Item → Bool
  | .program _ | .classDecl _ | .method _ | .constructor _ | .restore _ => false
  | _ => true

/-- An item of code that has no other items in it. -/
def Item.isQuiet : Item → Bool
  | .program _ | .classDecl _ | .method _ | .constructor _ | .restore _ | .branch _ _ => false
  | _ => true

/-- An item that binds a method or a constructor. -/
def Item.isCallable : Item → Bool
  | .method _ | .constructor _ => true
  | _ => false

/-- An item that stores a value in a variable. -/
def Item.isUpdate : Item → Bool
  | .assign | .compoundAssign _ | .increment _ _ => true
  | _ => false

/-- An item that opens the frame of a block, of a `for` or of a `switch`. -/
inductive Item.OpensBlock : Item → Prop
  | block (body : List Stmt) : OpensBlock (.stmt (.block body))
  | forLoop (init : List Stmt) (c : Option Expr) (update : List Stmt) (body : Stmt) :
    OpensBlock (.stmt (.forLoop init c update body))
  | switch (arms : List (Arm Stmt)) : OpensBlock (.switch arms)

section Waits

variable {i j : Item} {c c' : List Item}

theorem not_waits_nil : ¬ Waits j [] := nofun

theorem waits_append : Waits j (c ++ c') ↔ Waits j c ∨ Waits j c' := by
  induction c with
  | nil => simp [not_waits_nil]
  | cons i c ih =>
    constructor
    · intro h
      cases h with
      | head => exact .inl (.head c)
      | tail h => exact (ih.mp h).imp .tail id
      | yes h => exact .inl (.yes h)
      | no h => exact .inl (.no h)
    · rintro (h | h)
      · cases h with
        | head => exact .head _
        | tail h => exact .tail (ih.mpr (.inl h))
        | yes h => exact .yes h
        | no h => exact .no h
      · exact .tail (ih.mpr (.inr h))

theorem waits_cons : Waits j (i :: c) ↔ Waits j [i] ∨ Waits j c :=
  waits_append (c := [i])

/-- Items that are no branches wait for themselves only. -/
theorem exists_of_waits_map {α : Type} {f : α → Item} (hf : ∀ a yes no, f a ≠ .branch yes no)
    {as : List α} (h : Waits j (as.map f)) : ∃ a ∈ as, j = f a := by
  induction as with
  | nil => cases h
  | cons a as ih =>
    rw [List.map_cons] at h
    generalize hi : f a = i at h
    cases h with
    | head => exact ⟨a, by simp, hi.symm⟩
    | tail h =>
      obtain ⟨a', ha', hj⟩ := ih h
      exact ⟨a', by simp [ha'], hj⟩
    | yes h => exact absurd hi (hf a _ _)
    | no h => exact absurd hi (hf a _ _)

end Waits

/-! ### Values, variables and items -/

/-- A value that a step from `r` can come by: one that is held already, a simple one, or an array of such
values that fit its element type. -/
inductive Obtained (r : Registers) : Value → Prop
  | stash {v : Value} : .value v ∈ r.stash → Obtained r v
  | var {x : VarId} {y : Variable} {v : Value} :
    r.env.var? x = some y → y.value = some v → Obtained r v
  | simple {v : Value} : v.isSimple = true → Obtained r v
  | array {id : Nat} {t : TypeName} {vs : List Value} :
    (∀ v ∈ vs, Obtained r v) → (∀ v ∈ vs, v.fits t = true) → Obtained r (.array id t vs)

/-- A new variable: if it starts with a value, then with one that fits. -/
def NewVariable (r : Registers) (v : Variable) : Prop :=
  ∀ w, v.value = some w → Obtained r w ∧ w.fits v.type = true

/-- The step invokes the closure `k` on the object `object`, if the closure needs one. -/
def Calls (r : Registers) (i : Item) (k : Closure) (object : Option (Class × FrameId)) : Prop :=
  ∃ n args rest below, i = .invoke n ∧ args.length = n ∧
    r.stash = (args.map StashItem.value).reverse ++ .closure k :: below ∧
    receiver k args = .ok (object, rest)

/-- The frame that the frame of a call lies in. -/
def callSite (k : Closure) (object : Option (Class × FrameId)) : FrameId :=
  (object.map Prod.snd).getD k.frame

/-- The frame that the frame of a class lies in. -/
def classSite (superclass : Option Class) : FrameId :=
  (superclass.map (fun s => s.frame)).getD global

/-- What a step from `r` that performs `i` makes of the environment. -/
inductive Effect (r : Registers) (i : Item) : Environment → Prop
  | same : Effect r i r.env
  | restore {f : FrameId} : i = .restore f → Effect r i (r.env.restore f)
  | block {name : String} : i.OpensBlock → Effect r i (r.env.extend r.env.current name)
  | declare {v : Variable} : r.env.bound? r.env.current v.name = none → NewVariable r v →
    Effect r i (r.env.addVariable v)
  | allocate {v : Variable} : NewVariable r v → Effect r i (r.env.allocate v)
  | assign {x : VarId} {w : Value} : i.isUpdate = true → Obtained r w →
    (∀ v, r.env.var? x = some v → w.fits v.type = true) → Effect r i (r.env.assign x w)
  | array {t : TypeName} {vs : List Value} : Effect r i (r.env.createArray t vs).2
  | object {x : String} {c : Class} : i = .new x → r.env.findClass x = .ok c →
    c.repeatedField? = none → Effect r i (r.env.instantiate c).2
  | call {k : Closure} {object : Option (Class × FrameId)} {vs : List Variable} :
    Calls r i k object → (∀ v ∈ vs, NewVariable r v) →
    Effect r i ((r.env.extend (callSite k object) k.callable.name).addVariables vs)

/-- What the step may put on the stash, if it makes `env` of the environment. -/
inductive Leaves (r : Registers) (i : Item) (env : Environment) : StashItem → Prop
  | value {v : Value} : Obtained r v → Leaves r i env (.value v)
  | object {x : String} {c : Class} : i = .new x → r.env.findClass x = .ok c →
    env = (r.env.instantiate c).2 → Leaves r i env (.value (.object c r.env.frames.size))
  | var (x : VarId) : Leaves r i env (.var x)
  | cls (c : Class) : Leaves r i env (.cls c)
  | closure {k : Closure} : r.env.Binds k → Leaves r i env (.closure k)
  | type (t : TypeName) : Leaves r i env (.type t)

/-- What the step may put on control. -/
inductive Queued (r : Registers) (i : Item) : Item → Prop
  | code {j : Item} : j.isCode = true → Queued r i j
  | restore : Queued r i (.restore r.env.current)
  | classDecl {p : Program} {d : ClassDecl} : i = .program p → d ∈ p ∨ d = .root →
    Queued r i (.classDecl d)

/-- Everything that waits in a list of items comes from `i` or may be put on control. -/
def Queues (r : Registers) (i : Item) (c : List Item) : Prop :=
  ∀ j, Waits j c → Waits j [i] ∨ Queued r i j

/-- What the registers `r'` after a step from `r` that performs `i` have to do with `r`. -/
structure Moves (r : Registers) (i : Item) (r' : Registers) : Prop where
  env : Effect r i r'.env
  stash : ∀ s ∈ r'.stash, s ∈ r.stash ∨ Leaves r i r'.env s
  control : ∀ j, Waits j r'.control → Waits j (i :: r.control) ∨ Queued r i j

/-- What comes of a step that ends well: it moves, binds a callable in the current frame, or registers a
class in a new frame and queues its members. -/
inductive Outcome (r : Registers) (i : Item) (r' : Registers) : Prop
  | moves (hi : i.isCallable = false) (h : Moves r i r')
  | binds (k : Callable) (hi : i = k.item) (hfree : r.env.bound? r.env.current k.descriptor = none)
    (hr : r' = { r with env := r.env.addClosure ⟨k, r.env.current, r.env.currentName⟩ })
  | registers (d : ClassDecl) (superclass : Option Class) (c : Class) (ks : List Callable)
    (hi : i = .classDecl d) (hsuper : IsSuperclass r.env d superclass)
    (hc : c = d.elaborate r.env.frames.size superclass)
    (hfree : r.env.bound? global c.name = none) (hks : ∀ k ∈ ks, k ∈ c.toClassInfo.callables)
    (hcontrol : r'.control =
      ks.map Callable.item ++ (c.staticFields.map .field ++ .restore r.env.current :: r.control))
    (hstash : r'.stash = r.stash)
    (henv : r'.env = (r.env.extend (classSite superclass) d.name).addClass c)

/-- What a faulty step leaves: it has moved, it has opened the frame of a class that it could not register, or
it has made the frame of an object and was refused one of the fields. -/
inductive Halt (r : Registers) (i : Item) (r' : Registers) : Prop
  | moves (h : Moves r i r')
  | opened (d : ClassDecl) (superclass : Option Class) (hsuper : IsSuperclass r.env d superclass)
    (hr : r' = { r with env := r.env.extend (classSite superclass) d.name })
  | aborted (x : String) (c : Class) (hi : i = .new x) (hfind : r.env.findClass x = .ok c)
    (hfields : c.repeatedField? ≠ none) (hr : r' = { r with env := (r.env.instantiate c).2 })

section Moves

variable {r : Registers} {i : Item} {env : Environment} {s : List StashItem} {out : List String}

theorem NewVariable.unassigned {name : String} {t : TypeName} : NewVariable r ⟨name, t, none⟩ := nofun

theorem NewVariable.assigned {name : String} {t : TypeName} {w : Value} (hw : Obtained r w)
    (hfits : w.fits t = true) : NewVariable r ⟨name, t, some w⟩ := by
  intro w' h
  cases h
  exact ⟨hw, hfits⟩

/-- A converted value can be come by. -/
theorem Obtained.coerce {v w : Value} {t : TypeName} (hv : Obtained r v) (h : v.coerce t = .ok w) :
    Obtained r w := by
  rcases Value.coerce_eq_or_isSimple h with rfl | hsimple
  · exact hv
  · exact .simple hsimple

/-- The step changes the environment, queues items, takes some off the stash and puts others there. -/
theorem Moves.of_parts {c : List Item} (new : List StashItem) (he : Effect r i env)
    (hc : Queues r i c) (hx : ∀ x ∈ new, Leaves r i env x) (hs : s <:+ r.stash) :
    Moves r i ⟨c ++ r.control, new ++ s, env, out⟩ where
  env := he
  stash y hy := by
    rcases List.mem_append.mp hy with hy | hy
    · exact .inr (hx y hy)
    · exact .inl (hs.subset hy)
  control j hj := by
    rcases waits_append.mp hj with hj | hj
    · exact (hc j hj).imp (fun h => waits_cons.mpr (.inl h)) id
    · exact .inl (.tail hj)

/-- The step puts one item on the stash. -/
theorem Moves.pushed {x : StashItem} (he : Effect r i env) (hx : Leaves r i env x) (hs : s <:+ r.stash) :
    Moves r i ⟨r.control, x :: s, env, out⟩ :=
  .of_parts (c := []) [x] he (fun _ h => absurd h not_waits_nil) (by simpa using hx) hs

/-- The step queues items. -/
theorem Moves.scheduled {c : List Item} (he : Effect r i env) (hc : Queues r i c) (hs : s <:+ r.stash) :
    Moves r i ⟨c ++ r.control, s, env, out⟩ :=
  .of_parts [] he hc (by simp) hs

/-- The step changes the environment and takes items off the stash. -/
theorem Moves.popped (he : Effect r i env) (hs : s <:+ r.stash) : Moves r i ⟨r.control, s, env, out⟩ :=
  .scheduled (c := []) he (fun _ h => absurd h not_waits_nil) hs

/-- A step that stops at once. -/
theorem Moves.refl (r : Registers) (i : Item) : Moves r i r := .popped .same (List.suffix_refl _)

/-- Whatever becomes of `x`, it moves. -/
def Step.MovesOnly (x : Step Unit) (r : Registers) (i : Item) : Prop :=
  Ends x r (fun _ r' => Moves r i r') (fun _ r' => Moves r i r')

/-! ### Items that may be queued -/

theorem queues_append {c c' : List Item} :
    Queues r i (c ++ c') ↔ Queues r i c ∧ Queues r i c' := by
  constructor
  · intro h
    exact ⟨fun j hj => h j (waits_append.mpr (.inl hj)), fun j hj => h j (waits_append.mpr (.inr hj))⟩
  · rintro ⟨h, h'⟩ j hj
    exact (waits_append.mp hj).elim (h j) (h' j)

/-- Code without other items in it may always be queued. -/
theorem Queues.quiet {c : List Item} (hc : c.all Item.isQuiet = true) : Queues r i c := by
  intro j hj
  refine .inr (.code ?_)
  induction hj with
  | head c =>
    rw [List.all_cons, Bool.and_eq_true] at hc
    cases j <;> first | rfl | cases hc.1
  | tail _ ih =>
    rw [List.all_cons, Bool.and_eq_true] at hc
    exact ih hc.2
  | yes | no => cases hc

theorem Queues.restore : Queues r i [.restore r.env.current] := by
  intro j hj
  cases hj with
  | head => exact .inr .restore
  | tail hj => exact absurd hj not_waits_nil

theorem Queues.branch {yes no : List Item} (hyes : Queues r i yes) (hno : Queues r i no) :
    Queues r i [.branch yes no] := by
  intro j hj
  cases hj with
  | head => exact .inr (.code rfl)
  | tail hj => exact absurd hj not_waits_nil
  | yes hj => exact hyes j hj
  | no hj => exact hno j hj

end Moves

/-! ### Taking items off the stash -/

/-- `take` takes one item of a form off the stash, or some items and stops. -/
def Step.Takes {α : Type} (take : Step α) (wrap : α → StashItem) : Prop :=
  ∀ (r : Registers) (Q : α → Registers → Prop) (F : Fault → Registers → Prop),
    (∀ a s, r.stash = wrap a :: s → Q a { r with stash := s }) →
    (∀ e s, s <:+ r.stash → F e { r with stash := s }) → Ends take r Q F

section Takes

variable {α : Type} {take : Step α} {wrap : α → StashItem} {r : Registers}
  {F : Fault → Registers → Prop}

theorem ends_pop_of {Q : StashItem → Registers → Prop}
    (hQ : ∀ x s, r.stash = x :: s → Q x { r with stash := s }) (hF : ∀ e, F e r) : Ends pop r Q F := by
  obtain ⟨control, stash, env, out⟩ := r
  cases stash with
  | nil => exact hF _
  | cons x s =>
    rw [ends_pop]
    exact hQ x s rfl

/-- A move that looks at the top of the stash, and stops unless it is of the right form. -/
theorem Step.Takes.of_pop {accept : StashItem → Step α}
    (hwrap : ∀ x r, (∃ a, x = wrap a ∧ accept x r = .ok a r) ∨ ∃ e, accept x r = .error e r) :
    Takes (pop >>= accept) wrap := by
  intro r Q F hQ hF
  rw [ends_bind]
  refine ends_pop_of (fun x s hs => ?_) (fun e => hF e r.stash (List.suffix_refl _))
  rcases hwrap x { r with stash := s } with ⟨a, rfl, ha⟩ | ⟨e, he⟩
  · unfold Ends
    rw [ha]
    exact hQ a s hs
  · unfold Ends
    rw [he]
    exact hF e s (hs ▸ List.suffix_cons x s)

theorem takes_popValue : Takes popValue .value :=
  .of_pop (fun x r => by cases x <;> first | exact .inl ⟨_, rfl, rfl⟩ | exact .inr ⟨_, rfl⟩)

theorem takes_popType : Takes popType .type :=
  .of_pop (fun x r => by cases x <;> first | exact .inl ⟨_, rfl, rfl⟩ | exact .inr ⟨_, rfl⟩)

theorem takes_popClosure : Takes popClosure .closure :=
  .of_pop (fun x r => by cases x <;> first | exact .inl ⟨_, rfl, rfl⟩ | exact .inr ⟨_, rfl⟩)

theorem takes_popTarget : Takes popTarget .var :=
  .of_pop (fun x r => by cases x <;> first | exact .inl ⟨_, rfl, rfl⟩ | exact .inr ⟨_, rfl⟩)

/-- Taking several items gives them in the order they were put down. -/
theorem Step.Takes.popMany (h : Takes take wrap) {n : Nat} {taken : List α}
    {Q : List α → Registers → Prop}
    (hQ : ∀ as s, as.length = n → r.stash = (as.map wrap).reverse ++ s →
      Q (as ++ taken) { r with stash := s })
    (hF : ∀ e s, s <:+ r.stash → F e { r with stash := s }) : Ends (popMany take n taken) r Q F := by
  induction n generalizing r taken with
  | zero => exact hQ [] r.stash rfl rfl
  | succ n ih =>
    rw [Step.popMany, ends_bind]
    refine h r _ F (fun a s hs => ?_) hF
    refine ih (fun as s' hlen hs' => ?_) (fun e s' hs' => ?_)
    · have hstash : r.stash = ((as ++ [a]).map wrap).reverse ++ s' := by
        replace hs' : s = (as.map wrap).reverse ++ s' := hs'
        rw [hs, hs']
        simp
      have := hQ (as ++ [a]) s' (by simp [hlen]) hstash
      simpa using this
    · replace hs' : s' <:+ s := hs'
      refine hF e s' (hs'.trans ?_)
      rw [hs]
      exact List.suffix_cons _ _

end Takes

/-! ### Variables and fields -/

section Variables

variable {control : List Item} {stash s : List StashItem} {env : Environment} {out : List String}
  {i : Item}

theorem exists_of_value {x : VarId} {v : Value} (h : env.value x = .ok v) :
    ∃ y, env.var? x = some y ∧ y.value = some v := by
  unfold Environment.value at h
  split at h
  · rename_i name t w hx
    cases h
    exact ⟨_, hx, rfl⟩
  · cases h
  · cases h

/-- A variable is given a value that fits, and a value is put on the stash. -/
theorem Moves.assigned {r : Registers} {x : VarId} {w u : Value} (hi : i.isUpdate = true) (hw : Obtained r w)
    (hfits : w.fits (((r.env.var? x).map Variable.type).getD .void) = true) (hu : Obtained r u)
    (hs : s <:+ r.stash) : Moves r i ⟨r.control, .value u :: s, r.env.assign x w, out⟩ := by
  refine .pushed (.assign hi hw (fun y hy => ?_)) (.value hu) hs
  rw [hy] at hfits
  exact hfits

theorem assign_moves : MovesOnly Step.assign ⟨control, stash, env, out⟩ .assign := by
  rw [MovesOnly, Step.assign, ends_bind]
  refine takes_popValue _ _ _ (fun v s hs => ?_) (fun e s hs => .popped .same hs)
  obtain rfl : stash = .value v :: s := hs
  rw [ends_bind]
  refine takes_popTarget _ _ _ (fun x s' hs => ?_)
    (fun e s' hs => .popped .same (hs.trans ⟨[_], rfl⟩))
  obtain rfl : s = .var x :: s' := hs
  simp only [ends_bind, ends_typeOfVar, ends_ofExcept, ends_changeEnv, ends_pushValue]
  have hsuffix : s' <:+ .value v :: .var x :: s' := ⟨[_, _], rfl⟩
  refine ⟨fun w hw => ?_, fun e _ => .popped .same hsuffix⟩
  have hobtained : Obtained ⟨control, .value v :: .var x :: s', env, out⟩ w :=
    Obtained.coerce (.stash (by simp)) hw
  exact .assigned rfl hobtained (Value.fits_coerce hw) hobtained hsuffix

theorem compoundAssign_moves (op : BinaryOp) :
    MovesOnly (compoundAssign op) ⟨control, stash, env, out⟩ (.compoundAssign op) := by
  rw [MovesOnly, compoundAssign, ends_bind]
  refine takes_popValue _ _ _ (fun v s hs => ?_) (fun e s hs => .popped .same hs)
  obtain rfl : stash = .value v :: s := hs
  rw [ends_bind]
  refine takes_popValue _ _ _ (fun old s' hs => ?_)
    (fun e s' hs => .popped .same (hs.trans ⟨[_], rfl⟩))
  obtain rfl : s = .value old :: s' := hs
  rw [ends_bind]
  refine takes_popTarget _ _ _ (fun x s hs => ?_)
    (fun e s hs => .popped .same (hs.trans ⟨[_, _], rfl⟩))
  obtain rfl : s' = .var x :: s := hs
  simp only [ends_bind, ends_typeOfVar, ends_ofExcept, ends_changeEnv, ends_pushValue]
  have hsuffix : s <:+ .value v :: .value old :: .var x :: s := ⟨[_, _, _], rfl⟩
  refine ⟨fun u hu => ⟨fun w hw => ?_, fun e _ => .popped .same hsuffix⟩,
    fun e _ => .popped .same hsuffix⟩
  have hsimple : w.isSimple = true := by
    rcases Value.narrow_eq_or_isSimple hw with rfl | hsimple
    · exact Value.isSimple_binary hu
    · exact hsimple
  exact .assigned rfl (.simple hsimple) (Value.fits_narrow hw) (.simple hsimple) hsuffix

theorem increment_moves (op : BinaryOp) (fix : Fixity) :
    MovesOnly (increment op fix) ⟨control, stash, env, out⟩ (.increment op fix) := by
  rw [MovesOnly, increment, ends_bind]
  refine takes_popTarget _ _ _ (fun x s hs => ?_) (fun e s hs => .popped .same hs)
  obtain rfl : stash = .var x :: s := hs
  have hsuffix : s <:+ .var x :: s := ⟨[_], rfl⟩
  simp only [ends_bind, ends_typeOfVar]
  split
  · exact .popped .same hsuffix
  simp only [ends_bind, ends_ask, ends_ofExcept, ends_changeEnv, ends_pushValue]
  refine ⟨fun old hold => ⟨fun moved hmoved => ⟨fun w hw => ?_, fun e _ => .popped .same hsuffix⟩,
    fun e _ => .popped .same hsuffix⟩, fun e _ => .popped .same hsuffix⟩
  obtain ⟨y, hy, hvalue⟩ := exists_of_value hold
  have hsimple : w.isSimple = true := by
    rcases Value.narrow_eq_or_isSimple hw with rfl | hsimple
    · exact Value.isSimple_binary hmoved
    · exact hsimple
  refine .assigned rfl (.simple hsimple) (Value.fits_narrow hw) ?_ hsuffix
  cases fix with
  | pre => exact .simple hsimple
  | post => exact .var hy hvalue

theorem load_moves : MovesOnly load ⟨control, stash, env, out⟩ i := by
  have hsame : Moves ⟨control, stash, env, out⟩ i ⟨control, stash, env, out⟩ :=
    .popped .same (List.suffix_refl _)
  simp only [MovesOnly, load, ends_bind, ends_get]
  split
  · exact hsame
  · simp only [ends_bind, ends_ask, ends_pushValue]
    refine ⟨fun v hv => ?_, fun e _ => hsame⟩
    obtain ⟨y, hy, hvalue⟩ := exists_of_value hv
    exact .pushed .same (.value (.var hy hvalue)) (List.suffix_refl _)
  · exact hsame

theorem deref_moves : MovesOnly deref ⟨control, stash, env, out⟩ i := by
  rw [MovesOnly, deref, ends_bind]
  refine ends_pop_of (fun x s hs => ?_) (fun e => .popped .same (List.suffix_refl _))
  obtain rfl : stash = x :: s := hs
  split
  · simp only [ends_bind, ends_ask, ends_pushValue]
    refine ⟨fun v hv => ?_, fun e _ => .popped .same ⟨[_], rfl⟩⟩
    obtain ⟨y, hy, hvalue⟩ := exists_of_value hv
    exact .pushed .same (.value (.var hy hvalue)) ⟨[_], rfl⟩
  · exact .popped .same (List.suffix_refl _)

theorem find_moves (p : Path) : MovesOnly (find p) ⟨control, stash, env, out⟩ i := by
  cases p with
  | field p x =>
    exact Moves.scheduled (c := [.find p, .select x]) .same (.quiet rfl) (List.suffix_refl _)
  | simple x =>
    simp only [MovesOnly, find, ends_bind, ends_ask]
    refine ⟨fun b _ => ?_, fun e _ => .popped .same (List.suffix_refl _)⟩
    cases b with
    | var id => exact .pushed .same (.var id) (List.suffix_refl _)
    | cls c => exact .pushed .same (.cls c) (List.suffix_refl _)
    | closure k => exact .popped .same (List.suffix_refl _)

theorem select_moves (x : String) : MovesOnly (select x) ⟨control, stash, env, out⟩ i := by
  have hfield : ∀ (q : String) (t : TypeName) (v : Option Value) (s : List StashItem), s <:+ stash →
      Ends (fieldOf q t v x >>= fun id => push (.var id)) ⟨control, s, env, out⟩
        (fun _ r' => Moves ⟨control, stash, env, out⟩ i r')
        (fun _ r' => Moves ⟨control, stash, env, out⟩ i r') := by
    intro q t v s hs
    rw [ends_bind]
    refine (fieldOf_ends q t v x _).mono ?_ ?_
    · rintro id r' (⟨rfl, -⟩ | ⟨n, rfl, -⟩)
      · exact .pushed .same (.var id) hs
      · exact .pushed (.allocate (.assigned (.simple rfl) rfl)) (.var id) hs
    · rintro e r' rfl
      exact .popped .same hs
  rw [MovesOnly, select, ends_bind]
  refine ends_pop_of (fun y s hs => ?_) (fun e => .popped .same (List.suffix_refl _))
  obtain rfl : stash = y :: s := hs
  split
  · rw [ends_bind]
    refine (staticField_ends _ x _).mono ?_ ?_
    · rintro id r' ⟨rfl, -⟩
      exact .pushed .same (.var id) ⟨[_], rfl⟩
    · rintro e r' rfl
      exact .popped .same ⟨[_], rfl⟩
  · rw [ends_bind, ends_get]
    split
    · exact hfield _ _ _ s ⟨[_], rfl⟩
    · exact .popped .same ⟨[_], rfl⟩
  · exact hfield _ _ _ s ⟨[_], rfl⟩
  · exact .popped .same ⟨[_], rfl⟩

theorem arrayOf_moves (t : TypeName) (n : Nat) :
    MovesOnly (arrayOf t n) ⟨control, stash, env, out⟩ i := by
  rw [MovesOnly, arrayOf, ends_bind]
  refine takes_popValue.popMany (fun vs s _ hs => ?_) (fun e s hs => .popped .same hs)
  obtain rfl : stash = (vs.map .value).reverse ++ s := hs
  simp only [ends_bind, ends_ofExcept, ends_useEnv, ends_pushValue, List.append_nil]
  refine ⟨fun ws hws => ?_, fun e _ => .popped .same (List.suffix_append _ _)⟩
  refine .pushed .array (.value (.array (fun w hw => ?_) (fun w hw => ?_))) (List.suffix_append _ _)
  · rcases (of_mem_coerceAll hws w hw).2 with hmem | hsimple
    · exact .stash (by simp [hmem])
    · exact .simple hsimple
  · exact (of_mem_coerceAll hws w hw).1

end Variables

end StashMachine
