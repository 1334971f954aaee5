import StashMachine.Proofs.Growth
import StashMachine.Proofs.Likeness

/-!
# StashMachine.Proofs.Counterparts — environments of two runs that differ in the name of a parameter

* `Environment.Alike x y marks env env'`: the two environments have the same frames, and in the marked ones `env'`
  binds the parameter under another name.  One lemma for each change of the environment says that it keeps this.
* `Sheltered x marks env`: a marked frame is a block or a call, and the calls bind the parameter.
* `lookup?_alike`: so in marked frames the parameter is found, and every other name is found outside if it is not
  found inside.
* `agree_staticType`, `agree_resolveMethod`, …: whatever is asked about the names of code has the same answer.
-/

namespace StashMachine

open Environment

/-! ### Names -/

section Names

variable {x y : String} {b : Bool}

theorem textAlike_name (n : String) : TextAlike x y (oldName x y b n) (newName x y b n) := by
  rcases spelling x y b n with ⟨hold, hnew, -⟩ | ⟨-, hold, hnew⟩
  · rw [hold, hnew]
    exact .same n
  · rw [hold, hnew]
    exact .name

theorem textAlike_path (p : Path) :
    TextAlike x y (p.rename (oldName x y b)).text (p.rename (newName x y b)).text := by
  induction p with
  | simple n => exact textAlike_name n
  | field p n ih => exact (ih.append ".").append n

end Names

/-! ### Environments -/

/-- Two environments that differ in the code of constructors and, in the marked frames, in the name of a
parameter. -/
structure Environment.Alike (x y : String) (marks : List Bool) (env env' : Environment) : Prop where
  length : marks.length = env.frames.size
  first : marks[global]? = some false
  current : env'.current = env.current
  arrays : env'.arrays = env.arrays
  size : env'.frames.size = env.frames.size
  name : ∀ f, (env'.frame f).name = (env.frame f).name
  outer : ∀ f, (env'.frame f).outer = (env.frame f).outer
  bound : ∀ f b, marks[f]? = some b → ∀ n,
    Option.Rel (Binding.Alike x y marks) (env.bound? f (oldName x y b n)) (env'.bound? f (newName x y b n))
  vars : env'.vars.size = env.vars.size
  var : ∀ id, Option.Rel (Variable.Alike x y marks) (env.var? id) (env'.var? id)

section Append

variable {x y : String} {marks : List Bool} (new : List Bool)

theorem Class.Alike.append {c d : Class} (h : c.Alike marks d) : c.Alike (marks ++ new) d :=
  ⟨h.bare, h.outside.append new⟩

theorem Closure.Alike.append {k k' : Closure} (h : k.Alike x y marks k') : k.Alike x y (marks ++ new) k' :=
  ⟨h.callable, h.frame, h.className, mark_append h.outside new⟩

theorem Variable.Alike.append {v v' : Variable} (h : v.Alike x y marks v') : v.Alike x y (marks ++ new) v' :=
  ⟨h.name, h.type, rel_mono h.value (fun _ _ hv => hv.append new)⟩

theorem Binding.Alike.append {b b' : Binding} (h : b.Alike x y marks b') : b.Alike x y (marks ++ new) b' := by
  cases h with
  | var id => exact .var id
  | cls hc => exact .cls (hc.append new)
  | closure hk => exact .closure (hk.append new)

theorem StashItem.Alike.append {s s' : StashItem} (h : s.Alike x y marks s') : s.Alike x y (marks ++ new) s' := by
  cases h with
  | value hv => exact .value (hv.append new)
  | var id => exact .var id
  | cls hc => exact .cls (hc.append new)
  | closure hk => exact .closure (hk.append new)
  | type t => exact .type t

end Append

namespace Environment.Alike

variable {x y : String} {marks : List Bool} {env env' : Environment} {b : Bool}

theorem chain (h : env.Alike x y marks env') (f : FrameId) : env'.chain f = env.chain f := by
  rw [Environment.chain, Environment.chain, h.outer]

theorem currentName (h : env.Alike x y marks env') : env'.currentName = env.currentName := by
  rw [Environment.currentName, Environment.currentName, h.current, h.name]

/-- Frames that are not marked bind the same names. -/
theorem bound_outside (h : env.Alike x y marks env') {f : FrameId} (hf : marks[f]? = some false) (n : String) :
    Option.Rel (Binding.Alike x y marks) (env.bound? f n) (env'.bound? f n) := h.bound f false hf n

/-! #### Changes -/

theorem restore (h : env.Alike x y marks env') (f : FrameId) : (env.restore f).Alike x y marks (env'.restore f) :=
  { h with current := rfl }

theorem createArray (h : env.Alike x y marks env') (t : TypeName) (vs vs' : List Value) :
    (env.createArray t vs).2.Alike x y marks (env'.createArray t vs').2 :=
  { h with arrays := congrArg (· + 1) h.arrays }

theorem allocate (h : env.Alike x y marks env') {v v' : Variable} (hv : v.Alike x y marks v') :
    (env.allocate v).Alike x y marks (env'.allocate v') := by
  refine { h with vars := ?_, var := fun id => ?_ }
  · simp [Environment.allocate, h.vars]
  · rw [var?_allocate, var?_allocate, h.vars]
    split
    · exact .some hv
    · exact h.var id

theorem assign (h : env.Alike x y marks env') (id : VarId) {v v' : Value} (hv : v.Alike marks v') :
    (env.assign id v).Alike x y marks (env'.assign id v') := by
  refine { h with vars := ?_, var := fun id' => ?_ }
  · simp [Environment.assign, h.vars]
  · rw [var?_assign, var?_assign]
    split
    · exact rel_map (h.var id') (fun _ _ hw => ⟨hw.name, hw.type, .some hv⟩)
    · exact h.var id'

/-- Both environments bind a name in a frame, each in its own spelling. -/
theorem addBinding (h : env.Alike x y marks env') {f : FrameId} (hf : marks[f]? = some b) (n : String)
    {c c' : Binding} (hc : c.Alike x y marks c') :
    (env.addBinding f (oldName x y b n) c).Alike x y marks (env'.addBinding f (newName x y b n) c') where
  length := h.length.trans (size_addBinding ..).symm
  first := h.first
  current := h.current
  arrays := h.arrays
  size := by rw [size_addBinding, size_addBinding, h.size]
  name g := by
    rw [frame_addBinding, frame_addBinding, h.size]
    split <;> exact h.name g
  outer g := by rw [outer_addBinding, outer_addBinding, h.outer]
  bound g b' hg n' := by
    rw [bound?_addBinding, bound?_addBinding, h.size]
    by_cases hgf : g = f
    · subst hgf
      rw [hf] at hg
      cases hg
      simp only [oldName_eq_iff]
      split
      · exact .some hc
      · exact h.bound g b hf n'
    · simp only [hgf, false_and, if_false]
      exact h.bound g b' hg n'
  vars := h.vars
  var := h.var

theorem addVariable (h : env.Alike x y marks env') (hb : marks[env.current]? = some b) {v v' : Variable}
    (hv : v.Alike x y marks v') {n : String} (hn : v.name = oldName x y b n) (hn' : v'.name = newName x y b n) :
    (env.addVariable v).Alike x y marks (env'.addVariable v') := by
  have hadd := (h.allocate hv).addBinding hb n (.var env.vars.size)
  rw [Environment.addVariable, Environment.addVariable, hn, hn', h.current, h.vars]
  exact hadd

theorem addVariables (h : env.Alike x y marks env') (hb : marks[env.current]? = some false) {vs : List Variable}
    (hvs : ∀ v ∈ vs, Variable.Alike x y marks v v) : (env.addVariables vs).Alike x y marks (env'.addVariables vs) := by
  induction vs generalizing env env' with
  | nil => exact h
  | cons v vs ih =>
    exact ih (h.addVariable hb (hvs v (.head _)) (n := v.name) rfl rfl) hb (fun w hw => hvs w (.tail _ hw))

theorem addClosure (h : env.Alike x y marks env') (hb : marks[env.current]? = some false) {k k' : Closure}
    (hk : k.Alike x y marks k') : (env.addClosure k).Alike x y marks (env'.addClosure k') := by
  rw [Environment.addClosure, Environment.addClosure, h.current, hk.descriptor]
  exact h.addBinding hb k.descriptor (.closure hk)

theorem addClass (h : env.Alike x y marks env') {c d : Class} (hc : c.Alike marks d) :
    (env.addClass c).Alike x y marks (env'.addClass d) := by
  rw [Environment.addClass, Environment.addClass, ← Class.name_eq hc.bare]
  exact h.addBinding h.first c.name (.cls hc)

/-- A new frame, marked or not. -/
theorem extend (h : env.Alike x y marks env') (around : FrameId) (name : String) (b : Bool) :
    (env.extend around name).Alike x y (marks ++ [b]) (env'.extend around name) where
  length := by rw [List.length_append, h.length, size_extend]; rfl
  first := mark_append h.first _
  current := h.size
  arrays := h.arrays
  size := by rw [size_extend, size_extend, h.size]
  name f := by
    rw [frame_extend, frame_extend, h.size]
    split
    · rfl
    · exact h.name f
  outer f := by
    rw [frame_extend, frame_extend, h.size, h.chain]
    split
    · rfl
    · exact h.outer f
  bound f b' hf n := by
    rw [bound?_extend, bound?_extend]
    by_cases hlt : f < marks.length
    · rw [List.getElem?_append_left hlt] at hf
      exact rel_mono (h.bound f b' hf n) (fun _ _ hb => hb.append _)
    · rw [h.length] at hlt
      rw [bound?_eq_none_of_size_le (Nat.le_of_not_lt hlt),
        bound?_eq_none_of_size_le (Nat.le_of_not_lt (h.size ▸ hlt))]
      exact .none
  vars := h.vars
  var id := rel_mono (h.var id) (fun _ _ hv => hv.append _)

end Environment.Alike

/-! ### Lookups -/

/-- A chain of frames: marked blocks and a marked call that binds the parameter, in front of frames that are not
marked. -/
inductive Shelters (x : String) (marks : List Bool) (env : Environment) : Bool → List FrameId → Prop
  | outside {c : List FrameId} : (∀ f ∈ c, marks[f]? = some false) → Shelters x marks env false c
  | call {f : FrameId} {c : List FrameId} : marks[f]? = some true → env.bound? f x ≠ none →
    (∀ g ∈ c, marks[g]? = some false) → Shelters x marks env true (f :: c)
  | block {f : FrameId} {c : List FrameId} : marks[f]? = some true → Shelters x marks env true c →
    Shelters x marks env true (f :: c)

/-- The code in a marked frame is that of a call that binds the parameter. -/
def Sheltered (x : String) (marks : List Bool) (env : Environment) : Prop :=
  ∀ f b, marks[f]? = some b → Shelters x marks env b (env.chain f)

section Shelters

variable {x : String} {marks : List Bool} {env env' : Environment} {b : Bool} {c : List FrameId}

theorem Shelters.mono (h : Shelters x marks env b c) (new : List Bool)
    (hbound : ∀ f, env.bound? f x ≠ none → env'.bound? f x ≠ none) : Shelters x (marks ++ new) env' b c := by
  induction h with
  | outside hc => exact .outside (fun f hf => mark_append (hc f hf) new)
  | call hf hx hc => exact .call (mark_append hf new) (hbound _ hx) (fun g hg => mark_append (hc g hg) new)
  | block hf _ ih => exact .block (mark_append hf new) ih

/-- A change that leaves the frames where they are and forgets nothing. -/
theorem Sheltered.keep (h : Sheltered x marks env) (hchain : ∀ f, env'.chain f = env.chain f)
    (hbound : ∀ f, env.bound? f x ≠ none → env'.bound? f x ≠ none) : Sheltered x marks env' := by
  intro f b hf
  have hkept := (h f b hf).mono [] hbound
  rwa [List.append_nil, ← hchain] at hkept

theorem Sheltered.addBinding (h : Sheltered x marks env) (f : FrameId) (n : String) (d : Binding) :
    Sheltered x marks (env.addBinding f n d) := by
  refine h.keep (fun g => ?_) (fun g hg => ?_)
  · rw [Environment.chain, Environment.chain, outer_addBinding]
  · rw [bound?_addBinding]
    split
    · exact Option.some_ne_none d
    · exact hg

theorem Sheltered.addVariable (h : Sheltered x marks env) (v : Variable) : Sheltered x marks (env.addVariable v) := by
  have hallocate : Sheltered x marks (env.allocate v) := h.keep (fun _ => rfl) (fun _ hx => hx)
  exact hallocate.addBinding env.current v.name (.var env.vars.size)

/-- One frame more. -/
theorem Sheltered.grow (h : Sheltered x marks env) (hlength : marks.length = env.frames.size)
    (hgrows : Grows env env') (hnew : Shelters x (marks ++ [b]) env' b (env'.chain env.frames.size)) :
    Sheltered x (marks ++ [b]) env' := by
  intro f b' hf
  by_cases hlt : f < marks.length
  · rw [List.getElem?_append_left hlt] at hf
    rw [hgrows.chain (hlength ▸ hlt)]
    refine (h f b' hf).mono [b] (fun g hg => ?_)
    obtain ⟨d, hd⟩ := Option.ne_none_iff_exists'.mp hg
    rw [hgrows.kept g x d hd]
    exact Option.some_ne_none d
  · have hle : f < marks.length + 1 := by simpa using (List.getElem?_eq_some_iff.mp hf).1
    obtain rfl : f = marks.length := Nat.le_antisymm (Nat.le_of_lt_succ hle) (Nat.le_of_not_lt hlt)
    rw [List.getElem?_append_right (Nat.le_refl _), Nat.sub_self] at hf
    cases hf
    rw [hlength]
    exact hnew

end Shelters

/-- What both runs know of their environments while they are in a frame that is marked or not. -/
structure Paired (x y : String) (marks : List Bool) (b : Bool) (env env' : Environment) : Prop where
  alike : env.Alike x y marks env'
  sheltered : Sheltered x marks env
  mark : marks[env.current]? = some b

namespace Environment

variable {x y : String} {marks : List Bool} {env env' : Environment} {b : Bool}

/-- A name leads both runs to the same place: the parameter to the call, other names wherever they are bound. -/
theorem findSome?_alike (h : env.Alike x y marks env') {c : List FrameId} (hc : Shelters x marks env b c)
    (n : String) : Option.Rel (Binding.Alike x y marks)
      (c.findSome? (fun f => env.bound? f (oldName x y b n)))
      (c.findSome? (fun f => env'.bound? f (newName x y b n))) := by
  -- the next frame binds the name, or it has to be looked for further outside
  have hcons : ∀ {f : FrameId} {c : List FrameId} {b' : Bool}, marks[f]? = some b' →
      (env.bound? f (oldName x y b' n) = none → Option.Rel (Binding.Alike x y marks)
        (c.findSome? (fun f => env.bound? f (oldName x y b' n)))
        (c.findSome? (fun f => env'.bound? f (newName x y b' n)))) →
      Option.Rel (Binding.Alike x y marks)
        ((f :: c).findSome? (fun f => env.bound? f (oldName x y b' n)))
        ((f :: c).findSome? (fun f => env'.bound? f (newName x y b' n))) := by
    intro f c b' hf hrest
    have hbound := h.bound f b' hf n
    rw [List.findSome?_cons, List.findSome?_cons]
    generalize env.bound? f (oldName x y b' n) = old at hbound hrest ⊢
    generalize env'.bound? f (newName x y b' n) = new at hbound ⊢
    cases hbound with
    | none => exact hrest rfl
    | some hbound => exact .some hbound
  have houtside : ∀ {c : List FrameId}, (∀ f ∈ c, marks[f]? = some false) →
      Option.Rel (Binding.Alike x y marks) (c.findSome? (fun f => env.bound? f n))
        (c.findSome? (fun f => env'.bound? f n)) := by
    intro c hc
    induction c with
    | nil => exact .none
    | cons f c ih =>
      exact @hcons f c false (hc f (.head _)) (fun _ => ih (fun g hg => hc g (.tail _ hg)))
  induction hc with
  | outside hc => exact houtside hc
  | call hf hx hc =>
    refine hcons hf (fun hnone => ?_)
    rcases spelling x y true n with ⟨hold, hnew, -⟩ | ⟨-, hold, -⟩
    · rw [hold, hnew]
      exact houtside hc
    · rw [hold] at hnone
      exact absurd hnone hx
  | block hf _ ih => exact hcons hf (fun _ => ih)

theorem lookup?_alike (h : Paired x y marks b env env') (n : String) : Option.Rel (Binding.Alike x y marks)
    (env.lookup? (oldName x y b n)) (env'.lookup? (newName x y b n)) := by
  rw [lookup?, lookup?, lookupFrom?, lookupFrom?, h.alike.current, h.alike.chain]
  exact findSome?_alike h.alike (h.sheltered _ _ h.mark) n

theorem agree_findName (h : Paired x y marks b env env') (n : String) :
    Agree x y (Binding.Alike x y marks) (env.findName (oldName x y b n)) (env'.findName (newName x y b n)) := by
  have hlookup := lookup?_alike h n
  rw [findName, findName]
  generalize env.lookup? (oldName x y b n) = old at hlookup ⊢
  generalize env'.lookup? (newName x y b n) = new at hlookup ⊢
  cases hlookup with
  | none => exact .undeclaredName (textAlike_name n)
  | some hb => exact hb

theorem agree_findVariable (h : Paired x y marks b env env') (n : String) :
    Agree x y Eq (env.findVariable (oldName x y b n)) (env'.findVariable (newName x y b n)) := by
  have hlookup := lookup?_alike h n
  rw [findVariable, findVariable]
  generalize env.lookup? (oldName x y b n) = old at hlookup ⊢
  generalize env'.lookup? (newName x y b n) = new at hlookup ⊢
  cases hlookup with
  | none => exact .undeclaredVariable (textAlike_name n)
  | some hb =>
    cases hb with
    | var id => exact Eq.refl id
    | cls | closure => exact .undeclaredVariable (textAlike_name n)

/-! ### Classes, closures and variables -/

theorem agree_findClass (h : env.Alike x y marks env') (n : String) :
    Agree x y (Class.Alike marks) (env.findClass n) (env'.findClass n) := by
  have hbound := h.bound_outside h.first n
  rw [bound?, bound?] at hbound
  rw [findClass, findClass]
  generalize (env.frame global).get? n = old at hbound ⊢
  generalize (env'.frame global).get? n = new at hbound ⊢
  cases hbound with
  | none => exact .same _
  | some hb =>
    cases hb with
    | cls hc => exact hc
    | var | closure => exact .same _

theorem rel_ownClosure? (h : env.Alike x y marks env') {c d : ClassInfo} (hd : d.frame = c.frame)
    (hc : marks[c.frame]? = some false) (n : String) :
    Option.Rel (Closure.Alike x y marks) (env.ownClosure? c n) (env'.ownClosure? d n) := by
  have hbound := h.bound_outside hc n
  rw [bound?, bound?] at hbound
  rw [ownClosure?, ownClosure?, hd]
  generalize (env.frame c.frame).get? n = old at hbound ⊢
  generalize (env'.frame c.frame).get? n = new at hbound ⊢
  cases hbound with
  | none => exact .none
  | some hb =>
    cases hb with
    | closure hk => exact .some hk
    | var | cls => exact .none

theorem ownVariable?_eq (h : env.Alike x y marks env') {c d : ClassInfo} (hd : d.frame = c.frame)
    (hc : marks[c.frame]? = some false) (n : String) : env'.ownVariable? d n = env.ownVariable? c n := by
  have hbound := h.bound_outside hc n
  rw [bound?, bound?] at hbound
  rw [ownVariable?, ownVariable?, hd]
  generalize (env.frame c.frame).get? n = old at hbound ⊢
  generalize (env'.frame c.frame).get? n = new at hbound ⊢
  cases hbound with
  | none => rfl
  | some hb => cases hb <;> rfl

theorem agree_value (h : env.Alike x y marks env') (id : VarId) :
    Agree x y (Value.Alike marks) (env.value id) (env'.value id) := by
  have hvar := h.var id
  rw [value, value]
  generalize env.var? id = old at hvar ⊢
  generalize env'.var? id = new at hvar ⊢
  cases hvar with
  | none => exact .same _
  | @some v v' hv =>
    obtain ⟨name, type, value⟩ := v
    obtain ⟨name', type', value'⟩ := v'
    obtain ⟨hname, -, hvalue⟩ := hv
    cases hvalue with
    | none => exact .unassigned hname
    | some hv => exact hv

theorem typeOf_eq (h : env.Alike x y marks env') (id : VarId) :
    ((env'.var? id).map Variable.type).getD .void = ((env.var? id).map Variable.type).getD .void := by
  have hvar := h.var id
  generalize env.var? id = old at hvar ⊢
  generalize env'.var? id = new at hvar ⊢
  cases hvar with
  | none => rfl
  | some hv => exact hv.type

theorem assignable_eq (h : env.Alike x y marks env') (target source : TypeName) :
    env'.assignable target source = env.assignable target source := by
  unfold assignable
  rcases (agree_findClass h source.text).cases with ⟨c, d, hc, hd, hcd⟩ | ⟨e, e', he, he', -⟩
  · have hsub : d.isSubclassOf target.text = c.isSubclassOf target.text := by
      rw [← Class.isSubclassOf_bare d, ← hcd.bare, Class.isSubclassOf_bare]
    simp only [hc, hd, hsub]
  · simp only [he, he']

theorem applicable_eq (h : env.Alike x y marks env') (ps as : List TypeName) :
    env'.applicable ps as = env.applicable ps as := by
  induction ps generalizing as with
  | nil => cases as <;> rfl
  | cons p ps ih =>
    cases as with
    | nil => rfl
    | cons a as => rw [applicable, applicable, assignable_eq h, ih]

end Environment

/-! ### The choice of methods -/

/-- Classes without their ancestors that are alike. -/
structure ClassInfo.Alike (marks : List Bool) (c d : ClassInfo) : Prop where
  bare : c.bare = d.bare
  outside : marks[c.frame]? = some false

/-- Fields of classes that are alike. -/
structure FieldInfo.Alike (marks : List Bool) (i i' : FieldInfo) : Prop where
  owner : i.owner.Alike marks i'.owner
  type : i'.type = i.type
  isStatic : i'.isStatic = i.isStatic

/-- Methods or constructors of classes that are alike. -/
structure Environment.Declared.Alike (marks : List Bool) (d d' : Declared) : Prop where
  owner : d.owner.Alike marks d'.owner
  descriptor : d'.descriptor = d.descriptor
  paramTypes : d'.callable.paramTypes = d.callable.paramTypes

section Choice

variable {x y : String} {marks : List Bool} {env env' : Environment} {c d : Class} {k k' : Closure}

theorem ClassInfo.Alike.frame {c d : ClassInfo} (h : c.Alike marks d) : d.frame = c.frame :=
  congrArg (fun c => c.frame) h.bare.symm

theorem ClassInfo.Alike.name {c d : ClassInfo} (h : c.Alike marks d) : d.name = c.name :=
  congrArg (fun c => c.name) h.bare.symm

theorem ClassInfo.Alike.methods {c d : ClassInfo} (h : c.Alike marks d) : d.methods = c.methods :=
  congrArg (fun c => c.methods) h.bare.symm

theorem Class.Alike.lineage (h : c.Alike marks d) : List.Forall₂ (ClassInfo.Alike marks) c.lineage d.lineage := by
  obtain ⟨hbare, houtside⟩ := h
  replace hbare : c.lineage.map ClassInfo.bare = d.lineage.map ClassInfo.bare := by
    rw [← lineage_bare, ← lineage_bare, hbare]
  unfold Outside at houtside
  generalize c.lineage = cs at hbare houtside ⊢
  generalize d.lineage = ds at hbare ⊢
  induction cs generalizing ds with
  | nil =>
    rw [List.map_eq_nil_iff.mp hbare.symm]
    exact .nil
  | cons c cs ih =>
    cases ds with
    | nil => cases hbare
    | cons d ds =>
      obtain ⟨hhead, htail⟩ := List.cons.inj hbare
      exact .cons ⟨hhead, houtside c (.head _)⟩ (ih (fun e he => houtside e (.tail _ he)) ds htail)

theorem ClassInfo.Alike.ownField? {c d : ClassInfo} (h : c.Alike marks d) (n : String) :
    Option.Rel (FieldInfo.Alike marks) (c.ownField? n) (d.ownField? n) := by
  have hstatic : d.staticFields = c.staticFields := congrArg (fun c => c.staticFields) h.bare.symm
  have hinstance : d.instanceFields = c.instanceFields := congrArg (fun c => c.instanceFields) h.bare.symm
  rw [ClassInfo.ownField?, ClassInfo.ownField?, hstatic, hinstance]
  split
  · exact .some ⟨h, rfl, rfl⟩
  · cases c.instanceFields.find? (fun f => f.declares n) with
    | none => exact .none
    | some f => exact .some ⟨h, rfl, rfl⟩

/-- A field is found in classes that are alike. -/
theorem Class.Alike.findField? (h : c.Alike marks d) (n : String) :
    Option.Rel (FieldInfo.Alike marks) (c.findField? n) (d.findField? n) := by
  have hlineage := h.lineage
  rw [Class.findField?, Class.findField?]
  generalize c.lineage = cs at hlineage ⊢
  generalize d.lineage = ds at hlineage ⊢
  induction hlineage with
  | nil => exact .none
  | @cons e e' _ _ he _ ih =>
    have hown := he.ownField? n
    rw [List.findSome?_cons, List.findSome?_cons]
    generalize e.ownField? n = old at hown ⊢
    generalize e'.ownField? n = new at hown ⊢
    cases hown with
    | none => exact ih
    | some hi => exact .some hi

namespace Environment

theorem firstOfEach_alike {es es' : List Declared} (h : List.Forall₂ (Declared.Alike marks) es es')
    (seen : List String) :
    List.Forall₂ (Declared.Alike marks) (firstOfEach seen es) (firstOfEach seen es') := by
  induction h generalizing seen with
  | nil => exact .nil
  | cons he _ ih =>
    rw [firstOfEach, firstOfEach, he.descriptor]
    split
    · exact ih seen
    · exact .cons he (ih _)

theorem overloads_alike (h : c.Alike marks d) (name : String) (arity : Nat) :
    List.Forall₂ (Declared.Alike marks) (overloads c name arity) (overloads d name arity) := by
  refine firstOfEach_alike (List.rel_flatMap h.lineage (fun e e' he => ?_)) []
  rw [he.methods, List.forall₂_map_left_iff, List.forall₂_map_right_iff, List.forall₂_same]
  exact fun m _ => ⟨he, rfl, rfl⟩

theorem constructors_alike (h : c.Alike marks d) :
    List.Forall₂ (Declared.Alike marks) (constructors c) (constructors d) := by
  have howner : c.toClassInfo.Alike marks d.toClassInfo :=
    ⟨congrArg Class.toClassInfo h.bare, h.outside _ (.head _)⟩
  have hbare : c.constructors.map ConstructorDecl.bare = d.constructors.map ConstructorDecl.bare :=
    congrArg (fun c => c.constructors) h.bare
  rw [constructors, constructors, List.forall₂_map_left_iff, List.forall₂_map_right_iff]
  refine (List.forall₂_map_left_iff.mp (List.forall₂_map_right_iff.mp (List.forall₂_eq_eq_eq ▸ hbare))).imp ?_
  intro k k' hk
  have htypes : k'.params.map Param.type = k.params.map Param.type := by
    rw [← ConstructorDecl.paramTypes_bare k', ← hk, ConstructorDecl.paramTypes_bare]
  exact ⟨howner, congrArg (StashMachine.descriptor Callable.constructorName) htypes, htypes⟩

theorem agree_boundClosure (h : env.Alike x y marks env') {c d : ClassInfo} (hc : c.Alike marks d) (n : String) :
    Agree x y (Closure.Alike x y marks) (env.boundClosure c n) (env'.boundClosure d n) := by
  have hclosure := rel_ownClosure? h hc.frame hc.outside n
  rw [boundClosure, boundClosure, hc.name]
  generalize env.ownClosure? c n = old at hclosure ⊢
  generalize env'.ownClosure? d n = new at hclosure ⊢
  cases hclosure with
  | none => exact .same _
  | some hk => exact hk

theorem agree_candidates (h : env.Alike x y marks env') (types : List TypeName) {es es' : List Declared}
    (hes : List.Forall₂ (Declared.Alike marks) es es') : Agree x y (List.Forall₂ (Closure.Alike x y marks))
      (env.candidates types es) (env'.candidates types es') := by
  induction hes with
  | nil => exact .nil
  | cons he _ ih =>
    rw [candidates, candidates, he.paramTypes, he.descriptor, applicable_eq h]
    split
    · exact (agree_boundClosure h he.owner _).bind (fun _ _ hk => ih.bind (fun _ _ hks => .cons hk hks))
    · exact ih

/-- Of closures that are alike, both runs choose the same one, if any. -/
theorem mostSpecific_alike (h : env.Alike x y marks env') {ks ks' : List Closure}
    (hks : List.Forall₂ (Closure.Alike x y marks) ks ks') :
    (∃ k k', env.mostSpecific ks = .one k ∧ env'.mostSpecific ks' = .one k' ∧ k.Alike x y marks k') ∨
      (env.mostSpecific ks = .none ∧ env'.mostSpecific ks' = .none) ∨
      (env.mostSpecific ks = .ambiguous ∧ env'.mostSpecific ks' = .ambiguous) := by
  have hmore : ∀ {k k' l l' : Closure}, k.Alike x y marks k' → l.Alike x y marks l' →
      env'.moreSpecific k' l' = env.moreSpecific k l := by
    intro k k' l l' hk hl
    rw [moreSpecific, moreSpecific, hk.callable.paramTypes, hl.callable.paramTypes, applicable_eq h]
  have hall : ∀ {k k' : Closure}, k.Alike x y marks k' →
      ks'.all (fun l => env'.moreSpecific k' l) = ks.all (fun l => env.moreSpecific k l) := by
    intro k k' hk
    induction hks with
    | nil => rfl
    | cons hl _ ih => rw [List.all_cons, List.all_cons, hmore hk hl, ih]
  have hfilter := List.rel_filter (p := fun k => ks.all (fun l => env.moreSpecific k l))
    (q := fun k => ks'.all (fun l => env'.moreSpecific k l))
    (fun _ _ hk => iff_of_eq (congrArg (· = true) (hall hk).symm)) hks
  generalize hbest : ks.filter (fun k => ks.all (fun l => env.moreSpecific k l)) = best at hfilter
  generalize hbest' : ks'.filter (fun k => ks'.all (fun l => env'.moreSpecific k l)) = best' at hfilter
  cases hks with
  | nil => exact .inr (.inl ⟨rfl, rfl⟩)
  | cons hk hks =>
    cases hks with
    | nil => exact .inl ⟨_, _, rfl, rfl, hk⟩
    | cons =>
      unfold mostSpecific
      simp only [hbest, hbest']
      cases hfilter with
      | nil => exact .inr (.inr ⟨rfl, rfl⟩)
      | cons hk hrest =>
        cases hrest with
        | nil => exact .inl ⟨_, _, rfl, rfl, hk⟩
        | cons => exact .inr (.inr ⟨rfl, rfl⟩)

theorem agree_resolveMethod (h : env.Alike x y marks env') (t : TypeName) (name : String) (types : List TypeName) :
    Agree x y (Closure.Alike x y marks) (env.resolveMethod t name types) (env'.resolveMethod t name types) := by
  refine (agree_findClass h _).bind (fun c d hc => ?_)
  rw [← Class.hasMethod_bare d, ← hc.bare, Class.hasMethod_bare]
  split
  · refine (agree_candidates h types (overloads_alike hc name types.length)).bind (fun ks ks' hks => ?_)
    rcases mostSpecific_alike h hks with ⟨k, k', hk, hk', hkk'⟩ | ⟨hnone, hnone'⟩ | ⟨hamb, hamb'⟩
    · simp only [hk, hk']
      exact hkk'
    · simp only [hnone, hnone']
      exact .same _
    · simp only [hamb, hamb']
      exact .same _
  · exact .same _

theorem agree_resolveConstructor (h : env.Alike x y marks env') (name : String) (types : List TypeName) :
    Agree x y (Closure.Alike x y marks) (env.resolveConstructor name types)
      (env'.resolveConstructor name types) := by
  refine (agree_findClass h name).bind (fun c d hc => ?_)
  refine (agree_candidates h types (constructors_alike hc)).bind (fun ks ks' hks => ?_)
  rcases mostSpecific_alike h hks with ⟨k, k', hk, hk', hkk'⟩ | ⟨hnone, hnone'⟩ | ⟨hamb, hamb'⟩
  · simp only [hk, hk']
    exact hkk'
  · simp only [hnone, hnone']
    exact .same _
  · simp only [hamb, hamb']
    exact .same _

theorem resolveOverride_alike (h : env.Alike x y marks env') (hc : c.Alike marks d) (hk : k.Alike x y marks k') :
    (env.resolveOverride c k).Alike x y marks (env'.resolveOverride d k') := by
  have hown : List.Forall₂ (Closure.Alike x y marks) (c.lineage.filterMap (fun e => env.ownClosure? e k.descriptor))
      (d.lineage.filterMap (fun e => env'.ownClosure? e k.descriptor)) :=
    List.rel_filterMap (fun _ _ he => rel_ownClosure? h he.frame he.outside k.descriptor) hc.lineage
  rw [resolveOverride, resolveOverride, hk.descriptor]
  generalize c.lineage.filterMap _ = ks at hown ⊢
  generalize d.lineage.filterMap _ = ks' at hown ⊢
  induction hown with
  | nil => exact hk
  | cons hl _ ih =>
    rw [List.find?_cons, List.find?_cons, hl.callable.isStatic]
    split
    · exact hl
    · exact ih

end Environment

end Choice

/-! ### Static types -/

namespace Environment

variable {x y : String} {marks : List Bool} {env env' : Environment} {b : Bool}

theorem agree_nameType (h : Paired x y marks b env env') (n : String) :
    Agree x y Eq (env.nameType (oldName x y b n)) (env'.nameType (newName x y b n)) := by
  refine (agree_findName h n).bind (fun _ _ hb => ?_)
  cases hb with
  | var id => exact (typeOf_eq h.alike id).symm
  | cls hc => exact congrArg TypeName.named (Class.name_eq hc.bare)
  | closure hk =>
    simp only [hk.descriptor]
    exact .same _

theorem agree_fieldType (h : env.Alike x y marks env') (t : TypeName) (field : String) :
    Agree x y Eq (env.fieldType t field) (env'.fieldType t field) := by
  unfold fieldType
  split
  · exact Eq.refl _
  · refine (agree_findClass h _).bind (fun c d hc => ?_)
    have hfield := hc.findField? field
    generalize c.findField? field = old at hfield ⊢
    generalize d.findField? field = new at hfield ⊢
    cases hfield with
    | none => exact .same _
    | some hi => exact hi.type.symm

theorem agree_pathType (h : Paired x y marks b env env') (p : Path) :
    Agree x y Eq (env.pathType (p.rename (oldName x y b))) (env'.pathType (p.rename (newName x y b))) := by
  induction p with
  | simple n => exact agree_nameType h n
  | field p n ih =>
    refine ih.bind (fun t _ ht => ?_)
    subst ht
    exact agree_fieldType h.alike t n

mutual

/-- An expression has the same type in both runs. -/
theorem agree_staticType (h : Paired x y marks b env env') : ∀ e : Expr,
    Agree x y Eq (env.staticType (e.rename (oldName x y b))) (env'.staticType (e.rename (newName x y b)))
  | .literal l => Eq.refl _
  | .name p => agree_pathType h p
  | .assign t _ => agree_pathType h t
  | .compound _ t _ => agree_pathType h t
  | .increment _ _ t => agree_pathType h t
  | .binary op l r => by
    refine (agree_staticType h l).bind (fun t _ ht => (agree_staticType h r).bind (fun u _ hu => ?_))
    subst ht hu
    exact Agree.self (fun _ _ => rfl)
  | .unary op e => by
    refine (agree_staticType h e).bind (fun t _ ht => ?_)
    subst ht
    exact Agree.self (fun _ _ => rfl)
  | .call (.simple m) _ => .same _
  | .call (.field q m) args => by
    refine (agree_pathType h q).bind (fun t _ ht => (agree_staticTypes h args).bind (fun ts _ hts => ?_))
    subst ht hts
    exact (agree_resolveMethod h.alike t m ts).bind (fun _ _ hk => hk.callable.result.symm)
  | .new c _ => Eq.refl _
  | .array t _ => Eq.refl _
  | .void => Eq.refl _

theorem agree_staticTypes (h : Paired x y marks b env env') : ∀ es : List Expr,
    Agree x y Eq (env.staticTypes (Expr.renameAll (oldName x y b) es))
      (env'.staticTypes (Expr.renameAll (newName x y b) es))
  | [] => Eq.refl _
  | e :: es => by
    refine (agree_staticType h e).bind (fun t _ ht => (agree_staticTypes h es).bind (fun ts _ hts => ?_))
    subst ht hts
    exact Eq.refl _

end

end Environment

end StashMachine
