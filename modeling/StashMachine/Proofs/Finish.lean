import StashMachine.Proofs.FieldTypes
import StashMachine.Proofs.Heap
import StashMachine.Proofs.Results

/-!
# StashMachine.Proofs.Finish — what a finished program leaves behind

A program declares its classes, sets their static fields up, and calls its main method.  When nothing is left on
control, the result of that call is all that is on the stash.

* `Program.elaborationOrder`: the order of elaboration; `Program.mem_elaborationOrder`: it leaves out no class.
* `Outline p f c`: the declarations on control, from the frame `f` on, lead to the main call in the global frame.
* `Course p m`: how far a run has come; every class of the program waits on control or is registered.
* `Course.next`: one step leads from course to course; `course_of_reached`: so does every run.
* `LeavesResult p m`, `finish_leaves_result`: the machine that a finished program leaves.
-/

namespace StashMachine

open Environment Step Machine

/-! ### The order of elaboration -/

section Order

variable {p q : Program} {placed chain is r : List Nat} {room : Nat}

/-- A walk up the hierarchy forgets no class. -/
theorem Program.mem_of_climb {i : Option Nat} (h : p.climb placed room chain i = .ok r) : ∀ j ∈ chain, j ∈ r := by
  fun_induction climb p placed room chain i with
  | case1 chain =>
    cases h
    exact fun j hj => hj
  | case2 _ chain =>
    cases h
    exact fun j hj => hj
  | case3 _ chain _ _ =>
    cases h
    exact fun j hj => hj
  | case4 => cases h
  | case5 room chain i _ _ ih => exact fun j hj => ih h j (.tail _ hj)

/-- A class that is not placed yet is placed by the walk that starts at it. -/
theorem Program.mem_or_mem_of_climb {i : Nat} (h : p.climb placed (room + 1) chain (some i) = .ok r) :
    i ∈ placed ∨ i ∈ r := by
  rw [climb] at h
  split at h
  · rename_i hplaced
    exact .inl (List.contains_iff_mem.mp hplaced)
  · split at h
    · cases h
    · exact .inr (mem_of_climb h i (.head _))

theorem Program.mem_of_place (h : p.place placed is = .ok r) : (∀ j ∈ placed, j ∈ r) ∧ ∀ i ∈ is, i ∈ r := by
  induction is generalizing placed with
  | nil =>
    cases h
    exact ⟨fun j hj => hj, nofun⟩
  | cons i is ih =>
    rw [place] at h
    split at h
    · rename_i chain hchain
      obtain ⟨hplaced, his⟩ := ih h
      refine ⟨fun j hj => hplaced j (List.mem_append_left _ hj), fun j hj => ?_⟩
      rcases List.mem_cons.mp hj with rfl | hj
      · have hmem : j ∈ placed ++ chain := List.mem_append.mpr (mem_or_mem_of_climb hchain)
        exact hplaced j hmem
      · exact his j hj
    · cases h

/-- The order of elaboration leaves out no class. -/
theorem Program.mem_superclassesFirst (h : p.superclassesFirst = .ok q) {d : ClassDecl} (hd : d ∈ p) : d ∈ q := by
  unfold superclassesFirst at h
  split at h
  · rename_i order horder
    cases h
    obtain ⟨i, hi, hget⟩ := List.mem_iff_getElem.mp hd
    have horder : i ∈ order := (mem_of_place horder).2 i (List.mem_range.mpr hi)
    refine List.mem_filterMap.mpr ⟨i, horder, ?_⟩
    rw [List.getElem?_eq_getElem hi, hget]
  · cases h

end Order

/-! ### Where declarations lead -/

/-- The classes of a program, and the root of the hierarchy for a program that does not declare it. -/
def Program.classes (p : Program) : List ClassDecl :=
  (if p.any (fun c => c.name == rootName) then [] else [ClassDecl.root]) ++ p

/-- The classes of a program in the order of their elaboration. -/
def Program.elaborationOrder (p : Program) : Except Fault (List ClassDecl) :=
  p.superclassesFirst.map (fun q => (if p.any (fun c => c.name == rootName) then [] else [ClassDecl.root]) ++ q)

/-- The call that a program ends with: that of the main method of the first class that has one. -/
def Program.IsMainCall (p : Program) (e : Expr) : Prop :=
  ∃ main, p.find? ClassDecl.declaresMain = some main ∧ e = .mainCall main.name

/-- The class is registered as it was written. -/
def Environment.Made (env : Environment) (d : ClassDecl) : Prop :=
  ∃ f superclass, env.findClass d.name = .ok (d.elaborate f superclass)

/-- Declarations on control, the first of them performed in the frame `f`: classes are declared in the global
frame, their members in frames of their own, and the main call in the global frame is all that comes behind. -/
def Outline (p : Program) : FrameId → List Item → Prop
  | f, .expr e :: rest => rest = [] ∧ f = global ∧ p.IsMainCall e
  | f, .classDecl _ :: rest => f = global ∧ Outline p f rest
  | f, .method _ :: rest => Outline p f rest
  | f, .constructor _ :: rest => Outline p f rest
  | f, .field _ :: rest => Outline p f rest
  | _, .restore g :: rest => Outline p g rest
  | _, _ => False

/-- Every class of the program waits on control to be declared, or is registered. -/
def Counted (p : Program) (env : Environment) (c : List Item) : Prop :=
  ∀ d ∈ p.classes, .classDecl d ∈ c ∨ env.Made d

/-- How far a run of the program has come. -/
inductive Course (p : Program) (m : Machine) : Prop
  | loaded (hc : m.registers.control = [.program p]) (hs : m.registers.stash = [])
    (hcurrent : m.registers.env.current = global)
  | declaring (hs : m.registers.stash = []) (ho : Outline p m.registers.env.current m.registers.control)
    (hd : Counted p m.registers.env m.registers.control)
  | initialising (c below : List Item) (f : FrameId) (hc : m.registers.control = c ++ below)
    (ht : OnTrack .loose (.field f) c m.registers.stash m.registers.env) (ho : Outline p f below)
    (hd : Counted p m.registers.env below)
  | called (m₀ : Machine) (e : Expr) (hm₀ : Reached Natives.empty p m₀) (he : p.IsMainCall e)
    (hc : m₀.registers.control = [.expr e]) (hs : m₀.registers.stash = [])
    (hcurrent : m₀.registers.env.current = global) (hsince : Since Natives.empty 0 m₀ m)
    (hd : ∀ d ∈ p.classes, m.registers.env.Made d)

section Outline

variable {p : Program} {f : FrameId} {c : List Item}

theorem Outline.callables (ks : List Callable) (h : Outline p f c) : Outline p f (ks.map Callable.item ++ c) := by
  induction ks with
  | nil => exact h
  | cons k ks ih => cases k <;> exact ih

theorem Outline.fields (fds : List FieldDecl) (h : Outline p f c) : Outline p f (fds.map .field ++ c) := by
  induction fds with
  | nil => exact h
  | cons fd fds ih => exact ih

theorem Outline.classDecls (ds : List ClassDecl) (h : Outline p global c) :
    Outline p global (ds.map .classDecl ++ c) := by
  induction ds with
  | nil => exact h
  | cons d ds ih => exact ⟨rfl, ih⟩

end Outline

section Counted

variable {p : Program} {env env' : Environment} {c c' : List Item}

theorem Environment.Made.grows {d : ClassDecl} (h : env.Made d) (hgrows : Grows env env') : env'.Made d := by
  obtain ⟨f, superclass, hd⟩ := h
  exact ⟨f, superclass, hgrows.findClass hd⟩

/-- Classes that no longer wait have to be registered. -/
theorem Counted.of_grows (h : Counted p env c) (hgrows : Grows env env')
    (hc : ∀ d, .classDecl d ∈ c → .classDecl d ∈ c' ∨ env'.Made d) : Counted p env' c' := by
  intro d hd
  rcases h d hd with hwaits | hmade
  · exact hc d hwaits
  · exact .inr (hmade.grows hgrows)

/-- An item that declares no class is performed. -/
theorem Counted.next {i : Item} {new : List Item} (h : Counted p env (i :: c)) (hgrows : Grows env env')
    (hi : ∀ d, i ≠ .classDecl d) : Counted p env' (new ++ c) := by
  refine h.of_grows hgrows (fun d hd => .inl (List.mem_append_right _ ?_))
  rcases List.mem_cons.mp hd with hd | hd
  · exact absurd hd.symm (hi d)
  · exact hd

end Counted

/-! ### From course to course -/

section Steps

variable {p : Program} {m m₁ : Machine} {i : Item} {c : List Item}

theorem Program.elaborationOrder_of_ok {q : Program} (h : p.superclassesFirst = .ok q) : p.elaborationOrder =
    .ok ((if p.any (fun c => c.name == rootName) then [] else [ClassDecl.root]) ++ q) := by
  rw [elaborationOrder, h]
  rfl

theorem Program.mem_elaborationOrder {ds : List ClassDecl} (h : p.elaborationOrder = .ok ds) {d : ClassDecl}
    (hd : d ∈ p.classes) : d ∈ ds := by
  cases hq : p.superclassesFirst with
  | error e =>
    rw [elaborationOrder, hq] at h
    cases h
  | ok q =>
    rw [elaborationOrder_of_ok hq] at h
    cases h
    rcases List.mem_append.mp hd with hroot | hd
    · exact List.mem_append_left _ hroot
    · exact List.mem_append_right _ (mem_superclassesFirst hq hd)

/-- A program queues its classes in the order of their elaboration, and the main call. -/
theorem start_queues (p : Program) (r : Registers) : Ends (start p) r
    (fun _ r' => ∃ (ds : List ClassDecl) (e : Expr), p.elaborationOrder = .ok ds ∧ p.IsMainCall e ∧
      r' = { r with control := ds.map .classDecl ++ .expr e :: r.control })
    (fun _ _ => True) := by
  unfold start
  split
  · trivial
  · rename_i main hmain
    simp only [ends_bind, ends_ofExcept, ends_schedule]
    refine ⟨fun q hq => ?_, fun _ _ => trivial⟩
    refine ⟨_, .mainCall main.name, Program.elaborationOrder_of_ok hq, ⟨main, hmain, rfl⟩, ?_⟩
    rw [List.append_assoc]
    rfl

/-- A static field is set up: its declarators wait one by one, or its initialiser runs. -/
theorem declareStatic_queues (fd : FieldDecl) {c : List Item} {env : Environment} {out : List String} :
    Ends (declareStatic fd) ⟨c, [], env, out⟩
      (fun _ r => (∃ fds : List FieldDecl, r = ⟨fds.map .field ++ c, [], env, out⟩) ∨
        Stays .loose (.field env.current) c [] env r)
      (fun _ _ => True) := by
  unfold declareStatic
  split
  · exact .inl ⟨[], rfl⟩
  · refine Ends.mono (F := fun e _ => Regime.loose.Blames e) ?_ (fun _ _ h => .inr h) (fun _ _ _ => trivial)
    exact declareOne_stays (.inr rfl) (b := .field env.current) (K := c) (c := []) (S := []) (s := []) (σ := [])
      ⟨rfl, rfl⟩ .nil
  · refine .inl ⟨fd.vars.map fd.only, ?_⟩
    rw [List.map_map]
    rfl

theorem Course.program (hs : m.registers.stash = []) (hcurrent : m.registers.env.current = global)
    (hc : m.registers.control = [.program p]) (hnext : Next Natives.empty m m₁) : Course p m₁ := by
  have hperform := hnext.perform hc
  obtain ⟨ds, e, hds, he, hr⟩ := (start_queues p _).of_ok hperform
  have hmain : Outline p global [.expr e] := ⟨rfl, rfl, he⟩
  refine .declaring (by rw [hr]; exact hs) ?_ (fun d hd => .inl ?_)
  · rw [hr]
    exact hcurrent ▸ hmain.classDecls ds
  · rw [hr]
    exact List.mem_append_left _ (List.mem_map_of_mem (Program.mem_elaborationOrder hds hd))

/-- A class is registered, and its members wait in front of the way back. -/
theorem Course.classDecl {d : ClassDecl} (hs : m.registers.stash = [])
    (hc : m.registers.control = .classDecl d :: c)
    (ho : Outline p m.registers.env.current (.classDecl d :: c))
    (hd : Counted p m.registers.env (.classDecl d :: c)) (hnext : Next Natives.empty m m₁) : Course p m₁ := by
  have hperform := hnext.perform hc
  obtain ⟨superclass, new, ks, -, hnew, hfree, -, hcontrol, hstash, henv⟩ :=
    (elaborateClass_ends d _).of_ok hperform
  have hmade : m₁.registers.env.Made d := by
    refine ⟨m.registers.env.frames.size, superclass, ?_⟩
    rw [henv, hnew]
    exact findClass_addClass _ _ _ _
  have hback : Outline p new.frame (.restore m.registers.env.current :: c) := ho.2
  have hcurrent : m₁.registers.env.current = new.frame := by
    rw [henv, hnew]
    rfl
  refine .declaring (hstash.trans hs) ?_ (hd.of_grows hnext.grows (fun d' hd' => ?_))
  · rw [hcurrent, hcontrol]
    exact (hback.fields _).callables ks
  · rcases List.mem_cons.mp hd' with hd' | hd'
    · cases hd'
      exact .inr hmade
    · rw [hcontrol]
      exact .inl (by simp [hd'])

/-- A callable is bound in the frame of its class. -/
theorem Course.callable {k : Callable} (hs : m.registers.stash = [])
    (hc : m.registers.control = k.item :: c) (ho : Outline p m.registers.env.current c)
    (hd : Counted p m.registers.env (k.item :: c)) (hnext : Next Natives.empty m m₁) : Course p m₁ := by
  have hr := hnext.binds_callable hc
  have hgrows := hnext.grows
  have hcounted : Counted p m₁.registers.env ([] ++ c) := hd.next hgrows (by cases k <;> nofun)
  refine .declaring (by rw [hr]; exact hs) ?_ ?_
  · rw [hr]
    exact ho
  · have hcontrol : m₁.registers.control = c := by rw [hr]
    rw [hcontrol]
    exact hcounted

theorem Course.field {fd : FieldDecl} (hs : m.registers.stash = [])
    (hc : m.registers.control = .field fd :: c) (ho : Outline p m.registers.env.current c)
    (hd : Counted p m.registers.env (.field fd :: c)) (hnext : Next Natives.empty m m₁) : Course p m₁ := by
  have hcounted : ∀ new, Counted p m₁.registers.env (new ++ c) := fun new => hd.next hnext.grows nofun
  have hperform := hnext.perform hc
  replace hperform : perform Natives.empty (.field fd) ⟨c, m.registers.stash, m.registers.env, m.registers.output⟩ =
      .ok () m₁.registers := hperform
  rw [hs] at hperform
  rcases (declareStatic_queues fd).of_ok hperform with ⟨fds, hr⟩ | ⟨-, c', s', hcontrol, hstash, htrack⟩
  · refine .declaring (by rw [hr]) (by rw [hr]; exact ho.fields fds) ?_
    have hcontrol : m₁.registers.control = fds.map .field ++ c := by rw [hr]
    rw [hcontrol]
    exact hcounted _
  · rw [List.append_nil] at hstash
    exact .initialising c' c _ hcontrol (hstash ▸ htrack) ho (hcounted [])

/-- A step of declarations. -/
theorem Course.declare (hm : Reached Natives.empty p m) (hs : m.registers.stash = [])
    (ho : Outline p m.registers.env.current m.registers.control)
    (hd : Counted p m.registers.env m.registers.control) (hnext : Next Natives.empty m m₁) : Course p m₁ := by
  obtain ⟨i, c, hc, hperform, -⟩ := next_iff.mp hnext
  have hgrows := hnext.grows
  rw [hc] at ho hd
  cases i with
  | expr e =>
    obtain ⟨rfl, hcurrent, he⟩ := ho
    have hheight : 0 < m.height := by
      rw [height, hc]
      exact Nat.succ_pos _
    refine .called m e hm he hc hs hcurrent (.next .start hheight hnext) (fun d hmem => ?_)
    rcases hd d hmem with hwaits | hmade
    · cases List.mem_singleton.mp hwaits
    · exact hmade.grows hgrows
  | classDecl d => exact .classDecl hs hc ho hd hnext
  | method d => exact .callable (k := .method d) hs hc ho hd hnext
  | constructor d => exact .callable (k := .constructor d) hs hc ho hd hnext
  | field fd => exact .field hs hc ho hd hnext
  | restore f =>
    have hcounted : Counted p m₁.registers.env ([] ++ c) := hd.next hgrows (fun d hmem => by cases hmem)
    have hr : m₁.registers = ⟨c, m.registers.stash, m.registers.env.restore f, m.registers.output⟩ :=
      (EStateM.Result.ok.inj hperform).2.symm
    rw [hr] at hcounted
    refine .declaring (by rw [hr]; exact hs) ?_ ?_
    · rw [hr]
      exact ho
    · rw [hr]
      exact hcounted
  | _ => exact ho.elim

/-- One step leads from course to course. -/
theorem Course.next (hm : Reached Natives.empty p m) (h : Course p m) (hnext : Next Natives.empty m m₁) :
    Course p m₁ := by
  have hgrows := hnext.grows
  rcases h with ⟨hc, hs, hcurrent⟩ | ⟨hs, ho, hd⟩ | ⟨c, below, f, hc, ht, ho, hd⟩ |
    ⟨m₀, e, hm₀, he, hc, hs, hcurrent, hsince, hd⟩
  · exact .program hs hcurrent hc hnext
  · exact .declare hm hs ho hd hnext
  · cases c with
    | nil =>
      -- the initialiser is done, and the declarations go on
      rcases ht.nil with ⟨f', hf', -⟩ | ⟨f', hf' | hf', hcurrent, hs⟩
      · cases hf'
      · cases hf'
      · cases hf'
        rw [List.nil_append] at hc
        exact .declare hm hs (by rw [hcurrent, hc]; exact ho) (by rw [hc]; exact hd) hnext
    | cons i c =>
      obtain ⟨i', control, hcontrol, hperform, -⟩ := next_iff.mp hnext
      rw [hc] at hcontrol
      cases hcontrol
      have hsound := sound_of_reached Natives.neutral_empty hm
      have hgoes := @perform_goes _ _ below _ [] _ _ m.registers.output _ Natives.neutral_empty False.elim
        hsound False.elim _ (fun _ _ => trivial) ht
      rw [List.append_nil] at hgoes
      rcases hgoes.of_ok hperform with ⟨-, c', s', hc', hs', ht'⟩ | ⟨j, -, ⟨f', hf'⟩, -⟩
      · rw [List.append_nil] at hs'
        refine .initialising c' below f hc' (hs' ▸ ht') ho (hd.of_grows hgrows (fun d hwaits => .inl hwaits))
      · cases hf'
  · have hheight : 0 < m.height := by
      obtain ⟨i, c, hc, -⟩ := next_iff.mp hnext
      rw [height, hc]
      exact Nat.succ_pos _
    exact .called m₀ e hm₀ he hc hs hcurrent (.next hsince hheight hnext) (fun d hmem => (hd d hmem).grows hgrows)

theorem course_of_reached (hm : Reached Natives.empty p m) : Course p m :=
  hm.induction (P := Course p) (.loaded rfl rfl rfl) (fun _ _ hm h hnext => h.next hm hnext)

end Steps

/-! ### The end of a run -/

/-- The names of the static fields that a class is written with. -/
def ClassDecl.staticNames (d : ClassDecl) : List String :=
  (d.fields.filter FieldDecl.isStatic).flatMap (fun f => f.vars.map Declarator.name)

/-- The frame `f` binds the methods and constructors of a class under their descriptors, its static fields under
their names, and nothing else. -/
structure BindsMembers (env : Environment) (f : FrameId) (d : ClassDecl) : Prop where
  closures : ∀ x, (∃ k, env.bound? f x = some (.closure k)) ↔ ∃ k ∈ d.callables, k.descriptor = x
  fields : ∀ x, (∃ id, env.bound? f x = some (.var id)) ↔ x ∈ d.staticNames
  classes : ∀ x c, env.bound? f x ≠ some (.cls c)

/-- The global frame binds the classes of the program under their names, and nothing else. -/
structure BindsClasses (env : Environment) (p : Program) : Prop where
  each : ∀ x, (∃ c, env.bound? global x = some (.cls c)) ↔ ∃ d ∈ p.classes, d.name = x
  only : ∀ x b, env.bound? global x = some b → ∃ c, b = .cls c

/-- The machine that the program leaves: the stash holds the result of the main call, which was made on an empty
stash, the current frame is the global one, and the frames of classes hold what the program declares. -/
structure LeavesResult (p : Program) (m : Machine) : Prop where
  result : ∃ m₀ e item, Reached Natives.empty p m₀ ∧ p.IsMainCall e ∧ m₀.registers.control = [.expr e] ∧
    m₀.registers.stash = [] ∧ Until Natives.empty 0 m₀ m ∧ m.registers.stash = [item] ∧
    ((∃ v, item = .value v) ∨ ∃ c, item = .cls c)
  current : m.registers.env.current = global
  classes : BindsClasses m.registers.env p
  members : ∀ d ∈ p.classes, ∃ c, m.registers.env.findClass d.name = .ok c ∧ BindsMembers m.registers.env c.frame d

section Finished

variable {p : Program} {m : Machine} {source : String}

/-- A finished run has called the main method, and that call is all that has happened since. -/
theorem Course.exists_mainCall (h : Course p m) (hfinished : m.registers.control = []) :
    ∃ m₀ e, Reached Natives.empty p m₀ ∧ p.IsMainCall e ∧ m₀.registers.control = [.expr e] ∧
      m₀.registers.stash = [] ∧ m₀.registers.env.current = global ∧ Until Natives.empty 0 m₀ m ∧
      ∀ d ∈ p.classes, m.registers.env.Made d := by
  rcases h with ⟨hc, -, -⟩ | ⟨-, ho, -⟩ | ⟨c, below, f, hc, -, ho, -⟩ | ⟨m₀, e, hm₀, he, hc, hs, hcurrent, hsince, hd⟩
  · rw [hfinished] at hc
    cases hc
  · rw [hfinished] at ho
    exact ho.elim
  · rw [hfinished] at hc
    obtain ⟨-, rfl⟩ := List.append_eq_nil_iff.mp hc.symm
    exact ho.elim
  · have hhigh : 0 < m₀.height := by
      rw [height, hc]
      exact Nat.succ_pos _
    have hlow : m.height ≤ 0 := by
      rw [height, hfinished]
      exact Nat.le_refl _
    exact ⟨m₀, e, hm₀, he, hc, hs, hcurrent, hsince.until_of_height hhigh hlow, hd⟩

/-- An expression alone on control leaves its result alone on the stash. -/
theorem exists_result {m₀ : Machine} {e : Expr} (hm₀ : Reached Natives.empty p m₀)
    (hc : m₀.registers.control = [.expr e]) (hs : m₀.registers.stash = []) (hu : Until Natives.empty 0 m₀ m) :
    m.registers.env.current = m₀.registers.env.current ∧ ∃ item, m.registers.stash = [item] ∧
      ((∃ v, item = .value v) ∨ ∃ c, item = .cls c) := by
  have htrack : OnTrack .loose (.value m₀.registers.env.current) [.expr e] [] m₀.registers.env :=
    ⟨.value, [], trivial, .inl ⟨rfl, rfl⟩, .nil⟩
  rcases hu.segment (K := []) (S := []) Natives.neutral_empty hc hs (by simp) htrack
    (sound_of_reached Natives.neutral_empty hm₀) with ⟨s, -, hstash, hend⟩ | ⟨_, _, _, _, -, -, -, hescapes⟩
  · rw [List.append_nil] at hstash
    rcases hend.nil with ⟨f, hf, hcurrent, hholds⟩ | ⟨f, hf | hf, -⟩
    · cases hf
      refine ⟨hcurrent, ?_⟩
      cases hholds with
      | cons hitem hnone =>
        cases hnone
        exact ⟨_, hstash, hitem⟩
    · cases hf
    · cases hf
  · exact absurd hescapes.length_lt (Nat.not_lt_zero _)

/-- Elaboration loses no key of a callable. -/
theorem exists_mem_callables (d : ClassDecl) (f : FrameId) (superclass : Option Class) {k : Callable}
    (hk : k ∈ d.callables) : ∃ k' ∈ (d.elaborate f superclass).toClassInfo.callables, k'.descriptor = k.descriptor := by
  rcases List.mem_append.mp hk with hk | hk
  · obtain ⟨decl, hdecl, rfl⟩ := List.mem_map.mp hk
    refine ⟨.method (decl.elaborate d.name), List.mem_append_left _ (List.mem_map_of_mem ?_), rfl⟩
    cases hstatic : decl.isStatic with
    | true => exact List.mem_append_right _ (List.mem_map_of_mem (List.mem_filter.mpr ⟨hdecl, hstatic⟩))
    | false =>
      have hinstance : decl ∈ d.methods.filter (fun m => !m.isStatic) :=
        List.mem_filter.mpr ⟨hdecl, by rw [hstatic]; rfl⟩
      exact List.mem_append_left _ (List.mem_map_of_mem hinstance)
  · obtain ⟨decl, hdecl, rfl⟩ := List.mem_map.mp hk
    exact ⟨_, List.mem_append_right _ (List.mem_map_of_mem (List.mem_map_of_mem hdecl)), rfl⟩

theorem hasStatic_elaborate (d : ClassDecl) (f : FrameId) (superclass : Option Class) {x : String} :
    (d.elaborate f superclass).toClassInfo.HasStatic x ↔ x ∈ d.staticNames := by
  have hdeclares : ∀ fd : FieldDecl, (fd.elaborate d.name).declares x = true ↔ x ∈ fd.vars.map Declarator.name := by
    intro fd
    simp only [FieldDecl.declares, FieldDecl.elaborate, List.any_eq_true, List.mem_map, beq_iff_eq]
    constructor
    · rintro ⟨v, ⟨v', hv', rfl⟩, hname⟩
      exact ⟨v', hv', hname⟩
    · rintro ⟨v, hv, hname⟩
      exact ⟨_, ⟨v, hv, rfl⟩, hname⟩
  rw [ClassDecl.staticNames, List.mem_flatMap]
  constructor
  · rintro ⟨fd, hfd, hx⟩
    obtain ⟨fd', hfd', rfl⟩ := List.mem_map.mp hfd
    exact ⟨fd', hfd', (hdeclares fd').mp hx⟩
  · rintro ⟨fd, hfd, hx⟩
    exact ⟨fd.elaborate d.name, List.mem_map_of_mem hfd, (hdeclares fd).mpr hx⟩

/-- A static field has a type to be set up with. -/
theorem ClassInfo.HasStatic.lookup {c : ClassInfo} {x : String} (h : c.HasStatic x) :
    ∃ t, c.staticVars.lookup x = some t := by
  obtain ⟨fd, hfd, hx⟩ := h
  obtain ⟨v, hv, hname⟩ := List.any_eq_true.mp hx
  have hmem : (x, fd.type) ∈ c.staticVars := by
    rw [← beq_iff_eq.mp hname]
    exact List.mem_flatMap.mpr ⟨fd, hfd, List.mem_map_of_mem hv⟩
  by_contra hnone
  rw [not_exists, ← Option.eq_none_iff_forall_ne_some] at hnone
  have hother := List.lookup_eq_none_iff.mp hnone (x, fd.type) hmem
  simp at hother

section Members

variable {d : ClassDecl} {f : FrameId} {superclass : Option Class} (hp : ∀ d ∈ p, d.Plain)
  (hm : Reached Natives.empty p m) (hfinished : m.registers.control = [])
  (hd : m.registers.env.findClass d.name = .ok (d.elaborate f superclass))

include hp hm hfinished

/-- All that was to be bound is bound. -/
theorem forming_of_finished : Forming .strict [] m.registers.env := by
  rcases Phase.strict hp hm with ⟨hc, -, -⟩ | ⟨-, hdeclares, -⟩ | ⟨c, below, f, -, -, -, -, he⟩ | ⟨f, -, he⟩
  · rw [hfinished] at hc
    cases hc
  · rw [hfinished] at hdeclares
    exact hdeclares.elim
  · exact he
  · exact he

include hd

theorem bindsMembers_of_finished : BindsMembers m.registers.env f d := by
  obtain ⟨roles, hscoped, hplays⟩ := exists_scoped hm
  have hrole : roles[f]? = some (.cls (d.elaborate f superclass)) := (hscoped.layout.classes _ _ hd).2
  have hcls : Plays p f (.cls (d.elaborate f superclass)) := hplays _ _ hrole
  refine ⟨fun x => ⟨?_, ?_⟩, fun x => ⟨?_, ?_⟩, fun x c hc => ?_⟩
  · rintro ⟨k, hk⟩
    obtain ⟨c, hc, -, -, hx, hmem⟩ := hscoped.layout.closures f x k hk
    rw [hrole] at hc
    cases hc
    obtain ⟨k₀, hk₀, hkey⟩ := exists_of_mem_callables hmem
    exact ⟨k₀, hk₀, hkey.trans hx⟩
  · rintro ⟨k, hk, rfl⟩
    obtain ⟨k', hk', hkey⟩ := exists_mem_callables d f superclass hk
    have hbound := (forming_of_finished hp hm hfinished).bound trivial hd _ (List.mem_cons_self ..)
    have hbinds := hbound.bindsIn k' hk'
    rw [← hkey]
    exact ⟨_, hbinds⟩
  · rintro ⟨id, hid⟩
    rw [← hasStatic_elaborate d f superclass]
    cases place_of_variable hm hid with
    | static hc hstatic =>
      cases hcls.unique hc
      exact hstatic
    | field hc => cases hcls.unique hc
    | call hcall =>
      obtain ⟨k, object, hcall⟩ := hcall
      cases hcls.unique hcall
    | block hblock => cases hcls.unique hblock
  · intro hx
    rw [← hasStatic_elaborate d f superclass] at hx
    obtain ⟨t, ht⟩ := hx.lookup
    obtain ⟨done, hstatic, htypes⟩ := (underway_of_reached hp hm).types _ _ hd
    rw [hfinished] at hstatic
    have hown : m.registers.env.ownType? (d.elaborate f superclass).toClassInfo x = some t := by
      rw [htypes, ← ht, hstatic]
      simp [waiting]
    obtain ⟨id, hid, -⟩ := Option.bind_eq_some_iff.mp hown
    exact ⟨id, ownVariable?_eq_some.mp hid⟩
  · obtain rfl := class_is_global hm hc
    cases hcls.unique (.inl ⟨rfl, rfl⟩)

end Members

theorem bindsClasses_of_made (hm : Reached Natives.empty p m) (hmade : ∀ d ∈ p.classes, m.registers.env.Made d) :
    BindsClasses m.registers.env p := by
  refine ⟨fun x => ⟨?_, ?_⟩, fun x b hb => ?_⟩
  · rintro ⟨c, hc⟩
    obtain ⟨hx, d, g, superclass, hd, rfl⟩ := (Origins.visited (.inl hm)).classes _ _ c hc
    rcases hd with hd | rfl
    · exact ⟨d, List.mem_append_right _ hd, hx.symm⟩
    · -- the root that is taken for granted, or the class of that name that the program declares
      by_cases hroot : p.any (fun c => c.name == rootName) = true
      · obtain ⟨d, hd, hname⟩ := List.any_eq_true.mp hroot
        exact ⟨d, List.mem_append_right _ hd, (beq_iff_eq.mp hname).trans hx.symm⟩
      · refine ⟨.root, List.mem_append_left _ ?_, hx.symm⟩
        rw [if_neg hroot]
        exact .head _
  · rintro ⟨d, hd, rfl⟩
    obtain ⟨f, superclass, hfind⟩ := hmade d hd
    exact ⟨_, findClass_eq_ok.mp hfind⟩
  · have hplays : Plays p global .global := .inl ⟨rfl, rfl⟩
    cases b with
    | cls c => exact ⟨c, rfl⟩
    | closure k =>
      obtain ⟨roles, hscoped, -⟩ := exists_scoped hm
      obtain ⟨c, hc, -⟩ := hscoped.layout.closures global x k hb
      rw [hscoped.layout.first] at hc
      cases hc
    | var id =>
      cases place_of_variable hm hb with
      | static hc => cases hplays.unique hc
      | field hc => cases hplays.unique hc
      | call hcall =>
        obtain ⟨k, object, hcall⟩ := hcall
        cases hplays.unique hcall
      | block hblock => cases hplays.unique hblock

/-- A program that runs to its end without a fault leaves the result of its main call on the stash and nothing
else, in the global frame, which binds its classes and the root and nothing else; and the frame of each class binds
its methods, constructors and static fields and nothing else. -/
theorem finish_leaves_result (hparse : Program.parse source = .ok p) (hm : Reached Natives.empty p m)
    (hfinished : m.isFinished = true) : LeavesResult p m := by
  have hcontrol : m.registers.control = [] := by
    rw [isFinished, List.isEmpty_iff] at hfinished
    exact hfinished
  obtain ⟨m₀, e, hm₀, he, hc, hs, hcurrent, hu, hmade⟩ := (course_of_reached hm).exists_mainCall hcontrol
  obtain ⟨hback, item, hitem, hresult⟩ := exists_result hm₀ hc hs hu
  refine ⟨⟨m₀, e, item, hm₀, he, hc, hs, hu, hitem, hresult⟩, hback.trans hcurrent, bindsClasses_of_made hm hmade,
    fun d hd => ?_⟩
  obtain ⟨f, superclass, hfind⟩ := hmade d hd
  exact ⟨_, hfind, bindsMembers_of_finished (Program.parse_plain hparse) hm hcontrol hfind⟩

/-- A source with a static field whose initialiser calls a method of another class. -/
def finishSource : String :=
  "class B \x7b static int two() \x7b return 2; \x7d \x7d class A \x7b static int n = B.two(); \x7d "
    ++ "class M \x7b public static void main(String[] a) \x7b A.n = A.n + 1; \x7d \x7d"

/-- The program declares three classes and runs to its end, where one item is left. -/
theorem finish_leaves_result_static : ∃ p m, Program.parse finishSource = .ok p ∧ Reached Natives.empty p m ∧
    m.isFinished = true ∧ p.classes.map ClassDecl.name = ["Object", "B", "A", "M"] ∧ LeavesResult p m := by
  have hall : ((sample? finishSource 200).any Machine.isFinished && (Program.parse finishSource).toOption.map (fun p =>
      p.classes.map ClassDecl.name) == some ["Object", "B", "A", "M"]) = true := by
    rw [sample?_eq_parseDecoded?, Program.parse_eq_parseDecoded?]
    decide +kernel
  rw [Bool.and_eq_true, beq_iff_eq] at hall
  obtain ⟨hrun, hnames⟩ := hall
  obtain ⟨m, hm, hfinished⟩ := (Option.any_eq_true _ _).mp hrun
  obtain ⟨p, hp, hreached⟩ := exists_of_sample? hm
  rw [hp] at hnames
  exact ⟨p, m, hp, hreached, hfinished, Option.some.inj hnames, finish_leaves_result hp hreached hfinished⟩

end Finished

end StashMachine
