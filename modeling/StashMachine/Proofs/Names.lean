import StashMachine.Proofs.StepLogic
import StashMachine.Proofs.Store

/-!
# StashMachine.Proofs.Names — what a dotted name stands for

* `FieldOf env t v x id`: the field `x` of something that is declared as `t` and holds `v` is the variable
  `id`.
* `Names env q place`: the dotted name `q` leads to a variable or to a class; `Denotes env q v`: to a variable
  that holds the value `v`.  `Denotes.unique`: there is one at most.
* `find_simple`, `select_found`, `deref_found`: the steps that look a name up find what it stands for.  The
  length of an array is the exception: it is a variable that nothing names.
-/

namespace StashMachine

open Environment Step

/-- The variable of a static field of a class or of one of its ancestors. -/
def StaticField (env : Environment) (c : Class) (x : String) (id : VarId) : Prop :=
  ∃ info, c.findField? x = some info ∧ info.isStatic = true ∧ env.bound? info.owner.frame x = some (.var id)

/-- The variable of the field `x` of something that is declared as `t` and holds the value `v`.  The declared
class says whether the field is static; if it is not, the object that is held has it. -/
inductive FieldOf (env : Environment) (t : TypeName) (v : Option Value) (x : String) (id : VarId) : Prop
  | static {c : Class} : env.findClass t.text = .ok c → StaticField env c x id → FieldOf env t v x id
  | own {c d : Class} {info : FieldInfo} {f : FrameId} : env.findClass t.text = .ok c →
    c.findField? x = some info → info.isStatic = false → v = some (.object d f) →
    env.bound? f x = some (.var id) → FieldOf env t v x id

/-- What a dotted name can lead to. -/
inductive Place
  | var (id : VarId)
  | cls (c : Class)

/-- The item of the stash for a place. -/
def Place.item : Place → StashItem
  | .var id => .var id
  | .cls c => .cls c

/-- The dotted name leads to the place. -/
inductive Names (env : Environment) : Path → Place → Prop
  | var {x : String} {id : VarId} : env.lookup? x = some (.var id) → Names env (.simple x) (.var id)
  | cls {x : String} {c : Class} : env.lookup? x = some (.cls c) → Names env (.simple x) (.cls c)
  | static {q : Path} {c : Class} {x : String} {id : VarId} : Names env q (.cls c) →
    StaticField env c x id → Names env (.field q x) (.var id)
  | field {q : Path} {y id : VarId} {v : Variable} {x : String} : Names env q (.var y) →
    env.var? y = some v → FieldOf env v.type v.value x id → Names env (.field q x) (.var id)

/-- The dotted name leads to a variable that holds the value. -/
def Denotes (env : Environment) (q : Path) (v : Value) : Prop :=
  ∃ id y, Names env q (.var id) ∧ env.var? id = some y ∧ y.value = some v

section Unique

variable {env : Environment} {q : Path} {x : String} {id id' : VarId}

theorem StaticField.unique {c : Class} (h : StaticField env c x id) (h' : StaticField env c x id') :
    id = id' := by
  obtain ⟨info, hinfo, -, hid⟩ := h
  obtain ⟨info', hinfo', -, hid'⟩ := h'
  rw [hinfo] at hinfo'
  cases hinfo'
  rw [hid] at hid'
  cases hid'
  rfl

theorem FieldOf.unique {t : TypeName} {v : Option Value} (h : FieldOf env t v x id)
    (h' : FieldOf env t v x id') : id = id' := by
  cases h with
  | static hc hid =>
    cases h' with
    | static hc' hid' =>
      rw [hc] at hc'
      cases hc'
      exact hid.unique hid'
    | own hc' hinfo' hstatic' =>
      obtain ⟨info, hinfo, hstatic, -⟩ := hid
      rw [hc] at hc'
      cases hc'
      rw [hinfo] at hinfo'
      cases hinfo'
      rw [hstatic] at hstatic'
      cases hstatic'
  | own hc hinfo hstatic hv hid =>
    cases h' with
    | static hc' hid' =>
      obtain ⟨info', hinfo', hstatic', -⟩ := hid'
      rw [hc] at hc'
      cases hc'
      rw [hinfo] at hinfo'
      cases hinfo'
      rw [hstatic] at hstatic'
      cases hstatic'
    | own _ _ _ hv' hid' =>
      rw [hv] at hv'
      cases hv'
      rw [hid] at hid'
      cases hid'
      rfl

/-- A dotted name leads to one place at most. -/
theorem Names.unique {place place' : Place} (h : Names env q place) (h' : Names env q place') :
    place = place' := by
  induction h generalizing place' with
  | var hlookup =>
    cases h' with
    | var hlookup' =>
      rw [hlookup] at hlookup'
      cases hlookup'
      rfl
    | cls hlookup' =>
      rw [hlookup] at hlookup'
      cases hlookup'
  | cls hlookup =>
    cases h' with
    | var hlookup' =>
      rw [hlookup] at hlookup'
      cases hlookup'
    | cls hlookup' =>
      rw [hlookup] at hlookup'
      cases hlookup'
      rfl
  | static _ hid ih =>
    cases h' with
    | static hq' hid' =>
      cases ih hq'
      rw [hid.unique hid']
    | field hq' => cases ih hq'
  | field _ hy hid ih =>
    cases h' with
    | static hq' => cases ih hq'
    | field hq' hy' hid' =>
      cases ih hq'
      rw [hy] at hy'
      cases hy'
      rw [hid.unique hid']

/-- A dotted name denotes one value at most. -/
theorem Denotes.unique {v v' : Value} (h : Denotes env q v) (h' : Denotes env q v') : v = v' := by
  obtain ⟨id, y, hid, hy, hv⟩ := h
  obtain ⟨id', y', hid', hy', hv'⟩ := h'
  cases hid.unique hid'
  rw [hy] at hy'
  cases hy'
  rw [hv] at hv'
  cases hv'
  rfl

end Unique

/-- The length of an array. -/
def lengthVariable (n : Int32) : Variable := ⟨"length", .primitive .int, some (.int n)⟩

section Steps

variable {control : List Item} {stash : List StashItem} {env : Environment} {out : List String}

theorem ownVariable?_eq_some {c : ClassInfo} {x : String} {id : VarId} :
    env.ownVariable? c x = some id ↔ env.bound? c.frame x = some (.var id) := by
  simp only [ownVariable?, bound?]
  split <;> simp_all

theorem value_eq_ok {id : VarId} {v : Value} :
    env.value id = .ok v ↔ ∃ y, env.var? id = some y ∧ y.value = some v := by
  unfold Environment.value
  split
  · rename_i name t w hy
    simp [hy]
  · rename_i name t hy
    simp [hy]
  · rename_i hy
    simp [hy]

theorem staticField_ends (c : Class) (x : String) (r : Registers) :
    Ends (Step.staticField c x) r (fun id r' => r' = r ∧ StaticField r.env c x id)
      (fun _ r' => r' = r) := by
  unfold Step.staticField
  split
  · rfl
  · rename_i info hinfo
    simp only [ends_ite, ends_throw, ends_bind, ends_get]
    refine ⟨fun _ => trivial, fun hstatic => ?_⟩
    split
    · rename_i id hid
      exact ⟨rfl, info, hinfo, by simpa using hstatic, ownVariable?_eq_some.mp hid⟩
    · rfl

theorem instanceField_ends (q : String) (v : Option Value) (x : String) (r : Registers) :
    Ends (instanceField q v x) r
      (fun id r' => r' = r ∧ ∃ d f, v = some (.object d f) ∧ r.env.bound? f x = some (.var id))
      (fun _ r' => r' = r) := by
  unfold instanceField
  split
  · rename_i d f
    simp only [ends_bind, ends_get]
    split
    · rename_i id hid
      exact ⟨rfl, d, f, rfl, hid⟩
    · rfl
  · rfl
  · rfl
  · rfl

/-- The length of an array is a new variable. -/
theorem arrayLength_ends (q x : String) (v : Option Value) (r : Registers) :
    Ends (arrayLength q x v) r
      (fun id r' => ∃ n, r' = { r with env := r.env.allocate (lengthVariable n) } ∧
        r'.env.var? id = some (lengthVariable n) ∧ x = "length")
      (fun _ r' => r' = r) := by
  unfold arrayLength
  rw [ends_ite]
  refine ⟨fun hx => ?_, fun _ => rfl⟩
  split
  · refine ⟨_, rfl, ?_, hx⟩
    rw [newestVariable_allocate, var?_allocate, if_pos rfl]
    rfl
  · rfl
  · rfl
  · rfl

theorem fieldOf_ends (q : String) (t : TypeName) (v : Option Value) (x : String) (r : Registers) :
    Ends (fieldOf q t v x) r
      (fun id r' => r' = r ∧ FieldOf r.env t v x id ∨
        ∃ n, r' = { r with env := r.env.allocate (lengthVariable n) } ∧
          r'.env.var? id = some (lengthVariable n) ∧ x = "length" ∧ t.element?.isSome = true)
      (fun _ r' => r' = r) := by
  unfold fieldOf
  split
  · refine (arrayLength_ends q x v r).mono ?_ (fun _ _ h => h)
    rintro id r' ⟨n, hr, hid, hx⟩
    exact .inr ⟨n, hr, hid, hx, rfl⟩
  · rfl
  · simp only [ends_bind, ends_ask]
    refine ⟨fun c hc => ?_, fun e _ => trivial⟩
    split
    · rfl
    · rename_i info hinfo
      rw [ends_ite]
      refine ⟨fun _ => ?_, fun hstatic => ?_⟩
      · refine (staticField_ends c x r).mono ?_ (fun _ _ h => h)
        rintro id r' ⟨rfl, hid⟩
        exact .inl ⟨rfl, .static hc hid⟩
      · refine (instanceField_ends q v x r).mono ?_ (fun _ _ h => h)
        rintro id r' ⟨rfl, d, f, hv, hid⟩
        exact .inl ⟨rfl, .own hc hinfo (by simpa using hstatic) hv hid⟩

/-- What a look-up of a dotted name has left: the place that it names, or the length of an array. -/
inductive Found (env : Environment) : Path → StashItem → Environment → Prop
  | named {q : Path} {a : Place} : Names env q a → Found env q a.item env
  | length {q : Path} {y id : VarId} {v : Variable} {n : Int32} {env' : Environment} :
    Names env q (.var y) → env.var? y = some v → v.type.element?.isSome = true →
    env'.var? id = some (lengthVariable n) → Found env (.field q "length") (.var id) env'

/-- A simple name is looked up. -/
theorem find_simple (x : String) : Ends (find (.simple x)) ⟨control, stash, env, out⟩
    (fun _ r => ∃ place : Place, Names env (.simple x) place ∧ r = ⟨control, place.item :: stash, env, out⟩)
    (fun _ _ => True) := by
  simp only [find, ends_bind, ends_ask]
  refine ⟨fun b hb => ?_, fun _ _ => trivial⟩
  have hlookup : env.lookup? x = some b := by
    unfold findName at hb
    split at hb
    · rename_i b' hb'
      cases hb
      exact hb'
    · cases hb
  cases b with
  | var id => exact ⟨.var id, .var hlookup, rfl⟩
  | cls c => exact ⟨.cls c, .cls hlookup, rfl⟩
  | closure k => trivial

/-- A field is looked up behind its qualifier.  The length of an array has no fields. -/
theorem select_found {q : Path} {item : StashItem} {env' : Environment} (hfound : Found env q item env')
    (x : String) : Ends (select x) ⟨control, item :: stash, env', out⟩
      (fun _ r => ∃ item' env'', Found env (.field q x) item' env'' ∧
        r = ⟨control, item' :: stash, env'', out⟩)
      (fun _ _ => True) := by
  rw [select, ends_bind, ends_pop]
  cases hfound with
  | @named _ place hnames =>
    cases place with
    | cls c =>
      simp only [Place.item, ends_bind, ends_push]
      refine (staticField_ends c x _).mono ?_ (fun _ _ _ => trivial)
      rintro id r ⟨rfl, hid⟩
      exact ⟨_, env, .named (a := .var id) (.static hnames hid), rfl⟩
    | var y =>
      simp only [Place.item, ends_bind, ends_get]
      split
      · rename_i v hy
        rw [ends_bind]
        refine (fieldOf_ends _ _ _ x _).mono ?_ (fun _ _ _ => trivial)
        rintro id r (⟨rfl, hid⟩ | ⟨n, rfl, hid, rfl, harray⟩)
        · exact ⟨_, env, .named (a := .var id) (.field hnames hy hid), rfl⟩
        · exact ⟨_, _, .length hnames hy harray hid, rfl⟩
      · trivial
  | length _ _ _ hid =>
    simp only [ends_bind, ends_get, hid]
    trivial

/-- What the evaluation of a dotted name has left: the value that it denotes, the class that it names, or the
length of an array. -/
inductive Evaluated (env : Environment) : Path → StashItem → Environment → Prop
  | value {q : Path} {v : Value} : Denotes env q v → Evaluated env q (.value v) env
  | cls {q : Path} {d : Class} : Names env q (.cls d) → Evaluated env q (.cls d) env
  | length {q : Path} {x : String} {n : Int32} {env' : Environment} :
    Evaluated env (.field q x) (.value (.int n)) env'

theorem deref_found {q : Path} {item : StashItem} {env' : Environment} (hfound : Found env q item env') :
    Ends deref ⟨control, item :: stash, env', out⟩
      (fun _ r => ∃ item', Evaluated env q item' env' ∧ r = ⟨control, item' :: stash, env', out⟩)
      (fun _ _ => True) := by
  rw [deref, ends_bind, ends_pop]
  cases hfound with
  | @named _ place hnames =>
    cases place with
    | var id =>
      simp only [Place.item, ends_bind, ends_ask, ends_pushValue]
      refine ⟨fun v hv => ?_, fun _ _ => trivial⟩
      obtain ⟨y, hy, hv⟩ := value_eq_ok.mp hv
      exact ⟨_, .value ⟨id, y, hnames, hy, hv⟩, rfl⟩
    | cls d => exact ⟨_, .cls hnames, rfl⟩
  | length _ _ _ hid =>
    simp only [ends_bind, ends_ask, ends_pushValue]
    refine ⟨fun v hv => ?_, fun _ _ => trivial⟩
    obtain ⟨y, hy, hv⟩ := value_eq_ok.mp hv
    rw [hid] at hy
    cases hy
    cases hv
    exact ⟨_, .length, rfl⟩

end Steps

end StashMachine
