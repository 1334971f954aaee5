import StashMachine.Proofs.Lookup

/-!
# StashMachine.Proofs.Qualifiers — what the qualifiers of bare calls stand for

Elaboration puts a qualifier before every bare call: `this` where there is an object, else the name of the
class.  The machine looks either of them up as any other name.

* `Callable.qualifier`: what is put before the bare calls of a callable.
* `RunsCode p env c q`: code of the class `c` runs, whose bare calls got the qualifier `q`.
* `Captured env c`: the name of the class stands for a variable of another type.
* `bare_call_resolves`: a bare call resolves from its class, except that static code may find the name of the
  class captured.
-/

namespace StashMachine

open Environment Machine Grammar

/-- What elaboration puts before the bare calls of a callable of a class. -/
def Callable.qualifier (k : Callable) (className : String) : Path :=
  match k with
  | .method m => m.qualifier className
  | .constructor _ => .simple thisName

/-- Code of the class `c` runs: the body of one of its callables, or the initialiser of a static field.
Elaboration has put the qualifier `q` before its bare calls. -/
inductive RunsCode (p : Program) (env : Environment) (c : Class) : Path → Prop
  | body {blocks rest : List FrameId} {f : FrameId} {k : Closure} {object : Option (Class × FrameId)} :
    env.chain env.current = blocks ++ f :: rest → (∀ b ∈ blocks, Plays p b .block) →
    Plays p f (.call k object) → k.className = c.name → RunsCode p env c (k.callable.qualifier c.name)
  | initialiser : env.chain env.current = classFrames c.lineage → RunsCode p env c (Path.ofString c.name)

/-- The name of the class stands for a variable that is declared with another type. -/
def Captured (env : Environment) (c : Class) : Prop :=
  ∃ id v, env.lookup? c.name = some (.var id) ∧ env.var? id = some v ∧ v.type ≠ .named c.name

/-! ### Paths -/

theorem Path.cut_of_notMem {cs : List Char} (h : '.' ∉ cs) : cut cs = (cs, []) := by
  induction cs with
  | nil => rfl
  | cons x cs ih =>
    have hx : x ≠ '.' := fun hx => h (hx ▸ .head _)
    rw [cut, ih (fun hmem => h (.tail _ hmem))]
    exact if_neg hx

/-- An identifier has no dots. -/
theorem ofString_eq_simple {s : String} (h : Rule.identifier.Spells s.toList) :
    Path.ofString s = .simple s := by
  have hdot : '.' ∉ s.toList := by
    intro hmem
    exact absurd (isNameChar_of_spells h _ hmem) (by decide)
  rw [Path.ofString, Path.cut_of_notMem hdot]
  simp

section Qualifiers

variable {p : Program} {m : Machine} {c : Class} {q : Path} {source : String}

/-- A call without an object calls a static closure. -/
theorem isStatic_of_plays {f : FrameId} {k : Closure} {object : Option (Class × FrameId)}
    (hm : Reached Natives.empty p m) (hf : Plays p f (.call k object)) (hlt : f < m.registers.env.frames.size) :
    k.callable.isStatic = object.isNone := by
  obtain ⟨roles, hscoped, hplays⟩ := exists_scoped hm
  obtain ⟨ρ, hρ⟩ := hscoped.layout.exists_role hlt
  obtain rfl := hf.unique (hplays f ρ hρ)
  have hlies := hscoped.layout.lies f _ hρ
  cases object with
  | none => exact hlies.1
  | some object => exact hlies.1

theorem Callable.qualifier_of_isStatic {k : Callable} {x : String} (h : k.isStatic = true) :
    k.qualifier x = Path.ofString x := by
  cases k with
  | method m => exact if_pos h
  | constructor k => cases h

theorem Callable.qualifier_of_not_isStatic {k : Callable} {x : String} (h : k.isStatic = false) :
    k.qualifier x = .simple thisName := by
  cases k with
  | method m => exact if_neg (by rw [show m.isStatic = false from h]; decide)
  | constructor k => rfl

/-- The qualifier is `this`, which is declared with the class, or the name of the class. -/
theorem RunsCode.cases (hparse : Program.parse source = .ok p) (hm : Reached Natives.empty p m)
    (h : RunsCode p m.registers.env c q) :
    (q = .simple thisName ∧ m.registers.env.nameType thisName = .ok (.named c.name)) ∨
      q = Path.ofString c.name := by
  cases h with
  | @body blocks rest f k object hchain hblocks hf hname =>
    have hstatic := isStatic_of_plays hm hf (lt_of_mem_chain hm (by rw [hchain]; simp))
    cases object with
    | none => exact .inr (Callable.qualifier_of_isStatic hstatic)
    | some object =>
      refine .inl ⟨Callable.qualifier_of_not_isStatic hstatic, ?_⟩
      rw [← hname]
      exact nameType_this hparse hm hchain hf
  | initialiser hchain => exact .inr rfl

/-- The name of a class has a type wherever code runs: that of the class, unless it is captured. -/
theorem nameType_className (hparse : Program.parse source = .ok p) (hm : Reached Natives.empty p m)
    (hc : m.registers.env.findClass c.name = .ok c) : ∃ t, m.registers.env.nameType c.name = .ok t ∧
      (t = .named c.name ↔ ¬ Captured m.registers.env c) := by
  obtain ⟨b, hlookup⟩ := exists_lookup?_class hm hc
  obtain ⟨f, hf⟩ := exists_bound?_of_lookup? hlookup
  cases b with
  | var id =>
    obtain ⟨v, hv, -⟩ := exists_variable (Program.parse_plain hparse) hm hf
    refine ⟨v.type, nameType_var hlookup hv, fun htype hcaptured => ?_, fun hfree => ?_⟩
    · obtain ⟨id', v', hlookup', hv', hne⟩ := hcaptured
      rw [hlookup] at hlookup'
      cases hlookup'
      rw [hv] at hv'
      cases hv'
      exact hne htype
    · by_contra hne
      exact hfree ⟨id, v, hlookup, hv, hne⟩
  | closure k => exact absurd hf (not_closure_of_spells hm (spells_of_findClass hparse hm hc) k)
  | cls d =>
    -- classes are bound in the global frame only, and there the name stands for `c`
    obtain rfl := class_is_global hm hf
    rw [findClass_eq_ok, hf] at hc
    cases hc
    refine ⟨.named c.name, nameType_cls hlookup, fun _ hcaptured => ?_, fun _ => rfl⟩
    obtain ⟨id, v, hvar, -⟩ := hcaptured
    rw [hlookup] at hvar
    cases hvar

/-- Two steps after a bare call the static type of its qualifier lies on the stash.  It is the class whose
code runs, from which the overload is then resolved, if the code has an object or if the name of the class is
not captured, and only then. -/
theorem bare_call_resolves {x : String} {args : List Expr} {K : List Item}
    (hparse : Program.parse source = .ok p) (hm : Reached Natives.empty p m)
    (hc : m.registers.env.findClass c.name = .ok c) (hruns : RunsCode p m.registers.env c q)
    (hcontrol : m.registers.control = .expr ((Expr.call (.simple x) args).qualify q) :: K) :
    ∃ m₂ t, evaluate Natives.empty 2 m = .ok () m₂ ∧
      m₂.registers.stash = .type t :: m.registers.stash ∧ m.registers.env.pathType q = .ok t ∧
      (t = .named c.name ↔ q = .simple thisName ∨ ¬ Captured m.registers.env c) := by
  have hspells := spells_of_findClass hparse hm hc
  obtain ⟨y, t, rfl, htype, hiff⟩ : ∃ y t, q = .simple y ∧ m.registers.env.nameType y = .ok t ∧
      (t = .named c.name ↔ q = .simple thisName ∨ ¬ Captured m.registers.env c) := by
    rcases hruns.cases hparse hm with ⟨hq, hthis⟩ | hq
    · exact ⟨thisName, _, hq, hthis, fun _ => .inl hq, fun _ => rfl⟩
    · obtain ⟨t, ht, hiff⟩ := nameType_className hparse hm hc
      rw [ofString_eq_simple hspells] at hq
      have hthis : q ≠ .simple thisName := by
        rw [hq]
        intro hthis
        refine notMem_keywords hspells ?_
        rw [Path.simple.inj hthis]
        decide
      exact ⟨c.name, t, hq, ht, hiff.trans ⟨.inr, fun h => h.resolve_left hthis⟩⟩
  obtain ⟨m₁, hnext₁, ⟨rest, hcontrol₁⟩, hstash₁, henv₁⟩ := exists_next Natives.empty
    (Q := fun r => (∃ rest, r.control = .typeOf (.name (.simple y)) :: rest) ∧
      r.stash = m.registers.stash ∧ r.env = m.registers.env) hcontrol ⟨⟨_, rfl⟩, rfl, rfl⟩
  obtain ⟨m₂, hnext₂, hstash₂⟩ := exists_next Natives.empty
    (Q := fun r => r.stash = .type t :: m.registers.stash) hcontrol₁ (by
      simp only [Step.perform, Step.typeOf, Step.ends_bind, Step.ends_ask, Step.ends_push, henv₁, htype,
        hstash₁, Except.ok.injEq, reduceCtorEq, false_implies, implies_true, and_true]
      rintro _ rfl
      rfl)
  refine ⟨m₂, t, ?_, hstash₂, htype, hiff⟩
  rw [evaluate_succ, hnext₁.2]
  exact hnext₂.2

/-- A source whose class `M` has a static field of a given name, and another one that a bare call sets. -/
def bareCallSource (field : String) : String :=
  "class M \x7b static int " ++ field ++ " = 5; static int f() \x7b return 1; \x7d static int r = f(); "
    ++ "public static void main(String[] a) \x7b \x7d \x7d"

/-- The class of a given name, whose static field a call without arguments is about to set, with the name of
the method and what is behind it. -/
def nextBareCall? (className : String) (m : Machine) : Option (Class × String × List Item) :=
  match m.registers.control, m.registers.env.findClass className with
  | .expr (.call (.field q x) []) :: K, .ok c =>
    if q = .ofString className ∧ c.name = className ∧
      m.registers.env.chain m.registers.env.current = classFrames c.lineage then some (c, x, K) else none
  | _, _ => none

theorem runsCode_of_nextBareCall? {className x : String} {K : List Item}
    (h : nextBareCall? className m = some (c, x, K)) :
    c.name = className ∧ m.registers.env.findClass c.name = .ok c ∧
      RunsCode p m.registers.env c (Path.ofString c.name) ∧
      m.registers.control = .expr ((Expr.call (.simple x) []).qualify (Path.ofString c.name)) :: K := by
  unfold nextBareCall? at h
  split at h
  · rename_i hcontrol hfind
    split at h
    · rename_i hif
      cases h
      obtain ⟨rfl, hname, hchain⟩ := hif
      rw [← hname] at hfind hcontrol
      exact ⟨hname, hfind, .initialiser hchain, hcontrol⟩
    · cases h
  · cases h

/-- The call resolves from its class if the other field has another name. -/
theorem bare_call_resolves_field : ∃ p m c x K m₂, Program.parse (bareCallSource "m") = .ok p ∧
    Reached Natives.empty p m ∧ m.registers.env.findClass c.name = .ok c ∧ c.name = "M" ∧
    RunsCode p m.registers.env c (Path.ofString c.name) ∧
    m.registers.control = .expr ((Expr.call (.simple x) []).qualify (Path.ofString c.name)) :: K ∧
    evaluate Natives.empty 2 m = .ok () m₂ ∧
    m₂.registers.stash = .type (.named c.name) :: m.registers.stash := by
  have hrun : (sample? (bareCallSource "m") 13).any (fun m => (nextBareCall? "M" m).isSome &&
      (m.registers.env.nameType "M").toOption == some (.named "M")) = true := by
    rw [sample?_eq_parseDecoded?]
    decide +kernel
  obtain ⟨m, hm, hrun⟩ := (Option.any_eq_true _ _).mp hrun
  obtain ⟨p, hp, hreached⟩ := exists_of_sample? hm
  rw [Bool.and_eq_true, beq_iff_eq] at hrun
  obtain ⟨⟨c, x, K⟩, hcall⟩ := Option.isSome_iff_exists.mp hrun.1
  obtain ⟨hname, hc, hruns, hcontrol⟩ := runsCode_of_nextBareCall? (p := p) hcall
  obtain ⟨m₂, t, hevaluate, hstash, -, hiff⟩ := bare_call_resolves hp hreached hc hruns hcontrol
  have hfree : ¬ Captured m.registers.env c := by
    obtain ⟨t, ht, hfree⟩ := nameType_className hp hreached hc
    refine hfree.mp ?_
    rw [hname, eq_ok_of_toOption hrun.2] at ht
    cases ht
    rw [hname]
  rw [hiff.mpr (.inr hfree)] at hstash
  exact ⟨p, m, c, x, K, m₂, hp, hreached, hc, hname, hruns, hcontrol, hevaluate, hstash⟩

/-- The call does not resolve from its class if the other field has the name of the class. -/
theorem bare_call_captured : ∃ p m c x K m₂, Program.parse (bareCallSource "M") = .ok p ∧
    Reached Natives.empty p m ∧ m.registers.env.findClass c.name = .ok c ∧ c.name = "M" ∧
    RunsCode p m.registers.env c (Path.ofString c.name) ∧
    m.registers.control = .expr ((Expr.call (.simple x) []).qualify (Path.ofString c.name)) :: K ∧
    evaluate Natives.empty 2 m = .ok () m₂ ∧
    m₂.registers.stash.head? = some (.type (.primitive .int)) := by
  have hrun : (sample? (bareCallSource "M") 13).any (fun m => (nextBareCall? "M" m).isSome &&
      (m.after? Natives.empty 2).any (fun m₂ => m₂.foundType? == some (.primitive .int))) = true := by
    rw [sample?_eq_parseDecoded?]
    decide +kernel
  obtain ⟨m, hm, hrun⟩ := (Option.any_eq_true _ _).mp hrun
  obtain ⟨p, hp, hreached⟩ := exists_of_sample? hm
  rw [Bool.and_eq_true, Option.any_eq_true] at hrun
  obtain ⟨hcall, m₂, hm₂, htop⟩ := hrun
  obtain ⟨⟨c, x, K⟩, hcall⟩ := Option.isSome_iff_exists.mp hcall
  obtain ⟨hname, hc, hruns, hcontrol⟩ := runsCode_of_nextBareCall? (p := p) hcall
  exact ⟨p, m, c, x, K, m₂, hp, hreached, hc, hname, hruns, hcontrol, after?_eq_some.mp hm₂,
    foundType?_eq_some.mp (beq_iff_eq.mp htop)⟩

end Qualifiers

end StashMachine
