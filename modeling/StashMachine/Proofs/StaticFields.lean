import StashMachine.Proofs.Assignability
import StashMachine.Proofs.Lookup

/-!
# StashMachine.Proofs.StaticFields — which variable a field name stands for in inherited code

The frame of a call on an object lies in the frame of the object, and that in the frame of the object's own
class, whatever class has declared the method.

* `OwnVars env`: every variable is bound once at most; `bound_injective`: so it is in every run.
* `RunsOn p env k r o x`: code of the closure `k` runs on an object, and `x` is none of its local variables and
  parameters.
* `Hides env r c x`: objects of the class `r` have a field `x`, or a class below `c` has set up a static one.
* `static_field_found`: a static field that `c` declares or inherits is found in the code of `c` if and only if it
  has been set up and the class of the object does not hide it.
-/

namespace StashMachine

open Environment Machine Grammar

/-! ### Variables are bound once -/

/-- Every variable that is bound is in the store, and it is bound by one frame and under one name. -/
structure OwnVars (env : Environment) : Prop where
  lt : ∀ f x id, env.bound? f x = some (.var id) → id < env.vars.size
  once : ∀ f g x y id, env.bound? f x = some (.var id) → env.bound? g y = some (.var id) → f = g ∧ x = y

namespace OwnVars

variable {env env' : Environment}

/-- No new bindings, and no fewer variables. -/
theorem of_bound? (h : OwnVars env) (hbound : ∀ f x, env'.bound? f x = env.bound? f x)
    (hsize : env.vars.size ≤ env'.vars.size) : OwnVars env' := by
  refine ⟨fun f x id hx => ?_, fun f g x y id hx hy => ?_⟩
  · rw [hbound] at hx
    exact Nat.lt_of_lt_of_le (h.lt f x id hx) hsize
  · rw [hbound] at hx hy
    exact h.once f g x y id hx hy

/-- A binding that is no variable. -/
theorem addBinding (h : OwnVars env) (f : FrameId) (x : String) {b : Binding} (hb : ∀ id, b ≠ .var id) :
    OwnVars (env.addBinding f x b) := by
  have hold : ∀ g y id, (env.addBinding f x b).bound? g y = some (.var id) →
      env.bound? g y = some (.var id) := by
    intro g y id hy
    rw [bound?_addBinding] at hy
    split at hy
    · exact absurd (Option.some.inj hy) (hb id)
    · exact hy
  exact ⟨fun g y id hy => h.lt g y id (hold g y id hy),
    fun g g' y y' id hy hy' => h.once g g' y y' id (hold g y id hy) (hold g' y' id hy')⟩

/-- A new variable is bound where it is declared, and nowhere else. -/
theorem addVariable (h : OwnVars env) (v : Variable) : OwnVars (env.addVariable v) := by
  have hsize : (env.addVariable v).vars.size = env.vars.size + 1 := Array.size_push ..
  refine ⟨fun f x id hx => ?_, fun f g x y id hx hy => ?_⟩
  · rw [bound?_addVariable] at hx
    split at hx
    · cases hx
      rw [hsize]
      exact Nat.lt_succ_self _
    · rw [hsize]
      exact Nat.lt_succ_of_lt (h.lt f x id hx)
  · rw [bound?_addVariable] at hx hy
    split at hx
    · rename_i hf
      split at hy
      · rename_i hg
        exact ⟨hf.1.trans hg.1.symm, hf.2.2.trans hg.2.2.symm⟩
      · cases hx
        exact absurd (h.lt g y _ hy) (Nat.lt_irrefl _)
    · split at hy
      · cases hy
        exact absurd (h.lt f x _ hx) (Nat.lt_irrefl _)
      · exact h.once f g x y id hx hy

theorem addVariables (h : OwnVars env) (vs : List Variable) : OwnVars (env.addVariables vs) := by
  induction vs generalizing env with
  | nil => exact h
  | cons v vs ih => exact ih (h.addVariable v)

theorem extend (h : OwnVars env) (around : FrameId) (name : String) : OwnVars (env.extend around name) :=
  h.of_bound? (fun f x => bound?_extend around name f x) (Nat.le_refl _)

theorem instantiate (h : OwnVars env) (c : Class) : OwnVars (env.instantiate c).2 := by
  obtain ⟨front, -, henv⟩ := exists_instantiate env c
  rw [henv]
  exact ((h.extend _ _).addVariables _).of_bound? (fun _ _ => rfl) (Nat.le_refl _)

theorem effect {r : Registers} {i : Item} (h : OwnVars r.env) (he : Effect r i env') : OwnVars env' := by
  cases he with
  | same => exact h
  | restore => exact h.of_bound? (fun _ _ => rfl) (Nat.le_refl _)
  | block => exact h.extend _ _
  | declare => exact h.addVariable _
  | allocate =>
    refine h.of_bound? (fun _ _ => rfl) ?_
    simp [allocate]
  | assign =>
    refine h.of_bound? (fun _ _ => rfl) ?_
    simp [assign]
  | array => exact h.of_bound? (fun _ _ => rfl) (Nat.le_refl _)
  | object => exact h.instantiate _
  | call => exact (h.extend _ _).addVariables _

end OwnVars

section Runs

variable {p : Program} {m : Machine} {f g : FrameId} {x y source : String} {id : VarId} {b : Binding}

/-- No two frames bind one variable, nor does one frame bind it twice. -/
theorem bound_injective (hm : Reached Natives.empty p m) (hx : m.registers.env.bound? f x = some (.var id))
    (hy : m.registers.env.bound? g y = some (.var id)) : f = g ∧ x = y := by
  have hown : OwnVars m.registers.env := by
    refine hm.invariant (P := fun r => OwnVars r.env) ?_ (fun i r r' ih ho => ?_)
    · have hnone : ∀ {f x id}, Environment.initial.bound? f x ≠ some (.var id) := by
        intro f x id
        rw [bound?_initial]
        exact nofun
      exact ⟨fun f x id h => absurd h hnone, fun f g x y id h _ => absurd h hnone⟩
    · rcases ho with ⟨-, hmoves⟩ | ⟨k, -, -, rfl⟩ | ⟨_, _, _, _, -, -, -, -, -, -, -, henv⟩
      · exact OwnVars.effect (r := r) ih hmoves.env
      · exact OwnVars.addBinding ih _ _ nofun
      · rw [henv]
        exact (OwnVars.extend ih _ _).addBinding _ _ nofun
  exact hown.once f g x y id hx hy

/-! ### Frames of classes and of objects -/

/-- The frames around a frame that one has come to are those that lie behind it. -/
theorem Layout.chain_of_chain {roles : List Role} {env : Environment} {inner rest : List FrameId}
    (h : Layout roles env) (hg : g < env.frames.size) (hchain : env.chain g = inner ++ f :: rest) :
    env.chain f = f :: rest := by
  induction inner generalizing g with
  | nil =>
    obtain ⟨rfl, -⟩ := List.cons.inj hchain
    exact hchain
  | cons g' inner ih =>
    obtain ⟨rfl, houter⟩ := List.cons.inj hchain
    by_cases hglobal : g = global
    · rw [hglobal, (h.lies _ _ h.first).2] at houter
      simp at houter
    · obtain ⟨g', hlt, houter'⟩ := h.rooted g hg hglobal
      exact ih (Nat.lt_trans hlt hg) (houter'.symm.trans houter)

/-- The frame of a class binds a field name to nothing but a static field of the class. -/
theorem hasStatic_of_bound {c : Class} (hm : Reached Natives.empty p m) (hc : Plays p f (.cls c))
    (hx : Rule.identifier.Spells x.toList) (h : m.registers.env.bound? f x = some b) :
    c.HasStatic x ∧ ∃ id, b = .var id := by
  cases b with
  | var id =>
    refine ⟨?_, id, rfl⟩
    cases place_of_variable hm h with
    | static hd hstatic =>
      cases hc.unique hd
      exact hstatic
    | field hd => cases hc.unique hd
    | call hcall =>
      obtain ⟨k, object, hcall⟩ := hcall
      cases hc.unique hcall
    | block hblock => cases hc.unique hblock
  | closure k => exact absurd h (not_closure_of_spells hm hx k)
  | cls d =>
    obtain rfl := class_is_global hm h
    cases hc.unique (.inl ⟨rfl, rfl⟩)

/-- Static fields are named by identifiers. -/
theorem spells_of_hasStatic {c : Class} (hparse : Program.parse source = .ok p) (hm : Reached Natives.empty p m)
    (hc : m.registers.env.findClass c.name = .ok c) (hx : c.HasStatic x) :
    Rule.identifier.Spells x.toList := by
  obtain ⟨-, d, g, superclass, hd, rfl⟩ := (Origins.visited (.inl hm)).classes _ _ c (findClass_eq_ok.mp hc)
  obtain ⟨fd, hfd, hdeclares⟩ := hx
  obtain ⟨fd', hfd', rfl⟩ := List.mem_map.mp hfd
  obtain ⟨v, hv, hname⟩ := List.any_eq_true.mp hdeclares
  obtain ⟨v', hv', rfl⟩ := List.mem_map.mp hv
  rw [beq_iff_eq] at hname
  subst hname
  exact hd.spells_field (v := v') hparse (List.mem_filter.mp hfd').1 hv'

/-! ### Lineages -/

/-- A static field is found in the closest class of the lineage that declares the name. -/
theorem exists_of_findField? {c : Class} {info : FieldInfo} (h : c.findField? x = some info)
    (hstatic : info.isStatic = true) : ∃ before after, c.lineage = before ++ info.owner :: after ∧
      (∀ d ∈ before, ¬ d.HasStatic x) ∧ info.owner.HasStatic x := by
  obtain ⟨before, d, after, hlineage, hd, hbefore⟩ := List.findSome?_eq_some_iff.mp h
  refine ⟨before, after, ?_⟩
  have hnone : ∀ d ∈ before, ¬ d.HasStatic x := by
    rintro d hd ⟨fd, hfd, hdeclares⟩
    have hown := hbefore d hd
    unfold ClassInfo.ownField? at hown
    split at hown
    · cases hown
    · rename_i hfind
      exact List.find?_eq_none.mp hfind fd hfd hdeclares
  unfold ClassInfo.ownField? at hd
  split at hd
  · rename_i fd hfd
    cases hd
    exact ⟨hlineage, hnone, fd, List.mem_of_find?_eq_some hfd,
      List.find?_some (p := fun f : FieldDecl => f.declares x) hfd⟩
  · obtain ⟨fd, -, rfl⟩ := Option.map_eq_some_iff.mp hd
    cases hstatic

/-- The lineage of a subclass ends with that of its superclass, and no class stands in both parts. -/
theorem exists_below {r c : Class} {env : Environment} (hr : Registered env r.name r)
    (hc : env.findClass c.name = .ok c) (h : r.isSubclassOf c.name = true) :
    ∃ below, r.lineage = below ++ c.lineage ∧ ∀ d ∈ below, c.isSubclassOf d.name = false := by
  obtain ⟨d, hd, hname⟩ := Class.isSubclassOf_iff.mp h
  obtain ⟨c', hc', -, below, hlineage⟩ := hr.lineage d hd
  rw [hname, hc] at hc'
  cases hc'
  refine ⟨below, hlineage.symm, fun d hd => ?_⟩
  have hnodup := hr.nodup
  rw [← hlineage, List.map_append, List.nodup_append] at hnodup
  rw [← Bool.not_eq_true, Class.isSubclassOf_iff]
  rintro ⟨d', hd', hname'⟩
  exact hnodup.2.2 _ (List.mem_map_of_mem hd) _ (List.mem_map_of_mem hd') hname'.symm

end Runs

/-! ### Fields in inherited code -/

/-- Code of the class `c` runs on an object of the class `r`, and `x` is none of its local variables and
parameters. -/
def RunsOn (p : Program) (env : Environment) (c r : Class) (x : String) : Prop :=
  ∃ blocks f rest k o, env.chain env.current = blocks ++ f :: rest ∧ (∀ b ∈ blocks, Plays p b .block) ∧
    Plays p f (.call k (some (r, o))) ∧ k.className = c.name ∧ ∀ g ∈ blocks ++ [f], env.bound? g x = none

/-- Objects of the class `r` have a field `x` of their own, or a class of their lineage that `c` does not
descend from has set up a static field `x`. -/
def Hides (env : Environment) (r c : Class) (x : String) : Prop :=
  (∃ t, (x, t) ∈ r.allInstanceVars) ∨
    ∃ d ∈ r.lineage, c.isSubclassOf d.name = false ∧ ∃ id, env.ownVariable? d x = some id

section Hiding

variable {p : Program} {m : Machine} {r c : Class} {o : FrameId} {x source : String} {below : List ClassInfo}

/-- Behind the variables of a call come the fields of the object and then the static fields of its class. -/
theorem RunsOn.exists_lookup? (hm : Reached Natives.empty p m) (h : RunsOn p m.registers.env c r x) :
    ∃ o, BindsFields m.registers.env o r ∧ Plays p o (.object r) ∧
      m.registers.env.findClass r.name = .ok r ∧ m.registers.env.lookup? x =
        (o :: classFrames r.lineage).findSome? (fun f => m.registers.env.bound? f x) := by
  obtain ⟨blocks, f, rest, k, o, hchain, hblocks, hf, -, hfree⟩ := h
  obtain ⟨roles, hscoped, hplays⟩ := exists_scoped hm
  have hlayout := hscoped.layout
  obtain ⟨ρ, hρ⟩ := hlayout.exists_role (lt_of_mem_chain (f := f) hm (by rw [hchain]; simp))
  obtain rfl := hf.unique (hplays f ρ hρ)
  obtain ⟨-, ho, houter⟩ := hlayout.lies f _ hρ
  obtain ⟨hr, -, hfields⟩ := hlayout.lies o _ ho
  obtain ⟨-, -, hfind, -⟩ := hlayout.lies _ _ hr
  obtain ⟨ρ', hρ', -⟩ := hscoped.current
  have hrest := hlayout.chain_of_chain (hlayout.lt_size hρ') hchain
  rw [Environment.chain, houter] at hrest
  obtain ⟨-, rfl⟩ := List.cons.inj hrest
  refine ⟨o, hfields, hplays o _ ho, hfind, lookup?_of_chain ?_ hfree⟩
  rw [hchain, List.append_assoc]
  rfl

/-- The frames of the classes of a lineage have been made for them. -/
theorem plays_of_mem_lineage (hm : Reached Natives.empty p m) (hr : m.registers.env.findClass r.name = .ok r)
    {d : ClassInfo} (hd : d ∈ r.lineage) : ∃ c : Class, c.toClassInfo = d ∧ Plays p d.frame (.cls c) ∧
      m.registers.env.findClass c.name = .ok c := by
  obtain ⟨roles, hscoped, hplays⟩ := exists_scoped hm
  obtain ⟨c, hc, hd⟩ := hscoped.layout.role_of_mem_lineage (hscoped.layout.classes _ _ hr).2 hd
  obtain ⟨-, -, hfind, -⟩ := hscoped.layout.lies _ _ hc
  exact ⟨c, hd, hplays _ _ hc, hfind⟩

/-- A name is hidden if the frame of the object or that of a class below binds it. -/
theorem hides_iff (hm : Reached Natives.empty p m) (hx : Rule.identifier.Spells x.toList)
    (hfields : BindsFields m.registers.env o r) (hr : m.registers.env.findClass r.name = .ok r)
    (hlineage : r.lineage = below ++ c.lineage) (hbelow : ∀ d ∈ below, c.isSubclassOf d.name = false) :
    Hides m.registers.env r c x ↔
      ∃ g ∈ o :: below.map ClassInfo.frame, ∃ b, m.registers.env.bound? g x = some b := by
  constructor
  · rintro (⟨t, ht⟩ | ⟨d, hd, hsub, id, hid⟩)
    · obtain ⟨id, v, hbound, -⟩ := hfields.each x t ht
      exact ⟨o, .head _, _, hbound⟩
    · refine ⟨d.frame, .tail _ (List.mem_map_of_mem ?_), _, ownVariable?_eq_some.mp hid⟩
      rw [hlineage] at hd
      refine (List.mem_append.mp hd).resolve_right (fun hd => ?_)
      rw [Class.isSubclassOf_iff.mpr ⟨d, hd, rfl⟩] at hsub
      cases hsub
  · rintro ⟨g, hg, b, hb⟩
    rcases List.mem_cons.mp hg with rfl | hg
    · exact .inl (hfields.only x b hb)
    · obtain ⟨d, hd, rfl⟩ := List.mem_map.mp hg
      have hmem : d ∈ r.lineage := hlineage ▸ List.mem_append_left _ hd
      obtain ⟨d', -, hplays, -⟩ := plays_of_mem_lineage hm hr hmem
      obtain ⟨-, id, rfl⟩ := hasStatic_of_bound hm hplays hx hb
      exact .inr ⟨d, hmem, hbelow d hd, id, ownVariable?_eq_some.mpr hb⟩

/-- A name that nothing hides stands for the static field of the closest class that declares it. -/
theorem lookup?_of_not_hidden {owner : ClassInfo} {before after : List ClassInfo} {id : VarId}
    (hm : Reached Natives.empty p m) (hx : Rule.identifier.Spells x.toList)
    (hr : m.registers.env.findClass r.name = .ok r) (hlineage : r.lineage = below ++ c.lineage)
    (hlookup : m.registers.env.lookup? x =
      (o :: classFrames r.lineage).findSome? (fun f => m.registers.env.bound? f x))
    (hfree : ∀ g ∈ o :: below.map ClassInfo.frame, m.registers.env.bound? g x = none)
    (howner : c.lineage = before ++ owner :: after) (hbefore : ∀ d ∈ before, ¬ d.HasStatic x)
    (hid : m.registers.env.bound? owner.frame x = some (.var id)) :
    m.registers.env.lookup? x = some (.var id) := by
  have hnone : ∀ d ∈ before, m.registers.env.bound? d.frame x = none := by
    intro d hd
    obtain ⟨d', rfl, hplays, -⟩ := plays_of_mem_lineage hm hr (d := d) (by rw [hlineage, howner]; simp [hd])
    refine Option.eq_none_iff_forall_ne_some.mpr (fun b hb => hbefore _ hd ?_)
    exact (hasStatic_of_bound hm hplays hx hb).1
  rw [hlookup, List.findSome?_eq_some_iff]
  refine ⟨o :: below.map ClassInfo.frame ++ before.map ClassInfo.frame, owner.frame,
    after.map ClassInfo.frame ++ [global], ?_, hid, fun g hg => ?_⟩
  · simp [classFrames, hlineage, howner]
  · rcases List.mem_append.mp hg with hg | hg
    · exact hfree g hg
    · obtain ⟨d, hd, rfl⟩ := List.mem_map.mp hg
      exact hnone d hd

/-- A name that is hidden does not stand for a variable of a class that the code descends from. -/
theorem not_hidden_of_lookup? {owner : ClassInfo} {id : VarId} (hm : Reached Natives.empty p m)
    (ho : Plays p o (.object r)) (hr : m.registers.env.findClass r.name = .ok r)
    (hlineage : r.lineage = below ++ c.lineage) (hbelow : ∀ d ∈ below, c.isSubclassOf d.name = false)
    (hlookup : m.registers.env.lookup? x =
      (o :: classFrames r.lineage).findSome? (fun f => m.registers.env.bound? f x))
    (howner : owner ∈ c.lineage) (hid : m.registers.env.bound? owner.frame x = some (.var id))
    (hfound : m.registers.env.lookup? x = some (.var id)) :
    ∀ g ∈ o :: below.map ClassInfo.frame, m.registers.env.bound? g x = none := by
  by_contra hsome
  push Not at hsome
  obtain ⟨g, hg, hne⟩ := hsome
  obtain ⟨b, hb⟩ : ∃ b, (o :: below.map ClassInfo.frame).findSome?
      (fun f => m.registers.env.bound? f x) = some b := by
    refine Option.isSome_iff_exists.mp (List.findSome?_isSome_iff.mpr ⟨g, hg, ?_⟩)
    exact Option.isSome_iff_ne_none.mpr hne
  -- the closest of these frames binds the variable that the frame of the owner binds
  have hsplit : o :: classFrames r.lineage =
      (o :: below.map ClassInfo.frame) ++ classFrames c.lineage := by simp [classFrames, hlineage]
  rw [hsplit, List.findSome?_append, hb, Option.some_or, hfound] at hlookup
  cases hlookup
  obtain ⟨g', hg', hbound⟩ := List.exists_of_findSome?_eq_some hb
  obtain ⟨rfl, -⟩ := bound_injective hm hid hbound
  obtain ⟨d, hd, hplays, -⟩ := plays_of_mem_lineage hm hr (hlineage ▸ List.mem_append_right _ howner)
  rcases List.mem_cons.mp hg' with hobject | hg'
  · rw [hobject] at hplays
    cases ho.unique hplays
  · obtain ⟨d', hd', hframe⟩ := List.mem_map.mp hg'
    obtain ⟨c', hc', hplays', -⟩ := plays_of_mem_lineage hm hr (hlineage ▸ List.mem_append_left _ hd')
    rw [hframe] at hplays'
    cases hplays.unique hplays'
    rw [hc'] at hd
    have hsub := Class.isSubclassOf_iff.mpr ⟨owner, howner, rfl⟩
    rw [hbelow owner (hd ▸ hd')] at hsub
    cases hsub

/-- The name of a static field that the code of a class declares or inherits stands for it if and only if the
field has been set up and the class of the object that the code runs on does not hide it. -/
theorem static_field_found {info : FieldInfo} {K : List Item} (hparse : Program.parse source = .ok p)
    (hm : Reached Natives.empty p m) (hcontrol : m.registers.control = .find (.simple x) :: K)
    (hruns : RunsOn p m.registers.env c r x) (hc : m.registers.env.findClass c.name = .ok c)
    (hsub : r.isSubclassOf c.name = true) (hinfo : c.findField? x = some info)
    (hstatic : info.isStatic = true) :
    (∃ m' id, Next Natives.empty m m' ∧ m'.registers.stash = .var id :: m.registers.stash ∧
      m.registers.env.ownVariable? info.owner x = some id) ↔
    (∃ id, m.registers.env.ownVariable? info.owner x = some id) ∧ ¬ Hides m.registers.env r c x := by
  obtain ⟨o, hfields, ho, hr, hlookup⟩ := hruns.exists_lookup? hm
  have hregistered := Visited.registered (Program.parse_plain hparse) (.inl hm) _ _ hr
  obtain ⟨below, hlineage, hbelow⟩ := exists_below hregistered hc hsub
  obtain ⟨before, after, howner, hbefore, hdeclared⟩ := exists_of_findField? hinfo hstatic
  have hmem : info.owner ∈ c.lineage := by simp [howner]
  have hx : Rule.identifier.Spells x.toList := by
    obtain ⟨d, hd, -, hfind⟩ := plays_of_mem_lineage hm hc hmem
    rw [← hd] at hdeclared
    exact spells_of_hasStatic hparse hm hfind hdeclared
  rw [hides_iff hm hx hfields hr hlineage hbelow]
  constructor
  · rintro ⟨m', id, hnext, hstash, hid⟩
    obtain ⟨i, K', hcontrol', hperform, -⟩ := next_iff.mp hnext
    rw [hcontrol] at hcontrol'
    cases hcontrol'
    obtain ⟨place, hnames, hregisters⟩ := (find_simple x).of_ok hperform
    rw [hregisters] at hstash
    cases hnames with
    | var hfound =>
      cases hstash
      have hfree := not_hidden_of_lookup? hm ho hr hlineage hbelow hlookup hmem
        (ownVariable?_eq_some.mp hid) hfound
      refine ⟨⟨id, hid⟩, ?_⟩
      rintro ⟨g, hg, b, hb⟩
      rw [hfree g hg] at hb
      cases hb
    | cls => cases hstash
  · rintro ⟨⟨id, hid⟩, hfree⟩
    have hnone : ∀ g ∈ o :: below.map ClassInfo.frame, m.registers.env.bound? g x = none :=
      fun g hg => Option.eq_none_iff_forall_ne_some.mpr (fun b hb => hfree ⟨g, hg, b, hb⟩)
    have hfound := lookup?_of_not_hidden hm hx hr hlineage hlookup hnone howner hbefore
      (ownVariable?_eq_some.mp hid)
    obtain ⟨m', hnext, hstash⟩ := exists_next Natives.empty
      (Q := fun r => r.stash = .var id :: m.registers.stash) hcontrol (by
        simp only [Step.perform, Step.find, Step.ends_bind, Step.ends_ask, findName_of_lookup? hfound]
        refine ⟨?_, fun e he => by cases he⟩
        rintro _ ⟨⟩
        rfl)
    exact ⟨m', id, hnext, hstash, hid⟩

end Hiding

/-! ### A method that a subclass inherits -/

section Inherited

variable {p : Program} {m : Machine} {c r : Class} {o : FrameId} {x source : String} {id : VarId}

/-- The frame of an object lies around code only as the frame of the object that the code runs on. -/
theorem exists_call_of_object (hm : Reached Natives.empty p m) (ho : Plays p o (.object r))
    (hmem : o ∈ m.registers.env.chain m.registers.env.current) : ∃ blocks f rest k,
      m.registers.env.chain m.registers.env.current = blocks ++ f :: o :: rest ∧
      (∀ b ∈ blocks, Plays p b .block) ∧ Plays p f (.call k (some (r, o))) := by
  obtain ⟨roles, hscoped, hplays⟩ := exists_scoped hm
  obtain ⟨blocks, ground, hchain, hblocks, hground⟩ := hscoped.layout.exists_ground hplays hscoped.current
  have hglobal : o ≠ global := by
    rintro rfl
    cases ho.unique (.inl ⟨rfl, rfl⟩)
  have hclasses : ∀ {d : Class}, m.registers.env.findClass d.name = .ok d → o ∉ classFrames d.lineage := by
    intro d hd hmem
    rcases List.mem_append.mp hmem with hmem | hmem
    · obtain ⟨d', hd', rfl⟩ := List.mem_map.mp hmem
      obtain ⟨_, -, hcls, -⟩ := plays_of_mem_lineage hm hd hd'
      cases ho.unique hcls
    · exact hglobal (List.mem_singleton.mp hmem)
  rw [hchain] at hmem
  have hmem' : o ∈ ground := by
    refine (List.mem_append.mp hmem).resolve_left (fun hblock => ?_)
    cases ho.unique (hblocks o hblock)
  cases hground with
  | global => exact absurd (List.mem_singleton.mp hmem') hglobal
  | cls hd => exact absurd hmem' (hclasses hd)
  | @static f k d hcall _ hd =>
    have hname := (hscoped.layout.classes _ _ hd).1
    rw [hname] at hd
    rcases List.mem_cons.mp hmem' with rfl | hmem'
    · cases ho.unique hcall
    · exact absurd hmem' (hclasses hd)
  | @«instance» f o' k d hcall _ hobject hd =>
    rcases List.mem_cons.mp hmem' with rfl | hmem'
    · cases ho.unique hcall
    · rcases List.mem_cons.mp hmem' with rfl | hmem'
      · cases ho.unique hobject
        exact ⟨blocks, f, _, k, hchain, hblocks, hcall⟩
      · exact absurd hmem' (hclasses hd)

/-- What `this` is and holds says what code runs, and on what. -/
theorem runsOn_of_this {v : Variable} (hparse : Program.parse source = .ok p) (hm : Reached Natives.empty p m)
    (hthis : m.registers.env.lookup? thisName = some (.var id)) (hv : m.registers.env.var? id = some v)
    (htype : v.type = .named c.name) (hvalue : v.value = some (.object r o))
    (hmem : o ∈ m.registers.env.chain m.registers.env.current)
    (hfree : ∀ g ∈ (m.registers.env.chain m.registers.env.current).takeWhile (· ≠ o),
      m.registers.env.bound? g x = none) : RunsOn p m.registers.env c r x := by
  have ho : Plays p o (.object r) := by
    obtain ⟨roles, hscoped, hplays⟩ := exists_scoped hm
    exact hplays o _ (hscoped.objects _ (.inr ⟨id, v, hv, hvalue⟩) _ .refl r o rfl)
  obtain ⟨blocks, f, rest, k, hchain, hblocks, hcall⟩ := exists_call_of_object hm ho hmem
  refine ⟨blocks, f, o :: rest, k, o, hchain, hblocks, hcall, ?_, fun g hg => hfree g ?_⟩
  · have hname := nameType_this hparse hm hchain hcall
    rw [nameType_var hthis hv, htype] at hname
    exact (TypeName.named.inj (Except.ok.inj hname)).symm
  · have hne : ∀ g ∈ blocks ++ [f], decide (g ≠ o) = true := by
      intro g hg
      rw [decide_eq_true_iff]
      rintro rfl
      rcases List.mem_append.mp hg with hg | hg
      · cases ho.unique (hblocks g hg)
      · rw [List.mem_singleton.mp hg] at ho
        cases ho.unique hcall
    rw [hchain, show blocks ++ f :: o :: rest = (blocks ++ [f]) ++ o :: rest by simp,
      List.takeWhile_append_of_pos hne]
    exact List.mem_append_left _ hg

/-- A source whose class `B` inherits a method that names a static field `v` of `A`. -/
def inheritedSource (members : String) : String :=
  "class A \x7b static int v = 1; int get() \x7b return v; \x7d \x7d class B extends A \x7b " ++ members
    ++ "\x7d class M \x7b static int r; public static void main(String[] a) \x7b "
    ++ "A b = new B(); r = b.get(); \x7d \x7d"

/-- A static field that is named next in the code of a class: its name, that class, the class of the object
that the code runs on, where the field is declared, and what is behind it. -/
structure NextField where
  name : String
  code : Class
  object : Class
  info : FieldInfo
  rest : List Item

/-- The static field that is named next, if it is no local variable. -/
def nextField? (m : Machine) : Option NextField :=
  let env := m.registers.env
  match m.registers.control, env.lookup? thisName with
  | .find (.simple x) :: K, some (.var id) =>
    match env.var? id with
    | some ⟨_, .named y, some (.object r o)⟩ =>
      match env.findClass y with
      | .ok c =>
        match c.findField? x with
        | some info =>
          if c.name = y ∧ r.isSubclassOf y = true ∧ info.isStatic = true ∧ o ∈ env.chain env.current ∧
            ∀ g ∈ (env.chain env.current).takeWhile (· ≠ o), (env.bound? g x).isNone = true
          then some ⟨x, c, r, info, K⟩ else none
        | none => none
      | .error _ => none
    | _ => none
  | _, _ => none

theorem of_nextField? {n : NextField} (hparse : Program.parse source = .ok p) (hm : Reached Natives.empty p m)
    (h : nextField? m = some n) : m.registers.control = .find (.simple n.name) :: n.rest ∧
      RunsOn p m.registers.env n.code n.object n.name ∧ m.registers.env.findClass n.code.name = .ok n.code ∧
      n.object.isSubclassOf n.code.name = true ∧ n.code.findField? n.name = some n.info ∧
      n.info.isStatic = true := by
  unfold nextField? at h
  dsimp only at h
  split at h
  · rename_i hcontrol hthis
    split at h
    · rename_i hv
      split at h
      · rename_i hfind
        split at h
        · rename_i hinfo
          split at h
          · rename_i hif
            cases h
            obtain ⟨rfl, hsub, hstatic, hmem, hfree⟩ := hif
            refine ⟨hcontrol, ?_, hfind, hsub, hinfo, hstatic⟩
            exact runsOn_of_this hparse hm hthis hv rfl rfl hmem
              (fun g hg => Option.isNone_iff_eq_none.mp (hfree g hg))
          · cases h
        · cases h
      · cases h
    · cases h
  · cases h

/-- The inherited method finds the field of `A` on an object of a class that declares no `v`. -/
theorem static_field_found_inherited : ∃ p m, ∃ n : NextField, ∃ m' id,
    Program.parse (inheritedSource "") = .ok p ∧
    Reached Natives.empty p m ∧ m.registers.control = .find (.simple n.name) :: n.rest ∧
    RunsOn p m.registers.env n.code n.object n.name ∧
    m.registers.env.findClass n.code.name = .ok n.code ∧ n.object.isSubclassOf n.code.name = true ∧
    n.code.findField? n.name = some n.info ∧ n.info.isStatic = true ∧ n.code.name = "A" ∧
    n.object.name = "B" ∧ Next Natives.empty m m' ∧
    m'.registers.stash = .var id :: m.registers.stash ∧
    m.registers.env.ownVariable? n.info.owner n.name = some id := by
  have hrun : (sample? (inheritedSource "") 85).any (fun m => (nextField? m).any (fun n =>
      n.code.name == "A" && n.object.name == "B" &&
      ((m.registers.env.ownVariable? n.info.owner n.name).isSome &&
        n.object.allInstanceVars.isEmpty && n.object.lineage.all (fun d =>
          n.code.isSubclassOf d.name || (m.registers.env.ownVariable? d n.name).isNone)))) = true := by
    rw [sample?_eq_parseDecoded?]
    decide +kernel
  obtain ⟨m, hm, hrun⟩ := (Option.any_eq_true _ _).mp hrun
  obtain ⟨p, hp, hreached⟩ := exists_of_sample? hm
  obtain ⟨n, hn, hrun⟩ := (Option.any_eq_true _ _).mp hrun
  simp only [Bool.and_eq_true, beq_iff_eq, List.isEmpty_iff, List.all_eq_true, Bool.or_eq_true,
    Option.isNone_iff_eq_none] at hrun
  obtain ⟨⟨hcode, hobject⟩, ⟨howner, hfields⟩, hlineage⟩ := hrun
  obtain ⟨hcontrol, hruns, hc, hsub, hinfo, hstatic⟩ := of_nextField? hp hreached hn
  have hfree : ¬ Hides m.registers.env n.object n.code n.name := by
    rintro (⟨t, ht⟩ | ⟨d, hd, hnot, id, hid⟩)
    · rw [hfields] at ht
      cases ht
    · rcases hlineage d hd with hd | hd
      · rw [hd] at hnot
        cases hnot
      · rw [hd] at hid
        cases hid
  obtain ⟨m', id, hnext, hstash, hid⟩ :=
    (static_field_found hp hreached hcontrol hruns hc hsub hinfo hstatic).mpr
      ⟨Option.isSome_iff_exists.mp howner, hfree⟩
  exact ⟨p, m, n, m', id, hp, hreached, hcontrol, hruns, hc, hsub, hinfo, hstatic, hcode, hobject, hnext,
    hstash, hid⟩

/-- It finds another variable on an object of a class that declares a static field `v` of its own. -/
theorem static_field_hidden : ∃ p m, ∃ n : NextField, ∃ m' id id',
    Program.parse (inheritedSource "static int v = 2; ") = .ok p ∧
    Reached Natives.empty p m ∧ m.registers.control = .find (.simple n.name) :: n.rest ∧
    RunsOn p m.registers.env n.code n.object n.name ∧
    m.registers.env.findClass n.code.name = .ok n.code ∧ n.object.isSubclassOf n.code.name = true ∧
    n.code.findField? n.name = some n.info ∧ n.info.isStatic = true ∧
    m.registers.env.ownVariable? n.info.owner n.name = some id ∧
    evaluate Natives.empty 1 m = .ok () m' ∧ m'.registers.stash.head? = some (.var id') ∧ id' ≠ id := by
  have hrun : (sample? (inheritedSource "static int v = 2; ") 89).any (fun m => (nextField? m).any (fun n =>
      (m.registers.env.ownVariable? n.info.owner n.name).any (fun id =>
        (m.after? Natives.empty 1).any (fun m' => m'.foundVar?.any (fun id' => id' != id))))) = true := by
    rw [sample?_eq_parseDecoded?]
    decide +kernel
  obtain ⟨m, hm, hrun⟩ := (Option.any_eq_true _ _).mp hrun
  obtain ⟨p, hp, hreached⟩ := exists_of_sample? hm
  obtain ⟨n, hn, hrun⟩ := (Option.any_eq_true _ _).mp hrun
  obtain ⟨id, hid, hrun⟩ := (Option.any_eq_true _ _).mp hrun
  obtain ⟨m', hm', hrun⟩ := (Option.any_eq_true _ _).mp hrun
  obtain ⟨id', hid', hne⟩ := (Option.any_eq_true _ _).mp hrun
  obtain ⟨hcontrol, hruns, hc, hsub, hinfo, hstatic⟩ := of_nextField? hp hreached hn
  exact ⟨p, m, n, m', id, id', hp, hreached, hcontrol, hruns, hc, hsub, hinfo, hstatic, hid,
    after?_eq_some.mp hm', foundVar?_eq_some.mp hid', bne_iff_ne.mp hne⟩

end Inherited

end StashMachine
