import StashMachine.Proofs.Balance
import StashMachine.Proofs.Heap
import StashMachine.Proofs.TypingSteps

/-!
# StashMachine.Proofs.Calls — which closure a call invokes

A call is typed, its method is selected, its receiver is found, its arguments are evaluated, and only then is
the closure invoked.

* `Heads p h m' r`: a run stands at the registers `r` and comes to `m'` as soon as control is down to `h`
  items.  `Heads.next` takes one step, `Heads.of_descends` as many as it takes to come down.
* `Heads.typeOf_name`, `Heads.typesOf`, `Heads.overload`, `Heads.name`, `Heads.override`, `Heads.arguments`: what
  the items of a call leave on the stash; `Heads.call`: what they leave together.
* `Implements env sel lineage k`: `k` is the first implementation of `sel` along the lineage.
* `Dispatched env q sel k receiver`: the call goes to `k`, on the receiver.
* `call_dispatch`: so does every call of a run, whatever its arguments do.
-/

namespace StashMachine

open Environment Step Machine

/-! ### Runs on their way down -/

section Arrival

variable {natives : Natives} {p : Program} {h : Nat} {m m' : Machine}

/-- A run on its way down takes its next step. -/
theorem Machine.Arrives.next {i : Item} {c : List Item} {s : List StashItem} {env : Environment}
    {out : List String} {Q : Unit → Registers → Prop} (ha : m.Arrives natives h m')
    (hm : m.registers = ⟨i :: c, s, env, out⟩) (hh : h ≤ c.length)
    (hends : Ends (perform natives i) ⟨c, s, env, out⟩ Q (fun _ _ => True)) :
    ∃ m₁, Next natives m m₁ ∧ Q () m₁.registers ∧ m₁.Arrives natives h m' := by
  rcases ha with ⟨hlow, -⟩ | ⟨-, hu⟩
  · have hheight : m.height = c.length + 1 := by
      rw [height, hm]
      rfl
    omega
  · obtain ⟨m₁, hnext, ha⟩ := hu.exists_next
    obtain ⟨i', c', hc, hperform, -⟩ := next_iff.mp hnext
    rw [hm] at hc hperform
    cases hc
    exact ⟨m₁, hnext, hends.of_ok hperform, ha⟩

/-- A dotted name is looked up segment by segment.  What every step keeps is kept. -/
theorem Machine.Arrives.find {P : Machine → Prop} {q : Path} {c : List Item} {s : List StashItem}
    {env : Environment} {out : List String} (hP : ∀ m m₁, P m → Next natives m m₁ → P m₁) (hPm : P m)
    (ha : m.Arrives natives h m') (hm : m.registers = ⟨.find q :: c, s, env, out⟩) (hh : h ≤ c.length) :
    ∃ m₁ item env', P m₁ ∧ Found env q item env' ∧ m₁.registers = ⟨c, item :: s, env', out⟩ ∧
      m₁.Arrives natives h m' := by
  induction q generalizing m c with
  | simple x =>
    obtain ⟨m₁, hnext, ⟨place, hplace, hm₁⟩, ha⟩ := ha.next hm hh (find_simple x)
    exact ⟨m₁, _, _, hP m m₁ hPm hnext, .named hplace, hm₁, ha⟩
  | field q x ih =>
    have hends : Ends (perform natives (.find (.field q x))) ⟨c, s, env, out⟩
        (fun _ r => r = ⟨.find q :: .select x :: c, s, env, out⟩) (fun _ _ => True) := rfl
    obtain ⟨m₁, hnext₁, hm₁, ha⟩ := ha.next hm hh hends
    obtain ⟨m₂, item, env', hP₂, hfound, hm₂, ha⟩ := ih (hP m m₁ hPm hnext₁) ha hm₁ (Nat.le_succ_of_le hh)
    obtain ⟨m₃, hnext₃, ⟨item', env'', hfound', hm₃⟩, ha⟩ := ha.next hm₂ hh (select_found hfound x)
    exact ⟨m₃, item', env'', hP m₂ m₃ hP₂ hnext₃, hfound', hm₃, ha⟩

theorem Machine.Until.reached (hu : Until natives h m m') (hm : Reached natives p m) :
    Reached natives p m' := by
  induction hu with
  | last hnext _ => exact hm.next hnext
  | next hnext _ _ ih => exact ih (hm.next hnext)

end Arrival

/-- A run of the program without natives stands at the registers `r`, and comes to `m'` as soon as control has
at most `h` items. -/
def Heads (p : Program) (h : Nat) (m' : Machine) (r : Registers) : Prop :=
  ∃ m, m.registers = r ∧ Reached Natives.empty p m ∧ m.Arrives Natives.empty h m'

section Heads

variable {p : Program} {h : Nat} {m' : Machine} {c : List Item} {s : List StashItem} {env : Environment}
  {out : List String}

/-- The run takes its next step. -/
theorem Heads.next {i : Item} {Q : Unit → Registers → Prop} (hr : Heads p h m' ⟨i :: c, s, env, out⟩)
    (hh : h ≤ c.length) (hends : Ends (perform Natives.empty i) ⟨c, s, env, out⟩ Q (fun _ _ => True)) :
    ∃ r, Q () r ∧ Heads p h m' r := by
  obtain ⟨m, hm, hreached, harrives⟩ := hr
  obtain ⟨m₁, hnext, hq, harrives⟩ := harrives.next hm hh hends
  exact ⟨m₁.registers, hq, m₁, rfl, hreached.next hnext, harrives⟩

/-- Wherever a run descends to on its way, it comes. -/
theorem Heads.of_descends {h₁ : Nat} {r : Registers} {Q : Registers → Prop} (hr : Heads p h m' r) (hh : h ≤ h₁)
    (hd : Descends Natives.empty h₁ r Q (fun _ _ => True)) : ∃ r', Q r' ∧ Heads p h m' r' := by
  obtain ⟨m, rfl, hreached, harrives⟩ := hr
  rcases hd m.steps with ⟨m₁, ⟨-, rfl⟩ | ⟨hheight, hu₁⟩, hQ⟩ | ⟨hheight, f, m₁, hfails, -⟩
  · exact ⟨_, hQ, m, rfl, hreached, harrives⟩
  all_goals
    rcases harrives with ⟨hlow, -⟩ | ⟨-, hu⟩
    · exact absurd (Nat.lt_of_lt_of_le hheight (Nat.le_trans hlow hh)) (Nat.lt_irrefl _)
    obtain ⟨m₂, hu₂, harrives⟩ := hu.split hh
  · cases hu₁.unique hu₂
    exact ⟨_, hQ, m₁, rfl, hu₁.reached hreached, harrives⟩
  · exact absurd hu₂ hfails.not_until

/-! ### Types and selection -/

/-- A dotted name is typed segment by segment. -/
theorem Heads.typeOf_name {q : Path} (hr : Heads p h m' ⟨.typeOf (.name q) :: c, s, env, out⟩)
    (hh : h ≤ c.length) :
    ∃ t, env.pathType q = .ok t ∧ Heads p h m' ⟨c, .type t :: s, env, out⟩ := by
  have hd : Descends Natives.empty c.length ⟨.typeOf (.name q) :: c, s, env, out⟩
      (fun r => ∃ t, env.pathType q = .ok t ∧ r = ⟨c, .type t :: s, env, out⟩) (fun _ _ => True) :=
    descends_typeOf_name (Nat.le_refl _) (fun t ht => descends_here (Nat.le_refl _) ⟨t, ht, rfl⟩)
      (fun _ _ _ _ => trivial)
  obtain ⟨r, ⟨t, ht, rfl⟩, hr⟩ := hr.of_descends hh hd
  exact ⟨t, ht, hr⟩

/-- Arguments are typed from left to right. -/
theorem Heads.typesOf {es : List Expr} (hr : Heads p h m' ⟨es.map .typeOf ++ c, s, env, out⟩)
    (hh : h ≤ c.length) : ∃ ts, env.staticTypes es = .ok ts ∧ ts.length = es.length ∧
      Heads p h m' ⟨c, (ts.map StashItem.type).reverse ++ s, env, out⟩ := by
  have hd : Descends Natives.empty c.length ⟨es.map .typeOf ++ c, s, env, out⟩
      (fun r => ∃ ts, env.staticTypes es = .ok ts ∧ ts.length = es.length ∧
        r = ⟨c, (ts.map StashItem.type).reverse ++ s, env, out⟩) (fun _ _ => True) :=
    descends_typesOf (Nat.le_refl _) (fun ts hts hlen => descends_here (Nat.le_refl _) ⟨ts, hts, hlen, rfl⟩)
      (fun _ _ _ _ => trivial)
  obtain ⟨r, ⟨ts, hts, hlen, rfl⟩, hr⟩ := hr.of_descends hh hd
  exact ⟨ts, hts, hlen, hr⟩

/-- The method of a call is selected by the static types.  A static one is invoked as it is; for any other the
receiver is found first. -/
theorem Heads.overload {x : String} {q : Path} {args : List Expr} {K : List Item} {t : TypeName}
    {ts : List TypeName} (hr : Heads p h m' ⟨.overload x args.length q ::
      (args.map .expr ++ .invoke args.length :: K), (ts.map StashItem.type).reverse ++ .type t :: s, env, out⟩)
    (hlen : ts.length = args.length) (hh : h ≤ K.length + 1) :
    ∃ sel, env.resolveMethod t x ts = .ok sel ∧
      (sel.callable.isStatic = true ∧
          Heads p h m' ⟨args.map .expr ++ .invoke args.length :: K, .closure sel :: s, env, out⟩ ∨
        sel.callable.isStatic = false ∧ Heads p h m' ⟨receiverItems q ++
          (args.map .expr ++ .invoke (args.length + 1) :: K), .closure sel :: s, env, out⟩) := by
  have hends : Ends (perform Natives.empty (.overload x args.length q))
      ⟨args.map .expr ++ .invoke args.length :: K, (ts.map StashItem.type).reverse ++ .type t :: s, env, out⟩
      (fun _ r => ∃ sel, env.resolveMethod t x ts = .ok sel ∧
        (sel.callable.isStatic = true ∧
            r = ⟨args.map .expr ++ .invoke args.length :: K, .closure sel :: s, env, out⟩ ∨
          sel.callable.isStatic = false ∧ r = ⟨receiverItems q ++
            (args.map .expr ++ .invoke (args.length + 1) :: K), .closure sel :: s, env, out⟩))
      (fun _ _ => True) :=
    ends_overload hlen (fun sel hsel hstatic => ⟨sel, hsel, .inl ⟨hstatic, rfl⟩⟩)
      (fun sel hsel hinstance => ⟨sel, hsel, .inr ⟨hinstance, rfl⟩⟩) (fun _ _ => trivial)
  have hlength : h ≤ (args.map Item.expr ++ .invoke args.length :: K).length := by
    rw [List.length_append, List.length_cons]
    omega
  obtain ⟨r, ⟨sel, hsel, hr'⟩, hr⟩ := hr.next hlength hends
  refine ⟨sel, hsel, ?_⟩
  rcases hr' with ⟨hstatic, rfl⟩ | ⟨hstatic, rfl⟩
  · exact .inl ⟨hstatic, hr⟩
  · exact .inr ⟨hstatic, hr⟩

/-! ### Receivers -/

/-- A dotted name is looked up segment by segment. -/
theorem Heads.find {q : Path} (hr : Heads p h m' ⟨.find q :: c, s, env, out⟩) (hh : h ≤ c.length) :
    ∃ item env', Found env q item env' ∧ Heads p h m' ⟨c, item :: s, env', out⟩ := by
  obtain ⟨m, hm, hreached, harrives⟩ := hr
  obtain ⟨m₁, item, env', hreached₁, hfound, hm₁, harrives⟩ :=
    harrives.find (P := Reached Natives.empty p) (fun _ _ => Reached.next) hreached hm hh
  exact ⟨item, env', hfound, m₁, hm₁, hreached₁, harrives⟩

/-- A dotted name is evaluated to what it stands for. -/
theorem Heads.name {q : Path} (hr : Heads p h m' ⟨.expr (.name q) :: c, s, env, out⟩) (hh : h ≤ c.length) :
    ∃ item env', Evaluated env q item env' ∧ Heads p h m' ⟨c, item :: s, env', out⟩ := by
  have hends : Ends (perform Natives.empty (.expr (.name q))) ⟨c, s, env, out⟩
      (fun _ r => r = ⟨.find q :: .deref :: c, s, env, out⟩) (fun _ _ => True) := rfl
  obtain ⟨r, rfl, hr⟩ := hr.next hh hends
  obtain ⟨item, env', hfound, hr⟩ := hr.find (Nat.le_succ_of_le hh)
  obtain ⟨r, ⟨item', hitem', rfl⟩, hr⟩ := hr.next hh (deref_found hfound)
  exact ⟨item', env', hitem', hr⟩

/-- Only an object has an implementation of its own. -/
theorem Heads.override {item : StashItem} {sel : Closure}
    (hr : Heads p h m' ⟨.override :: c, item :: .closure sel :: s, env, out⟩) (hh : h ≤ c.length) :
    ∃ d f, item = .value (.object d f) ∧
      Heads p h m' ⟨c, item :: .closure (env.resolveOverride d sel) :: s, env, out⟩ := by
  have hends : Ends (perform Natives.empty .override) ⟨c, item :: .closure sel :: s, env, out⟩
      (fun _ r => ∃ d f, item = .value (.object d f) ∧
        r = ⟨c, item :: .closure (env.resolveOverride d sel) :: s, env, out⟩) (fun _ _ => True) := by
    simp only [perform, Step.override, ends_bind, ends_pop, ends_popClosure_closure]
    split
    · rename_i d f
      simp only [ends_bind, ends_ask, ends_push, ends_pushValue]
      refine ⟨fun k hk => ?_, fun _ _ => trivial⟩
      cases hk
      exact ⟨d, f, rfl, rfl⟩
    · trivial
    · trivial
    · simp only [ends_bind, ends_describe, ends_throw]
  obtain ⟨r, ⟨d, f, hitem, rfl⟩, hr⟩ := hr.next hh hends
  exact ⟨d, f, hitem, hr⟩

/-! ### Arguments -/

/-- Arguments are evaluated one after the other, whatever code they run.  Each leaves one item, and nothing
below is touched. -/
theorem Heads.arguments {es : List Expr} (hr : Heads p c.length m' ⟨es.map .expr ++ c, s, env, out⟩) :
    m'.registers.control = c ∧ ∃ items, items.length = es.length ∧ m'.registers.stash = items ++ s := by
  induction es generalizing s env out with
  | nil =>
    obtain ⟨m, hm, -, harrives⟩ := hr
    rcases harrives with ⟨-, rfl⟩ | ⟨hlow, -⟩
    · rw [hm]
      exact ⟨rfl, [], rfl, rfl⟩
    · rw [Machine.height, hm] at hlow
      exact absurd hlow (Nat.lt_irrefl _)
  | cons e es ih =>
    obtain ⟨m, hm, hreached, harrives⟩ := hr
    have hc : m.registers.control = [Item.expr e] ++ (es.map .expr ++ c) := by rw [hm]; rfl
    have hs : m.registers.stash = [] ++ s := by rw [hm]; rfl
    rcases harrives with ⟨hlow, -⟩ | ⟨-, hu⟩
    · rw [Machine.height, hc, List.length_append, List.length_append, List.length_singleton] at hlow
      omega
    · -- the run first comes down to the other arguments
      have hle : c.length ≤ (es.map Item.expr ++ c).length := by simp
      obtain ⟨m₁, hu₁, harrives⟩ := hu.split hle
      have ht : OnTrack .loose (.value m.registers.env.current) [.expr e] [] m.registers.env :=
        ⟨.value, [], trivial, .inl ⟨rfl, rfl⟩, .nil⟩
      have hsegment := hu₁.segment Natives.neutral_empty hc hs (List.cons_ne_nil _ _) ht
        (sound_of_reached Natives.neutral_empty hreached)
      rcases hsegment with ⟨s', hcontrol, hstash, hend⟩ | ⟨n, m₂, j, rest, -, -, -, ⟨f, hf⟩, -⟩
      · obtain ⟨f, -, -, hs'⟩ | ⟨f, hf | hf, -⟩ := hend.nil
        · obtain ⟨item, rest, -, hrest, rfl⟩ := List.forall₂_cons_left_iff.mp hs'
          cases hrest
          have hr₁ : Heads p c.length m'
              ⟨es.map .expr ++ c, item :: s, m₁.registers.env, m₁.registers.output⟩ := by
            refine ⟨m₁, ?_, hu₁.reached hreached, harrives⟩
            rw [← hcontrol, ← List.singleton_append, ← hstash]
          obtain ⟨hcontrol', items, hitems, hstash'⟩ := ih hr₁
          refine ⟨hcontrol', items ++ [item], ?_, ?_⟩
          · rw [List.length_append, hitems]
            rfl
          · rw [hstash', List.append_assoc]
            rfl
        · cases hf
        · cases hf
      · cases hf

end Heads

/-! ### Dispatch -/

/-- Along the classes of a lineage, `k` is the first closure that is not static and that is bound under the key
of the selected one; if there is none, it is the selected one itself. -/
inductive Implements (env : Environment) (sel : Closure) : List ClassInfo → Closure → Prop
  | none : Implements env sel [] sel
  | here {d : ClassInfo} {rest : List ClassInfo} {k : Closure} :
    env.bound? d.frame sel.descriptor = some (.closure k) → k.callable.isStatic = false →
    Implements env sel (d :: rest) k
  | later {d : ClassInfo} {rest : List ClassInfo} {k : Closure} :
    (∀ k', env.bound? d.frame sel.descriptor = some (.closure k') → k'.callable.isStatic = true) →
    Implements env sel rest k → Implements env sel (d :: rest) k

/-- The call goes to `k`.  A static method runs without a receiver; through `super` the selected method itself
runs on what `super` denotes; any other runs on the object that the qualifier denotes, in the implementation of
the class of that object. -/
inductive Dispatched (env : Environment) (q : Path) (sel : Closure) : Closure → Option Value → Prop
  | static : sel.callable.isStatic = true → Dispatched env q sel sel none
  | super {v : Value} : sel.callable.isStatic = false → q = .simple superName → Denotes env q v →
    Dispatched env q sel sel (some v)
  | virtual {c : Class} {f : FrameId} {k : Closure} : sel.callable.isStatic = false →
    q ≠ .simple superName → Denotes env q (.object c f) → Implements env sel c.lineage k →
    Dispatched env q sel k (some (.object c f))

section Dispatch

variable {p : Program} {source : String} {m m' : Machine} {env : Environment} {q : Path} {sel : Closure}

theorem implements_resolveOverride (env : Environment) (sel : Closure) (c : Class) :
    Implements env sel c.lineage (env.resolveOverride c sel) := by
  unfold resolveOverride
  induction c.lineage with
  | nil => exact .none
  | cons d rest ih =>
    rw [List.filterMap_cons]
    split
    · rename_i hnone
      refine .later (fun k' hk' => ?_) ih
      rw [ownClosure?_eq_some.mpr hk'] at hnone
      cases hnone
    · rename_i k hk
      rw [ownClosure?_eq_some] at hk
      rw [List.find?_cons]
      split
      · rename_i hinstance
        exact .here hk (by simpa using hinstance)
      · rename_i hstatic
        refine .later (fun k' hk' => ?_) ih
        rw [hk] at hk'
        cases hk'
        simpa using hstatic

/-- The receiver is the one value that the qualifier denotes. -/
theorem Dispatched.eq_of_denotes {k : Closure} {v w : Value} (h : Dispatched env q sel k (some v))
    (hw : Denotes env q w) : w = v := by
  cases h with
  | super _ _ hv => exact hw.unique hv
  | virtual _ _ hv => exact hw.unique hv

/-- No class is called `super`. -/
theorem not_names_super (hparse : Program.parse source = .ok p) (hm : Reached Natives.empty p m) (d : Class) :
    ¬ Names m.registers.env (.simple superName) (.cls d) := by
  intro hnames
  cases hnames with
  | cls hlookup =>
    obtain ⟨f, hf⟩ := exists_bound?_of_lookup? hlookup
    obtain ⟨hname, decl, g, superclass, hdecl, rfl⟩ := (Origins.visited (.inl hm)).classes f _ d hf
    replace hname : superName = decl.name := hname
    rcases hdecl with hdecl | rfl
    · refine notMem_keywords (Program.parse_names hparse decl hdecl) ?_
      rw [← hname]
      decide
    · exact absurd hname (by decide)

/-- The receiver of a call is found before its arguments, and with it the closure. -/
theorem Heads.receiver {h : Nat} {c : List Item} {s : List StashItem} {out : List String}
    (hr : Heads p h m' ⟨receiverItems q ++ c, .closure sel :: s, env, out⟩) (hh : h ≤ c.length)
    (hsuper : ∀ d, ¬ Names env (.simple superName) (.cls d)) (hinstance : sel.callable.isStatic = false) :
    ∃ k v env', Dispatched env q sel k (some v) ∧
      Heads p h m' ⟨c, .value v :: .closure k :: s, env', out⟩ := by
  by_cases hq : q = .simple superName
  · rw [receiverItems, if_pos hq] at hr
    obtain ⟨item, env', hitem, hr⟩ := Heads.name hr hh
    cases hitem with
    | value hv => exact ⟨sel, _, env, .super hinstance hq hv, hr⟩
    | cls hd => exact absurd (hq ▸ hd) (hsuper _)
    | length => cases hq
  · rw [receiverItems, if_neg hq] at hr
    obtain ⟨item, env', hitem, hr⟩ := Heads.name hr (Nat.le_succ_of_le hh)
    obtain ⟨d, f, rfl, hr⟩ := hr.override hh
    -- an object is no length, so the look-up has changed nothing
    cases hitem with
    | value hv =>
      exact ⟨_, _, env, .virtual hinstance hq hv (implements_resolveOverride env sel d), hr⟩

/-- A call that has started is typed, then its method is selected, its receiver is found, and its arguments are
evaluated. -/
theorem Heads.call {x : String} {args : List Expr} {K : List Item} {s : List StashItem} {out : List String}
    (hsuper : ∀ d, ¬ Names env (.simple superName) (.cls d))
    (hr : Heads p (K.length + 1) m' ⟨.typeOf (.name q) :: (args.map .typeOf ++ .overload x args.length q ::
      (args.map .expr ++ .invoke args.length :: K)), s, env, out⟩) :
    ∃ t ts sel k receiver items, env.pathType q = .ok t ∧ env.staticTypes args = .ok ts ∧
      env.resolveMethod t x ts = .ok sel ∧ Dispatched env q sel k receiver ∧
      m'.registers.control = .invoke (args.length + receiver.toList.length) :: K ∧ items.length = args.length ∧
      m'.registers.stash = items ++ (receiver.toList.map StashItem.value ++ .closure k :: s) := by
  have hlength : K.length + 1 ≤ (args.map Item.expr ++ .invoke args.length :: K).length := by
    rw [List.length_append, List.length_cons]
    omega
  obtain ⟨t, ht, htyped⟩ := hr.typeOf_name (by simp only [List.length_append, List.length_cons]; omega)
  obtain ⟨ts, hts, hlen, htyped⟩ := htyped.typesOf (Nat.le_succ_of_le hlength)
  obtain ⟨sel, hsel, ⟨hstatic, hqueued⟩ | ⟨hinstance, hqueued⟩⟩ := htyped.overload hlen (Nat.le_refl _)
  · obtain ⟨hcontrol, items, hitems, hstash⟩ := Heads.arguments hqueued
    exact ⟨t, ts, sel, sel, none, items, ht, hts, hsel, .static hstatic, hcontrol, hitems, hstash⟩
  · obtain ⟨k, v, env', hdispatched, hqueued⟩ := hqueued.receiver
      (by simp only [List.length_append, List.length_cons]; omega) hsuper hinstance
    obtain ⟨hcontrol, items, hitems, hstash⟩ := Heads.arguments hqueued
    exact ⟨t, ts, sel, k, some v, items, ht, hts, hsel, hdispatched, hcontrol, hitems, hstash⟩

/-- The types of a call in the environment where it starts select a method, and that environment also decides
which closure runs and on what.  When the invocation of the call is reached, the closure and the receiver lie
on the stash below one item for each argument, and the invocation takes the receiver as one argument more. -/
theorem call_dispatch (hparse : Program.parse source = .ok p) (hm : Reached Natives.empty p m) {x : String}
    {args : List Expr} {K : List Item} (hc : m.registers.control = .expr (.call (.field q x) args) :: K)
    (hu : Until Natives.empty (K.length + 1) m m') :
    ∃ t ts sel k receiver items, m.registers.env.pathType q = .ok t ∧
      m.registers.env.staticTypes args = .ok ts ∧ m.registers.env.resolveMethod t x ts = .ok sel ∧
      Dispatched m.registers.env q sel k receiver ∧
      (∀ v w, receiver = some v → Denotes m.registers.env q w → w = v) ∧
      m'.registers.control = .invoke (args.length + receiver.toList.length) :: K ∧
      items.length = args.length ∧ m'.registers.stash =
        items ++ (receiver.toList.map StashItem.value ++ .closure k :: m.registers.stash) := by
  have hsuper := not_names_super hparse hm
  obtain ⟨m₁, hnext, harrives⟩ := hu.exists_next
  have hperform := hnext.perform hc
  have hstart : Heads p (K.length + 1) m' ⟨.typeOf (.name q) :: (args.map .typeOf ++
      .overload x args.length q :: (args.map .expr ++ .invoke args.length :: K)), m.registers.stash,
      m.registers.env, m.registers.output⟩ := by
    have hends : Ends (perform Natives.empty (.expr (.call (.field q x) args)))
        { m.registers with control := K } (fun _ r => r = ⟨.typeOf (.name q) :: (args.map .typeOf ++
          .overload x args.length q :: (args.map .expr ++ .invoke args.length :: K)), m.registers.stash,
          m.registers.env, m.registers.output⟩) (fun _ _ => True) := by
      simp [perform, Step.evaluate]
    exact ⟨m₁, hends.of_ok hperform, hm.next hnext, harrives⟩
  obtain ⟨t, ts, sel, k, receiver, items, ht, hts, hsel, hdispatched, hcontrol, hitems, hstash⟩ := hstart.call hsuper
  refine ⟨t, ts, sel, k, receiver, items, ht, hts, hsel, hdispatched, ?_, hcontrol, hitems, hstash⟩
  rintro v w rfl hw
  exact hdispatched.eq_of_denotes hw

/-- A source with a call whose argument stores another object in the variable that the call is made on. -/
def callSource : String :=
  "class A \x7b void f(A x) \x7b \x7d \x7d class B extends A \x7b void f(A x) \x7b \x7d \x7d "
    ++ "class M \x7b public static void main(String[] s) \x7b A a = new B(); a.f(a = new A()); \x7d \x7d"

/-- The qualifier, the name and the arguments of the call that is evaluated next, and what is behind it. -/
def nextCall? (m : Machine) : Option (Path × String × List Expr × List Item) :=
  match m.registers.control with
  | .expr (.call (.field q x) args) :: K => some (q, x, args, K)
  | _ => none

/-- The arity of the invocation that comes next, and the classes of the receiver and of the closure that lie
below one argument. -/
def nextInvocation? (m : Machine) : Option (Nat × String × String) :=
  match m.registers.control, m.registers.stash with
  | .invoke n :: _, _ :: .value (.object c _) :: .closure k :: _ => some (n, c.name, k.className)
  | _, _ => none

/-- Although the variable holds an `A` in the end, the method of `B` runs on the object that was there
first. -/
theorem call_dispatch_captured : ∃ p m q x arg K m' t u sel k c f item,
    Program.parse callSource = .ok p ∧ Reached Natives.empty p m ∧
    m.registers.control = .expr (.call (.field q x) [arg]) :: K ∧ Until Natives.empty (K.length + 1) m m' ∧
    m.registers.env.pathType q = .ok t ∧ m.registers.env.staticTypes [arg] = .ok u ∧
    m.registers.env.resolveMethod t x u = .ok sel ∧
    Dispatched m.registers.env q sel k (some (.object c f)) ∧ c.name = "B" ∧ k.className = "B" ∧
    m'.registers.control = .invoke 2 :: K ∧
    m'.registers.stash = item :: .value (.object c f) :: .closure k :: m.registers.stash := by
  have hrun : (sample? callSource 68).any (fun m => (nextCall? m).any (fun call =>
      call.2.2.1.length == 1 && (m.until? Natives.empty (call.2.2.2.length + 1) 60).any (fun m' =>
        nextInvocation? m' == some (2, "B", "B")))) = true := by
    rw [sample?_eq_parseDecoded?]
    decide +kernel
  obtain ⟨m, hm, hrun⟩ := (Option.any_eq_true _ _).mp hrun
  obtain ⟨p, hp, hreached⟩ := exists_of_sample? hm
  obtain ⟨⟨q, x, args, K⟩, hcall, hrun⟩ := (Option.any_eq_true _ _).mp hrun
  rw [Bool.and_eq_true, beq_iff_eq, Option.any_eq_true] at hrun
  obtain ⟨hlen, m', hm', hinvoke⟩ := hrun
  obtain ⟨arg, rfl⟩ := List.length_eq_one_iff.mp hlen
  have hc : m.registers.control = .expr (.call (.field q x) [arg]) :: K := by
    unfold nextCall? at hcall
    split at hcall
    · rename_i hcontrol
      cases hcall
      exact hcontrol
    · cases hcall
  have hu := until_of_until? hm'
  obtain ⟨t, ts, sel, k, receiver, items, ht, hts, hsel, hdispatched, -, hcontrol, hitems, hstash⟩ :=
    call_dispatch hp hreached hc hu
  obtain ⟨item, rfl⟩ := List.length_eq_one_iff.mp hitems
  rw [beq_iff_eq, nextInvocation?, hcontrol, hstash] at hinvoke
  cases receiver with
  | none =>
    -- a static method would be invoked with one argument only
    split at hinvoke
    · rename_i hn _
      cases hn
      cases hinvoke
    · cases hinvoke
  | some v =>
    cases v with
    | object c f =>
      obtain ⟨-, hclasses⟩ := Prod.mk.inj (Option.some.inj hinvoke)
      obtain ⟨hobject, hclosure⟩ := Prod.mk.inj hclasses
      exact ⟨p, m, q, x, arg, K, m', t, ts, sel, k, c, f, item, hp, hreached, hc, hu, ht, hts, hsel,
        hdispatched, hobject, hclosure, hcontrol, hstash⟩
    | _ => cases hinvoke

end Dispatch

end StashMachine
