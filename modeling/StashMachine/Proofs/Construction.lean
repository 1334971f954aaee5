import StashMachine.Proofs.Lookup
import StashMachine.Proofs.Results
import StashMachine.Proofs.Timeline

/-!
# StashMachine.Proofs.Construction — how a constructor comes to be invoked

* `Invokes p m k object K`: the run stands at `m`, and invokes the closure on the object next, with `K` behind.
* `Invokes.next`: what the invocation makes of control, stash and environment.
* `queues_of_new`, `queues_of_call`, `queues_of_construct`: what these put on control.
* `constructor_of_resolve`: the closure that is selected for a class is that of one of its constructors.
* `exists_creation`: between `new` and its invocation lie the selection, the making of the object and the arguments.
* `exists_delegation`: so it is with an explicit constructor call, which finds its receiver instead.
-/

namespace StashMachine

open Environment Step Machine

/-- A run of the program stands at `m` and invokes the closure on the object next, with `K` behind on control. -/
def Invokes (p : Program) (m : Machine) (k : Closure) (object : Class × FrameId) (K : List Item) : Prop :=
  Reached Natives.empty p m ∧ ∃ n, m.registers.control = .invoke n :: K ∧
    Calls { m.registers with control := K } (.invoke n) k (some object)

section Invokes

variable {p : Program} {m m₁ : Machine} {k : Closure} {object : Class × FrameId} {K : List Item}

/-- An invocation enters the body in a new frame around which the object lies, and binds the receiver there. -/
theorem Invokes.next (h : Invokes p m k object K) (hnext : Next Natives.empty m m₁) :
    ∃ body, k.callable.body? = some body ∧ m₁.registers.control = .stmt (.block body) :: .marker .ret ::
        .restore m.registers.env.current :: K ∧
      m₁.registers.env.current = m.registers.env.frames.size ∧
      m₁.registers.env.frames.size = m.registers.env.frames.size + 1 ∧
      Receives m₁.registers.env m.registers.env.frames.size k object ∧
      Plays p m.registers.env.frames.size (.call k (some object)) := by
  obtain ⟨hm, n, hc, hcalls⟩ := h
  have hperform := hnext.perform hc
  have hreceives := (invoke_receives n _).of_ok hperform k object hcalls
  obtain ⟨k', object', args, rest, below, vs, body, hn, hstash, hreceiver, hbody, hr⟩ :=
    (invoke_ends n).of_ok hperform
  obtain ⟨rfl, rfl⟩ := hcalls.unique ⟨n, args, rest, below, rfl, hn, hstash, hreceiver⟩
  have hcurrent : m₁.registers.env.current = m.registers.env.frames.size := by
    rw [hr, current_addVariables]
    rfl
  have hsize : m₁.registers.env.frames.size = m.registers.env.frames.size + 1 := by
    rw [hr, size_addVariables, size_extend]
  exact ⟨body, hbody, by rw [hr], hcurrent, hsize, hreceives, plays_of_next hm hc hnext hcurrent (.call hcalls)⟩

/-- The receiver of an invocation lies deepest among the arguments. -/
theorem args_of_stash {c : Class} {o : FrameId} {k' : Closure} {args : List Value} {items below below' : List StashItem}
    (hlength : args.length = items.length + 1) (h : items ++ .value (.object c o) :: .closure k :: below =
      (args.map StashItem.value).reverse ++ .closure k' :: below') :
    k = k' ∧ below = below' ∧ ∃ rest, args = .object c o :: rest := by
  rw [show items ++ .value (.object c o) :: .closure k :: below =
    (items ++ [.value (.object c o)]) ++ .closure k :: below by simp] at h
  obtain ⟨hitems, hbelow⟩ := List.append_inj h (by simp [hlength])
  cases hbelow
  cases args with
  | nil => cases hlength
  | cons v args =>
    rw [List.map_cons, List.reverse_cons] at hitems
    obtain ⟨-, hv⟩ := List.append_inj' hitems rfl
    cases hv
    exact ⟨rfl, rfl, args, rfl⟩

/-- The stash says what is invoked. -/
theorem Invokes.of_stash {c : Class} {o : FrameId} {k' : Closure} {K' : List Item} {items below : List StashItem}
    (h : Invokes p m k' object K') (hc : m.registers.control = .invoke (items.length + 1) :: K)
    (hstash : m.registers.stash = items ++ .value (.object c o) :: .closure k :: below)
    (hk : k.callable.isStatic = false) : K' = K ∧ k' = k ∧ object = (c, o) := by
  obtain ⟨-, n, hc', n', args, rest, below', hn', hargs, hstash', hreceiver⟩ := h
  rw [hc] at hc'
  cases hc'
  cases hn'
  replace hstash' : m.registers.stash = (args.map StashItem.value).reverse ++ .closure k' :: below' := hstash'
  obtain ⟨rfl, -, args, rfl⟩ := args_of_stash hargs (hstash.symm.trans hstash')
  rw [receiver, if_neg (by simp [hk])] at hreceiver
  cases hreceiver
  exact ⟨rfl, rfl, rfl⟩

/-- The stash says what is invoked, if the step ends well. -/
theorem invokes_of_next {n : Nat} {items below : List StashItem} {c : Class} {o : FrameId}
    (hm : Reached Natives.empty p m) (hc : m.registers.control = .invoke (n + 1) :: K) (hn : items.length = n)
    (hstash : m.registers.stash = items ++ .value (.object c o) :: .closure k :: below)
    (hk : k.callable.isStatic = false) (hnext : Next Natives.empty m m₁) :
    Invokes p m k (c, o) K ∧ m₁.registers.stash = below := by
  have hperform := hnext.perform hc
  obtain ⟨k', object, args, rest, below', vs, body, hargs, hstash', hreceiver, -, hr⟩ :=
    (invoke_ends (n + 1)).of_ok hperform
  replace hstash' : m.registers.stash = (args.map StashItem.value).reverse ++ .closure k' :: below' := hstash'
  obtain ⟨rfl, rfl, args, rfl⟩ := args_of_stash (hn ▸ hargs) (hstash.symm.trans hstash')
  rw [receiver, if_neg (by simp [hk])] at hreceiver
  cases hreceiver
  refine ⟨⟨hm, n + 1, hc, n + 1, .object c o :: rest, rest, below, rfl, hargs, hstash', ?_⟩, by rw [hr]⟩
  rw [receiver, if_neg (by simp [hk])]

end Invokes

section Queues

variable {m m₁ : Machine} {x : String} {q : Path} {args : List Expr} {who : Delegate} {K : List Item}

/-- What `new` puts on control. -/
theorem queues_of_new (hc : m.registers.control = .expr (.new x args) :: K) (hnext : Next Natives.empty m m₁) :
    m₁.registers = ⟨args.map .typeOf ++ .overloadConstructor x args.length :: .new x ::
      (args.map .expr ++ .invoke (args.length + 1) :: K), m.registers.stash, m.registers.env, m.registers.output⟩ := by
  have hperform := hnext.perform hc
  have hends : Ends (perform Natives.empty (.expr (.new x args))) { m.registers with control := K }
      (fun _ r => r = ⟨args.map .typeOf ++ .overloadConstructor x args.length :: .new x ::
        (args.map .expr ++ .invoke (args.length + 1) :: K), m.registers.stash, m.registers.env,
        m.registers.output⟩) (fun _ _ => True) := by
    simp [perform, Step.evaluate]
  exact hends.of_ok hperform

/-- What the call of a method puts on control. -/
theorem queues_of_call (hc : m.registers.control = .expr (.call (.field q x) args) :: K)
    (hnext : Next Natives.empty m m₁) : m₁.registers = ⟨.typeOf (.name q) :: (args.map .typeOf ++
      .overload x args.length q :: (args.map .expr ++ .invoke args.length :: K)), m.registers.stash, m.registers.env,
      m.registers.output⟩ := by
  have hperform := hnext.perform hc
  have hends : Ends (perform Natives.empty (.expr (.call (.field q x) args))) { m.registers with control := K }
      (fun _ r => r = ⟨.typeOf (.name q) :: (args.map .typeOf ++ .overload x args.length q ::
        (args.map .expr ++ .invoke args.length :: K)), m.registers.stash, m.registers.env, m.registers.output⟩)
      (fun _ _ => True) := by
    simp [perform, Step.evaluate]
  exact hends.of_ok hperform

/-- What an explicit constructor call puts on control.  The variable is looked up at once, for its type. -/
theorem queues_of_construct (hc : m.registers.control = .stmt (.construct who args) :: K)
    (hnext : Next Natives.empty m m₁) : ∃ id t, m.registers.env.lookup? who.text = some (.var id) ∧
      t = ((m.registers.env.var? id).map Variable.type).getD .void ∧
      m₁.registers = ⟨args.map .typeOf ++ .overloadConstructor t.text args.length ::
        .expr (.name (.simple who.text)) :: (args.map .expr ++ .invoke (args.length + 1) :: .pop :: K),
        m.registers.stash, m.registers.env, m.registers.output⟩ := by
  have hperform := hnext.perform hc
  have hends : Ends (perform Natives.empty (.stmt (.construct who args))) { m.registers with control := K }
      (fun _ r => ∃ id t, m.registers.env.lookup? who.text = some (.var id) ∧
        t = ((m.registers.env.var? id).map Variable.type).getD .void ∧
        r = ⟨args.map .typeOf ++ .overloadConstructor t.text args.length ::
          .expr (.name (.simple who.text)) :: (args.map .expr ++ .invoke (args.length + 1) :: .pop :: K),
          m.registers.stash, m.registers.env, m.registers.output⟩) (fun _ _ => True) := by
    rw [perform, execute, construct, ends_bind, ends_ask]
    refine ⟨fun id hid => ?_, fun _ _ => trivial⟩
    refine ⟨id, _, ?_, rfl, by simp⟩
    unfold findVariable at hid
    split at hid
    · rename_i id' hid'
      cases hid
      exact hid'
    · cases hid
  exact hends.of_ok hperform

end Queues

section Selection

variable {p : Program} {m : Machine} {x : String} {ts : List TypeName} {k : Closure}

/-- The closure that is selected for a class is that of one of its constructors. -/
theorem constructor_of_resolve (hp : ∀ d ∈ p, d.Plain) (hm : Reached Natives.empty p m)
    (hpending : pending m.registers.control = []) (h : m.registers.env.resolveConstructor x ts = .ok k) :
    ∃ c d, m.registers.env.findClass x = .ok c ∧ c.name = x ∧ d ∈ c.constructors ∧
      k = ⟨.constructor d, c.frame, c.name⟩ := by
  obtain ⟨c, hc, d, hd, -, hbound⟩ := exists_of_resolveConstructor h
  obtain ⟨pend, he, hpend⟩ := (Phase.strict hp hm).exists_forming
  obtain rfl : pend = [] := by
    rcases hpend with rfl | rfl
    · rfl
    · exact hpending
  have hall : m.registers.env.Bound c.toClassInfo [] :=
    (he.complete trivial x c hc c.toClassInfo (.head _)).elim id (fun hb => hb.2.2)
  have hin := hall.bindsIn (.constructor d) (by simp [ClassInfo.callables, hd])
  rw [BindsIn, hbound] at hin
  cases hin
  exact ⟨c, d, hc, (he.classes trivial x c hc).name, hd, rfl⟩

end Selection

section Creation

variable {p : Program} {m m' : Machine} {x source : String} {args : List Expr} {K : List Item}

/-- The types of the arguments select a constructor. -/
theorem Machine.Arrives.constructor {h : Nat} {c : List Item} {s : List StashItem} {env : Environment}
    {out : List String} (hp : ∀ d ∈ p, d.Plain) (ha : m.Arrives Natives.empty h m')
    (hm : Reached Natives.empty p m)
    (hr : m.registers = ⟨args.map .typeOf ++ .overloadConstructor x args.length :: c, s, env, out⟩) (hh : h ≤ c.length) :
    ∃ m₁ d k, Reached Natives.empty p m₁ ∧ m.steps < m₁.steps ∧ env.findClass x = .ok d ∧ d.name = x ∧
      k ∈ d.constructors ∧ m₁.registers = ⟨c, .closure ⟨.constructor k, d.frame, d.name⟩ :: s, env, out⟩ ∧
      m₁.Arrives Natives.empty h m' := by
  have hd : Descends Natives.empty (.overloadConstructor x args.length :: c : List Item).length m.registers
      (fun r => ∃ ts : List TypeName, ts.length = args.length ∧ r = ⟨.overloadConstructor x args.length :: c,
        (ts.map StashItem.type).reverse ++ s, env, out⟩) (fun _ _ => True) := by
    rw [hr]
    exact descends_typesOf (Nat.le_refl _)
      (fun ts _ hlen => descends_here (Nat.le_refl _) ⟨ts, hlen, rfl⟩) (fun _ _ _ _ => trivial)
  obtain ⟨m₁, harrives, ⟨ts, hlen, hr₁⟩, ha₁⟩ := ha.descends (Nat.le_succ_of_le hh) hd
  obtain ⟨hm₁, hle, -⟩ := harrives.steps hm
  have hends : Ends (perform Natives.empty (.overloadConstructor x args.length))
      ⟨c, (ts.map StashItem.type).reverse ++ s, env, out⟩
      (fun _ r => ∃ k, env.resolveConstructor x ts = .ok k ∧ r = ⟨c, .closure k :: s, env, out⟩)
      (fun _ _ => True) := by
    rw [perform, overloadConstructor, ends_bind, ← hlen]
    refine ends_popTypes_map ts ?_
    simp only [ends_bind, ends_ask, ends_push]
    exact ⟨fun k hk => ⟨k, hk, rfl⟩, fun _ _ => trivial⟩
  obtain ⟨m₂, hnext, ⟨k, hk, hr₂⟩, ha₂⟩ := ha₁.next hr₁ hh hends
  have hpending : pending m₁.registers.control = [] := by rw [hr₁]; rfl
  rw [show env = m₁.registers.env by rw [hr₁]] at hk
  obtain ⟨d, k, hfind, hname, hmem, rfl⟩ := constructor_of_resolve hp hm₁ hpending hk
  rw [hr₁] at hfind
  refine ⟨m₂, d, k, hm₁.next hnext, ?_, hfind, hname, hmem, hr₂, ha₂⟩
  rw [hnext.steps]
  omega

/-- On its way to the invocation of a constructor, `new` selects it, makes the object, and evaluates the arguments. -/
theorem exists_creation (hparse : Program.parse source = .ok p) (hm : Reached Natives.empty p m)
    (hc : m.registers.control = .expr (.new x args) :: K) (hu : Until Natives.empty (K.length + 1) m m') :
    ∃ m₁ m₂ c d items, Reached Natives.empty p m₁ ∧ m.steps < m₁.steps ∧ Next Natives.empty m₁ m₂ ∧
      m₁.registers = ⟨.new x :: (args.map .expr ++ .invoke (args.length + 1) :: K),
        .closure ⟨.constructor d, c.frame, c.name⟩ :: m.registers.stash, m.registers.env, m.registers.output⟩ ∧
      m.registers.env.findClass x = .ok c ∧ c.name = x ∧ d ∈ c.constructors ∧
      m₂.registers = ⟨args.map .expr ++ .invoke (args.length + 1) :: K,
        .value (.object c m.registers.env.frames.size) :: .closure ⟨.constructor d, c.frame, c.name⟩ ::
          m.registers.stash, (m.registers.env.instantiate c).2, m.registers.output⟩ ∧
      m₂.Arrives Natives.empty (K.length + 1) m' ∧ m'.registers.control = .invoke (args.length + 1) :: K ∧
      items.length = args.length ∧ m'.registers.stash = items ++ .value (.object c m.registers.env.frames.size) ::
        .closure ⟨.constructor d, c.frame, c.name⟩ :: m.registers.stash := by
  obtain ⟨m₀, hnext, ha⟩ := hu.exists_next
  have hm₀ := hm.next hnext
  have hr₀ := queues_of_new hc hnext
  have hlength : K.length + 1 ≤ (args.map Item.expr ++ .invoke (args.length + 1) :: K).length := by
    rw [List.length_append, List.length_cons]
    omega
  obtain ⟨m₁, c, d, hm₁, hsteps, hfind, hname, hd, hr₁, ha₁⟩ :=
    ha.constructor (Program.parse_plain hparse) hm₀ hr₀ (Nat.le_succ_of_le hlength)
  have hends : Ends (perform Natives.empty (.new x)) ⟨args.map .expr ++ .invoke (args.length + 1) :: K,
      .closure ⟨.constructor d, c.frame, c.name⟩ :: m.registers.stash, m.registers.env, m.registers.output⟩
      (fun _ r => r = ⟨args.map .expr ++ .invoke (args.length + 1) :: K,
        .value (.object c m.registers.env.frames.size) :: .closure ⟨.constructor d, c.frame, c.name⟩ ::
          m.registers.stash, (m.registers.env.instantiate c).2, m.registers.output⟩) (fun _ _ => True) := by
    refine (new_ends x _).mono ?_ (fun _ _ _ => trivial)
    rintro - r ⟨c', hfind', -, rfl⟩
    rw [hfind] at hfind'
    cases hfind'
    rfl
  obtain ⟨m₂, hnext₂, hr₂, ha₂⟩ := ha₁.next hr₁ hlength hends
  obtain ⟨hcontrol, items, hitems, hstash⟩ := Heads.arguments ⟨m₂, hr₂, hm₁.next hnext₂, ha₂⟩
  refine ⟨m₁, m₂, c, d, items, hm₁, ?_, hnext₂, hr₁, hfind, hname, hd, hr₂, ha₂, hcontrol, hitems, hstash⟩
  have hfirst := hnext.steps
  omega

/-- An explicit constructor call selects a constructor of the class that `this` or `super` is declared with, and
finds what the variable holds before it evaluates the arguments. -/
theorem exists_delegation {who : Delegate} (hparse : Program.parse source = .ok p) (hm : Reached Natives.empty p m)
    (hc : m.registers.control = .stmt (.construct who args) :: K) (hu : Until Natives.empty (K.length + 2) m m') :
    ∃ id y v c d items, m.registers.env.lookup? who.text = some (.var id) ∧ m.registers.env.var? id = some y ∧
      y.value = some v ∧ m.registers.env.findClass y.type.text = .ok c ∧ d ∈ c.constructors ∧
      m'.registers.control = .invoke (args.length + 1) :: .pop :: K ∧ items.length = args.length ∧
      m'.registers.stash = items ++ .value v :: .closure ⟨.constructor d, c.frame, c.name⟩ :: m.registers.stash := by
  obtain ⟨m₀, hnext, ha⟩ := hu.exists_next
  have hm₀ := hm.next hnext
  obtain ⟨id, t, hid, ht, hr₀⟩ := queues_of_construct hc hnext
  have hlength : K.length + 2 ≤ (args.map Item.expr ++ .invoke (args.length + 1) :: .pop :: K).length := by
    simp
  obtain ⟨m₁, c, d, hm₁, -, hfind, -, hd, hr₁, ha₁⟩ :=
    ha.constructor (Program.parse_plain hparse) hm₀ hr₀ (Nat.le_succ_of_le hlength)
  obtain ⟨item, env', hitem, hheads⟩ := Heads.name ⟨m₁, hr₁, hm₁, ha₁⟩ hlength
  obtain ⟨hcontrol, items, hitems, hstash⟩ := Heads.arguments (c := .invoke (args.length + 1) :: .pop :: K) hheads
  cases hitem with
  | @value _ v hv =>
    obtain ⟨id', y, hnames, hy, hv⟩ := hv
    cases hnames with
    | var hid' =>
      rw [hid] at hid'
      cases hid'
      rw [hy] at ht
      rw [ht] at hfind
      exact ⟨id, y, v, c, d, items, hid, hy, hv, hfind, hd, hcontrol, hitems, hstash⟩
  | cls hnames =>
    cases hnames with
    | cls hid' =>
      rw [hid] at hid'
      cases hid'

end Creation

end StashMachine
