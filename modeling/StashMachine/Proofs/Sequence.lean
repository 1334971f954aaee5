import StashMachine.Proofs.Delegation

/-!
# StashMachine.Proofs.Sequence — the statements of a constructor, one after the other

* `Over m m'`: what is next at `m` is over when the run comes to `m'`.
* `ComesTo m d K i m'`: in the call of the constructor `d` at `m`, the statement number `i` of the body is next at `m'`.
* `ComesTo.over`: a statement is over when the run comes to a later one.
* `ComesTo.effect`, `Constructs.calls`: what follows on the set-up of a field, and on an explicit constructor call.
-/

namespace StashMachine

open Environment Step Machine

/-! ### Items that are done -/

section Done

variable {p : Program} {m m₁ m₂ m' : Machine} {e : Expr} {h : Nat} {R : List Item}

/-- When the run comes to `m'`, the first item on control at `m` is done, with all that it has led to. -/
def Over (m m' : Machine) : Prop := ∃ m₁, Until Natives.empty (m.height - 1) m m₁ ∧ m₁.steps ≤ m'.steps

theorem Over.mono (h : Over m m₁) (hle : m₁.steps ≤ m₂.steps) : Over m m₂ := by
  obtain ⟨m', hu, hle'⟩ := h
  exact ⟨m', hu, Nat.le_trans hle' hle⟩

/-- What is dropped from the stash leaves the items behind. -/
theorem control_of_pop (hc : m.registers.control = .pop :: R) (hnext : Next Natives.empty m m₁) :
    m₁.registers.control = R := by
  cases hnext.hands hc with
  | orders new _ hnew hcontrol =>
    cases new with
    | nil => exact hcontrol
    | cons j new => cases hnew j (.head _)
  | keeps _ _ _ hi _ => cases hi
  | selects _ _ _ _ _ hi _ _ _ => cases hi
  | jumps _ hi _ => cases hi
  | enters _ _ _ _ hi _ _ _ => cases hi

theorem Machine.Until.pop (hc : m.registers.control = .pop :: R) (hu : Until Natives.empty R.length m m₁) :
    Next Natives.empty m m₁ ∧ m₁.registers.control = R := by
  obtain ⟨m₂, hnext, harrives⟩ := hu.exists_next
  have hcontrol := control_of_pop hc hnext
  have hhere : m₂.Arrives Natives.empty R.length m₂ := .inl ⟨Nat.le_of_eq (congrArg List.length hcontrol), rfl⟩
  obtain rfl := harrives.unique hhere
  exact ⟨hnext, hcontrol⟩

/-- The statement of an expression is done when the items behind it are next. -/
theorem Machine.Until.effect (hm : Reached Natives.empty p m) (hc : m.registers.control = .stmt (.expr e) :: R)
    (hu : Until Natives.empty R.length m m₁) : m₁.registers.control = R := by
  obtain ⟨m₂, hnext, harrives⟩ := hu.exists_next
  have hr₂ : m₂.registers = ⟨[e].map .expr ++ .pop :: R, m.registers.stash, m.registers.env, m.registers.output⟩ := by
    have hperform := hnext.perform hc
    obtain ⟨r, steps⟩ := m₂
    cases hperform
    rfl
  have hhigh : (.pop :: R : List Item).length < m₂.height := by
    rw [height, hr₂]
    exact Nat.lt_succ_self _
  have hle : R.length ≤ (.pop :: R : List Item).length := Nat.le_succ _
  obtain ⟨m₃, hu₃, harrives₃⟩ := (harrives.until (Nat.lt_of_le_of_lt hle hhigh)).split hle
  obtain ⟨hcontrol, -⟩ := Heads.arguments ⟨m₂, hr₂, hm.next hnext, .inr ⟨hhigh, hu₃⟩⟩
  exact (Until.pop hcontrol (harrives₃.until (by rw [height, hcontrol]; exact Nat.lt_succ_self _))).2

end Done

/-! ### The statements of a body -/

/-- What is behind the statements of the body on control, in a call at `m`. -/
def wayBack (m : Machine) (K : List Item) : List Item :=
  .restore m.registers.env.frames.size :: .marker .ret :: .restore m.registers.env.current :: K

/-- The items of control that begin with the statement number `i` of the body, in a call of the constructor at `m`. -/
def itemsFrom (m : Machine) (d : ConstructorDecl) (K : List Item) (i : Nat) : List Item :=
  (d.body.drop i).map .stmt ++ wayBack m K

/-- In the call of the constructor at `m`, the statement number `i` of the body is next at `m'`. -/
def ComesTo (m : Machine) (d : ConstructorDecl) (K : List Item) (i : Nat) (m' : Machine) : Prop :=
  ∃ m₁, Next Natives.empty m m₁ ∧ Until Natives.empty (itemsFrom m d K i).length m₁ m' ∧
    m'.registers.control = itemsFrom m d K i

section Sequence

variable {p : Program} {m m₁ m₂ m' : Machine} {source : String} {c : Class} {d : ConstructorDecl}
  {object : Class × FrameId} {K : List Item} {i j : Nat} {s : Stmt}

theorem itemsFrom_eq_cons (hs : d.body[i]? = some s) : itemsFrom m d K i = .stmt s :: itemsFrom m d K (i + 1) := by
  obtain ⟨hi, rfl⟩ := List.getElem?_eq_some_iff.mp hs
  rw [itemsFrom, List.drop_eq_getElem_cons hi]
  rfl

theorem length_itemsFrom : (itemsFrom m d K i).length = d.body.length - i + (K.length + 3) := by
  rw [itemsFrom, List.length_append, List.length_map, List.length_drop]
  rfl

theorem ComesTo.unique (h : ComesTo m d K i m₁) (h' : ComesTo m d K i m₂) : m₁ = m₂ := by
  obtain ⟨a, hnext, hu, -⟩ := h
  obtain ⟨b, hnext', hu', -⟩ := h'
  cases hnext.unique hnext'
  exact hu.unique hu'

theorem ComesTo.steps (h : ComesTo m d K i m') (hm : Reached Natives.empty p m) :
    Reached Natives.empty p m' ∧ m.steps < m'.steps := by
  obtain ⟨m₁, hnext, hu, -⟩ := h
  obtain ⟨hm', hlt, -⟩ := hu.steps (hm.next hnext)
  have hsteps := hnext.steps
  exact ⟨hm', by omega⟩

/-- A statement is over when the run comes to a later one. -/
theorem ComesTo.over (h : ComesTo m d K i m₁) (h' : ComesTo m d K j m₂) (hlt : i < j) (hi : i < d.body.length)
    (hm : Reached Natives.empty p m) : Over m₁ m₂ := by
  obtain ⟨a, hnext, hu, hc⟩ := h
  obtain ⟨b, hnext', hu', -⟩ := h'
  cases hnext.unique hnext'
  have hm₁ := (hu.steps (hm.next hnext)).1
  have hlength : (itemsFrom m d K j).length < (itemsFrom m d K i).length := by
    rw [length_itemsFrom, length_itemsFrom]
    omega
  obtain ⟨b, hub, harrives⟩ := hu'.split (Nat.le_of_lt hlength)
  cases hu.unique hub
  have hheight : m₁.height = (itemsFrom m d K i).length := congrArg List.length hc
  have hu₁ := harrives.until (by omega)
  obtain ⟨e, hue, harrives'⟩ := hu₁.split (Nat.le_sub_one_of_lt (hheight ▸ hlength))
  exact ⟨e, hue, (harrives'.steps (hue.steps hm₁).1).2.1⟩

/-- When a statement is done, the next one is next. -/
theorem ComesTo.next (h : ComesTo m d K i m₁) (hi : i < d.body.length)
    (hu : Until Natives.empty (itemsFrom m d K (i + 1)).length m₁ m₂)
    (hc : m₂.registers.control = itemsFrom m d K (i + 1)) : ComesTo m d K (i + 1) m₂ := by
  obtain ⟨a, hnext, hu₁, hc₁⟩ := h
  have hlength : (itemsFrom m d K (i + 1)).length < (itemsFrom m d K i).length := by
    rw [length_itemsFrom, length_itemsFrom]
    omega
  have hhigh : (itemsFrom m d K (i + 1)).length < m₁.height := Nat.lt_of_lt_of_eq hlength (congrArg List.length hc₁).symm
  exact ⟨a, hnext, hu₁.trans (Nat.le_of_lt hlength) hhigh hu, hc⟩

theorem ComesTo.until (h : ComesTo m d K i m₁) (hu : m₁.Arrives Natives.empty K.length m') :
    Until Natives.empty K.length m₁ m' := by
  obtain ⟨a, -, -, hc⟩ := h
  refine hu.until ?_
  rw [height, hc, length_itemsFrom]
  omega

/-- An expression is followed by the next statement, if the call comes to its end. -/
theorem ComesTo.effect {e : Expr} (h : ComesTo m d K i m₁) (hm : Reached Natives.empty p m)
    (hs : d.body[i]? = some (.expr e)) (hu : Until Natives.empty K.length m₁ m') :
    ∃ m₂, ComesTo m d K (i + 1) m₂ ∧ Until Natives.empty K.length m₂ m' := by
  obtain ⟨hi, -⟩ := List.getElem?_eq_some_iff.mp hs
  have hm₁ := (h.steps hm).1
  have hle : K.length ≤ (itemsFrom m d K (i + 1)).length := by
    rw [length_itemsFrom]
    omega
  obtain ⟨m₂, hu₂, harrives⟩ := hu.split hle
  have hc : m₁.registers.control = .stmt (.expr e) :: itemsFrom m d K (i + 1) := by
    obtain ⟨-, -, -, hc⟩ := h
    rw [hc, itemsFrom_eq_cons hs]
  have hcomes := h.next hi hu₂ (hu₂.effect hm₁ hc)
  exact ⟨m₂, hcomes, hcomes.until harrives⟩

/-- A call of a constructor that comes to its end comes to the first statement of the body. -/
theorem Constructs.enters (h : Constructs p m c d object K) (hu : Until Natives.empty K.length m m') :
    ∃ m₁ m₂, Next Natives.empty m m₁ ∧ Next Natives.empty m₁ m₂ ∧ ComesTo m d K 0 m₂ ∧
      Until Natives.empty K.length m₂ m' := by
  obtain ⟨m₁, hnext, harrives⟩ := hu.exists_next
  obtain ⟨body, hbody, hc₁, -⟩ := h.invokes.next hnext
  have hhigh : K.length < m₁.height := by
    rw [height, hc₁]
    simp only [List.length_cons]
    omega
  obtain ⟨m₂, hnext₂, harrives₂⟩ := (harrives.until hhigh).exists_next
  have hc₂ : m₂.registers.control = itemsFrom m d K 0 := congrArg Registers.control (h.invokes.enters hnext hnext₂)
  have hcomes : ComesTo m d K 0 m₂ := ⟨m₁, hnext, .last hnext₂ (Nat.le_of_eq (congrArg List.length hc₂)), hc₂⟩
  exact ⟨m₁, m₂, hnext, hnext₂, hcomes, hcomes.until harrives₂⟩

/-- A call that comes to its end leaves control as it was behind it. -/
theorem Constructs.control_eq (h : Constructs p m c d object K) (hu : Until Natives.empty K.length m m') :
    m'.registers.control = K := by
  obtain ⟨m₁, hnext, harrives⟩ := hu.exists_next
  obtain ⟨body, hbody, hc₁, -⟩ := h.invokes.next hnext
  obtain ⟨-, -, n, args, rest, below, -, -, hstash, -⟩ := h.invokes.2
  have hk : .closure ⟨.constructor d, c.frame, c.name⟩ ∈ m.registers.stash := by
    rw [show m.registers.stash = _ from hstash]
    simp
  have hhigh : K.length < m₁.height := by
    rw [height, hc₁]
    simp only [List.length_cons]
    omega
  obtain ⟨-, -, -, hcontrol, -⟩ := exists_returned (h.invokes.1.next hnext) hc₁
    ((returns_of_mem_stash h.invokes.1 hk).of_body? hbody) (harrives.until hhigh)
  exact hcontrol

/-- A body that begins with an explicit constructor call comes to the invocation, and when this is over to the second
statement. -/
theorem Constructs.calls {who : Delegate} {args : List Expr} (hparse : Program.parse source = .ok p)
    (h : Constructs p m c d object K) (hs : d.body[0]? = some (.construct who args))
    (hu : Until Natives.empty K.length m m') :
    ∃ m₃ c' d' m₄ m₅, Delegates m m₃ ∧ Constructs p m₃ c' d' object (.pop :: itemsFrom m d K 1) ∧
      (who = .this ∧ c' = c ∨ who = .super ∧ c.ancestors = c'.lineage) ∧
      Until Natives.empty ((itemsFrom m d K 1).length + 1) m₃ m₄ ∧ m₄.steps < m₅.steps ∧ ComesTo m d K 1 m₅ ∧
      Until Natives.empty K.length m₅ m' := by
  obtain ⟨m₁, m₂, hnext, hnext₁, hcomes, hu₂⟩ := h.enters hu
  obtain ⟨hi, -⟩ := List.getElem?_eq_some_iff.mp hs
  have hc₂ : m₂.registers.control = .stmt (.construct who args) :: itemsFrom m d K 1 := by
    obtain ⟨-, -, -, hc⟩ := hcomes
    rw [hc, itemsFrom_eq_cons hs]
  have hle : K.length ≤ (itemsFrom m d K 1).length := by
    rw [length_itemsFrom]
    omega
  -- the run comes to the invocation, from there to the end of the call, and to what is behind it
  obtain ⟨m₃, hu₃, ha₃⟩ := hu₂.split (Nat.le_add_right_of_le (k := 2) hle)
  obtain ⟨c', d', items, hclass, hd', hfind, hm₃, hc₃, hstash⟩ := h.delegation hparse hnext hnext₁ hc₂ hu₃
  have hhigh₃ : K.length < m₃.height := by
    rw [height, hc₃]
    simp only [List.length_cons]
    omega
  obtain ⟨m₄, hu₄, ha₄⟩ := (ha₃.until hhigh₃).split (Nat.le_add_right_of_le (k := 1) hle)
  obtain ⟨mₙ, hnext₃, -⟩ := hu₄.exists_next
  obtain ⟨hinvokes, -⟩ := invokes_of_next hm₃ hc₃ rfl hstash rfl hnext₃
  have hconstructs : Constructs p m₃ c' d' object (.pop :: itemsFrom m d K 1) := ⟨hinvokes, hfind, hd'⟩
  have hc₄ := hconstructs.control_eq hu₄
  have hhigh₄ : K.length < m₄.height := by
    rw [height, hc₄, List.length_cons]
    omega
  obtain ⟨m₅, hu₅, ha₅⟩ := (ha₄.until hhigh₄).split hle
  obtain ⟨hnext₄, hc₅⟩ := hu₅.pop hc₄
  have hu₁ : Until Natives.empty (itemsFrom m d K 1).length m₂ m₅ := by
    refine hu₃.trans (by omega) (by rw [height, hc₃]; simp only [List.length_cons]; omega) ?_
    refine hu₄.trans (by omega) (by rw [height, hc₄, List.length_cons]; omega) hu₅
  have hcomes₁ := hcomes.next hi hu₁ hc₅
  refine ⟨m₃, c', d', m₄, m₅, ⟨m₁, m₂, who, args, _, hnext, hnext₁, hc₂, hu₃⟩, hconstructs, hclass, hu₄, ?_, hcomes₁,
    hcomes₁.until ha₅⟩
  rw [hnext₄.steps]
  exact Nat.lt_succ_self _

end Sequence

end StashMachine
