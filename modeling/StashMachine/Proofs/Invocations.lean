import StashMachine.Proofs.Activation
import StashMachine.Proofs.Orders
import StashMachine.Proofs.Parsed

/-!
# StashMachine.Proofs.Invocations — where invocations come from

* `Issues m K`: the step of `m` puts an invocation on control over the items `K`.
* `Next.invoke`: an invocation that waits after a step has waited before, or has been issued by the step.
* `exists_issue`: every invocation that waits has been issued, and has waited since.
* `method_of_call`: what the invocation of a call enters is a method.
-/

namespace StashMachine

open Environment Step Machine Grammar

/-- The step puts an invocation on control, over the items. -/
inductive Issues (m : Machine) : List Item → Prop
  | new {x : String} {args : List Expr} {K : List Item} : m.registers.control = .expr (.new x args) :: K → Issues m K
  | call {q : Path} {x : String} {args : List Expr} {K : List Item} :
    m.registers.control = .expr (.call (.field q x) args) :: K → Issues m K
  | construct {who : Delegate} {args : List Expr} {K : List Item} :
    m.registers.control = .stmt (.construct who args) :: K → Issues m (.pop :: K)

section Issues

variable {p : Program} {m m₁ m' : Machine} {c front K : List Item} {i : Item} {n : Nat}

/-- The items that may put an invocation on control. -/
theorem Orders.invoke (h : Orders i (.invoke n)) : (∃ x args, i = .expr (.new x args)) ∨
    (∃ q x args, i = .expr (.call (.field q x) args)) ∨ (∃ who args, i = .stmt (.construct who args)) ∨
    ∃ yes no, i = .branch yes no ∧ (.invoke n ∈ yes ∨ .invoke n ∈ no) := by
  generalize hj : Item.invoke n = j at h
  cases h with
  | program h =>
    obtain ⟨_, rfl⟩ | ⟨_, rfl⟩ := h
    · cases hj
    · cases hj
  | @member d k => cases k <;> cases hj
  | static _ => cases hj
  | back => cases hj
  | fields _ => cases hj
  | setUp _ _ h => simp [← hj] at h
  | locals _ => cases hj
  | declare _ _ h => simp [← hj] at h
  | breakOut => cases hj
  | continueLoop => cases hj
  | new _ => exact .inl ⟨_, _, rfl⟩
  | call _ => exact .inr (.inl ⟨_, _, _, rfl⟩)
  | construct _ => exact .inr (.inr (.inl ⟨_, _, rfl⟩))
  | branch h => exact .inr (.inr (.inr ⟨_, _, rfl, hj ▸ h⟩))
  | arms _ _ => cases hj
  | _ h => simp [← hj] at h

/-- Neither way on from a branch leads to an invocation at once. -/
theorem Branches.notMem_invoke {f : FrameId} {yes no : List Item} (h : Branches f yes no) :
    .invoke n ∉ yes ∧ .invoke n ∉ no := by
  cases h <;> simp

/-- What stands in front of the invocation that is put on control is none itself. -/
theorem invoke_of_append {new : List Item} {k : Nat} (hnew : ∀ k, .invoke k ∉ new)
    (h : new ++ .invoke k :: c = front ++ .invoke n :: K) : K = c ∨ ∃ front', c = front' ++ .invoke n :: K := by
  obtain ⟨front', hfront'⟩ := exists_suffix_of_notMem h (hnew n)
  cases front' with
  | nil =>
    cases hfront'
    exact .inl rfl
  | cons j front' =>
    obtain ⟨-, hrest⟩ := List.cons.inj hfront'
    exact .inr ⟨front', hrest⟩

/-- An invocation that waits after a step has been issued by the step, or has waited before. -/
theorem Machine.Next.invoke (hm : Reached Natives.empty p m) (hnext : Next Natives.empty m m₁)
    (hc : m.registers.control = i :: c) (hc₁ : m₁.registers.control = front ++ .invoke n :: K) :
    Issues m K ∨ ∃ front' n', c = front' ++ .invoke n' :: K := by
  have hissued : ∀ {new rest : List Item} {k : Nat}, m₁.registers.control = new ++ .invoke k :: rest →
      (∀ k, .invoke k ∉ new) → Issues m rest → (∀ front', rest = front' ++ .invoke n :: K →
        ∃ front'', c = front'' ++ .invoke n :: K) → Issues m K ∨ ∃ front' n', c = front' ++ .invoke n' :: K := by
    intro new rest k hcontrol hnew hissues hrest
    rcases invoke_of_append hnew (hcontrol.symm.trans hc₁) with rfl | ⟨front', hfront'⟩
    · exact .inl hissues
    · obtain ⟨front'', hfront''⟩ := hrest front' hfront'
      exact .inr ⟨front'', n, hfront''⟩
  cases hnext.hands hc with
  | orders new _ hnew hcontrol =>
    by_cases hmem : .invoke n ∈ new
    · rcases (hnew _ hmem).invoke with ⟨x, args, rfl⟩ | ⟨q, x, args, rfl⟩ | ⟨who, args, rfl⟩ | ⟨yes, no, rfl, h⟩
      · have hcontrol : m₁.registers.control = (args.map .typeOf ++ Item.overloadConstructor x args.length ::
            Item.new x :: args.map .expr) ++ .invoke (args.length + 1) :: c := by
          rw [queues_of_new hc hnext]
          simp
        exact hissued hcontrol (by simp) (.new hc) (fun front' h => ⟨front', h⟩)
      · have hcontrol : m₁.registers.control = (Item.typeOf (.name q) :: (args.map .typeOf ++
            Item.overload x args.length q :: args.map .expr)) ++ .invoke args.length :: c := by
          rw [queues_of_call hc hnext]
          simp
        exact hissued hcontrol (by simp) (.call hc) (fun front' h => ⟨front', h⟩)
      · obtain ⟨id, t, -, -, hr₁⟩ := queues_of_construct hc hnext
        have hcontrol : m₁.registers.control = (args.map .typeOf ++ Item.overloadConstructor t.text args.length ::
            Item.expr (.name (.simple who.text)) :: args.map .expr) ++ .invoke (args.length + 1) :: .pop :: c := by
          rw [hr₁]
          simp
        refine hissued hcontrol (by simp) (.construct hc) (fun front' h => ?_)
        cases front' with
        | nil => cases h
        | cons j front' =>
          obtain ⟨-, h⟩ := List.cons.inj h
          exact ⟨front', h⟩
      · have hwalks := walks_of_reached hm
        rw [hc] at hwalks
        obtain ⟨hyes, hno⟩ := Branches.notMem_invoke (n := n) hwalks.stands.1
        exact absurd h (not_or.mpr ⟨hyes, hno⟩)
    · obtain ⟨front', hfront'⟩ := exists_suffix_of_notMem (hcontrol.symm.trans hc₁) hmem
      exact .inr ⟨front', n, hfront'⟩
  | keeps x k q _ hcontrol => exact .inr ⟨front, n, hcontrol.symm.trans hc₁⟩
  | selects x k q new c' hi hnew hadd hcontrol =>
    subst hi
    obtain ⟨es, rest, rfl, rfl⟩ := (phase_of_reached Natives.neutral_empty hm).exists_arguments hc
    rw [addReceiver?_exprs] at hadd
    cases hadd
    have hnone : ∀ k, .invoke k ∉ new ++ es.map .expr := by
      intro k hmem
      rcases List.mem_append.mp hmem with hmem | hmem
      · have hmem := hnew _ hmem
        simp at hmem
      · simp at hmem
    have hqueue : (new ++ es.map .expr) ++ .invoke (es.length + 1) :: rest = front ++ .invoke n :: K := by
      rw [← hc₁, hcontrol, List.append_assoc]
    rcases invoke_of_append hnone hqueue with rfl | ⟨front', rfl⟩
    · exact .inr ⟨es.map .expr, es.length, rfl⟩
    · exact .inr ⟨es.map .expr ++ .invoke es.length :: front', n, by simp⟩
  | jumps j _ hunwind =>
    obtain ⟨dropped, hdropped, -⟩ := exists_of_unwind_eq_ok hunwind
    refine .inr ⟨dropped ++ .marker j :: front, n, ?_⟩
    rw [show c = _ from hdropped, hc₁, List.append_assoc]
    rfl
  | enters k closure object body _ _ _ hcontrol =>
    have hqueue : [Item.stmt (.block body), Item.marker .ret, Item.restore m.registers.env.current] ++ c =
        front ++ .invoke n :: K := hcontrol.symm.trans hc₁
    obtain ⟨front', hfront'⟩ := exists_suffix_of_notMem hqueue (by simp)
    exact .inr ⟨front', n, hfront'⟩

/-- An invocation that waits has been issued, and has waited since. -/
theorem exists_issue (hm : Reached Natives.empty p m) (hc : m.registers.control = front ++ .invoke n :: K) :
    ∃ m₀, Reached Natives.empty p m₀ ∧ Issues m₀ K ∧ m₀.steps < m.steps ∧
      ∀ m₁, Reached Natives.empty p m₁ → m₀.steps < m₁.steps → m₁.steps < m.steps → K.length + 1 < m₁.height := by
  refine hm.induction (P := fun m => ∀ front n, m.registers.control = front ++ .invoke n :: K →
    ∃ m₀, Reached Natives.empty p m₀ ∧ Issues m₀ K ∧ m₀.steps < m.steps ∧ ∀ m₁, Reached Natives.empty p m₁ →
      m₀.steps < m₁.steps → m₁.steps < m.steps → K.length + 1 < m₁.height)
    (fun front n hc => ?_) (fun m m' hm ih hnext front n hc' => ?_) front n hc
  · cases front with
    | nil => cases hc
    | cons j front =>
      obtain ⟨-, hnil⟩ := List.cons.inj hc
      cases front <;> cases hnil
  · obtain ⟨i, c, hc, -⟩ := next_iff.mp hnext
    have hsteps := hnext.steps
    rcases hnext.invoke hm hc hc' with hissues | ⟨front', n', rfl⟩
    · exact ⟨m, hm, hissues, by omega, fun m₁ _ hgt hlt => by omega⟩
    · obtain ⟨m₀, hm₀, hissues, hlt, hbetween⟩ := ih (i :: front') n' hc
      refine ⟨m₀, hm₀, hissues, by omega, fun m₁ hm₁ hgt hlt₁ => ?_⟩
      by_cases heq : m₁.steps = m.steps
      · rw [hm₁.eq_of_steps hm heq, height, hc]
        simp only [List.length_cons, List.length_append]
        omega
      · exact hbetween m₁ hm₁ hgt (by omega)

/-- The way from where an invocation has been issued to where it is performed. -/
theorem exists_issue_until (hm : Reached Natives.empty p m) (hc : m.registers.control = .invoke n :: K) :
    ∃ m₀, Reached Natives.empty p m₀ ∧ Issues m₀ K ∧ Until Natives.empty (K.length + 1) m₀ m := by
  have hc' : m.registers.control = [] ++ .invoke n :: K := hc
  obtain ⟨m₀, hm₀, hissues, hlt, hbetween⟩ := exists_issue hm hc'
  refine ⟨m₀, hm₀, hissues, until_of_steps hm₀ hm hlt ?_ hbetween⟩
  rw [height, hc]
  exact Nat.le_refl _

end Issues

/-! ### Calls of methods -/

section Methods

variable {p : Program} {source x : String} {m m' : Machine} {k sel : Closure} {K : List Item}

/-- What is bound under the key of an identifier is a method. -/
theorem exists_method_of_descriptor {types : List TypeName} (hx : Rule.identifier.Spells x.toList)
    (h : k.descriptor = descriptor x types) : ∃ d, k.callable = .method d := by
  obtain ⟨callable, f, y⟩ := k
  cases callable with
  | method d => exact ⟨d, rfl⟩
  | constructor d =>
    -- the name of a constructor begins with a character that no identifier has
    have hlist := (toList_descriptor _ (Callable.constructor d).paramTypes).symm.trans
      ((congrArg String.toList h).trans (toList_descriptor x types))
    have hname : Callable.constructorName.toList = ['<', 'i', 'n', 'i', 't', '>'] := by decide
    replace hlist : Callable.constructorName.toList ++ '(' :: _ = x.toList ++ '(' :: _ := hlist
    rw [hname] at hlist
    cases hx' : x.toList with
    | nil =>
      rw [hx'] at hlist
      cases hlist
    | cons a rest =>
      rw [hx'] at hlist
      obtain ⟨rfl, -⟩ := List.cons.inj hlist
      have hchar : isNameChar '<' = true := isNameChar_of_spells hx _ (by rw [hx']; exact .head _)
      exact absurd hchar (by decide)

/-- A method that is selected is bound under its name, which is an identifier. -/
theorem spells_of_resolveMethod {t : TypeName} {ts : List TypeName} (hparse : Program.parse source = .ok p)
    (hm : Reached Natives.empty p m) (h : m.registers.env.resolveMethod t x ts = .ok sel) :
    Rule.identifier.Spells x.toList ∧ ∃ types, sel.descriptor = descriptor x types := by
  obtain ⟨c, hc, d, hd, hbound⟩ := exists_of_resolveMethod h
  obtain ⟨howner, m, hmethod, hcallable, rfl, -⟩ := of_mem_overloads hd
  obtain ⟨roles, hscoped, -⟩ := exists_scoped hm
  obtain ⟨-, -, -, -, hkey, -⟩ := hscoped.layout.closures _ _ _ hbound
  rw [Declared.descriptor, hcallable] at hkey
  refine ⟨?_, _, hkey⟩
  obtain ⟨c', hc', howner'⟩ := hscoped.layout.role_of_mem_lineage (hscoped.layout.classes _ _ hc).2 howner
  obtain ⟨-, -, hfind, -⟩ := hscoped.layout.lies _ _ hc'
  obtain ⟨-, decl, f, superclass, hdecl, rfl⟩ := (Origins.visited (.inl hm)).classes _ _ c' (findClass_eq_ok.mp hfind)
  rw [← howner'] at hmethod
  have hdeclared : ∃ m₀ ∈ decl.methods, m₀.name = m.name := by
    simp only [ClassInfo.methods, ClassDecl.elaborate, List.mem_append, List.mem_map, List.mem_filter] at hmethod
    rcases hmethod with ⟨m₀, ⟨hm₀, -⟩, heq⟩ | ⟨m₀, ⟨hm₀, -⟩, heq⟩
    · exact ⟨m₀, hm₀, by rw [← heq]; rfl⟩
    · exact ⟨m₀, hm₀, by rw [← heq]; rfl⟩
  obtain ⟨m₀, hm₀, hname⟩ := hdeclared
  rcases hdecl with hdecl | rfl
  · rw [← hname]
    exact Program.parse_methods hparse decl hdecl m₀ hm₀
  · cases hm₀

theorem Implements.descriptor_eq {lineage : List ClassInfo} (hm : Reached Natives.empty p m)
    (h : Implements m.registers.env sel lineage k) : k.descriptor = sel.descriptor := by
  induction h with
  | none => rfl
  | here hbound _ =>
    obtain ⟨roles, hscoped, -⟩ := exists_scoped hm
    obtain ⟨-, -, -, -, hkey, -⟩ := hscoped.layout.closures _ _ _ hbound
    exact hkey
  | later _ _ ih => exact ih

/-- What the invocation of a call enters is a method. -/
theorem method_of_call {q : Path} {args : List Expr} {object : Option (Class × FrameId)} {n : Nat}
    (hparse : Program.parse source = .ok p) (hm : Reached Natives.empty p m)
    (hc : m.registers.control = .expr (.call (.field q x) args) :: K) (hu : Until Natives.empty (K.length + 1) m m')
    (hcalls : Calls { m'.registers with control := K } (.invoke n) k object)
    (hc' : m'.registers.control = .invoke n :: K) : ∃ d, k.callable = .method d := by
  obtain ⟨m₁, hnext, harrives⟩ := hu.exists_next
  obtain ⟨t, ts, sel, k', receiver, items, -, -, hsel, hdispatched, hcontrol, hitems, hstash⟩ :=
    Heads.call (not_names_super hparse hm) ⟨m₁, queues_of_call hc hnext, hm.next hnext, harrives⟩
  -- the closure that is invoked is the one that has been found
  obtain rfl : k = k' := by
    obtain ⟨n', vs, rest, below, hn', hvs, hstash', -⟩ := hcalls
    cases hn'
    rw [hc'] at hcontrol
    obtain ⟨hn, -⟩ := List.cons.inj hcontrol
    cases hn
    replace hstash' : m'.registers.stash = (vs.map StashItem.value).reverse ++ .closure k :: below := hstash'
    rw [hstash, ← List.append_assoc] at hstash'
    obtain ⟨-, heq⟩ := List.append_inj hstash' (by simp [hitems, hvs])
    cases heq
    rfl
  obtain ⟨hx, types, hkey⟩ := spells_of_resolveMethod hparse hm hsel
  have hdescriptor : k.descriptor = sel.descriptor := by
    cases hdispatched with
    | static _ => rfl
    | super _ _ _ => rfl
    | virtual _ _ _ himplements => exact himplements.descriptor_eq hm
  exact exists_method_of_descriptor hx (hdescriptor.trans hkey)

end Methods

end StashMachine
