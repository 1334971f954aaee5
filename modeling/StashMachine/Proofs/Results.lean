import StashMachine.Proofs.Calls
import StashMachine.Proofs.ExprKinds
import StashMachine.Proofs.Places

/-!
# StashMachine.Proofs.Results — what a call leaves on the stash

A body is left by a `return`: its expression is evaluated, and the jump that stands below the expression leads
back to the call.

* `Since natives h m m'`: between `m` and `m'` control has more than `h` items.
* `exists_return`: a jump back to a call was put down by a `return` and has been on control since.
* `ReturnedAt m m₀ f K e item below m'`: after `m`, the `return` of `e` at `m₀` leads back to the frame `f` and to
  the items `K`, with what `e` is evaluated to.
* `call_result`: every call of a method that comes to its end leaves what a `return` of its own has evaluated.
  If the expression is elementary, this is of the kind of its own static type, whatever the result type is.
-/

namespace StashMachine

open Environment Step Machine

/-! ### Where a `return` comes from -/

section Since

variable {natives : Natives} {h : Nat} {m m₁ m₂ : Machine}

/-- The machine comes after `m`, and from `m` on up to the step before it there are more than `h` items on
control. -/
inductive Machine.Since (natives : Natives) (h : Nat) (m : Machine) : Machine → Prop
  | start : Since natives h m m
  | next {m₁ m₂ : Machine} : Since natives h m m₁ → h < m₁.height → Next natives m₁ m₂ → Since natives h m m₂

theorem Machine.Since.until (hs : Since natives h m m₁) (hhigh : h < m₁.height)
    (hu : Until natives h m₁ m₂) : Until natives h m m₂ := by
  induction hs with
  | start => exact hu
  | next _ hhigh' hnext ih => exact ih hhigh' (.next hnext hhigh hu)

theorem Machine.Since.reached {p : Program} (hs : Since natives h m m₁) (hm : Reached natives p m) :
    Reached natives p m₁ := by
  induction hs with
  | start => exact hm
  | next _ _ hnext ih => exact ih.next hnext

/-- If control was above the height at first and is not in the end, the end is the first time that it is not. -/
theorem Machine.Since.until_of_height (hs : Since natives h m m₁) (hhigh : h < m.height) (hlow : m₁.height ≤ h) :
    Until natives h m m₁ := by
  cases hs with
  | start => exact absurd hlow (Nat.not_le.mpr hhigh)
  | next hs hhigh' hnext => exact hs.until hhigh' (.last hnext hlow)

end Since

/-- An item of a list is one of those in front, or stands behind them. -/
theorem append_eq_append_cons {α : Type} {new c front c₁ : List α} {j : α} (h : new ++ c = front ++ j :: c₁) :
    (∃ back, new = front ++ j :: back ∧ c₁ = back ++ c) ∨ ∃ front', c = front' ++ j :: c₁ := by
  rcases List.append_eq_append_iff.mp h with ⟨front', -, hc⟩ | ⟨back, hnew, hback⟩
  · exact .inr ⟨front', hc⟩
  · cases back with
    | nil => exact .inr ⟨[], hback.symm⟩
    | cons b back =>
      obtain ⟨rfl, hrest⟩ := List.cons.inj hback
      exact .inl ⟨back, hnew, hrest⟩

/-- What is not among the items that were put in front stood behind them before. -/
theorem exists_suffix_of_notMem {α : Type} {new c front rest : List α} {a : α}
    (h : new ++ c = front ++ a :: rest) (ha : a ∉ new) : ∃ front', c = front' ++ a :: rest := by
  rcases append_eq_append_cons h with ⟨back, rfl, -⟩ | hold
  · simp at ha
  · exact hold

theorem notMem_of_simple {new : List Item} (h : new.all Item.isSimple = true) {i : Item} (hi : i.isSimple = false) :
    i ∉ new := by
  intro hmem
  rw [List.all_eq_true.mp h i hmem] at hi
  cases hi

theorem all_isSimple_exprs (es : List Expr) (n : Nat) :
    (es.map Item.expr ++ [Item.invoke n]).all Item.isSimple = true := by
  rw [List.all_append, List.all_map]
  simp [Function.comp_def, Item.isSimple]

/-- An item that only says where to go on. -/
def Item.isJoint : Item → Bool
  | .restore _ | .marker _ => true
  | _ => false

/-- The jump that a statement consists of. -/
def Stmt.jump? : Stmt → Option Jump
  | .breakOut => some .brk
  | .continueLoop => some .cont
  | _ => none

section Returns

variable {p : Program} {m m' m₁ : Machine} {c front R : List Item} {i j : Item}

/-- The arguments and the invocation that the selection of a method reaches stand above what is not simple. -/
theorem exists_above_of_addReceiver? {x : String} {n : Nat} {q : Path} {c' : List Item}
    (hm : Reached Natives.empty p m) (hc : m.registers.control = .overload x n q :: (front ++ i :: R))
    (hi : i.isSimple = false) (hadd : addReceiver? n (front ++ i :: R) = some c') :
    ∃ (es : List Expr) (behind : List Item), front = es.map .expr ++ .invoke n :: behind ∧
      c' = (es.map .expr ++ .invoke (n + 1) :: behind) ++ i :: R := by
  obtain ⟨es, rest, rfl, hrest⟩ := (phase_of_reached Natives.neutral_empty hm).exists_arguments hc
  have hqueue : (es.map Item.expr ++ [Item.invoke es.length]) ++ rest = front ++ i :: R := by
    rw [hrest]
    simp
  obtain ⟨behind, rfl⟩ := exists_suffix_of_notMem hqueue (notMem_of_simple (all_isSimple_exprs es _) hi)
  rw [hrest, addReceiver?_exprs] at hadd
  cases hadd
  refine ⟨es, behind, ?_, by simp⟩
  have hfront : front ++ i :: R = (es.map Item.expr ++ .invoke es.length :: behind) ++ i :: R := by
    rw [hrest]
    simp
  exact List.append_cancel_right hfront

/-- Apart from simple items and outlines, an item on control was there before a step, or the step has put it there by
its agenda. -/
theorem Machine.Next.suffix (hm : Reached Natives.empty p m) (hnext : Next Natives.empty m m₁)
    (hc : m.registers.control = i :: c) (hc₁ : m₁.registers.control = front ++ j :: R)
    (hsimple : j.isSimple = false) (houtline : j.isOutline = false) : (∃ front', c = front' ++ j :: R) ∨
      ∃ back f, R = back ++ c ∧ Agenda { m.registers with control := c } i (front ++ j :: back) f := by
  by_cases hi : i.isStep = true
  · rcases (hnext.proceeds hc hi).goes with @⟨new, f, hagenda, hcontrol, -⟩ | @⟨k, rfl, hunwind, -⟩ |
      @⟨x, n, q, new, c', rfl, hnew, hadd, hcontrol, -⟩
    · rcases append_eq_append_cons (hcontrol.symm.trans hc₁) with ⟨back, rfl, hback⟩ | hold
      · exact .inr ⟨back, f, hback, hagenda⟩
      · exact .inl hold
    · obtain ⟨dropped, hdropped, -⟩ := exists_of_unwind_eq_ok hunwind
      refine .inl ⟨dropped ++ .marker k :: front, ?_⟩
      rw [show c = _ from hdropped, hc₁]
      simp
    · -- the arguments of the call are simple, and nothing below its invocation changes
      obtain ⟨es, rest, rfl, rfl⟩ := (phase_of_reached Natives.neutral_empty hm).exists_arguments hc
      rw [addReceiver?_exprs] at hadd
      cases hadd
      have hqueue : (new ++ (es.map .expr ++ [Item.invoke (es.length + 1)])) ++ rest = front ++ j :: R := by
        rw [← hc₁, hcontrol]
        simp
      have hall : (new ++ (es.map Item.expr ++ [Item.invoke (es.length + 1)])).all Item.isSimple = true := by
        rw [List.all_append, hnew, all_isSimple_exprs]
        rfl
      obtain ⟨front', rfl⟩ := exists_suffix_of_notMem hqueue (notMem_of_simple hall hsimple)
      exact .inl ⟨es.map Item.expr ++ .invoke es.length :: front', by simp⟩
  · obtain ⟨new, hcontrol, hnew⟩ := hnext.declares hc (by simpa using hi)
    refine .inl (exists_suffix_of_notMem (hcontrol.symm.trans hc₁) (fun hmem => ?_))
    rw [List.all_eq_true.mp hnew j hmem] at houtline
    cases houtline

/-- From such an item a step goes on with what is behind it. -/
theorem Machine.Next.joint (hnext : Next Natives.empty m m₁) (hc : m.registers.control = i :: c)
    (hi : i.isJoint = true) : m₁.registers.control = c := by
  have hperform := hnext.perform hc
  obtain ⟨r, steps⟩ := m₁
  cases i <;> cases hi <;> cases hperform <;> rfl

/-- Of the items of code, only a `return`, a `break` and a `continue` put down jumps. -/
theorem Agenda.of_mem_reset {r : Registers} {new : List Item} {f : FrameId} {k : Jump} (h : Agenda r i new f)
    (hstands : Stands p r.env.current i) (hmem : .reset k ∈ new) :
    (∃ e, k = .ret ∧ i = .stmt (.ret e) ∧ new = [.expr (e.getD .void), .reset .ret]) ∨
      ∃ s, s.jump? = some k ∧ i = .stmt s ∧ new = [.reset k] := by
  have hstmts : ∀ ss : List Stmt, Item.reset k ∉ ss.map Item.stmt := by simp
  have hbranch : ∀ {f : FrameId} {yes no : List Item}, Branches f yes no →
      Item.reset k ∉ yes ∧ Item.reset k ∉ no := by
    rintro f yes no ⟨⟩ <;> simp
  cases h with
  | simple _ hsimple => cases List.all_eq_true.mp hsimple _ hmem
  | ret e =>
    obtain rfl : k = .ret := by simpa using hmem
    exact .inl ⟨e, rfl, rfl, rfl⟩
  | breakOut =>
    obtain rfl : k = .brk := by simpa using hmem
    exact .inr ⟨.breakOut, rfl, rfl, rfl⟩
  | continueLoop =>
    obtain rfl : k = .cont := by simpa using hmem
    exact .inr ⟨.continueLoop, rfl, rfl, rfl⟩
  | yes yes no => exact absurd hmem (hbranch hstands.1).1
  | no yes no => exact absurd hmem (hbranch hstands.1).2
  | arms _ => exact absurd hmem (hstmts _)
  | _ => simp at hmem

/-- A step puts down a jump back to a call only if it performs a `return`. -/
theorem Machine.Next.reset_ret (hm : Reached Natives.empty p m) (hnext : Next Natives.empty m m₁)
    (hc : m.registers.control = i :: c) (hc₁ : m₁.registers.control = front ++ .reset .ret :: R) :
    (∃ front', c = front' ++ .reset .ret :: R) ∨
      ∃ e, i = .stmt (.ret e) ∧ c = R ∧ front = [.expr (e.getD .void)] := by
  rcases hnext.suffix hm hc hc₁ rfl rfl with hold | ⟨back, f, rfl, hagenda⟩
  · exact .inl hold
  · have hwalks := walks_of_reached hm
    rw [hc] at hwalks
    rcases hagenda.of_mem_reset hwalks.stands (k := .ret) (by simp) with ⟨e, -, rfl, hnew⟩ | ⟨s, hs, -⟩
    · refine .inr ⟨e, rfl, ?_⟩
      match front, hnew with
      | [_], hnew =>
        cases hnew
        exact ⟨rfl, rfl⟩
      | _ :: _ :: front, hnew => simp at hnew
    · cases s <;> cases hs

/-- A jump back to a call that has come to control after `m` was put down by a `return`, and it has been there
ever since. -/
theorem exists_return {n : Nat} (hm : Reached Natives.empty p m) (hn : evaluate Natives.empty n m = .ok () m')
    (hc' : m'.registers.control = front ++ .reset .ret :: R) :
    (∃ front', m.registers.control = front' ++ .reset .ret :: R) ∨
    ∃ k m₀ e m₁, evaluate Natives.empty k m = .ok () m₀ ∧ m₀.registers.control = .stmt (.ret e) :: R ∧
      Next Natives.empty m₀ m₁ ∧ m₁.registers.control = .expr (e.getD .void) :: .reset .ret :: R ∧
      Since Natives.empty (R.length + 1) m₁ m' := by
  refine evaluate_induction (P := fun m' => ∀ front, m'.registers.control = front ++ .reset .ret :: R →
    (∃ front', m.registers.control = front' ++ .reset .ret :: R) ∨
    ∃ k m₀ e m₁, evaluate Natives.empty k m = .ok () m₀ ∧ m₀.registers.control = .stmt (.ret e) :: R ∧
      Next Natives.empty m₀ m₁ ∧ m₁.registers.control = .expr (e.getD .void) :: .reset .ret :: R ∧
      Since Natives.empty (R.length + 1) m₁ m') hn (fun front hc => .inl ⟨front, hc⟩) ?_ front hc'
  intro k m₁ m₂ hk ih hnext front hc₂
  obtain ⟨i, c, hc, -⟩ := next_iff.mp hnext
  rcases hnext.reset_ret (hm.trans hk) hc hc₂ with ⟨front', rfl⟩ | ⟨e, rfl, rfl, rfl⟩
  · rcases ih (i :: front') hc with hold | ⟨k', m₀, e, m₃, hk', hc₀, hnext₀, hc₃, hsince⟩
    · exact .inl hold
    · refine .inr ⟨k', m₀, e, m₃, hk', hc₀, hnext₀, hc₃, .next hsince ?_ hnext⟩
      rw [height, hc]
      simp only [List.length_cons, List.length_append]
      omega
  · exact .inr ⟨k, m₁, e, m₂, hk, hc, hnext, hc₂, .start⟩

end Returns

/-! ### What a `return` leaves -/

/-- After `m`, at `m₀`, a `return` is executed whose expression is evaluated to the item over the items `below`.  It
leads back to the frame `f` and to the items `K`, where the run stands at `m'`. -/
def ReturnedAt (m m₀ : Machine) (f : FrameId) (K : List Item) (e : Option Expr) (item : StashItem)
    (below : List StashItem) (m' : Machine) : Prop :=
  ∃ k R m₁ m₂, evaluate Natives.empty k m = .ok () m₀ ∧ m₀.registers.control = .stmt (.ret e) :: R ∧
    unwind .ret R = .ok (.restore f :: K) ∧ Next Natives.empty m₀ m₁ ∧
    m₁.registers.control = .expr (e.getD .void) :: .reset .ret :: R ∧
    Until Natives.empty (R.length + 1) m₁ m₂ ∧ m₂.registers.stash = item :: below ∧
    evaluate Natives.empty 2 m₂ = .ok () m'

/-- The same, wherever the `return` is. -/
def Returned (m : Machine) (f : FrameId) (K : List Item) (e : Option Expr) (item : StashItem)
    (below : List StashItem) (m' : Machine) : Prop :=
  ∃ m₀, ReturnedAt m m₀ f K e item below m'

section Results

variable {p : Program} {m m' : Machine} {K : List Item} {f : FrameId}

theorem returns_of_mem_stash {k : Closure} (hm : Reached Natives.empty p m)
    (hk : .closure k ∈ m.registers.stash) : k.callable.Returns := by
  obtain ⟨roles, hscoped, -⟩ := exists_scoped hm
  exact (sound_of_reached Natives.neutral_empty hm).returns k (hscoped.closures k hk)

theorem Callable.Returns.of_body? {k : Callable} {body : List Stmt} (hk : k.Returns)
    (hbody : k.body? = some body) : EndsInReturn body := by
  cases k with
  | constructor c =>
    cases hbody
    exact hk
  | method d =>
    rw [Callable.body?] at hbody
    split at hbody
    · cases hbody
    · exact hk body hbody

theorem Returned.of_next {e : Option Expr} {item : StashItem} {below : List StashItem} {m₁ : Machine}
    (h : Returned m₁ f K e item below m') (hnext : Next Natives.empty m m₁) : Returned m f K e item below m' := by
  obtain ⟨m₀, k, R, mₑ, m₂, hk, h⟩ := h
  refine ⟨m₀, k + 1, R, mₑ, m₂, ?_, h⟩
  rw [evaluate_succ, hnext.2]
  exact hk

/-- What an elementary expression of a primitive static type returns is of the kind of this type. -/
theorem ReturnedAt.kind {m₀ : Machine} {e : Expr} {item : StashItem} {below : List StashItem} {s : Primitive}
    (h : ReturnedAt m m₀ f K (some e) item below m') (hm : Reached Natives.empty p m) (he : e.isElementary = true)
    (hs : m₀.registers.env.staticType e = .ok (.primitive s)) : ∃ v, item = .value v ∧ v.isOf s = true := by
  obtain ⟨k, R, m₁, m₂, hk, hc₀, -, hnext, hc₁, hu, hstash, -⟩ := h
  have henv : m₁.registers.env = m₀.registers.env := by
    have hperform := hnext.perform hc₀
    exact (show Ends (perform Natives.empty (.stmt (.ret (some e)))) { m₀.registers with control := R }
      (fun _ r => r.env = m₀.registers.env) (fun _ _ => False) from rfl).of_ok hperform
  have hfits : m₁.registers.env.Fits := (typed_of_visited (.inl ((hm.trans hk).next hnext))).vars
  rw [← henv] at hs
  obtain ⟨a, env', heval, hr₂⟩ :=
    exists_answer_of_until (isCallFree_of_isElementary e he) hc₁ hu
  have hpredicted := predicts_of_isElementary e he _ hfits
  unfold Evaluation.Gives at hpredicted
  rw [heval] at hpredicted
  obtain ⟨v, rfl, hv⟩ := hpredicted.kind s hs
  rw [hr₂] at hstash
  cases hstash
  exact ⟨v, rfl, hv⟩

/-- The way back to a frame is the last step of a call. -/
theorem Machine.Arrives.restore (ha : Arrives Natives.empty K.length m m')
    (hc : m.registers.control = .restore f :: K) : Next Natives.empty m m' ∧
      m'.registers = ⟨K, m.registers.stash, m.registers.env.restore f, m.registers.output⟩ := by
  rcases ha with ⟨hlow, -⟩ | ⟨-, hu⟩
  · rw [height, hc] at hlow
    exact absurd hlow (Nat.not_succ_le_self _)
  · obtain ⟨m₁, hnext, ha⟩ := hu.exists_next
    have hperform := hnext.perform hc
    have hr : m₁.registers = ⟨K, m.registers.stash, m.registers.env.restore f, m.registers.output⟩ := by
      cases m₁
      cases hperform
      rfl
    rcases ha with ⟨-, rfl⟩ | ⟨hhigh, -⟩
    · exact ⟨hnext, hr⟩
    · rw [height, hr] at hhigh
      exact absurd hhigh (Nat.lt_irrefl _)

section Body

variable {body : List Stmt} (hm : Reached Natives.empty p m)
  (hc : m.registers.control = .stmt (.block body) :: .marker .ret :: .restore f :: K)
  (hbody : EndsInReturn body) (hu : Until Natives.empty K.length m m')

include hm hc hbody hu

/-- All in all, a call leaves one item. -/
theorem exists_item_of_body : ∃ item, m'.registers.control = K ∧
    m'.registers.stash = item :: m.registers.stash ∧ m'.registers.env.current = f := by
  have ht : OnTrack .loose (.value f) [.stmt (.block body), .marker .ret, .restore f] [] m.registers.env :=
    ⟨.stmt, [], trivial, ⟨False.elim, .inr ⟨hbody, ⟨f, [], rfl, trivial⟩, rfl, rfl⟩⟩, .nil⟩
  rcases hu.segment Natives.neutral_empty hc (s := []) rfl (by simp) ht
      (sound_of_reached Natives.neutral_empty hm) with ⟨s', hcontrol, hstash, hend⟩ | ⟨_, _, _, _, -, -, -, ⟨_, h⟩, -⟩
  · rcases hend.nil with ⟨_, hf, hcurrent, hs'⟩ | ⟨_, h | h, -⟩
    · cases hf
      obtain ⟨item, rest, -, hrest, rfl⟩ := List.forall₂_cons_left_iff.mp hs'
      cases hrest
      exact ⟨item, hcontrol, hstash, hcurrent⟩
    · cases h
    · cases h
  · cases h

/-- A body is left by a jump to the marker of its call. -/
theorem exists_jump_of_body : ∃ n m₁ above, evaluate Natives.empty n m = .ok () m₁ ∧
    m₁.registers.control = .reset .ret :: above ∧ unwind .ret above = .ok (.restore f :: K) ∧
    m₁.registers.stash = m'.registers.stash ∧ evaluate Natives.empty 2 m₁ = .ok () m' := by
  obtain ⟨item, -, hstash, -⟩ := exists_item_of_body hm hc hbody hu
  obtain ⟨m₂, hu₂, harrives⟩ := hu.split (Nat.le_add_right K.length 2)
  have hm₂ := hu₂.reached hm
  rcases completes_or_leftBy Natives.neutral_empty hm hc (K := .marker .ret :: .restore f :: K) hu₂ with
    ⟨hcontrol₂, hstash₂, -⟩ | ⟨j, hleft⟩
  · -- a body that came to its end would leave nothing
    have hheads : Heads p K.length m' ⟨.marker .ret :: .restore f :: K, m.registers.stash, m₂.registers.env,
        m₂.registers.output⟩ := ⟨m₂, by rw [← hcontrol₂, ← hstash₂], hm₂, harrives⟩
    obtain ⟨r, ⟨hcontrol₃, hstash₃⟩, m₃, rfl, -, harrives⟩ := hheads.next (Nat.le_succ _)
      (Q := fun _ r => r.control = .restore f :: K ∧ r.stash = m.registers.stash) ⟨rfl, rfl⟩
    rw [(harrives.restore hcontrol₃).2, hstash₃] at hstash
    exact absurd hstash.symm (List.cons_ne_self _ _)
  · obtain ⟨⟨n, m₁, above, hn, hc₁, hnext⟩, ⟨front, f', rest, hK, -, hret, hc₂, -⟩, -, -⟩ := hleft
    cases front with
    | cons i front =>
      -- no jump passes the marker of a call
      obtain ⟨rfl, -⟩ := List.cons.inj hK
      exact absurd (.head _) hret
    | nil =>
      cases hK
      obtain ⟨i, c, hc₁', hperform, -⟩ := next_iff.mp hnext
      rw [hc₁] at hc₁'
      cases hc₁'
      obtain ⟨rest, hunwind, hr₂⟩ := (reset_ends .ret).of_ok hperform
      obtain rfl : rest = .restore f :: K := by
        rw [hr₂] at hc₂
        exact hc₂
      obtain ⟨hnext', hr'⟩ := harrives.restore hc₂
      refine ⟨n, m₁, above, hn, hc₁, hunwind, ?_, ?_⟩
      · rw [hr', hr₂]
      · rw [evaluate_succ, hnext.2]
        exact hnext'.2

/-- A body is left by one of its own `return`s. -/
theorem exists_returned : ∃ e item, Returned m f K e item m.registers.stash m' ∧ m'.registers.control = K ∧
    m'.registers.stash = item :: m.registers.stash ∧ m'.registers.env.current = f := by
  obtain ⟨item, hcontrol, hstash, hcurrent⟩ := exists_item_of_body hm hc hbody hu
  obtain ⟨n, m₁, above, hn, hc₁, hunwind, hstash₁, htwo⟩ := exists_jump_of_body hm hc hbody hu
  have hfront : m₁.registers.control = [] ++ .reset .ret :: above := hc₁
  rcases exists_return hm hn hfront with ⟨front, hold⟩ | ⟨k, m₀, e, mₑ, hk, hc₀, hnext, hcₑ, hsince⟩
  · -- the jump was not there at first, for it stands above the marker, where only the body was
    obtain ⟨between, rfl, -⟩ := exists_of_unwind_eq_ok hunwind
    rw [hc] at hold
    have hlength := congrArg List.length hold
    simp only [List.length_cons, List.length_append] at hlength
    obtain rfl : front = [] := List.length_eq_zero_iff.mp (by omega)
    cases hold
  · have hu₁ : Until Natives.empty (above.length + 1) mₑ m₁ := by
      refine hsince.until_of_height ?_ ?_
      · rw [height, hcₑ]
        exact Nat.lt_succ_self _
      · rw [height, hc₁]
        exact Nat.le_refl _
    exact ⟨e, item, ⟨m₀, k, above, mₑ, m₁, hk, hc₀, hunwind, hnext, hcₑ, hu₁, hstash₁.trans hstash, htwo⟩,
      hcontrol, hstash, hcurrent⟩

end Body

/-- A call that comes to its end leaves the very item that the expression of one of its own `return`s was
evaluated to.  If the expression is elementary and of a primitive static type where it is returned, the item is a
value of the kind of that type; so it fits the result type of the method if and only if that has the same kind,
unless it is no primitive type. -/
theorem call_result {n : Nat} {k : Closure} {args : List Value} {below : List StashItem}
    (hm : Reached Natives.empty p m) (hc : m.registers.control = .invoke n :: K) (hn : args.length = n)
    (hstash : m.registers.stash = (args.map StashItem.value).reverse ++ .closure k :: below)
    (hu : Until Natives.empty K.length m m') :
    ∃ m₀ e item, ReturnedAt m m₀ m.registers.env.current K e item below m' ∧ m'.registers.control = K ∧
      m'.registers.stash = item :: below ∧ m'.registers.env.current = m.registers.env.current ∧
      ∀ e₀ s, e = some e₀ → e₀.isElementary = true → m₀.registers.env.staticType e₀ = .ok (.primitive s) →
        ∃ v, item = .value v ∧ v.isOf s = true ∧
          (v.fits k.callable.result = true ↔ ∀ t, k.callable.result = .primitive t → s.carrier = t.carrier) := by
  obtain ⟨m₁, hnext, harrives⟩ := hu.exists_next
  have hperform := hnext.perform hc
  obtain ⟨k', object, args', rest, below', vs, body, hn', hstash', -, hbody, hr₁⟩ := (invoke_ends n).of_ok hperform
  -- the stash says which closure is called, and what is below it
  obtain ⟨rfl, rfl⟩ : k = k' ∧ below = below' := by
    have hlength : (args.map StashItem.value).reverse.length = (args'.map StashItem.value).reverse.length := by
      simp [hn, hn']
    have htail := (List.append_inj (hstash.symm.trans hstash') hlength).2
    cases htail
    exact ⟨rfl, rfl⟩
  have hreturns := returns_of_mem_stash (k := k) hm (by rw [hstash]; simp)
  have hc₁ : m₁.registers.control = .stmt (.block body) :: .marker .ret ::
      .restore m.registers.env.current :: K := by rw [hr₁]
  have hu₁ : Until Natives.empty K.length m₁ m' := by
    rcases harrives with ⟨hlow, -⟩ | ⟨-, hu₁⟩
    · rw [height, hc₁] at hlow
      simp only [List.length_cons] at hlow
      omega
    · exact hu₁
  obtain ⟨e, item, hreturned, hcontrol, hstash₁, hcurrent⟩ :=
    exists_returned (hm.next hnext) hc₁ (hreturns.of_body? hbody) hu₁
  have hbelow : m₁.registers.stash = below := by rw [hr₁]
  rw [hbelow] at hreturned hstash₁
  obtain ⟨m₀, hreturned⟩ := hreturned.of_next hnext
  refine ⟨m₀, e, item, hreturned, hcontrol, hstash₁, hcurrent, ?_⟩
  rintro e₀ s rfl he hs
  obtain ⟨v, rfl, hv⟩ := hreturned.kind hm he hs
  exact ⟨v, rfl, hv, Value.fits_iff_carrier hv⟩

/-- A source whose method with the result type `long` returns an expression. -/
def resultSource (result : String) : String :=
  "class M \x7b static long f() \x7b return " ++ result ++ "; \x7d static String r; "
    ++ "public static void main(String[] a) \x7b r = \"\" + (f() + 2147483647); \x7d \x7d"

/-- The method that is invoked next without arguments, and what is below it on the stash and on control. -/
def nextInvoked? (m : Machine) : Option (Closure × MethodDecl × List StashItem × List Item) :=
  match m.registers.control, m.registers.stash with
  | .invoke 0 :: K, .closure k :: below =>
    match k.callable with
    | .method d => some (k, d, below, K)
    | _ => none
  | _, _ => none

/-- The value on top of the stash. -/
def topValue? (m : Machine) : Option Value :=
  match m.registers.stash with
  | .value v :: _ => some v
  | _ => none

/-- A `long` is returned as it is, and the call leaves a `long`. -/
theorem call_result_long : ∃ p m k d below K m' m₀ e v, Program.parse (resultSource "1L") = .ok p ∧
    Reached Natives.empty p m ∧ m.registers.control = .invoke 0 :: K ∧
    m.registers.stash = .closure k :: below ∧ k.callable = .method d ∧ d.result = .primitive .long ∧
    Until Natives.empty K.length m m' ∧ ReturnedAt m m₀ m.registers.env.current K e (.value v) below m' ∧
    m'.registers.stash = .value v :: below ∧ v.isOf .long = true := by
  have hrun : (sample? (resultSource "1L") 28).any (fun m => (nextInvoked? m).any (fun call =>
      call.2.1.result == .primitive .long && (m.until? Natives.empty call.2.2.2.length 10).any (fun m' =>
        (topValue? m').any (fun v => v.isOf .long)))) = true := by
    rw [sample?_eq_parseDecoded?]
    decide +kernel
  obtain ⟨m, hm, hrun⟩ := (Option.any_eq_true _ _).mp hrun
  obtain ⟨p, hp, hreached⟩ := exists_of_sample? hm
  obtain ⟨⟨k, d, below, K⟩, hcall, hrun⟩ := (Option.any_eq_true _ _).mp hrun
  rw [Bool.and_eq_true, beq_iff_eq, Option.any_eq_true] at hrun
  obtain ⟨hresult, m', hm', hrun⟩ := hrun
  obtain ⟨v, hv, hkind⟩ := (Option.any_eq_true _ _).mp hrun
  have hu := until_of_until? hm'
  obtain ⟨hc, hstash, hk⟩ : m.registers.control = .invoke 0 :: K ∧ m.registers.stash = .closure k :: below ∧
      k.callable = .method d := by
    unfold nextInvoked? at hcall
    split at hcall
    · rename_i hcontrol hstash
      split at hcall
      · rename_i hk
        cases hcall
        exact ⟨hcontrol, hstash, hk⟩
      · cases hcall
    · cases hcall
  obtain ⟨m₀, e, item, hreturned, -, hstash', -, -⟩ := call_result hreached hc (List.length_nil (α := Value)) hstash hu
  obtain rfl : item = .value v := by
    rw [topValue?, hstash'] at hv
    split at hv
    · rename_i hitem
      cases hitem
      cases hv
      rfl
    · cases hv
  exact ⟨p, m, k, d, below, K, m', m₀, e, v, hp, hreached, hc, hstash, hk, hresult, hu, hreturned, hstash', hkind⟩

/-- An `int` is not converted either: the static type of the call is `long`, and the call leaves an `int`. -/
theorem call_result_unconverted : ∃ p m q x args K m' v, Program.parse (resultSource "1") = .ok p ∧
    Reached Natives.empty p m ∧ m.registers.control = .expr (.call (.field q x) args) :: K ∧
    m.registers.env.staticType (.call (.field q x) args) = .ok (.primitive .long) ∧
    Until Natives.empty K.length m m' ∧ topValue? m' = some v ∧ v.isOf .int = true ∧ v.isOf .long = false := by
  have hrun : (sample? (resultSource "1") 25).any (fun m => (nextCall? m).any (fun call =>
      (match m.registers.env.staticType (.call (.field call.1 call.2.1) call.2.2.1) with
        | .ok t => t == .primitive .long
        | .error _ => false) && (m.until? Natives.empty call.2.2.2.length 20).any (fun m' =>
          (topValue? m').any (fun v => v.isOf .int && !v.isOf .long)))) = true := by
    rw [sample?_eq_parseDecoded?]
    decide +kernel
  obtain ⟨m, hm, hrun⟩ := (Option.any_eq_true _ _).mp hrun
  obtain ⟨p, hp, hreached⟩ := exists_of_sample? hm
  obtain ⟨⟨q, x, args, K⟩, hcall, hrun⟩ := (Option.any_eq_true _ _).mp hrun
  rw [Bool.and_eq_true, Option.any_eq_true] at hrun
  obtain ⟨htype, m', hm', hrun⟩ := hrun
  obtain ⟨v, hv, hkind⟩ := (Option.any_eq_true _ _).mp hrun
  rw [Bool.and_eq_true, Bool.not_eq_true'] at hkind
  refine ⟨p, m, q, x, args, K, m', v, hp, hreached, ?_, ?_, until_of_until? hm', hv, hkind⟩
  · unfold nextCall? at hcall
    split at hcall
    · rename_i hcontrol
      cases hcall
      exact hcontrol
    · cases hcall
  · split at htype
    · rename_i t ht
      rw [ht, beq_iff_eq.mp htype]
    · cases htype

end Results

end StashMachine
