import StashMachine.Proofs.Construction
import StashMachine.Proofs.Parts

/-!
# StashMachine.Proofs.Activation — what belongs to a call while it runs

The way back to the caller lies on control below everything that a call does, behind the marker of the call.  An item
belongs to the call if a return from what is behind it leads there.

* `Item.BelongsTo body f env i`: the statements in the item come from the body, and it leads back to frames inside `f`
  only.
* `Active body f g K m`: at `m`, whatever belongs to the call does so, and so does the current frame.
* `Active.next`, `Active.between`: one step, and all of them until the call is left.
-/

namespace StashMachine

open Environment Step Machine

/-- What is behind a return to `rest` is longer than `rest`. -/
theorem length_lt_of_unwind {j : Jump} {c rest : List Item} (h : unwind j c = .ok rest) : rest.length < c.length := by
  obtain ⟨front, rfl, -⟩ := exists_of_unwind_eq_ok h
  simp only [List.length_append, List.length_cons]
  omega

theorem unwind_ret_append {front : List Item} (h : .marker .ret ∉ front) (c : List Item) :
    unwind .ret (front ++ c) = unwind .ret c := unwind_append h h c

theorem unwind_ret_cons {i : Item} (hi : i.isJoint = false) (c : List Item) : unwind .ret (i :: c) = unwind .ret c := by
  have hmarker : .marker .ret ∉ [i] := by
    intro hmem
    rw [← List.mem_singleton.mp hmem] at hi
    cases hi
  exact unwind_ret_append hmarker c

/-- An item of the call whose frame is `f`: the statements in it come from the body, but for declarations that have
been split, and it leads back to frames inside `f` only. -/
structure Item.BelongsTo (body : Stmt) (f : FrameId) (env : Environment) (i : Item) : Prop where
  parts : ∀ t ∈ i.parts, t ∈ body.parts ∨ ∃ type vars, t = .declare type vars
  back : ∀ h, i = .restore h → h < env.frames.size ∧ f ∈ env.chain h

/-- A call of the body in the frame `f` is running and will go back to the frame `g` and to `K`. -/
structure Active (body : Stmt) (f g : FrameId) (K : List Item) (m : Machine) : Prop where
  below : ∃ front, m.registers.control = front ++ .restore g :: K ∧ ∀ i ∈ front, i.isStep = true
  own : ∀ front i c, m.registers.control = front ++ i :: c → unwind .ret c = .ok (.restore g :: K) →
    i.BelongsTo body f m.registers.env
  current : ∀ i c, m.registers.control = i :: c → i.isJoint = false → unwind .ret c = .ok (.restore g :: K) →
    f ∈ m.registers.env.chain m.registers.env.current

section Items

variable {body : Stmt} {f : FrameId} {env env' : Environment} {i : Item}

theorem Item.BelongsTo.simple (hi : i.isSimple = true) : i.BelongsTo body f env := by
  refine ⟨fun t ht => ?_, fun h hh => ?_⟩
  · rw [Item.parts_simple hi] at ht
    cases ht
  · rw [hh] at hi
    cases hi

theorem Item.BelongsTo.grows (h : i.BelongsTo body f env) (hg : Grows env env') : i.BelongsTo body f env' := by
  refine ⟨h.parts, fun g hi => ?_⟩
  obtain ⟨hlt, hf⟩ := h.back g hi
  refine ⟨Nat.lt_of_lt_of_le hlt hg.size, ?_⟩
  rw [hg.chain hlt]
  exact hf

end Items

/-- An item of code that leads back to the frame `f`, if it leads back anywhere, and that does not mark a call. -/
def Item.Within (f : FrameId) : Item → Prop
  | .program _ | .classDecl _ | .method _ | .constructor _ | .marker .ret => False
  | .restore g => g = f
  | _ => True

/-- Except for an invocation, code puts such items on control that lead back to the current frame. -/
theorem Agenda.within {p : Program} {r : Registers} {i j : Item} {new : List Item} {f : FrameId}
    (h : Agenda r i new f) (hstands : Stands p r.env.current i) (hi : ∀ n, i ≠ .invoke n) (hj : j ∈ new) :
    j.Within r.env.current := by
  have hall : ∀ {new : List Item}, (∀ j ∈ new, j.Within r.env.current) → j ∈ new → j.Within r.env.current :=
    fun h hj => h j hj
  have hbranch : ∀ {yes no : List Item}, Branches r.env.current yes no → j ∈ yes ∨ j ∈ no →
      j.Within r.env.current := by
    intro yes no hb hj
    cases hb with
    | _ => exact hj.elim (hall (by simp [Item.Within, or_imp, forall_and])) (hall (by simp [Item.Within]))
  cases h with
  | simple _ hsimple =>
    have hj := List.all_eq_true.mp hsimple j hj
    cases j <;> first | cases hj; done | trivial
  | yes yes no => exact hbranch hstands.1 (.inl hj)
  | no yes no => exact hbranch hstands.1 (.inr hj)
  | arms _ =>
    obtain ⟨s, -, rfl⟩ := List.mem_map.mp hj
    trivial
  | call hcalls _ =>
    obtain ⟨n, _, _, _, hn, -⟩ := hcalls
    exact absurd hn (hi n)
  | _ => exact hall (by simp [Item.Within, or_imp, forall_and]) hj

section Steps

variable {p : Program} {m m₁ : Machine} {i : Item} {c : List Item}

/-- A step that opens a block goes to a frame right inside the current one. -/
theorem chain_of_opens (hnext : Next Natives.empty m m₁) (hc : m.registers.control = i :: c) (hopens : i.OpensBlock)
    (hlt : m.registers.env.current < m.registers.env.frames.size)
    (hcurrent : m₁.registers.env.current = m.registers.env.frames.size) :
    m₁.registers.env.chain m₁.registers.env.current =
      m.registers.env.frames.size :: m.registers.env.chain m.registers.env.current := by
  have hi : i.isStep = true := by cases hopens <;> rfl
  have heffect := (hnext.moves hc hi).env
  generalize m₁.registers.env = env at hcurrent heffect
  have hmoved : env.current ≠ m.registers.env.current := by
    rw [hcurrent]
    exact Nat.ne_of_gt hlt
  cases heffect with
  | same | declare | allocate | assign | array | object => exact absurd rfl hmoved
  | restore h =>
    subst h
    cases hopens
  | block =>
    rw [hcurrent, chain, outer_extend_new]
  | call h =>
    obtain ⟨n, _, _, _, rfl, -⟩ := h
    cases hopens

variable {body : Stmt} {f g : FrameId} {K : List Item}

theorem current_lt_size (hm : Reached Natives.empty p m) : m.registers.env.current < m.registers.env.frames.size := by
  obtain ⟨roles, hscoped, -⟩ := exists_scoped hm
  obtain ⟨ρ, hρ, -⟩ := hscoped.current
  exact hscoped.layout.lt_size hρ

/-- A step of the call itself puts items on control that belong to it. -/
theorem Agenda.belongs {j : Item} {new : List Item} {h : FrameId} (hm : Reached Natives.empty p m)
    (hc : m.registers.control = i :: c) (hnext : Next Natives.empty m m₁)
    (hagenda : Agenda { m.registers with control := c } i new h) (hi : ∀ n, i ≠ .invoke n)
    (hown : i.BelongsTo body f m.registers.env)
    (hcurrent : f ∈ m.registers.env.chain m.registers.env.current) (hj : j ∈ new) :
    j.BelongsTo body f m₁.registers.env := by
  have hwalks := walks_of_reached hm
  rw [hc] at hwalks
  have hwithin := hagenda.within hwalks.stands hi hj
  refine ⟨fun t ht => ?_, fun g hg => ?_⟩
  · rcases hagenda.mem_parts (mem_partsOf.mpr ⟨j, hj, ht⟩) with ht | ht | ⟨_, _, _, ⟨n, _, _, _, hn, -⟩, -⟩
    · exact hown.parts t ht
    · exact .inr ht
    · exact absurd hn (hi n)
  · subst hg
    obtain rfl : g = m.registers.env.current := hwithin
    have hlt := current_lt_size hm
    refine ⟨Nat.lt_of_lt_of_le hlt hnext.grows.size, ?_⟩
    rw [hnext.grows.chain hlt]
    exact hcurrent

/-- After a way back or a marker, the call goes on with what is behind it. -/
theorem Active.joint (hm : Reached Natives.empty p m) (h : Active body f g K m) (hnext : Next Natives.empty m m₁)
    (hc : m.registers.control = i :: c) (hi : i.isJoint = true) (hhigh : K.length < m₁.height) :
    Active body f g K m₁ := by
  have hc₁ := hnext.joint hc hi
  have hback : ∀ b, i = .restore b → m₁.registers.env.current = b := by
    rintro b rfl
    have hperform := hnext.perform hc
    obtain ⟨r, steps⟩ := m₁
    cases hperform
    rfl
  refine ⟨?_, fun front j c₁ hj hown => ?_, fun j c₁ hj hjoint hown => ?_⟩
  · obtain ⟨front, hfront, hcode⟩ := h.below
    rw [hc] at hfront
    cases front with
    | nil =>
      cases hfront
      rw [height, hc₁] at hhigh
      exact absurd hhigh (Nat.lt_irrefl _)
    | cons i' front =>
      obtain ⟨-, hfront⟩ := List.cons.inj hfront
      exact ⟨front, hc₁.trans hfront, fun j hj => hcode j (.tail _ hj)⟩
  · refine (h.own (i :: front) j c₁ ?_ hown).grows hnext.grows
    rw [hc, ← hc₁, hj, List.cons_append]
  · rw [hc₁] at hj
    subst hj
    cases i <;> cases hi
    · -- the way back leads to a frame of the call
      rename_i b
      obtain ⟨hlt, hmem⟩ := (h.own [] _ _ hc ((unwind_ret_cons hjoint c₁).trans hown)).back b rfl
      rw [hback b rfl, hnext.grows.chain hlt]
      exact hmem
    · -- behind a marker stands a way back
      have hc' : m.registers.control = [] ++ .marker _ :: (j :: c₁) := hc
      obtain ⟨b, rest, hrest⟩ := (phase_of_reached Natives.neutral_empty hm).exists_restore hc'
      cases hrest
      cases hjoint

/-- An item that is no joint is code, and behind it there is more code and the way back. -/
theorem Active.exists_front (h : Active body f g K m) (hc : m.registers.control = i :: c) (hi : i.isJoint = false) :
    i.isStep = true ∧ ∃ front, c = front ++ .restore g :: K ∧ ∀ j ∈ front, j.isStep = true := by
  obtain ⟨front, hfront, hcode⟩ := h.below
  rw [hc] at hfront
  cases front with
  | nil =>
    cases hfront
    cases hi
  | cons i' front =>
    obtain ⟨rfl, hrest⟩ := List.cons.inj hfront
    exact ⟨hcode i (.head _), front, hrest, fun j hj => hcode j (.tail _ hj)⟩

/-- A step that puts items on control keeps the call active. -/
theorem Active.queues {new : List Item} {b : FrameId} (hm : Reached Natives.empty p m) (h : Active body f g K m)
    (hnext : Next Natives.empty m m₁) (hc : m.registers.control = i :: c) (hi : i.isJoint = false)
    (hagenda : Agenda { m.registers with control := c } i new b) (hcall : ∀ n, i ≠ .invoke n)
    (hc₁ : m₁.registers.control = new ++ c) (hb : m₁.registers.env.current = b) : Active body f g K m₁ := by
  have hwalks := walks_of_reached hm
  rw [hc] at hwalks
  have hunmarked : .marker .ret ∉ new := fun hmem => hagenda.within hwalks.stands hcall hmem
  -- the item that is performed belongs to the call if one of the new ones does
  have hbelongs : unwind .ret c = .ok (.restore g :: K) → i.BelongsTo body f m.registers.env ∧
      f ∈ m.registers.env.chain m.registers.env.current :=
    fun hown => ⟨h.own [] i c hc hown, h.current i c hc hi hown⟩
  refine ⟨?_, fun front j c₁ hj hown => ?_, fun j c₁ hj hjoint hown => ?_⟩
  · obtain ⟨-, front, rfl, hcode⟩ := h.exists_front hc hi
    refine ⟨new ++ front, by rw [hc₁, List.append_assoc], fun j hj => ?_⟩
    rcases List.mem_append.mp hj with hj | hj
    · have hwithin := hagenda.within hwalks.stands hcall hj
      cases j <;> first | rfl | cases hwithin
    · exact hcode j hj
  · rw [hc₁] at hj
    rcases append_eq_append_cons hj with ⟨back, rfl, rfl⟩ | ⟨front', hfront'⟩
    · have hback : .marker .ret ∉ back := fun hmem => hunmarked (by simp [hmem])
      rw [unwind_ret_append hback] at hown
      obtain ⟨hi, hcurrent⟩ := hbelongs hown
      exact hagenda.belongs hm hc hnext hcall hi hcurrent (by simp)
    · refine (h.own (i :: front') j c₁ ?_ hown).grows hnext.grows
      rw [hc, hfront', List.cons_append]
  · have hown' : unwind .ret c = .ok (.restore g :: K) := by
      rw [← unwind_ret_append hunmarked c, ← hc₁, hj, unwind_ret_cons hjoint]
      exact hown
    obtain ⟨-, hcurrent⟩ := hbelongs hown'
    have hlt := current_lt_size hm
    have hstays : b = m.registers.env.current → f ∈ m₁.registers.env.chain m₁.registers.env.current := by
      rintro rfl
      rw [hb, hnext.grows.chain hlt]
      exact hcurrent
    have hopens : i.OpensBlock → b = m.registers.env.frames.size →
        f ∈ m₁.registers.env.chain m₁.registers.env.current := by
      intro hopens hsize
      rw [chain_of_opens hnext hc hopens hlt (hb.trans hsize)]
      exact .tail _ hcurrent
    cases hagenda with
    | block body => exact hopens (.block body) rfl
    | forLoop init e update body => exact hopens (.forLoop init e update body) rfl
    | arms _ => exact hopens (.switch _) rfl
    | restore _ => cases hi
    | call hcalls _ =>
      obtain ⟨n, _, _, _, hn, -⟩ := hcalls
      exact absurd hn (hcall n)
    | _ => exact hstays rfl

/-- Another call that begins goes back to where the call is. -/
theorem Active.invoke {n : Nat} (hm : Reached Natives.empty p m) (h : Active body f g K m)
    (hnext : Next Natives.empty m m₁) (hc : m.registers.control = .invoke n :: c) : Active body f g K m₁ := by
  obtain ⟨-, front, rfl, hcode⟩ := h.exists_front hc rfl
  obtain ⟨body', hc₁⟩ : ∃ body', m₁.registers.control = [Item.stmt (.block body'), Item.marker .ret,
      Item.restore m.registers.env.current] ++ (front ++ .restore g :: K) := by
    have hperform := hnext.perform hc
    obtain ⟨_, _, _, _, _, _, body', -, -, -, -, hr⟩ := (invoke_ends n).of_ok hperform
    exact ⟨body', by rw [hr]; rfl⟩
  -- no return from the new call leads back to the caller
  have hmarker : unwind .ret (.marker .ret :: .restore m.registers.env.current :: (front ++ .restore g :: K)) ≠
      .ok (.restore g :: K) := by
    intro hown
    rw [unwind_marker] at hown
    have hlength := congrArg List.length (Except.ok.inj hown)
    simp only [List.length_cons, List.length_append] at hlength
    omega
  refine ⟨⟨[Item.stmt (.block body'), Item.marker .ret, Item.restore m.registers.env.current] ++ front, ?_,
    fun j hj => ?_⟩,
    fun front' j c₁ hj hown => ?_, fun j c₁ hj hjoint hown => ?_⟩
  · rw [hc₁, List.append_assoc]
  · rcases List.mem_append.mp hj with hj | hj
    · simp only [List.mem_cons, List.not_mem_nil, or_false] at hj
      rcases hj with rfl | rfl | rfl <;> rfl
    · exact hcode j hj
  · rw [hc₁] at hj
    rcases append_eq_append_cons hj with ⟨back, hnew, rfl⟩ | ⟨front'', hfront''⟩
    · match front', hnew with
      | [], hnew =>
        cases hnew
        exact absurd hown hmarker
      | [_], hnew =>
        cases hnew
        exact ⟨nofun, nofun⟩
      | [_, _], hnew =>
        cases hnew
        have hcurrent := h.current _ _ hc rfl hown
        have hlt := current_lt_size hm
        refine ⟨nofun, fun b hb => ?_⟩
        cases hb
        refine ⟨Nat.lt_of_lt_of_le hlt hnext.grows.size, ?_⟩
        rw [hnext.grows.chain hlt]
        exact hcurrent
      | _ :: _ :: _ :: front', hnew => simp at hnew
    · refine (h.own (.invoke n :: front'') j c₁ ?_ hown).grows hnext.grows
      rw [hc, hfront'', List.cons_append]
  · rw [hc₁] at hj
    cases hj
    exact absurd hown hmarker

/-- A jump inside the call drops some of its items. -/
theorem Active.reset {j : Jump} (hm : Reached Natives.empty p m) (h : Active body f g K m)
    (hnext : Next Natives.empty m m₁) (hc : m.registers.control = .reset j :: c)
    (hunwind : unwind j c = .ok m₁.registers.control) (hhigh : K.length < m₁.height) : Active body f g K m₁ := by
  obtain ⟨-, front, hfront, hcode⟩ := h.exists_front hc rfl
  obtain ⟨dropped, hdropped, -⟩ := exists_of_unwind_eq_ok hunwind
  refine ⟨?_, fun front' i c₁ hi hown => ?_, fun i c₁ hi hjoint hown => ?_⟩
  · -- what is left is long enough to hold the way back
    have hsplit : (dropped ++ [Item.marker j]) ++ m₁.registers.control = front ++ .restore g :: K := by
      rw [← hfront, hdropped]
      simp
    rcases List.append_eq_append_iff.mp hsplit with ⟨front', rfl, hrest⟩ | ⟨back, -, hback⟩
    · exact ⟨front', hrest, fun i hi => hcode i (by simp [hi])⟩
    · have hlength := congrArg List.length hback
      rw [List.length_append, List.length_cons] at hlength
      have hnone : back = [] := List.length_eq_zero_iff.mp (by rw [height] at hhigh; omega)
      rw [hnone] at hback
      exact ⟨[], hback.symm, fun i hi => absurd hi List.not_mem_nil⟩
  · refine (h.own (.reset j :: (dropped ++ .marker j :: front')) i c₁ ?_ hown).grows hnext.grows
    rw [hc, hdropped, hi]
    simp
  · -- the item behind a marker is a way back
    have hc' : m.registers.control = (.reset j :: dropped) ++ .marker j :: m₁.registers.control := by
      rw [hc, hdropped]
      rfl
    obtain ⟨b, rest, hrest⟩ := (phase_of_reached Natives.neutral_empty hm).exists_restore hc'
    rw [hrest] at hi
    cases hi
    cases hjoint

/-- The selection of a method is followed by the arguments of its call. -/
theorem Active.selects {x : String} {n : Nat} {q : Path} {new c' : List Item} (hm : Reached Natives.empty p m)
    (h : Active body f g K m) (hnext : Next Natives.empty m m₁) (hc : m.registers.control = .overload x n q :: c)
    (hsimple : new.all Item.isSimple = true) (hadd : addReceiver? n c = some c')
    (hc₁ : m₁.registers.control = new ++ c') (hb : m₁.registers.env.current = m.registers.env.current) :
    Active body f g K m₁ := by
  obtain ⟨-, front, rfl, hcode⟩ := h.exists_front hc rfl
  obtain ⟨es, behind, rfl, rfl⟩ := exists_above_of_addReceiver? hm hc rfl hadd
  have hqueue : ∀ k, (es.map Item.expr ++ [Item.invoke k]).all Item.isSimple = true := all_isSimple_exprs es
  have hnew : (new ++ (es.map Item.expr ++ [Item.invoke (n + 1)])).all Item.isSimple = true := by
    rw [List.all_append, hsimple, hqueue]
    rfl
  replace hc₁ : m₁.registers.control =
      (new ++ (es.map .expr ++ [Item.invoke (n + 1)])) ++ (behind ++ .restore g :: K) := by
    rw [hc₁]
    simp
  refine ⟨⟨(new ++ (es.map .expr ++ [Item.invoke (n + 1)])) ++ behind, by rw [hc₁]; simp, fun j hj => ?_⟩,
    fun front' j c₁ hj hown => ?_, fun j c₁ hj hjoint hown => ?_⟩
  · rcases List.mem_append.mp hj with hj | hj
    · have hsimple := List.all_eq_true.mp hnew j hj
      cases j <;> first | rfl | cases hsimple
    · exact hcode j (by simp [hj])
  · rw [hc₁] at hj
    rcases append_eq_append_cons hj with ⟨back, hback, -⟩ | ⟨above, hrest⟩
    · exact .simple (List.all_eq_true.mp hnew j (by rw [hback]; simp))
    · refine (h.own (.overload x n q :: (es.map .expr ++ .invoke n :: above)) j c₁ ?_ hown).grows hnext.grows
      rw [hc, List.append_assoc, List.cons_append, hrest]
      simp
  · have hown' : unwind .ret ((es.map Item.expr ++ .invoke n :: behind) ++ .restore g :: K) =
        .ok (.restore g :: K) := by
      have hcontrol : (es.map Item.expr ++ .invoke n :: behind) ++ .restore g :: K =
          (es.map Item.expr ++ [Item.invoke n]) ++ (behind ++ .restore g :: K) := by simp
      rw [hcontrol, unwind_ret_append (notMem_of_simple (hqueue _) rfl),
        ← unwind_ret_append (notMem_of_simple hnew rfl), ← hc₁, hj, unwind_ret_cons hjoint]
      exact hown
    have hlt := current_lt_size hm
    rw [hb, hnext.grows.chain hlt]
    exact h.current _ _ hc rfl hown'

/-- A step keeps the call active, unless it leaves it. -/
theorem Active.next (hm : Reached Natives.empty p m) (h : Active body f g K m) (hnext : Next Natives.empty m m₁)
    (hhigh : K.length < m₁.height) : Active body f g K m₁ := by
  obtain ⟨i, c, hc, -⟩ := next_iff.mp hnext
  by_cases hjoint : i.isJoint = true
  · exact h.joint hm hnext hc hjoint hhigh
  rw [Bool.not_eq_true] at hjoint
  by_cases hcall : ∀ n, i ≠ .invoke n
  · obtain ⟨hstep, -⟩ := h.exists_front hc hjoint
    rcases (hnext.proceeds hc hstep).goes with ⟨hagenda, hc₁, hb⟩ | ⟨rfl, hunwind, -⟩ | ⟨rfl, hsimple, hadd, hc₁, hb⟩
    · exact h.queues hm hnext hc hjoint hagenda hcall hc₁ hb
    · exact h.reset hm hnext hc hunwind hhigh
    · exact h.selects hm hnext hc hsimple hadd hc₁ hb
  · push Not at hcall
    obtain ⟨n, rfl⟩ := hcall
    exact h.invoke hm hnext hc

end Steps

/-! ### Runs -/

section Runs

variable {p : Program} {m m₁ m' : Machine} {K : List Item} {body : List Stmt}
  {f g : FrameId}

/-- A call is active once it has been entered. -/
theorem active_of_enters (hc : m.registers.control = .stmt (.block body) :: .marker .ret :: .restore g :: K)
    (hf : m.registers.env.current = f) : Active (.block body) f g K m := by
  refine ⟨⟨[.stmt (.block body), .marker .ret], hc, ?_⟩, fun front i c hi hown => ?_, fun i c hi _ _ => ?_⟩
  · intro i hi
    simp only [List.mem_cons, List.not_mem_nil, or_false] at hi
    rcases hi with rfl | rfl <;> rfl
  · -- behind the marker no return leads back
    have hlength := length_lt_of_unwind hown
    have hall := congrArg List.length (hc.symm.trans hi)
    simp only [List.length_cons, List.length_append] at hlength hall
    obtain rfl : front = [] := List.length_eq_zero_iff.mp (by omega)
    rw [hc] at hi
    cases hi
    exact ⟨fun t ht => .inl ht, nofun⟩
  · rw [← hf]
    exact .head _

/-- A call is active as long as control is higher than what is behind it. -/
theorem Active.between (h : Active (.block body) f g K m₁) (hm₁ : Reached Natives.empty p m₁)
    (hm : Reached Natives.empty p m) (hle : m₁.steps ≤ m.steps) (hhigh : ∀ m₂, Reached Natives.empty p m₂ →
      m₁.steps < m₂.steps → m₂.steps ≤ m.steps → K.length < m₂.height) : Active (.block body) f g K m := by
  refine hm₁.between hm hle h (fun m₂ m₃ hm₂ hge hlt ih hnext => ?_)
  have hsteps := hnext.steps
  exact ih.next hm₂ hnext (hhigh m₃ (hm₂.next hnext) (by omega) (by omega))

/-- A call is active until it is left. -/
theorem Active.run (h : Active (.block body) f g K m₁) (hm₁ : Reached Natives.empty p m₁)
    (hu : Until Natives.empty K.length m₁ m') (hm : Reached Natives.empty p m) (hle : m₁.steps ≤ m.steps)
    (hlt : m.steps < m'.steps) : Active (.block body) f g K m := by
  obtain ⟨-, -, -, hbetween⟩ := hu.steps hm₁
  exact h.between hm₁ hm hle (fun m₂ hm₂ hgt hle₂ => hbetween m₂ hm₂ hgt (Nat.lt_of_le_of_lt hle₂ hlt))

end Runs

end StashMachine
