import StashMachine.Proofs.Headers
import StashMachine.Proofs.Results

/-!
# StashMachine.Proofs.Enclosing — the constructs that a jump may lead to

A loop or a `switch` is being executed from the step that takes it off control until control is as low as it was
below it.

* `Stmt.catches`: the constructs that the jumps of a source lead to.
* `Executes p s K m`: the statement `s` over the items `K` is being executed.
* `Enclosed p j m`: a construct for the jump is being executed, and no call has begun in it since.
* `Machine.Next.over_marker`: what one step does to a marker on control; `marker_of_since`: as long as a construct
  for a `break` is executed, its marker is on control with the way back, or control is at the way back.
* `Rounds`, `rounds_of_since`: as long as a loop is executed, control is in its rounds, and their bodies stand above
  the marker of a `continue`.
* `enclosedIn_of_asks`: markers, rounds and their conditions are on control only while such a construct is executed.
* `encloses_iff`: a marker of a jump stands above the marker of the call exactly if a construct for it encloses.
-/

namespace StashMachine

open Step Machine

/-- The jumps that lead to a statement: a `break` to a loop or a `switch`, and a `continue` to a loop. -/
def Stmt.catches : Stmt → Jump → Bool
  | .loop _ _, .brk | .forLoop _ _ _ _, .brk | .switch _ _, .brk => true
  | .loop _ _, .cont | .forLoop _ _ _ _, .cont => true
  | _, _ => false

/-- The statement over the items `K` has begun, and control has been higher than `K` since. -/
def Executes (p : Program) (s : Stmt) (K : List Item) (m : Machine) : Prop :=
  ∃ m₀ m₁, Reached Natives.empty p m₀ ∧ m₀.registers.control = .stmt s :: K ∧ Next Natives.empty m₀ m₁ ∧
    Since Natives.empty K.length m₁ m ∧ K.length < m.height

/-- Below the items in front of `c`, a construct for the jump is being executed, and no call has begun in it that is
not over. -/
def EnclosedIn (p : Program) (j : Jump) (m : Machine) (c : List Item) : Prop :=
  ∃ s above K, c = above ++ K ∧ .marker .ret ∉ above ∧ s.catches j = true ∧ Executes p s K m

/-- A construct for the jump is being executed, and no call has begun in it that is not over. -/
def Enclosed (p : Program) (j : Jump) (m : Machine) : Prop := EnclosedIn p j m m.registers.control

section Steps

variable {p : Program} {m m₁ : Machine} {i t : Item} {c above K R : List Item} {s : Stmt} {j : Jump}

theorem Executes.next (h : Executes p s K m) (hnext : Next Natives.empty m m₁) (hhigh : K.length < m₁.height) :
    Executes p s K m₁ := by
  obtain ⟨m₀, m₂, hm₀, hc, hfirst, hsince, hhigh₀⟩ := h
  exact ⟨m₀, m₂, hm₀, hc, hfirst, .next hsince hhigh₀ hnext, hhigh⟩

theorem EnclosedIn.next (h : EnclosedIn p j m c) (hnext : Next Natives.empty m m₁) (hhigh : c.length < m₁.height) :
    EnclosedIn p j m₁ c := by
  obtain ⟨s, above, K, rfl, hret, hs, hexec⟩ := h
  refine ⟨s, above, K, rfl, hret, hs, hexec.next hnext (Nat.lt_of_le_of_lt ?_ hhigh)⟩
  rw [List.length_append]
  exact Nat.le_add_left _ _

theorem EnclosedIn.append (h : EnclosedIn p j m c) (hret : .marker .ret ∉ above) : EnclosedIn p j m (above ++ c) := by
  obtain ⟨s, above', K, rfl, hret', hs, hexec⟩ := h
  exact ⟨s, above ++ above', K, (List.append_assoc ..).symm, by simp [hret, hret'], hs, hexec⟩

/-! ### Markers on control -/

/-- A step leaves a marker where it is, or it goes on right behind it, or a jump passes it, which the marker of a call
does not allow. -/
theorem Machine.Next.over_marker (hm : Reached Natives.empty p m) (hnext : Next Natives.empty m m₁)
    (hc : m.registers.control = above ++ .marker j :: R) :
    (∃ above', m₁.registers.control = above' ++ .marker j :: R) ∨ m₁.registers.control = R ∨
      j ≠ .ret ∧ ∃ k passed, R = passed ++ .marker k :: m₁.registers.control := by
  cases above with
  | nil => exact .inr (.inl (hnext.joint hc rfl))
  | cons i above =>
    rw [List.cons_append] at hc
    by_cases hi : i.isStep = true
    · rcases (hnext.proceeds hc hi).goes with @⟨new, f, -, hcontrol, -⟩ | @⟨k, -, hunwind, -⟩ |
        @⟨x, n, q, new, c', rfl, -, hadd, hcontrol, -⟩
      · exact .inl ⟨new ++ above, by rw [hcontrol]; simp⟩
      · obtain ⟨passed, hpassed, -, hret⟩ := exists_of_unwind_eq_ok hunwind
        rcases List.append_eq_append_iff.mp hpassed with ⟨between, rfl, hrest⟩ | ⟨between, -, hrest⟩
        · cases between with
          | nil =>
            cases hrest
            exact .inr (.inl rfl)
          | cons i' between =>
            cases hrest
            refine .inr (.inr ⟨?_, k, between, rfl⟩)
            rintro rfl
            simp at hret
        · cases between with
          | nil =>
            cases hrest
            exact .inr (.inl rfl)
          | cons i' between => exact .inl ⟨between, (List.cons.inj hrest).2⟩
      · obtain ⟨es, behind, -, rfl⟩ := exists_above_of_addReceiver? hm hc rfl hadd
        exact .inl ⟨new ++ (es.map .expr ++ .invoke (n + 1) :: behind), by rw [hcontrol]; simp⟩
    · obtain ⟨new, hcontrol, -⟩ := hnext.declares hc (by simpa using hi)
      exact .inl ⟨new ++ above, by rw [hcontrol]; simp⟩

/-- A jump that passes the way back leads below what is behind it. -/
theorem length_lt_of_passed {f : FrameId} (h : .restore f :: K = above ++ .marker j :: c) : c.length < K.length := by
  cases above with
  | nil => cases h
  | cons i above =>
    rw [List.cons_append] at h
    rw [(List.cons.inj h).2, List.length_append, List.length_cons]
    omega

/-! ### What constructs begin with -/

theorem Machine.Next.loop {e : Expr} {body : Stmt} (hnext : Next Natives.empty m m₁)
    (hc : m.registers.control = .stmt (.loop e body) :: K) : m₁.registers.control =
      .whileRound e body :: .marker .brk :: .restore m.registers.env.current :: K := by
  have hends : Ends (Step.perform Natives.empty (.stmt (.loop e body))) { m.registers with control := K }
      (fun _ r => r.control = .whileRound e body :: .marker .brk :: .restore m.registers.env.current :: K)
      (fun _ _ => True) := by
    simp [Step.perform, execute]
  exact hends.of_ok (hnext.perform hc)

theorem Machine.Next.forLoop {init update : List Stmt} {e : Option Expr} {body : Stmt} (hnext : Next Natives.empty m m₁)
    (hc : m.registers.control = .stmt (.forLoop init e update body) :: K) : m₁.registers.control =
      init.map .stmt ++ .forRound e update body :: .marker .brk :: .restore m.registers.env.current :: K := by
  have hends : Ends (Step.perform Natives.empty (.stmt (.forLoop init e update body))) { m.registers with control := K }
      (fun _ r => r.control = init.map .stmt ++ .forRound e update body :: .marker .brk ::
        .restore m.registers.env.current :: K) (fun _ _ => True) := by
    simp [Step.perform, execute]
  exact hends.of_ok (hnext.perform hc)

theorem Machine.Next.switch {e : Expr} {arms : List (Arm Stmt)} (hnext : Next Natives.empty m m₁)
    (hc : m.registers.control = .stmt (.switch e arms) :: K) : m₁.registers.control =
      .expr e :: .switch arms :: .marker .brk :: .restore m.registers.env.current :: K := by
  have hends : Ends (Step.perform Natives.empty (.stmt (.switch e arms))) { m.registers with control := K }
      (fun _ r => r.control = .expr e :: .switch arms :: .marker .brk :: .restore m.registers.env.current :: K)
      (fun _ _ => True) := by
    simp [Step.perform, execute]
  exact hends.of_ok (hnext.perform hc)

/-- A construct for a `break` puts down the marker and the way back below everything else. -/
theorem Machine.Next.puts_marker (hnext : Next Natives.empty m m₁) (hs : s.catches .brk = true)
    (hc : m.registers.control = .stmt s :: K) :
    ∃ above, m₁.registers.control = above ++ .marker .brk :: .restore m.registers.env.current :: K := by
  cases s with
  | loop e body => exact ⟨[.whileRound e body], hnext.loop hc⟩
  | forLoop init e update body =>
    exact ⟨init.map .stmt ++ [.forRound e update body], by rw [hnext.forLoop hc, List.append_assoc]; rfl⟩
  | switch e arms => exact ⟨[.expr e, .switch arms], hnext.switch hc⟩
  | _ => cases hs

/-- As long as a construct for a `break` is executed, its marker is on control with the way back to the frame that it
was entered in, or control is at the way back. -/
theorem marker_of_since {m₀ : Machine} (hm₀ : Reached Natives.empty p m₀) (hs : s.catches .brk = true)
    (hc : m₀.registers.control = .stmt s :: K) (hfirst : Next Natives.empty m₀ m₁)
    (hsince : Since Natives.empty K.length m₁ m) (hhigh : K.length < m.height) :
    (∃ above, m.registers.control = above ++ .marker .brk :: .restore m₀.registers.env.current :: K) ∨
      m.registers.control = .restore m₀.registers.env.current :: K := by
  have hm₁ := hm₀.next hfirst
  induction hsince with
  | start => exact .inl (hfirst.puts_marker hs hc)
  | @next m₂ m₃ hsince hhigh₂ hnext ih =>
    have hm₂ := hsince.reached hm₁
    rcases ih hhigh₂ with ⟨above, habove⟩ | hback
    · rcases hnext.over_marker hm₂ habove with hstays | hat | ⟨-, k, passed, hpassed⟩
      · exact .inl hstays
      · exact .inr hat
      · -- a jump further down ends the construct
        exact absurd (length_lt_of_passed hpassed) (Nat.not_lt.mpr (Nat.le_of_lt hhigh))
    · rw [height, hnext.joint hback rfl] at hhigh
      exact absurd hhigh (Nat.lt_irrefl _)

/-! ### Headers and conditions -/

/-- An item of the header or of the condition of a loop: it holds no other statements than expressions and
declarations. -/
def Item.isTame : Item → Bool
  | .stmt s => s.isHeader
  | .restore _ => true
  | .branch yes no => yes.all isSimple && no.all isSimple
  | i => i.isSimple

/-- Items of a header or a condition, or what is left of them below a call. -/
inductive Hushed : List Item → Prop
  | tame {c : List Item} : c.all Item.isTame = true → Hushed c
  | called {c : List Item} (above : List Item) : c.all Item.isTame = true → Hushed (above ++ .marker .ret :: c)

theorem Item.isTame_of_isSimple (h : i.isSimple = true) : i.isTame = true := by
  cases i <;> first | rfl | cases h

theorem all_isTame_of_simple (h : c.all Item.isSimple = true) : c.all Item.isTame = true :=
  List.all_eq_true.mpr (fun i hi => Item.isTame_of_isSimple (List.all_eq_true.mp h i hi))

theorem all_isTame_stmts {ss : List Stmt} (h : ss.all Stmt.isHeader = true) :
    (ss.map Item.stmt).all Item.isTame = true := by
  refine List.all_eq_true.mpr (List.forall_mem_map.mpr (fun s hs => ?_))
  exact List.all_eq_true.mp h s hs

/-- Such an item queues such items, or enters a body. -/
theorem Agenda.tame {r : Registers} {new : List Item} {f : FrameId} (h : Agenda r i new f) (hi : i.isTame = true) :
    new.all Item.isTame = true ∨ ∃ body, new = [.stmt (.block body), .marker .ret, .restore r.env.current] := by
  cases h with
  | simple _ hsimple => exact .inl (all_isTame_of_simple hsimple)
  | operator => exact .inl rfl
  | locals t vars => exact .inl (by simp [Item.isTame, Stmt.isHeader])
  | yes yes no =>
    rw [Item.isTame, Bool.and_eq_true] at hi
    exact .inl (all_isTame_of_simple hi.1)
  | no yes no =>
    rw [Item.isTame, Bool.and_eq_true] at hi
    exact .inl (all_isTame_of_simple hi.2)
  | restore f => exact .inl rfl
  | call _ _ => exact .inr ⟨_, rfl⟩
  | _ => cases hi

/-- A header or a condition above an item goes on, until that item is the next. -/
theorem Machine.Next.hushed (hm : Reached Natives.empty p m) (hnext : Next Natives.empty m m₁) (hc : Hushed c)
    (hne : c ≠ []) (hcontrol : m.registers.control = c ++ t :: R) (ht : t.isSimple = false) :
    ∃ c', Hushed c' ∧ m₁.registers.control = c' ++ t :: R := by
  cases hc with
  | called above htame =>
    rw [List.append_assoc, List.cons_append] at hcontrol
    rcases hnext.over_marker hm hcontrol with ⟨above', habove⟩ | hat | ⟨hret, -⟩
    · exact ⟨_, .called above' htame, by simpa using habove⟩
    · exact ⟨_, .tame htame, hat⟩
    · exact absurd rfl hret
  | tame htame =>
    obtain ⟨i, c, rfl⟩ := List.exists_cons_of_ne_nil hne
    rw [List.cons_append] at hcontrol
    rw [List.all_cons, Bool.and_eq_true] at htame
    have hi : i.isStep = true := by
      cases i <;> first | rfl | cases htame.1
    rcases (hnext.proceeds hcontrol hi).goes with @⟨new, f, hagenda, hcontrol₁, -⟩ | @⟨k, rfl, -, -⟩ |
      @⟨x, n, q, new, c', rfl, hsimple, hadd, hcontrol₁, -⟩
    · rcases hagenda.tame htame.1 with hnew | ⟨body, rfl⟩
      · refine ⟨new ++ c, .tame ?_, by rw [hcontrol₁]; simp⟩
        rw [List.all_append, hnew, htame.2]
        rfl
      · refine ⟨_, .called [.stmt (.block body)] (c := .restore m.registers.env.current :: c) ?_, hcontrol₁⟩
        rw [List.all_cons, htame.2]
        rfl
    · cases htame.1
    · obtain ⟨es, behind, rfl, rfl⟩ := exists_above_of_addReceiver? hm hcontrol ht hadd
      refine ⟨new ++ (es.map .expr ++ .invoke (n + 1) :: behind), .tame ?_, by rw [hcontrol₁]; simp⟩
      have hbehind : behind.all Item.isTame = true := by
        have hall := htame.2
        rw [List.all_append, List.all_cons, Bool.and_eq_true, Bool.and_eq_true] at hall
        exact hall.2.2
      have hargs : (es.map Item.expr).all Item.isTame = true := by
        rw [List.all_map]
        simp [Function.comp_def, Item.isTame, Item.isSimple]
      rw [List.all_append, List.all_append, List.all_cons, all_isTame_of_simple hsimple, hargs, hbehind]
      rfl

/-! ### Rounds -/

/-- A loop, the item of a round of it, its body and its updates. -/
inductive Stmt.Repeats : Stmt → Item → Stmt → List Stmt → Prop
  | loop (e : Expr) (body : Stmt) : Repeats (.loop e body) (.whileRound e body) body []
  | forLoop (init : List Stmt) (e : Option Expr) (update : List Stmt) (body : Stmt) :
    Repeats (.forLoop init e update body) (.forRound e update body) body update

/-- What is on control while a loop is executed, above the items `T` that its last round leaves: a header or a
condition; the body above the marker for a `continue`, with the updates and the next round behind it; or nothing. -/
inductive Rounds (round : Item) (body : Stmt) (update : List Stmt) (T : List Item) : List Item → Prop
  | header {c : List Item} : Hushed c → Rounds round body update T (c ++ round :: T)
  | condition {c : List Item} (f : FrameId) : Hushed c → Rounds round body update T
      (c ++ .branch ([.stmt body, .marker .cont, .restore f] ++ update.map .stmt ++ [round]) [] :: T)
  | body (above : List Item) (f : FrameId) : Rounds round body update T
      (above ++ .marker .cont :: .restore f :: (update.map .stmt ++ round :: T))
  | done : Rounds round body update T T

theorem Machine.Next.round {round : Item} {body : Stmt} {update : List Stmt} {T : List Item}
    (hround : s.Repeats round body update) (hnext : Next Natives.empty m m₁) (hc : m.registers.control = round :: T) :
    Rounds round body update T m₁.registers.control := by
  have htame : ∀ e : Expr, Hushed [.expr e] := fun e => .tame rfl
  have hperform := hnext.perform hc
  obtain ⟨r, steps⟩ := m₁
  cases hround with
  | loop e body =>
    cases hperform
    exact .condition m.registers.env.current (htame e)
  | forLoop init e update body =>
    cases hperform
    exact .condition m.registers.env.current (htame _)

theorem Machine.Next.branch {yes no : List Item} (hnext : Next Natives.empty m m₁)
    (hc : m.registers.control = .branch yes no :: K) :
    m₁.registers.control = yes ++ K ∨ m₁.registers.control = no ++ K := by
  have hends : Ends (Step.branch yes no) { m.registers with control := K }
      (fun _ r => r.control = yes ++ K ∨ r.control = no ++ K) (fun _ _ => True) := by
    rw [Step.branch, ends_bind]
    refine takes_popValue _ _ _ (fun v s _ => ?_) (fun _ _ _ => trivial)
    split
    · exact .inl rfl
    · exact .inr rfl
    · trivial
  exact hends.of_ok (hnext.perform hc)

/-- A step keeps to the rounds of a loop, or leaves the loop. -/
theorem Machine.Next.rounds {round : Item} {body : Stmt} {update : List Stmt} {f : FrameId}
    (hround : s.Repeats round body update) (hupdate : update.all Stmt.isHeader = true) (hm : Reached Natives.empty p m)
    (hnext : Next Natives.empty m m₁) (hhigh : K.length < m₁.height)
    (h : Rounds round body update (.marker .brk :: .restore f :: K) m.registers.control) :
    Rounds round body update (.marker .brk :: .restore f :: K) m₁.registers.control ∨
      m₁.registers.control = .restore f :: K := by
  have hsimple : round.isSimple = false := by cases hround <;> rfl
  generalize hcontrol : m.registers.control = c₀ at h
  cases h with
  | @header c hc =>
    by_cases hnil : c = []
    · subst hnil
      exact .inl (hnext.round hround hcontrol)
    · obtain ⟨c', hc', hcontrol₁⟩ := hnext.hushed hm hc hnil hcontrol hsimple
      rw [hcontrol₁]
      exact .inl (.header hc')
  | @condition c g hc =>
    by_cases hnil : c = []
    · subst hnil
      rcases hnext.branch hcontrol with hcontrol₁ | hcontrol₁
      · have hbody : Rounds round body update (.marker .brk :: .restore f :: K) ([.stmt body] ++ .marker .cont ::
            .restore g :: (update.map .stmt ++ round :: .marker .brk :: .restore f :: K)) := .body [.stmt body] g
        rw [hcontrol₁]
        exact .inl (by simpa using hbody)
      · rw [hcontrol₁]
        exact .inl .done
    · obtain ⟨c', hc', hcontrol₁⟩ := hnext.hushed hm hc hnil hcontrol rfl
      rw [hcontrol₁]
      exact .inl (.condition g hc')
  | body above g =>
    rcases hnext.over_marker hm hcontrol with ⟨above', hcontrol₁⟩ | hcontrol₁ | ⟨-, k, passed, hpassed⟩
    · rw [hcontrol₁]
      exact .inl (.body above' g)
    · have hheader : Hushed (.restore g :: update.map Item.stmt) := by
        refine .tame ?_
        rw [List.all_cons, all_isTame_stmts hupdate]
        rfl
      rw [hcontrol₁]
      exact .inl (.header hheader)
    · -- the updates and the round hold no marker, so the jump is a `break`, or it leads below the loop
      have hnone : .marker k ∉ .restore g :: (update.map Item.stmt ++ [round]) := by
        cases hround <;> simp
      have hqueue : (.restore g :: (update.map Item.stmt ++ [round])) ++ .marker .brk :: .restore f :: K =
          passed ++ .marker k :: m₁.registers.control := by
        rw [← hpassed]
        simp
      obtain ⟨front, hfront⟩ := exists_suffix_of_notMem hqueue hnone
      cases front with
      | nil => exact .inr (List.cons.inj hfront).2.symm
      | cons i front =>
        exact absurd (length_lt_of_passed (List.cons.inj hfront).2) (Nat.not_lt.mpr (Nat.le_of_lt hhigh))
  | done => exact .inr (hnext.joint hcontrol rfl)

theorem Stmt.Repeats.all_isHeader {round : Item} {body : Stmt} {update : List Stmt}
    (hround : s.Repeats round body update) (hs : s.isHeaded = true) : update.all Stmt.isHeader = true := by
  cases hround with
  | loop e body => rfl
  | forLoop init e update body =>
    rw [Stmt.isHeaded, List.all_append, Bool.and_eq_true] at hs
    exact hs.2

/-- A loop begins with the header of its first round. -/
theorem Machine.Next.begins_rounds {round : Item} {body : Stmt} {update : List Stmt} (hnext : Next Natives.empty m m₁)
    (hround : s.Repeats round body update) (hs : s.isHeaded = true) (hc : m.registers.control = .stmt s :: K) :
    Rounds round body update (.marker .brk :: .restore m.registers.env.current :: K) m₁.registers.control := by
  cases hround with
  | loop e body =>
    rw [hnext.loop hc]
    exact .header (.tame List.all_nil)
  | forLoop init e update body =>
    rw [Stmt.isHeaded, List.all_append, Bool.and_eq_true] at hs
    rw [hnext.forLoop hc]
    exact .header (.tame (all_isTame_stmts hs.1))

/-- As long as a loop is executed, control is in its rounds, or at the way back. -/
theorem rounds_of_since {source : String} {m₀ : Machine} {round : Item} {body : Stmt} {update : List Stmt}
    (hparse : Program.parse source = .ok p) (hm₀ : Reached Natives.empty p m₀)
    (hround : s.Repeats round body update) (hc : m₀.registers.control = .stmt s :: K)
    (hfirst : Next Natives.empty m₀ m₁) (hsince : Since Natives.empty K.length m₁ m) (hhigh : K.length < m.height) :
    Rounds round body update (.marker .brk :: .restore m₀.registers.env.current :: K) m.registers.control ∨
      m.registers.control = .restore m₀.registers.env.current :: K := by
  have hs : s.isHeaded = true := headed_of_waits hparse hm₀ s (by simp [hc, Item.parts, Stmt.self_mem_parts])
  induction hsince with
  | start => exact .inl (hfirst.begins_rounds hround hs hc)
  | @next m₂ m₃ hsince hhigh₂ hnext ih =>
    rcases ih hhigh₂ with hrounds | hback
    · exact hnext.rounds hround (hround.all_isHeader hs) (hsince.reached (hm₀.next hfirst)) hhigh hrounds
    · rw [height, hnext.joint hback rfl] at hhigh
      exact absurd hhigh (Nat.lt_irrefl _)

/-! ### Jumps that are enclosed -/

theorem Stmt.exists_repeats (hs : s.catches .cont = true) : ∃ round body update, s.Repeats round body update := by
  cases s with
  | loop e body => exact ⟨_, _, _, .loop e body⟩
  | forLoop init e update body => exact ⟨_, _, _, .forLoop init e update body⟩
  | _ => cases hs

theorem Stmt.catches_ret (s : Stmt) : s.catches .ret = false := by
  cases s <;> rfl

theorem Encloses.of_stmt (h : Encloses j (.stmt s :: c)) : Encloses j c := by
  obtain ⟨front, rest, hc, hret⟩ := h
  cases front with
  | nil => cases hc
  | cons i front =>
    rw [List.cons_append] at hc
    exact ⟨front, rest, (List.cons.inj hc).2, fun hmem => hret (.tail _ hmem)⟩

/-- In a header or a condition, other statements are executed in calls only. -/
theorem Hushed.mem_ret (h : Hushed c) (hc : c ++ i :: R = .stmt s :: K) (hi : ∀ s, i ≠ .stmt s)
    (hs : s.isHeader = false) : .marker .ret ∈ c := by
  cases h with
  | called above htame => simp
  | tame htame =>
    cases c with
    | nil => exact absurd (List.cons.inj hc).1 (hi s)
    | cons i' c =>
      rw [List.cons_append] at hc
      rw [(List.cons.inj hc).1, List.all_cons, Bool.and_eq_true] at htame
      rw [Item.isTame, hs] at htame
      cases htame.1

/-- In the rounds of a loop, other statements than those of a header are executed in the body, or in calls. -/
theorem Rounds.encloses {round : Item} {body : Stmt} {update : List Stmt} {f : FrameId}
    {s₀ : Stmt} (hround : s₀.Repeats round body update)
    (h : Rounds round body update (.marker .brk :: .restore f :: K) (above ++ K)) (hret : .marker .ret ∉ above)
    (hc : above ++ K = .stmt s :: R) (hs : s.isHeader = false) : Encloses .cont (above ++ K) := by
  -- a header or a condition of the loop holds no such statement outside of calls
  have hheader : ∀ {c : List Item} {i : Item}, Hushed c → (∀ s, i ≠ .stmt s) →
      above ++ K ≠ c ++ i :: .marker .brk :: .restore f :: K := by
    intro c i hhushed hi heq
    refine hret ?_
    have habove : above = c ++ [i, .marker .brk, .restore f] := (List.append_left_inj K).mp (by rw [heq]; simp)
    rw [habove]
    exact List.mem_append_left _ (hhushed.mem_ret (heq.symm.trans hc) hi hs)
  generalize hcontrol : above ++ K = control at h
  cases h with
  | header hhushed => exact absurd hcontrol (hheader hhushed (by cases hround <;> nofun))
  | condition g hhushed => exact absurd hcontrol (hheader hhushed nofun)
  | done => rw [hcontrol] at hc; cases hc
  | body front g =>
    refine ⟨front, _, rfl, fun hmem => hret ?_⟩
    have habove : above = front ++ .marker .cont :: .restore g ::
        (update.map .stmt ++ [round, .marker .brk, .restore f]) :=
      (List.append_left_inj K).mp (by rw [hcontrol]; simp)
    rw [habove]
    exact List.mem_append_left _ hmem

/-- If a statement outside of headers is enclosed by a construct for a jump, the marker of the jump stands on control
above the marker of the call. -/
theorem Enclosed.encloses {source : String} (hparse : Program.parse source = .ok p)
    (hc : m.registers.control = .stmt s :: R) (hs : s.isHeader = false) (h : Enclosed p j m) : Encloses j R := by
  obtain ⟨s₀, above, K, hK, hret, hcatches, m₀, m₁, hm₀, hc₀, hfirst, hsince, hhigh⟩ := h
  refine Encloses.of_stmt (s := s) ?_
  rw [← hc]
  cases j with
  | ret =>
    rw [Stmt.catches_ret] at hcatches
    cases hcatches
  | brk =>
    rcases marker_of_since hm₀ hcatches hc₀ hfirst hsince hhigh with ⟨front, hfront⟩ | hback
    · refine ⟨front, _, hfront, fun hmem => hret ?_⟩
      have habove : above = front ++ [.marker .brk, .restore m₀.registers.env.current] :=
        (List.append_left_inj K).mp (by rw [← hK, hfront]; simp)
      rw [habove]
      exact List.mem_append_left _ hmem
    · rw [hc] at hback
      cases hback
  | cont =>
    obtain ⟨round, body, update, hround⟩ := Stmt.exists_repeats hcatches
    rcases rounds_of_since hparse hm₀ hround hc₀ hfirst hsince hhigh with hrounds | hback
    · rw [hK] at hrounds hc ⊢
      exact hrounds.encloses hround hret hc hs
    · rw [hc] at hback
      cases hback

/-! ### Markers of constructs -/

/-- The item is there only while a construct for the jump is executed. -/
def Item.Asks : Item → Jump → Prop
  | .marker k, j => k = j
  | .whileRound _ _, j | .forRound _ _ _, j => j = .cont
  | .branch yes _, j => j = .cont ∧ .marker .cont ∈ yes
  | _, _ => False

/-- Of the two lists of a branch, only the first one of a round holds such items. -/
theorem Branches.asks {f : FrameId} {yes no : List Item} (h : Branches f yes no) (ht : t.Asks j) :
    (t ∈ yes → .marker .ret ∉ yes ∧ j = .cont ∧ .marker .cont ∈ yes) ∧ t ∉ no := by
  have hnone : ∀ {new : List Item}, (∀ t ∈ new, ¬ t.Asks j) → t ∉ new := fun hnew hmem => hnew t hmem ht
  cases h with
  | operands l r =>
    exact ⟨fun hmem => absurd hmem (hnone (by simp [Item.Asks])), hnone (by simp [Item.Asks])⟩
  | stmts yes no =>
    exact ⟨fun hmem => absurd hmem (hnone (by simp [Item.Asks])), hnone (by simp [Item.Asks])⟩
  | whileRound e body =>
    refine ⟨fun hmem => ⟨by simp, ?_, by simp⟩, List.not_mem_nil⟩
    simp only [List.mem_cons, List.not_mem_nil, or_false] at hmem
    rcases hmem with rfl | rfl | rfl | rfl <;> cases ht <;> rfl
  | forRound e update body =>
    refine ⟨fun hmem => ⟨by simp, ?_, by simp⟩, List.not_mem_nil⟩
    simp only [List.mem_append, List.mem_cons, List.not_mem_nil, or_false, List.mem_map] at hmem
    rcases hmem with ((rfl | rfl | rfl) | ⟨s, -, rfl⟩) | rfl <;> cases ht <;> rfl

/-- Such items are put down by constructs for the jump, or by others of these items. -/
theorem Agenda.asks {r : Registers} {new : List Item} {f : FrameId} (h : Agenda r i new f)
    (hstands : Stands p r.env.current i) (hmem : t ∈ new) (ht : t.Asks j) (hj : j ≠ .ret) :
    .marker .ret ∉ new ∧ ((∃ s, i = .stmt s ∧ s.catches j = true) ∨ i.Asks j) := by
  have hnone : ∀ {new : List Item}, (∀ t ∈ new, ¬ t.Asks j) → t ∉ new := fun hnew hmem => hnew t hmem ht
  cases h with
  | simple _ hsimple =>
    have hsimple := List.all_eq_true.mp hsimple t hmem
    cases t <;> first | cases hsimple; done | cases ht
  | loop e body =>
    refine ⟨by simp, .inl ⟨_, rfl, ?_⟩⟩
    simp only [List.mem_cons, List.not_mem_nil, or_false] at hmem
    rcases hmem with rfl | rfl | rfl <;> cases ht <;> rfl
  | forLoop init e update body =>
    refine ⟨by simp, .inl ⟨_, rfl, ?_⟩⟩
    rcases List.mem_append.mp hmem with hmem | hmem
    · exact absurd hmem (hnone (by simp [Item.Asks]))
    · simp only [List.mem_cons, List.not_mem_nil, or_false] at hmem
      rcases hmem with rfl | rfl | rfl <;> cases ht <;> rfl
  | switch e arms =>
    refine ⟨by simp, .inl ⟨_, rfl, ?_⟩⟩
    simp only [List.mem_cons, List.not_mem_nil, or_false] at hmem
    rcases hmem with rfl | rfl | rfl | rfl <;> cases ht
    rfl
  | whileRound e body =>
    refine ⟨by simp, .inr ?_⟩
    simp only [List.mem_cons, List.not_mem_nil, or_false] at hmem
    rcases hmem with rfl | rfl
    · cases ht
    · exact ht.1
  | forRound e update body =>
    refine ⟨by simp, .inr ?_⟩
    simp only [List.mem_cons, List.not_mem_nil, or_false] at hmem
    rcases hmem with rfl | rfl
    · cases ht
    · exact ht.1
  | yes yes no =>
    obtain ⟨hret, hcont⟩ := (hstands.1.asks ht).1 hmem
    exact ⟨hret, .inr hcont⟩
  | no yes no => exact absurd hmem (hstands.1.asks ht).2
  | call _ _ =>
    simp only [List.mem_cons, List.not_mem_nil, or_false] at hmem
    rcases hmem with rfl | rfl | rfl <;> cases ht
    exact absurd rfl hj
  | arms _ => exact absurd hmem (hnone (List.forall_mem_map.mpr (fun _ _ => id)))
  | _ => exact absurd hmem (hnone (by simp [Item.Asks, or_imp, forall_and]))

/-- An item that is there only while a construct for a jump is executed stands above such a construct, and above all
calls in it. -/
theorem enclosedIn_of_asks (hm : Reached Natives.empty p m) (hc : m.registers.control = above ++ i :: R)
    (hi : i.Asks j) (hj : j ≠ .ret) : EnclosedIn p j m R := by
  refine hm.induction (P := fun m => ∀ above i R, m.registers.control = above ++ i :: R → i.Asks j →
    EnclosedIn p j m R) (fun above i R hc hi => ?_) (fun m m₁ hm ih hnext above i R hc₁ hi => ?_) above i R hc hi
  · cases above with
    | nil =>
      cases hc
      cases hi
    | cons i' above =>
      obtain ⟨-, hnil⟩ := List.cons.inj hc
      cases above <;> cases hnil
  · obtain ⟨i₀, c, hc, -⟩ := next_iff.mp hnext
    have hhigh : R.length < m₁.height := by
      rw [height, hc₁, List.length_append, List.length_cons]
      omega
    have hsimple : i.isSimple = false := by
      cases i <;> first | rfl | cases hi
    have houtline : i.isOutline = false := by
      cases i <;> first | rfl | cases hi
    rcases hnext.suffix hm hc hc₁ hsimple houtline with ⟨above', rfl⟩ | ⟨back, f, rfl, hagenda⟩
    · exact (ih (i₀ :: above') i R hc hi).next hnext hhigh
    · have hwalks := walks_of_reached hm
      rw [hc] at hwalks
      obtain ⟨hret, hasks⟩ := hagenda.asks hwalks.stands (by simp) hi hj
      have hback : .marker .ret ∉ back := fun hmem => hret (by simp [hmem])
      rcases hasks with ⟨s, rfl, hs⟩ | hasks
      · refine ⟨s, back, c, rfl, hback, hs, m, m₁, hm, hc, hnext, .start, ?_⟩
        rw [List.length_append] at hhigh
        omega
      · have hlow : c.length < m₁.height := by
          rw [List.length_append] at hhigh
          omega
        exact ((ih [] i₀ c hc hasks).next hnext hlow).append hback

/-- If the marker of a jump stands above the marker of the call, a construct for it encloses. -/
theorem enclosed_of_encloses (hm : Reached Natives.empty p m) (hj : j ≠ .ret) (h : Encloses j m.registers.control) :
    Enclosed p j m := by
  obtain ⟨front, rest, hc, hret⟩ := h
  have hfront : .marker .ret ∉ front ++ [.marker j] := by simp [hret, hj.symm]
  have henclosed := (enclosedIn_of_asks hm hc rfl hj).append hfront
  rw [Enclosed, hc]
  simpa using henclosed

/-- For a statement outside of headers, the marker of a jump stands above the marker of the call exactly if a
construct for the jump encloses the statement. -/
theorem encloses_iff {source : String} (hparse : Program.parse source = .ok p) (hm : Reached Natives.empty p m)
    (hc : m.registers.control = .stmt s :: R) (hs : s.isHeader = false) (hj : j ≠ .ret) :
    Encloses j R ↔ Enclosed p j m := by
  refine ⟨fun h => enclosed_of_encloses hm hj ?_, fun h => h.encloses hparse hc hs⟩
  obtain ⟨front, rest, rfl, hret⟩ := h
  exact ⟨.stmt s :: front, rest, by rw [hc]; rfl, by simp [hret]⟩

end Steps

end StashMachine
