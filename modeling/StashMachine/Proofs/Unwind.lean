import StashMachine.Proofs.Flow

/-!
# StashMachine.Proofs.Unwind — where jumps lead

* `exists_of_unwind_eq_ok`, `unwind_isOk_iff`: what `Step.unwind` does to any list of items.  It cuts
  below the first marker of the jump, unless the marker of the call comes first.
* `unwind_land`, `unwind_ret`, `unwind_jump`: on control that fits, a jump leads to control that fits,
  or out of the piece of control that is looked at.
* `exists_restore_of_marker`: in control that fits, behind every marker stands the way back to a frame.
-/

namespace StashMachine

open Step

/-! ### Any control -/

section Any

variable {j : Jump} {front c rest : List Item}

/-- A jump passes over everything but its own markers and those of calls. -/
theorem unwind_append (hj : Item.marker j ∉ front) (hret : Item.marker .ret ∉ front) (c : List Item) :
    unwind j (front ++ c) = unwind j c := by
  induction front with
  | nil => rfl
  | cons i front ih =>
    have ih' := ih (fun h => hj (by simp [h])) (fun h => hret (by simp [h]))
    cases i with
    | marker k =>
      have hk : k ≠ j := by
        rintro rfl
        exact hj (by simp)
      have hk' : k ≠ .ret := by
        rintro rfl
        exact hret (by simp)
      simp only [List.cons_append, unwind, if_neg hk, if_neg hk', ih']
    | _ => exact ih'

theorem unwind_marker (j : Jump) (rest : List Item) : unwind j (.marker j :: rest) = .ok rest := by
  simp [unwind]

/-- A jump leads behind the first of its markers, and passes no marker of a call on the way. -/
theorem exists_of_unwind_eq_ok (h : unwind j c = .ok rest) :
    ∃ front, c = front ++ .marker j :: rest ∧ Item.marker j ∉ front ∧ Item.marker .ret ∉ front := by
  induction c with
  | nil => cases h
  | cons i c ih =>
    by_cases hj : i = .marker j
    · subst hj
      rw [unwind_marker] at h
      cases h
      exact ⟨[], rfl, by simp, by simp⟩
    by_cases hret : i = .marker .ret
    · subst hret
      have hne : Jump.ret ≠ j := fun he => hj (by rw [he])
      simp [unwind, hne] at h
    have hskip : unwind j ([i] ++ c) = unwind j c :=
      unwind_append (by simpa using Ne.symm hj) (by simpa using Ne.symm hret) c
    obtain ⟨front, rfl, hfj, hfr⟩ := ih (hskip.symm.trans h)
    exact ⟨i :: front, rfl, by simp [hfj, Ne.symm hj], by simp [hfr, Ne.symm hret]⟩

/-- A marker of the jump stands above the nearest marker of a call. -/
def Encloses (j : Jump) (c : List Item) : Prop :=
  ∃ front rest, c = front ++ .marker j :: rest ∧ Item.marker .ret ∉ front

/-- A jump succeeds exactly if one of its markers stands above the nearest marker of a call. -/
theorem unwind_isOk_iff : (∃ rest, unwind j c = .ok rest) ↔ Encloses j c := by
  constructor
  · rintro ⟨rest, h⟩
    obtain ⟨front, rfl, -, hret⟩ := exists_of_unwind_eq_ok h
    exact ⟨front, rest, rfl, hret⟩
  · rintro ⟨front, rest, rfl, hret⟩
    induction front with
    | nil => exact ⟨rest, unwind_marker j rest⟩
    | cons i front ih =>
      by_cases hj : i = .marker j
      · exact ⟨_, hj ▸ unwind_marker j _⟩
      · have hi : i ≠ .marker .ret := fun he => hret (by simp [he])
        obtain ⟨rest', h⟩ := ih (fun h => hret (by simp [h]))
        refine ⟨rest', ?_⟩
        rw [List.cons_append, ← List.singleton_append,
          unwind_append (by simpa using Ne.symm hj) (by simpa using Ne.symm hi)]
        exact h

end Any

/-! ### Control that fits -/

section Flows

variable {g : Regime} {b : Base} {c : List Item} {f : FrameId} {σ : List Kind} {j : Jump}

/-- A `return` at the end of a body leads back to the call. -/
theorem unwind_land (h : Flows g b c .land f σ) (K : List Item) :
    ∃ f' c', unwind .ret (c ++ K) = .ok (.restore f' :: c' ++ K) ∧
      Flows g b c' .value f' (.result :: σ) := by
  induction c with
  | nil => cases b <;> exact h.elim
  | cons i c ih =>
    cases i with
    | restore f' => exact ih h
    | marker k =>
      cases k with
      | ret =>
        obtain ⟨⟨f', c', rfl, -⟩, h⟩ := h
        exact ⟨f', c', unwind_marker .ret _, h⟩
      | _ => exact h.elim
    | _ => exact h.elim

/-- No other jump leaves a body. -/
theorem unwind_land_error (hj : j ≠ .ret) (h : Flows g b c .land f σ) (K : List Item) :
    ∃ rest, unwind j (c ++ K) = .error rest := by
  induction c with
  | nil => cases b <;> exact h.elim
  | cons i c ih =>
    cases i with
    | restore f' => exact ih h
    | marker k =>
      cases k with
      | ret => exact ⟨c ++ K, by simp [unwind, Ne.symm hj]⟩
      | _ => exact h.elim
    | _ => exact h.elim

/-- A `return` leads back to the call, or out of the piece of control that is looked at. -/
theorem unwind_ret (h : Flows g b c .stmt f σ) (K : List Item) :
    (∃ f' c', unwind .ret (c ++ K) = .ok (.restore f' :: c' ++ K) ∧
      Flows g b c' .value f' (.result :: σ)) ∨
    (∃ E, b = .statement E) ∧ σ = [] ∧ unwind .ret (c ++ K) = unwind .ret K := by
  induction c generalizing f with
  | nil =>
    cases b with
    | value E | field E => exact h.elim
    | statement E => exact .inr ⟨⟨E, rfl⟩, h.2, rfl⟩
  | cons i c ih =>
    cases i with
    | stmt s =>
      rcases h with ⟨-, h | ⟨-, h⟩⟩
      · exact ih h
      · exact .inl (unwind_land h K)
    | restore f' => exact ih h
    | marker k =>
      obtain ⟨hk, -, h⟩ := h
      simp only [List.cons_append, unwind, if_neg hk]
      exact ih h
    | reset k => exact ih h.2.2
    | whileRound _ _ => exact ih h.2
    | forRound _ _ _ => exact ih h.2
    | _ => exact h.elim

/-- A `break` or `continue` leads behind a loop or `switch`, or nowhere, or out of the piece of control
that is looked at. -/
theorem unwind_jump (hj : j ≠ .ret) (h : Flows g b c .stmt f σ) (K : List Item) :
    (∃ f' c', unwind j (c ++ K) = .ok (.restore f' :: c' ++ K) ∧ Flows g b c' .stmt f' σ) ∨
    (∃ rest, unwind j (c ++ K) = .error rest) ∨
    (∃ E, b = .statement E) ∧ σ = [] ∧ unwind j (c ++ K) = unwind j K := by
  induction c generalizing f with
  | nil =>
    cases b with
    | value E | field E => exact h.elim
    | statement E => exact .inr (.inr ⟨⟨E, rfl⟩, h.2, rfl⟩)
  | cons i c ih =>
    cases i with
    | stmt s =>
      rcases h with ⟨-, h | ⟨-, h⟩⟩
      · exact ih h
      · exact .inr (.inl (unwind_land_error hj h K))
    | restore f' => exact ih h
    | marker k =>
      obtain ⟨hk, ⟨f', c', rfl, -⟩, h⟩ := h
      by_cases hkj : k = j
      · subst hkj
        exact .inl ⟨f', c', unwind_marker k _, h⟩
      · rw [List.cons_append, unwind, if_neg hkj, if_neg hk]
        exact ih h
    | reset k => exact ih h.2.2
    | whileRound _ _ => exact ih h.2
    | forRound _ _ _ => exact ih h.2
    | _ => exact h.elim

/-! ### Markers -/

/-- What is behind an item that fits, fits. -/
theorem Item.asks_next {i : Item} {rest : List Item} {next : Level → FrameId → List Kind → Prop}
    {l : Level} (h : i.asks g rest next f σ l) : ∃ l' f' σ', next l' f' σ' := by
  cases l with
  | value => cases i <;> simp only [asks, asksValue] at h <;> grind
  | stmt => cases i <;> simp only [asks, asksStmt] at h <;> grind
  | land =>
    cases i with
    | restore f' => exact ⟨_, _, _, h⟩
    | marker k =>
      cases k with
      | ret => exact ⟨_, _, _, h.2⟩
      | _ => exact h.elim
    | _ => exact h.elim
  | done => exact h.elim
  | pending left all =>
    cases left <;> cases i <;> simp only [asks, asksPending] at h <;> grind
  | opening => cases i <;> simp only [asks, asksOpening] at h <;> grind
  | opened =>
    cases i <;> simp only [asks, asksOpened] at h
    grind

/-- Behind every marker stands the way back to the frame of its construct. -/
theorem exists_restore_of_marker {l : Level} {front rest : List Item}
    (h : Flows g b (front ++ .marker j :: rest) l f σ) : ∃ f' c', rest = .restore f' :: c' := by
  induction front generalizing l f σ with
  | nil =>
    cases l with
    | stmt =>
      obtain ⟨-, ⟨f', c', hrest, -⟩, -⟩ := h
      exact ⟨f', c', hrest⟩
    | land =>
      cases j with
      | ret =>
        obtain ⟨⟨f', c', hrest, -⟩, -⟩ := h
        exact ⟨f', c', hrest⟩
      | _ => exact h.elim
    | pending left all => cases left <;> exact h.elim
    | _ => exact h.elim
  | cons i front ih =>
    obtain ⟨l', f', σ', h'⟩ := Item.asks_next h
    exact ih h'

/-- Markers and jumps on control that fits have an origin. -/
theorem Flows.origin_of_turns {i : Item} {l : Level} {front rest : List Item}
    (h : Flows g b (front ++ i :: rest) l f σ) (hi : i.Turns) : g.origin (i :: rest) := by
  induction front generalizing l f σ with
  | nil =>
    cases hi with
    | marker j =>
      cases l with
      | stmt =>
        obtain ⟨-, ⟨f', c', -, ho⟩, -⟩ := h
        exact ho
      | land =>
        cases j with
        | ret =>
          obtain ⟨⟨f', c', -, ho⟩, -⟩ := h
          exact ho
        | _ => exact h.elim
      | pending left all => cases left <;> exact h.elim
      | _ => exact h.elim
    | reset hj =>
      cases l with
      | value => exact absurd h.1 hj
      | stmt => exact h.2.1
      | pending left all => cases left <;> exact h.elim
      | _ => exact h.elim
  | cons i front ih =>
    obtain ⟨l', f', σ', h'⟩ := Item.asks_next h
    exact ih h'

theorem Regime.plain_origin (g : Regime) (o : List Item → Prop) :
    ({ g with origin := o } : Regime).Plain = g.Plain := rfl

theorem Regime.round_origin (g : Regime) (o : List Item → Prop) :
    ({ g with origin := o } : Regime).Round = g.Round := by
  funext i
  cases i <;> rfl

/-- Control asks about the origins of the markers and jumps that stand on it, and of no others. -/
theorem Item.asks_origin {o : List Item → Prop} {i : Item} {rest : List Item}
    {next next' : Level → FrameId → List Kind → Prop} {l : Level}
    (hnext : ∀ l f σ, next l f σ → next' l f σ)
    (ho : i.Turns → o (i :: rest))
    (h : i.asks g rest next f σ l) : i.asks { g with origin := o } rest next' f σ l := by
  cases l with
  | value =>
    cases i <;> simp only [asks, asksValue, Regime.plain_origin, Regime.round_origin] at h ⊢ <;> grind
  | stmt =>
    cases i <;> simp only [asks, asksStmt, Regime.plain_origin, Regime.round_origin] at h ⊢ <;>
      grind [Turns]
  | land =>
    cases i with
    | restore f' => exact hnext _ _ _ h
    | marker k =>
      cases k with
      | ret =>
        obtain ⟨⟨f', c, hrest, -⟩, h⟩ := h
        exact ⟨⟨f', c, hrest, ho (.marker .ret)⟩, hnext _ _ _ h⟩
      | _ => exact h.elim
    | _ => exact h.elim
  | done => exact h.elim
  | pending left all =>
    cases left <;> cases i <;> simp only [asks, asksPending] at h ⊢ <;> grind
  | opening => cases i <;> simp only [asks, asksOpening, Regime.plain_origin] at h ⊢ <;> grind
  | opened =>
    cases i <;> simp only [asks, asksOpened] at h ⊢
    grind

/-- Whatever is true of the markers and jumps on control may be asked of them. -/
theorem Flows.origin {o : List Item → Prop} {l : Level} (h : Flows g b c l f σ)
    (ho : ∀ front i rest, c = front ++ i :: rest → i.Turns → o (i :: rest)) :
    Flows { g with origin := o } b c l f σ := by
  induction c generalizing l f σ with
  | nil => exact h
  | cons i c ih =>
    refine Item.asks_origin (fun l f σ h => ih h ?_) (ho [] i c rfl) h
    intro front i' rest hc
    exact ho (i :: front) i' rest (by rw [hc]; rfl)

end Flows

end StashMachine
