import StashMachine.Proofs.Sound
import StashMachine.Proofs.StepLogic

/-!
# StashMachine.Proofs.Track — steps that stay on track

* `Regime.Permits`, `Regime.Blames`: the defects that a careful run can stop with, and the faults.
* `Stays`: a step has changed the piece of control above `K` and the piece of the stash above `S`, and
  they still fit together.
* What taking items off a stash of known kinds gives.
* `Step.Keeps`: a part of a step that leaves both stacks alone.
-/

namespace StashMachine

open Environment Step

namespace Regime

variable (g : Regime)

/-- The defects that a careful run can stop with. -/
def Permits (d : Defect) : Prop :=
  (∃ c, d = .expected .value ("class " ++ c)) ∨ (∃ c x, d = .unboundField c x) ∨
  (∃ o x, d = .lostField o x) ∨
  ∃ m w, d = .receiver m ("Some(" ++ w.term ++ ")") ∧ g.odd w ∧ w ≠ .null ∧
    ∀ c f, w ≠ .object c f

/-- The faults that a careful run can stop with, jumps without a marker apart. -/
def Blames (e : Fault) : Prop := g.careful → e.Ordinary ∨ ∃ d, e = .internal d ∧ g.Permits d

end Regime

section Blames

variable {g : Regime} {e : Fault}

theorem Regime.blames_of_ordinary (h : e.Ordinary) : g.Blames e := fun _ => .inl h

theorem Flawless.blames {α : Type} {x : Except Fault α} (hx : Flawless x) (h : x = .error e) :
    g.Blames e := g.blames_of_ordinary (hx e h).ordinary

theorem Regime.blames_internal {d : Defect} (h : g.careful → g.Permits d) : g.Blames (.internal d) :=
  fun hg => .inr ⟨d, rfl, h hg⟩

theorem Regime.blames_class (c : String) :
    g.Blames (.internal (.expected .value ("class " ++ c))) :=
  g.blames_internal (fun _ => .inl ⟨c, rfl⟩)

end Blames

/-- A step has stayed on track: above `K` and `S`, control and stash still fit. -/
def Stays (g : Regime) (b : Base) (K : List Item) (S : List StashItem) (env : Environment)
    (r : Registers) : Prop :=
  g.Evolves env r.env ∧ ∃ c s, r.control = c ++ K ∧ r.stash = s ++ S ∧ OnTrack g b c s r.env

section Stays

variable {g : Regime} {b : Base} {K c : List Item} {S s : List StashItem} {env env' : Environment}
  {out : List String} {σ : List Kind}

theorem Stays.of_eq {l : Level} {control : List Item} (hc : control = c ++ K)
    (he : g.Evolves env env') (hl : l.Stands env' s) (hf : Flows g b c l env'.current σ)
    (hs : List.Forall₂ (Holds g env') σ s) : Stays g b K S env ⟨control, s ++ S, env', out⟩ :=
  ⟨he, c, s, hc, rfl, l, σ, hl, hf, hs⟩

theorem Stays.intro {l : Level} (he : g.Evolves env env') (hl : l.Stands env' s)
    (hf : Flows g b c l env'.current σ) (hs : List.Forall₂ (Holds g env') σ s) :
    Stays g b K S env ⟨c ++ K, s ++ S, env', out⟩ := .of_eq rfl he hl hf hs

/-- Control stands in the middle of an expression. -/
theorem Stays.value (he : g.Evolves env env') (hf : Flows g b c .value env'.current σ)
    (hs : List.Forall₂ (Holds g env') σ s) : Stays g b K S env ⟨c ++ K, s ++ S, env', out⟩ :=
  .intro (l := .value) he trivial hf hs

/-- Control stands before a statement. -/
theorem Stays.stmt (he : g.Evolves env env') (hf : Flows g b c .stmt env'.current σ)
    (hs : List.Forall₂ (Holds g env') σ s) : Stays g b K S env ⟨c ++ K, s ++ S, env', out⟩ :=
  .intro (l := .stmt) he trivial hf hs

end Stays

/-! ### Taking items of known kinds -/

section Pop

variable {g : Regime} {env₀ env : Environment} {i : StashItem} {control : List Item}
  {stash : List StashItem} {out : List String}

theorem ends_popValue {Q : Value → Registers → Prop} (hi : (∃ v, i = .value v) ∨ ∃ c, i = .cls c)
    (hQ : ∀ v, i = .value v → Q v ⟨control, stash, env, out⟩) :
    Ends popValue ⟨control, i :: stash, env, out⟩ Q (fun e _ => g.Blames e) := by
  rcases hi with ⟨v, rfl⟩ | ⟨c, rfl⟩
  · rw [ends_popValue_value]
    exact hQ v rfl
  · rw [ends_popValue_cls]
    exact g.blames_class c.name

theorem ends_popResult {Q : Value → Registers → Prop} (hi : Holds g env₀ .result i)
    (hQ : ∀ v, Q v ⟨control, stash, env, out⟩) :
    Ends popValue ⟨control, i :: stash, env, out⟩ Q (fun e _ => g.Blames e) :=
  ends_popValue hi (fun v _ => hQ v)

theorem ends_popPlace {Q : VarId → Registers → Prop} (hi : Holds g env₀ .place i)
    (hQ : ∀ x, (g.careful → ∃ v, env₀.var? x = some v) → Q x ⟨control, stash, env, out⟩) :
    Ends popTarget ⟨control, i :: stash, env, out⟩ Q (fun e _ => g.Blames e) := by
  rcases hi with ⟨x, rfl, hx⟩ | ⟨c, rfl⟩
  · rw [ends_popTarget_var]
    exact hQ x hx
  · rw [ends_popTarget_cls]
    exact Regime.blames_of_ordinary trivial

/-- Taking one item after the other gives them in the order they were put down. -/
theorem ends_popMany {α : Type} {take : Step α} (wrap : α → StashItem) {P : StashItem → Prop}
    {Q : List α → Registers → Prop} {F : Fault → Registers → Prop}
    (htake : ∀ i rest (Q : α → Registers → Prop), P i →
      (∀ a, i = wrap a → Q a ⟨control, rest, env, out⟩) →
      Ends take ⟨control, i :: rest, env, out⟩ Q F)
    {top : List StashItem} (htop : ∀ i ∈ top, P i) (taken : List α)
    (hQ : ∀ as, as.map wrap = top.reverse → Q (as ++ taken) ⟨control, stash, env, out⟩) :
    Ends (popMany take top.length taken) ⟨control, top ++ stash, env, out⟩ Q F := by
  induction top generalizing taken Q with
  | nil => exact hQ [] rfl
  | cons i top ih =>
    simp only [List.length_cons, popMany, ends_bind, List.cons_append]
    refine htake i _ _ (htop i (by simp)) (fun a ha => ?_)
    refine ih (fun i' hi' => htop i' (by simp [hi'])) (a :: taken) (fun as has => ?_)
    have := hQ (as ++ [a]) (by simp [has, ha])
    simpa using this

theorem ends_popValues {Q : List Value → Registers → Prop} {top : List StashItem} {n : Nat}
    (hn : top.length = n) (htop : ∀ i ∈ top, (∃ v, i = .value v) ∨ ∃ c, i = .cls c)
    (hQ : ∀ vs, vs.map .value = top.reverse → Q vs ⟨control, stash, env, out⟩) :
    Ends (popValues n) ⟨control, top ++ stash, env, out⟩ Q (fun e _ => g.Blames e) := by
  subst hn
  refine ends_popMany .value (fun i rest Q' hi hQ' => ends_popValue hi hQ') htop []
    (fun as has => ?_)
  rw [List.append_nil]
  exact hQ as has

theorem ends_popTypes {Q : List TypeName → Registers → Prop} {F : Fault → Registers → Prop}
    {top : List StashItem} {n : Nat} (hn : top.length = n) (htop : ∀ i ∈ top, Holds g env₀ .type i)
    (hQ : ∀ ts, ts.length = n → Q ts ⟨control, stash, env, out⟩) :
    Ends (popTypes n) ⟨control, top ++ stash, env, out⟩ Q F := by
  subst hn
  refine ends_popMany .type (fun i rest Q' hi hQ' => ?_) htop [] (fun as has => ?_)
  · obtain ⟨t, rfl⟩ := hi
    rw [ends_popType_type]
    exact hQ' t rfl
  · rw [List.append_nil]
    refine hQ as ?_
    simpa using congrArg List.length has

end Pop

/-! ### Parts of steps that leave both stacks alone -/

/-- `x` leaves control, the stash and the current frame alone, changes the environment as code does,
and gives a result that satisfies `R` in the new environment. -/
def Step.Keeps {α : Type} (g : Regime) (x : Step α) (r : Registers) (R : α → Environment → Prop) :
    Prop :=
  Ends x r (fun a r' => r'.control = r.control ∧ r'.stash = r.stash ∧
    r'.env.current = r.env.current ∧ g.Evolves r.env r'.env ∧ R a r'.env) (fun e _ => g.Blames e)

section Keeps

variable {α : Type} {g : Regime} {control : List Item} {stash : List StashItem} {env : Environment}
  {out : List String} {R : α → Environment → Prop}

/-- Going on after such a part. -/
theorem Step.Keeps.bind {β : Type} {x : Step α} {f : α → Step β} {Q : β → Registers → Prop}
    (hx : Step.Keeps g x ⟨control, stash, env, out⟩ R)
    (hf : ∀ a env' out', env'.current = env.current → g.Evolves env env' → R a env' →
      Ends (f a) ⟨control, stash, env', out'⟩ Q (fun e _ => g.Blames e)) :
    Ends (x >>= f) ⟨control, stash, env, out⟩ Q (fun e _ => g.Blames e) := by
  rw [ends_bind]
  refine hx.mono ?_ (fun _ _ h => h)
  rintro a ⟨control', stash', env', out'⟩ ⟨rfl, rfl, hcurrent, hev, hR⟩
  exact hf a env' out' hcurrent hev hR

end Keeps

end StashMachine
