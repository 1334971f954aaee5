import StashMachine.Proofs.Outcomes

/-!
# StashMachine.Proofs.TypedStore — variables hold values of their own kind

* `Typed r`: every variable holds a value that fits its type, and the elements of every array that is held
  fit its element type.  Every step keeps it (`Typed.step`).
* `primitives_hold_their_kind`: what this comes to for primitive types.
-/

namespace StashMachine

open Environment Machine

/-- Every value that the registers hold is where it may be. -/
structure Typed (r : Registers) : Prop where
  vars : ∀ x y w, r.env.var? x = some y → y.value = some w → w.fits y.type = true
  arrays : ∀ v, Held r v → ∀ u : Value, u.Part v → ∀ id t vs, u = .array id t vs →
    ∀ w ∈ vs, w.fits t = true

/-! ### Every step and every run -/

section Runs

variable {p : Program} {m : Machine} {r r' : Registers} {i : Item}

/-- A step keeps every value where it may be, whether it ends well or not. -/
theorem Typed.step (h : Typed { r with control := i :: r.control }) (hstep : Leads r i r') :
    Typed r' := by
  refine ⟨fun x y w hx hw => ?_, hstep.parts h.arrays ?_ ?_ ?_⟩
  · rcases hstep.var? hx with hx | hnew
    · exact h.vars x y w hx hw
    · exact (hnew w hw).2
  · -- simple values are no arrays
    rintro v hv id t vs rfl
    cases hv
  · intro id t vs hfits id' t' vs' he
    cases he
    exact hfits
  · exact nofun

theorem Typed.initial (p : Program) : Typed (initial.loadProgram p).registers := by
  refine ⟨fun x y w hx => ?_, fun v hv => ?_⟩
  · cases hx
  · rcases hv with hv | ⟨x, y, hx, -⟩
    · cases hv
    · cases hx

theorem typed_of_visited (hm : Visited Natives.empty p m) : Typed m.registers :=
  hm.induction (.initial p) (fun _ _ _ => Typed.step)

/-- In every state of a run, a variable of a primitive type holds a value of its kind, and so does an array
of a primitive element type in each element, wherever the array is held. -/
theorem primitives_hold_their_kind (hm : Visited Natives.empty p m) :
    (∀ x y t w, m.registers.env.var? x = some y → y.type = .primitive t → y.value = some w →
      w.isOf t = true) ∧
    ∀ v id t vs, Held m.registers v → Value.Part (.array id (.primitive t) vs) v →
      ∀ w ∈ vs, w.isOf t = true := by
  have h := typed_of_visited hm
  refine ⟨fun x y t w hx ht hw => ?_, fun v id t vs hv hpart w hw => ?_⟩
  · have hfits := h.vars x y w hx hw
    rw [ht] at hfits
    exact hfits
  · exact h.arrays v hv _ hpart id _ vs rfl w hw

/-- A source with a `long` that a `char` is added to, and an array of one `char`. -/
def kindsSource : String :=
  "class M \x7b static long n = 3; public static void main(String[] a) \x7b n += 'a'; "
    ++ "char[] w = new char[]\x7b'x'\x7d; \x7d \x7d"

/-- The value of a variable of the type `long`. -/
def longValue? (env : Environment) (x : VarId) : Option Value :=
  match env.var? x with
  | some ⟨_, .primitive .long, value⟩ => value
  | _ => none

/-- The elements of an array of `char` on top of the stash. -/
def charElements? : List StashItem → Option (List Value)
  | .value (.array _ (.primitive .char) vs) :: _ => some vs
  | _ => none

/-- The sum is a `long`, and the array holds a `char`. -/
theorem primitives_hold_their_kind_sum : ∃ p m w v, Program.parse kindsSource = .ok p ∧
    Visited Natives.empty p m ∧ longValue? m.registers.env 0 = some w ∧ w.isOf .long = true ∧
    charElements? m.registers.stash = some [v] ∧ v.isOf .char = true := by
  have hrun : (sample? kindsSource 33).any (fun m => (longValue? m.registers.env 0).isSome &&
      (charElements? m.registers.stash).any (fun vs => vs.length == 1)) = true := by
    rw [sample?_eq_parseDecoded?]
    decide +kernel
  obtain ⟨m, hm, hrun⟩ := (Option.any_eq_true _ _).mp hrun
  obtain ⟨p, hp, hreached⟩ := exists_of_sample? hm
  rw [Bool.and_eq_true, Option.isSome_iff_exists, Option.any_eq_true] at hrun
  obtain ⟨⟨w, hw⟩, vs, hvs, hlen⟩ := hrun
  obtain ⟨v, rfl⟩ := List.length_eq_one_iff.mp (by simpa using hlen)
  obtain ⟨hvars, harrays⟩ := primitives_hold_their_kind (.inl hreached)
  refine ⟨p, m, w, v, hp, .inl hreached, hw, ?_, hvs, ?_⟩
  · unfold longValue? at hw
    split at hw
    · rename_i hx
      exact hvars 0 _ _ w hx rfl hw
    · cases hw
  · unfold charElements? at hvs
    split at hvs
    · rename_i id vs rest hstash
      cases hvs
      have hheld : Held m.registers (.array id (.primitive .char) [v]) := .inl (by simp [hstash])
      exact harrays _ id .char [v] hheld .refl v (.head _)
    · cases hvs

end Runs

end StashMachine
