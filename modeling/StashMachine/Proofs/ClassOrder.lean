import StashMachine.Elaboration.Order
import Mathlib.Logic.Relation
import Mathlib.Data.List.Nodup
import Mathlib.Data.List.Perm.Subperm

/-!
# StashMachine.Proofs.ClassOrder — superclasses first

* `ClimbsTo`: the walk from a class to its ancestors as it is meant, without any room; `climbsTo_climb`: the room that
  `Program.climb` is given is always enough for it.
* `ClimbsTo.ascent`, `ClimbsTo.cycle`: what a walk finds, the furthest ancestor first, or a cycle.
* `Placed`: what is known of the classes placed so far; `place_outcome`: the classes are placed one after the other.
* `Placed.acyclic`, `Placed.perm`: the order that is reached, by numbers; `superclassesFirst_cases`.
* `superclasses_first_sorts`: the order of elaboration is a stable topological order.
-/

namespace StashMachine
namespace Program

/-- The second class is the superclass of the first, by numbers. -/
def HasSuper (p : Program) (i j : Nat) : Prop := p.superIndex? i = some j

/-- The second class is a proper ancestor of the first, by numbers. -/
abbrev HasAncestor (p : Program) : Nat → Nat → Prop := Relation.TransGen p.HasSuper

/-! ### ClimbsTo -/

/-- The name of the class with a number. -/
def nameAt (p : Program) (i : Nat) : String := (p[i]?.map ClassDecl.name).getD ""

/-- The walk that has passed the classes of the chain, the last one first, and goes on to another class, comes to a
result. -/
inductive ClimbsTo (p : Program) (placed : List Nat) : List Nat → Option Nat → Except Fault (List Nat) → Prop
  | top {chain : List Nat} : ClimbsTo p placed chain none (.ok chain)
  | met {chain : List Nat} {i : Nat} : i ∈ placed → ClimbsTo p placed chain (some i) (.ok chain)
  | cycle {chain : List Nat} {i : Nat} : i ∉ placed → i ∈ chain →
    ClimbsTo p placed chain (some i) (.error (.cyclicInheritance (p.nameAt i)))
  | up {chain : List Nat} {i : Nat} {result : Except Fault (List Nat)} : i ∉ placed → i ∉ chain →
    ClimbsTo p placed (i :: chain) (p.superIndex? i) result → ClimbsTo p placed chain (some i) result

section ClimbsTo

variable {p : Program} {placed chain r : List Nat} {i j k : Nat} {next : Option Nat} {room : Nat} {e : Fault}

/-- A name refers to a class of that name. -/
theorem exists_of_indexOf? {x : String} (h : p.indexOf? x = some j) : ∃ d, p[j]? = some d ∧ d.name = x := by
  obtain ⟨⟨d, j'⟩, hfind, rfl⟩ := Option.map_eq_some_iff.mp h
  have hmem := List.mem_reverse.mp (List.mem_of_find?_eq_some hfind)
  have hname := List.find?_some hfind
  exact ⟨d, List.mk_mem_zipIdx_iff_getElem?.mp hmem, by simpa using hname⟩

/-- The name of every class refers to a class. -/
theorem exists_indexOf? {d : ClassDecl} (hd : d ∈ p) : ∃ j, p.indexOf? d.name = some j := by
  obtain ⟨i, hi⟩ := List.getElem?_of_mem hd
  have hmem : (d, i) ∈ p.zipIdx.reverse := List.mem_reverse.mpr (List.mk_mem_zipIdx_iff_getElem?.mpr hi)
  refine Option.isSome_iff_exists.mp ?_
  unfold indexOf?
  rw [Option.isSome_map, List.find?_isSome]
  exact ⟨(d, i), hmem, beq_self_eq_true _⟩

theorem lt_of_indexOf? {x : String} (h : p.indexOf? x = some j) : j < p.length := by
  obtain ⟨d, hd, -⟩ := exists_of_indexOf? h
  exact (List.getElem?_eq_some_iff.mp hd).1

theorem HasSuper.lt (h : p.HasSuper i j) : i < p.length ∧ j < p.length := by
  unfold HasSuper superIndex? at h
  simp only [Option.bind_eq_bind, Option.bind_eq_some_iff] at h
  obtain ⟨d, hd, s, -, hj⟩ := h
  exact ⟨(List.getElem?_eq_some_iff.mp hd).1, lt_of_indexOf? hj⟩

/-- A chain without repetitions is not longer than the program. -/
theorem length_le_of_nodup (hchain : chain.Nodup) (hbound : ∀ j ∈ chain, j < p.length) : chain.length ≤ p.length := by
  have hsub : chain ⊆ List.range p.length := fun j hj => List.mem_range.mpr (hbound j hj)
  simpa using (hchain.subperm hsub).length_le

/-- The room that is left after a chain is enough for the rest of the walk. -/
theorem climbsTo_climb (hchain : chain.Nodup) (hbound : ∀ j ∈ chain, j < p.length) (hnext : ∀ j ∈ next, j < p.length)
    (hroom : p.length < chain.length + room) : ClimbsTo p placed chain next (p.climb placed room chain next) := by
  fun_induction climb p placed room chain next with
  | case1 chain next =>
    have hlength := length_le_of_nodup hchain hbound
    omega
  | case2 => exact .top
  | case3 room chain i hplaced => exact .met (List.contains_iff_mem.mp hplaced)
  | case4 room chain i hplaced hmem =>
    exact .cycle (by simpa using hplaced) (List.contains_iff_mem.mp hmem)
  | case5 room chain i hplaced hmem ih =>
    have hnot : i ∉ chain := by simpa using hmem
    refine .up (by simpa using hplaced) hnot (ih ?_ ?_ ?_ ?_)
    · exact List.nodup_cons.mpr ⟨hnot, hchain⟩
    · exact List.forall_mem_cons.mpr ⟨hnext i rfl, hbound⟩
    · exact fun j hj => (HasSuper.lt hj).2
    · rw [List.length_cons]
      omega

theorem climbsTo_from (placed : List Nat) (hi : i < p.length) :
    ClimbsTo p placed [] (some i) (p.climb placed (p.length + 1) [] (some i)) := by
  refine climbsTo_climb List.nodup_nil (by simp) ?_ (by simp)
  rintro j ⟨⟩
  exact hi

/-! What the chain of a walk is made of. -/

/-- The chain of a walk that began at a class and goes on to another one: the classes passed, each of them with its
superclass in front. -/
inductive Ascent (p : Program) (i : Nat) : List Nat → Option Nat → Prop
  | start : Ascent p i [] (some i)
  | up {chain : List Nat} {j : Nat} : Ascent p i chain (some j) → Ascent p i (j :: chain) (p.superIndex? j)

/-- The walk goes on to an ancestor of all classes passed. -/
theorem Ascent.rises (h : Ascent p i chain (some j)) : ∀ k ∈ chain, p.HasAncestor k j := by
  generalize hnext : some j = next at h
  induction h generalizing j with
  | start => simp
  | @up chain j' _ ih =>
    have hsuper : p.HasSuper j' j := hnext.symm
    intro k hk
    rcases List.mem_cons.mp hk with rfl | hk
    · exact .single hsuper
    · exact (ih rfl k hk).tail hsuper

/-- The classes passed are in order, the ancestors in front. -/
theorem Ascent.pairwise (h : Ascent p i chain next) : chain.Pairwise (fun j k => p.HasAncestor k j) := by
  induction h with
  | start => exact .nil
  | up h ih => exact .cons (fun k hk => h.rises k hk) ih

/-- The walk passes ancestors of the class it began at only. -/
theorem Ascent.reaches (h : Ascent p i chain next) :
    (∀ j ∈ chain, Relation.ReflTransGen p.HasSuper i j) ∧ ∀ j ∈ next, Relation.ReflTransGen p.HasSuper i j := by
  induction h with
  | start =>
    refine ⟨by simp, ?_⟩
    rintro j ⟨⟩
    exact .refl
  | @up chain j _ ih =>
    exact ⟨List.forall_mem_cons.mpr ⟨ih.2 j rfl, ih.1⟩, fun k hk => (ih.2 j rfl).tail hk⟩

/-- The superclass of a class passed stands in front of it, or is the next one. -/
theorem Ascent.closed (h : Ascent p i chain next) {l₁ l₂ : List Nat} (hchain : chain = l₁ ++ j :: l₂)
    (hj : p.HasSuper j k) : k ∈ l₁ ∨ next = some k := by
  induction h generalizing l₁ with
  | start => simp at hchain
  | @up chain j' _ ih =>
    cases l₁ with
    | nil =>
      cases hchain
      exact .inr hj
    | cons a l₁ =>
      cases hchain
      refine .inl ?_
      rcases ih rfl with hk | hk
      · exact .tail _ hk
      · cases hk
        exact .head _

/-- The class the walk began at has been passed, unless it is still the next one. -/
theorem Ascent.mem (h : Ascent p i chain next) : i ∈ chain ∨ next = some i := by
  induction h with
  | start => exact .inr rfl
  | up _ ih =>
    rcases ih with hi | hi
    · exact .inl (.tail _ hi)
    · cases hi
      exact .inl (.head _)

/-- A walk that comes to an end has passed classes that were not placed, up to one that was, or to the top. -/
theorem ClimbsTo.ascent (h : ClimbsTo p placed chain next (.ok r)) (hascent : Ascent p i chain next)
    (hnodup : (placed ++ chain).Nodup) : (placed ++ r).Nodup ∧
      ∃ next', Ascent p i r next' ∧ ∀ j ∈ next', j ∈ placed := by
  generalize hresult : Except.ok r = result at h
  induction h with
  | top =>
    cases hresult
    exact ⟨hnodup, none, hascent, by simp⟩
  | @met chain j hplaced =>
    cases hresult
    refine ⟨hnodup, some j, hascent, ?_⟩
    rintro k ⟨⟩
    exact hplaced
  | cycle => cases hresult
  | @up chain j result hplaced hmem _ ih =>
    refine ih (.up hascent) ?_ hresult
    rw [List.nodup_append'] at hnodup ⊢
    refine ⟨hnodup.1, List.nodup_cons.mpr ⟨hmem, hnodup.2.1⟩, ?_⟩
    rw [List.disjoint_cons_right]
    exact ⟨hplaced, hnodup.2.2⟩

/-- A walk that fails has come to a class that is its own ancestor. -/
theorem ClimbsTo.cycle_of_error (h : ClimbsTo p placed chain next (.error e)) (hascent : Ascent p i chain next) :
    ∃ j, e = .cyclicInheritance (p.nameAt j) ∧ p.HasAncestor j j := by
  generalize hresult : Except.error e = result at h
  induction h with
  | top => cases hresult
  | met => cases hresult
  | @cycle chain j _ hmem =>
    cases hresult
    exact ⟨j, rfl, hascent.rises j hmem⟩
  | up _ _ _ ih => exact ih (.up hascent) hresult

end ClimbsTo

/-! ### Placing -/

/-- What is known of the classes placed once the walks from the first `n` classes are through: each class stands behind
its superclass, it was needed by one of the first `n`, and if it stands in front of an earlier class, it is an ancestor
of a class that is not behind that one. -/
structure Placed (p : Program) (n : Nat) (order : List Nat) : Prop where
  nodup : order.Nodup
  closed : ∀ l₁ i l₂, order = l₁ ++ i :: l₂ → ∀ j, p.HasSuper i j → j ∈ l₁
  done : ∀ i < n, i ∈ order
  needed : ∀ i ∈ order, ∃ k < n, Relation.ReflTransGen p.HasSuper k i
  stable : order.Pairwise (fun j i => i < j → ∃ k ≤ i, p.HasAncestor k j)

section Placing

variable {p : Program} {order chain : List Nat} {i j n : Nat} {next : Option Nat}

theorem placed_nil (p : Program) : Placed p 0 [] := ⟨.nil, by simp, by simp, by simp, .nil⟩

/-- A class that a walk has needed is one of the program. -/
theorem lt_of_needed (hi : i < p.length) (h : Relation.ReflTransGen p.HasSuper i j) : j < p.length := by
  cases h with
  | refl => exact hi
  | tail _ hj => exact (HasSuper.lt hj).2

/-- What a walk has passed is placed behind the classes that are placed already. -/
theorem Placed.append (h : Placed p n order) (hascent : Ascent p n chain next) (hnodup : (order ++ chain).Nodup)
    (hnext : ∀ j ∈ next, j ∈ order) : Placed p (n + 1) (order ++ chain) where
  nodup := hnodup
  closed := by
    intro l₁ i l₂ heq j hj
    rcases List.append_eq_append_iff.mp heq with ⟨l, rfl, hl⟩ | ⟨l, hl, heq'⟩
    · -- the class is one of the chain
      rcases hascent.closed hl hj with hmem | hmem
      · exact List.mem_append_right _ hmem
      · exact List.mem_append_left _ (hnext j hmem)
    · cases l with
      | nil =>
        rw [List.append_nil] at hl
        rw [List.nil_append] at heq'
        rcases hascent.closed (heq'.symm.trans (List.nil_append _).symm) hj with hmem | hmem
        · cases hmem
        · exact hl ▸ hnext j hmem
      | cons a l =>
        cases heq'
        exact h.closed l₁ i l hl j hj
  done := by
    intro i hi
    rcases Nat.lt_succ_iff_lt_or_eq.mp hi with hi | rfl
    · exact List.mem_append_left _ (h.done i hi)
    · rcases hascent.mem with hmem | hmem
      · exact List.mem_append_right _ hmem
      · exact List.mem_append_left _ (hnext i hmem)
  needed := by
    intro i hi
    rcases List.mem_append.mp hi with hi | hi
    · obtain ⟨k, hk, hreach⟩ := h.needed i hi
      exact ⟨k, by omega, hreach⟩
    · exact ⟨n, by omega, hascent.reaches.1 i hi⟩
  stable := by
    refine List.pairwise_append.mpr ⟨h.stable, hascent.pairwise.imp (fun hanc _ => ⟨_, Nat.le_refl _, hanc⟩), ?_⟩
    intro j hj i hi hlt
    obtain ⟨k, hk, hreach⟩ := h.needed j hj
    -- a class that is new is not one of the first
    have hge : n ≤ i := by
      by_contra hlt'
      exact List.disjoint_of_nodup_append hnodup (h.done i (by omega)) hi
    refine ⟨k, by omega, ?_⟩
    rcases Relation.reflTransGen_iff_eq_or_transGen.mp hreach with heq | hanc
    · omega
    · exact hanc

/-- The classes are placed one after the other, unless there is a cycle. -/
theorem place_outcome (k : Nat) (h : Placed p n order) (hk : n + k = p.length) :
    match p.place order (List.range' n k) with
    | .ok order' => Placed p (n + k) order'
    | .error e => ∃ j, e = .cyclicInheritance (p.nameAt j) ∧ p.HasAncestor j j := by
  induction k generalizing n order with
  | zero => exact h
  | succ k ih =>
    rw [List.range'_succ, place]
    have hwalk := climbsTo_from order (p := p) (i := n) (by omega)
    cases hclimb : p.climb order (p.length + 1) [] (some n) with
    | error e =>
      rw [hclimb] at hwalk
      exact hwalk.cycle_of_error .start
    | ok chain =>
      rw [hclimb] at hwalk
      obtain ⟨hnodup, next, hascent, hnext⟩ := hwalk.ascent .start (by simpa using h.nodup)
      have hrest := ih (h.append hascent hnodup hnext) (by omega)
      rwa [show n + (k + 1) = n + 1 + k by omega]

/-- All proper ancestors of a class stand in front of it. -/
theorem Placed.closed_ancestor (h : Placed p n order) (hanc : p.HasAncestor i j) :
    ∀ l₁ l₂, order = l₁ ++ i :: l₂ → j ∈ l₁ := by
  induction hanc using Relation.TransGen.head_induction_on with
  | single hj => exact fun l₁ l₂ heq => h.closed l₁ _ l₂ heq _ hj
  | head hk _ ih =>
    intro l₁ l₂ heq
    obtain ⟨l, l', rfl⟩ := List.append_of_mem (h.closed l₁ _ l₂ heq _ hk)
    exact List.mem_append_left _ (ih l (l' ++ _ :: l₂) (by rw [heq, List.append_assoc]; rfl))

theorem Placed.acyclic (h : Placed p p.length order) (i : Nat) : ¬ p.HasAncestor i i := by
  intro hanc
  obtain ⟨k, hk, -⟩ := Relation.TransGen.head'_iff.mp hanc
  obtain ⟨l₁, l₂, rfl⟩ := List.append_of_mem (h.done i (HasSuper.lt hk).1)
  have hmem := h.closed_ancestor hanc l₁ l₂ rfl
  exact List.disjoint_of_nodup_append h.nodup hmem (.head _)

theorem Placed.perm (h : Placed p p.length order) : order.Perm (List.range p.length) := by
  refine (List.perm_ext_iff_of_nodup h.nodup List.nodup_range).mpr (fun i => ?_)
  rw [List.mem_range]
  refine ⟨fun hi => ?_, h.done i⟩
  obtain ⟨k, hk, hreach⟩ := h.needed i hi
  exact lt_of_needed hk hreach

/-- Classes that stand behind their superclasses already stay where they are. -/
theorem Placed.eq_range (h : Placed p p.length order) (hordered : ∀ i j, p.HasSuper i j → j < i) :
    order = List.range p.length := by
  have hancestor : ∀ i j, p.HasAncestor i j → j < i := by
    intro i j hanc
    induction hanc with
    | single hj => exact hordered _ _ hj
    | tail _ hj ih => exact Nat.lt_trans (hordered _ _ hj) ih
  have hsorted : order.Pairwise (· ≤ ·) := by
    refine h.stable.imp (fun {j i} hstable => ?_)
    by_contra hlt
    obtain ⟨k, hk, hanc⟩ := hstable (by omega)
    have hlt' := hancestor k j hanc
    omega
  exact h.perm.eq_of_pairwise (fun i j _ _ hij hji => Nat.le_antisymm hij hji) hsorted List.pairwise_le_range

/-- The classes with all the numbers, in order, are the program. -/
theorem filterMap_range (p : Program) : (List.range p.length).filterMap (fun i => p[i]?) = p := by
  induction p with
  | nil => rfl
  | cons d p ih => simp [List.range_succ_eq_map, List.filterMap_map, ih]

/-- The order of elaboration, by numbers: the classes are placed, or there is a cycle. -/
theorem superclassesFirst_cases (p : Program) :
    (∃ order, p.superclassesFirst = .ok (order.filterMap (fun i => p[i]?)) ∧ Placed p p.length order) ∨
      ∃ j, p.superclassesFirst = .error (.cyclicInheritance (p.nameAt j)) ∧ p.HasAncestor j j := by
  have houtcome := place_outcome p.length (placed_nil p) (Nat.zero_add _)
  rw [← List.range_eq_range', Nat.zero_add] at houtcome
  unfold superclassesFirst
  cases hplace : p.place [] (List.range p.length) with
  | ok order =>
    rw [hplace] at houtcome
    exact .inl ⟨order, rfl, houtcome⟩
  | error e =>
    rw [hplace] at houtcome
    obtain ⟨j, rfl, hj⟩ := houtcome
    exact .inr ⟨j, rfl, hj⟩

end Placing

/-! ### Classes -/

/-- The second class is the superclass of the first, both being classes of the program. -/
def Extends (p : Program) (d e : ClassDecl) : Prop := d ∈ p ∧ e ∈ p ∧ d.superclass = some e.name

/-- The second class is a proper ancestor of the first within the program. -/
abbrev Descends (p : Program) : ClassDecl → ClassDecl → Prop := Relation.TransGen p.Extends

section Classes

variable {p : Program} {i j : Nat} {d e : ClassDecl} {order : List Nat}

/-- A program with distinct names has distinct classes. -/
theorem nodup_of_names (hnames : (p.map ClassDecl.name).Nodup) : p.Nodup :=
  hnames.of_map _

theorem eq_of_getElem? (hnames : (p.map ClassDecl.name).Nodup) (hi : p[i]? = some d) (hj : p[j]? = some d) : i = j :=
  (List.getElem?_inj (List.getElem?_eq_some_iff.mp hi).1 (nodup_of_names hnames)).mp (hi.trans hj.symm)

theorem indexOf?_eq_some (hnames : (p.map ClassDecl.name).Nodup) {x : String} :
    p.indexOf? x = some j ↔ ∃ e, p[j]? = some e ∧ e.name = x := by
  refine ⟨exists_of_indexOf?, ?_⟩
  rintro ⟨e, hj, rfl⟩
  obtain ⟨j', hindex⟩ := exists_indexOf? (List.mem_of_getElem? hj)
  obtain ⟨e', hj', hname⟩ := exists_of_indexOf? hindex
  have hsame : (p.map ClassDecl.name)[j']? = (p.map ClassDecl.name)[j]? := by
    rw [List.getElem?_map, List.getElem?_map, hj, hj', Option.map_some, Option.map_some, hname]
  have hlt : j' < (p.map ClassDecl.name).length := by
    rw [List.length_map]
    exact (List.getElem?_eq_some_iff.mp hj').1
  rw [hindex, (List.getElem?_inj hlt hnames).mp hsame]

theorem hasSuper_iff (hnames : (p.map ClassDecl.name).Nodup) :
    p.HasSuper i j ↔ ∃ d e, p[i]? = some d ∧ p[j]? = some e ∧ p.Extends d e := by
  unfold HasSuper superIndex?
  simp only [Option.bind_eq_bind, Option.bind_eq_some_iff, indexOf?_eq_some hnames]
  constructor
  · rintro ⟨d, hd, _, hs, e, he, rfl⟩
    exact ⟨d, e, hd, he, List.mem_of_getElem? hd, List.mem_of_getElem? he, hs⟩
  · rintro ⟨d, e, hd, he, -, -, hs⟩
    exact ⟨d, hd, e.name, hs, e, he, rfl⟩

/-- Ancestors by numbers are ancestors. -/
theorem descends_of_hasAncestor (hnames : (p.map ClassDecl.name).Nodup) (h : p.HasAncestor i j) :
    ∃ d e, p[i]? = some d ∧ p[j]? = some e ∧ p.Descends d e := by
  induction h with
  | single hj =>
    obtain ⟨d, e, hd, he, hsuper⟩ := (hasSuper_iff hnames).mp hj
    exact ⟨d, e, hd, he, .single hsuper⟩
  | tail _ hj ih =>
    obtain ⟨d, e, hd, he, hdesc⟩ := ih
    obtain ⟨e', f, he', hf, hsuper⟩ := (hasSuper_iff hnames).mp hj
    obtain rfl : e = e' := Option.some.inj (he.symm.trans he')
    exact ⟨d, f, hd, hf, hdesc.tail hsuper⟩

/-- Ancestors have numbers that are ancestors. -/
theorem hasAncestor_of_descends (hnames : (p.map ClassDecl.name).Nodup) (h : p.Descends d e) :
    ∃ i j, p[i]? = some d ∧ p[j]? = some e ∧ p.HasAncestor i j := by
  induction h with
  | @single e hsuper =>
    obtain ⟨i, hi⟩ := List.getElem?_of_mem hsuper.1
    obtain ⟨j, hj⟩ := List.getElem?_of_mem hsuper.2.1
    exact ⟨i, j, hi, hj, .single ((hasSuper_iff hnames).mpr ⟨d, e, hi, hj, hsuper⟩)⟩
  | @tail e f _ hsuper ih =>
    obtain ⟨i, j, hi, hj, hanc⟩ := ih
    obtain ⟨k, hk⟩ := List.getElem?_of_mem hsuper.2.1
    exact ⟨i, k, hi, hk, hanc.tail ((hasSuper_iff hnames).mpr ⟨e, f, hj, hk, hsuper⟩)⟩

/-- Of two classes of a program, the one that stands in front has the lesser number. -/
theorem lt_of_sublist (hnames : (p.map ClassDecl.name).Nodup) (h : [e, d].Sublist p) (hi : p[i]? = some d)
    (hj : p[j]? = some e) : j < i := by
  have hall : p.Pairwise (fun e d => ∀ i j : Nat, p[i]? = some d → p[j]? = some e → j < i) := by
    refine List.pairwise_iff_getElem.mpr (fun a b ha hb hab i j hi hj => ?_)
    rw [eq_of_getElem? hnames hi (List.getElem?_eq_getElem hb), eq_of_getElem? hnames hj (List.getElem?_eq_getElem ha)]
    exact hab
  have hpair := hall.sublist h
  exact List.rel_of_pairwise_cons hpair (.head _) i j hi hj

/-- The classes of the second program are those of the first, each behind its superclass.  A class that stands in front
of an earlier one is an ancestor of that one or of a class before it, and a program that is in order already is left as
it is. -/
structure StablyOrdered (p q : Program) : Prop where
  perm : q.Perm p
  behind : ∀ d e, p.Extends d e → [e, d].Sublist q
  stable : ∀ (i j : Nat) (c d : ClassDecl), i < j → p[i]? = some c → p[j]? = some d → [d, c].Sublist q →
    ∃ k ≤ i, ∃ b, p[k]? = some b ∧ p.Descends b d
  kept : (∀ d e, p.Extends d e → [e, d].Sublist p) → q = p

theorem Placed.stablyOrdered (hnames : (p.map ClassDecl.name).Nodup) (h : Placed p p.length order) :
    StablyOrdered p (order.filterMap (fun i => p[i]?)) where
  perm := by
    have hperm := h.perm.filterMap (fun i => p[i]?)
    rwa [filterMap_range] at hperm
  behind := by
    intro d e hsuper
    obtain ⟨i, hi⟩ := List.getElem?_of_mem hsuper.1
    obtain ⟨j, hj⟩ := List.getElem?_of_mem hsuper.2.1
    obtain ⟨l₁, l₂, rfl⟩ := List.append_of_mem (h.done i (List.getElem?_eq_some_iff.mp hi).1)
    have hmem := h.closed l₁ i l₂ rfl j ((hasSuper_iff hnames).mpr ⟨d, e, hi, hj, hsuper⟩)
    rw [List.filterMap_append, List.filterMap_cons_some hi]
    have hfront : [e].Sublist (l₁.filterMap (fun i => p[i]?)) :=
      List.singleton_sublist.mpr (List.mem_filterMap.mpr ⟨j, hmem, hj⟩)
    exact hfront.append (List.singleton_sublist.mpr (.head _))
  stable := by
    intro i j c d hlt hi hj hsub
    have hall : (order.filterMap (fun i => p[i]?)).Pairwise (fun d c => ∀ i j : Nat, i < j → p[i]? = some c →
        p[j]? = some d → ∃ k ≤ i, p.HasAncestor k j) := by
      refine List.pairwise_filterMap.mpr (h.stable.imp (fun {j' i'} hstable d hd c hc i j hlt hi hj => ?_))
      obtain rfl := eq_of_getElem? hnames hi hc
      obtain rfl := eq_of_getElem? hnames hj hd
      exact hstable hlt
    obtain ⟨k, hk, hanc⟩ := List.rel_of_pairwise_cons (hall.sublist hsub) (.head _) i j hlt hi hj
    obtain ⟨b, d', hb, hd', hdesc⟩ := descends_of_hasAncestor hnames hanc
    obtain rfl : d = d' := Option.some.inj (hj.symm.trans hd')
    exact ⟨k, hk, b, hb, hdesc⟩
  kept := by
    intro hkept
    have hordered : ∀ i j, p.HasSuper i j → j < i := by
      intro i j hsuper
      obtain ⟨d, e, hi, hj, hextends⟩ := (hasSuper_iff hnames).mp hsuper
      exact lt_of_sublist hnames (hkept d e hextends) hi hj
    rw [h.eq_range hordered, filterMap_range]

/-- The classes come out in a stable topological order.  The walk from a class to its ancestors always ends; there is no
order if and only if a class is its own ancestor, and then such a class is named. -/
theorem superclasses_first_sorts (hnames : (p.map ClassDecl.name).Nodup) :
    (∀ placed, ∀ i < p.length, ClimbsTo p placed [] (some i) (p.climb placed (p.length + 1) [] (some i))) ∧
    ((∃ x, p.superclassesFirst = .error (.cyclicInheritance x)) ↔ ∃ d, p.Descends d d) ∧
    (∀ f, p.superclassesFirst = .error f → ∃ d, f = .cyclicInheritance d.name ∧ p.Descends d d) ∧
    ∀ q, p.superclassesFirst = .ok q → StablyOrdered p q := by
  have herror : ∀ f, p.superclassesFirst = .error f → ∃ d, f = .cyclicInheritance d.name ∧ p.Descends d d := by
    intro f hf
    rcases superclassesFirst_cases p with ⟨order, hok, -⟩ | ⟨j, hfail, hj⟩
    · rw [hok] at hf
      cases hf
    · rw [hfail] at hf
      cases hf
      obtain ⟨d, e, hd, he, hdesc⟩ := descends_of_hasAncestor hnames hj
      obtain rfl : d = e := Option.some.inj (hd.symm.trans he)
      exact ⟨d, by rw [nameAt, hd]; rfl, hdesc⟩
  refine ⟨fun placed i hi => climbsTo_from placed hi, ⟨?_, ?_⟩, herror, fun q hq => ?_⟩
  · rintro ⟨x, hx⟩
    obtain ⟨d, -, hd⟩ := herror _ hx
    exact ⟨d, hd⟩
  · rintro ⟨d, hd⟩
    obtain ⟨i, j, hi, hj, hanc⟩ := hasAncestor_of_descends hnames hd
    rcases superclassesFirst_cases p with ⟨order, -, horder⟩ | ⟨k, hfail, -⟩
    · rw [eq_of_getElem? hnames hj hi] at hanc
      exact absurd hanc (horder.acyclic i)
    · exact ⟨_, hfail⟩
  · rcases superclassesFirst_cases p with ⟨order, hok, horder⟩ | ⟨k, hfail, -⟩
    · rw [hok] at hq
      cases hq
      exact horder.stablyOrdered hnames
    · rw [hfail] at hq
      cases hq

/-- A class without members. -/
def bare (name : String) (superclass : Option String) : ClassDecl := ⟨[], name, superclass, []⟩

/-- The superclass of `A` moves in front of it, and past the class between; two classes that extend each other have no
order. -/
theorem superclasses_first_sorts_crossed :
    ([bare "A" (some "C"), bare "B" none, bare "C" none].map ClassDecl.name).Nodup ∧
    StablyOrdered [bare "A" (some "C"), bare "B" none, bare "C" none]
      [bare "C" none, bare "A" (some "C"), bare "B" none] ∧
    ([bare "A" (some "B"), bare "B" (some "A")].map ClassDecl.name).Nodup ∧
    ∃ d, Descends [bare "A" (some "B"), bare "B" (some "A")] d d := by
  have hcrossed : ([bare "A" (some "C"), bare "B" none, bare "C" none].map ClassDecl.name).Nodup := by decide
  have hcyclic : ([bare "A" (some "B"), bare "B" (some "A")].map ClassDecl.name).Nodup := by decide
  exact ⟨hcrossed, (superclasses_first_sorts hcrossed).2.2.2 _ rfl, hcyclic,
    (superclasses_first_sorts hcyclic).2.1.mp ⟨"A", rfl⟩⟩

end Classes

end Program
end StashMachine
