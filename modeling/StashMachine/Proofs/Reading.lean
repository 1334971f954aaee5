import StashMachine.Proofs.Faults
import StashMachine.Syntax.OfTree

/-!
# StashMachine.Proofs.Reading — trees read part by part

* `Literal.numberOf_eq`, `Literal.longDigits?_eq`: the digits of a number literal.
* `expect_bind`, `expect_bind_eq_ok`: a demand on the rules of nodes, met or taken apart.
* `foldlM_preserves`, `foldlM_reaches`: what holds of a declaration that is put together part by part, whatever the
  order of its parts.
* `VarDecls.of_part`, `MethodDecl.of_part`, …: what one part may change in a declaration.
* `foldlM_push`: parts that are appended one after the other are read like a list.
* `Stmt.declaration_eq`, `Stmt.armOf_eq`, `FieldDecl.ofTree_eq`, `MethodDecl.ofTree_eq`, …: declarations whose parts
  stand in the order of the grammar.
-/

namespace StashMachine

open Grammar

section Reading

variable {α β ε : Type} {x : α} {xs : List α} {y : β} {ys : List β} {f : α → Except ε β}

theorem except_pure_eq_ok {a b : α} : (pure a : Except ε α) = .ok b ↔ a = b := by
  simp [pure, Except.pure]

theorem eq_ok_of_toOption {a : Except ε α} (h : a.toOption = some x) : a = .ok x := by
  cases a with
  | ok b =>
    cases h
    rfl
  | error e => cases h

/-- What is read off a list is read off its members. -/
theorem exists_of_mem_mapM (h : xs.mapM f = .ok ys) (hy : y ∈ ys) : ∃ x ∈ xs, f x = .ok y := by
  induction xs generalizing ys with
  | nil =>
    rw [List.mapM_nil, except_pure_eq_ok] at h
    subst h
    cases hy
  | cons x xs ih =>
    simp only [List.mapM_cons, except_bind_eq_ok, except_pure_eq_ok] at h
    obtain ⟨y', hy', ys', hys', rfl⟩ := h
    rcases List.mem_cons.mp hy with rfl | hy
    · exact ⟨x, by simp, hy'⟩
    · obtain ⟨x', hx', hf⟩ := ih hys' hy
      exact ⟨x', by simp [hx'], hf⟩

theorem eq_nil_of_mapM (h : xs.mapM f = .ok []) : xs = [] := by
  cases xs with
  | nil => rfl
  | cons x xs =>
    simp only [List.mapM_cons, except_bind_eq_ok, except_pure_eq_ok] at h
    obtain ⟨_, -, _, -, hcons⟩ := h
    cases hcons

end Reading

/-! ### Numbers -/

namespace Literal

variable {test : Char → Bool} {mark ds suffix digits : List Char} {text : String} {r : Rule} {start bound n : Nat}

/-- Characters and the letters of a mark. -/
theorem unmarked?_eq (htext : text.toList = ds ++ suffix) (hds : ∀ x ∈ ds, test x = true)
    (hsuffix : ∀ x ∈ suffix, x ∈ mark ∧ test x = false) : unmarked? test mark text = some ds := by
  have hends : suffix.takeWhile test = [] ∧ suffix.dropWhile test = suffix := by
    cases suffix with
    | nil => exact ⟨rfl, rfl⟩
    | cons x suffix =>
      have hx := (hsuffix x (.head _)).2
      exact ⟨by simp [hx], by simp [hx]⟩
  have hmark : suffix.all mark.contains = true :=
    List.all_eq_true.mpr (fun x hx => List.contains_iff_mem.mpr (hsuffix x hx).1)
  rw [unmarked?, htext, List.dropWhile_append_of_pos hds, List.takeWhile_append_of_pos hds, hends.1, hends.2,
    if_pos hmark, List.append_nil]

theorem eq_takeWhile_of_unmarked? (h : unmarked? test mark text = some ds) : ds = text.toList.takeWhile test := by
  unfold unmarked? at h
  split at h
  · exact (Option.some.inj h).symm
  · cases h

theorem longDigits?_eq {x : Char} (htext : text.toList = ds ++ [x]) (hds : ∀ x ∈ ds, x.isDigit = true)
    (hx : x = 'L' ∨ x = 'l') : longDigits? text = some ds := by
  refine unmarked?_eq htext hds (List.forall_mem_singleton.mpr ?_)
  rcases hx with rfl | rfl <;> decide

theorem numberOf_eq (hne : digits ≠ []) (hdigits : ∀ x ∈ digits, x.isDigit = true) :
    numberOf r start bound digits =
      if Decimal.value digits < bound then .ok (Decimal.value digits) else .error (.tooLarge start) := by
  have hall : digits.all Char.isDigit = true := List.all_eq_true.mpr hdigits
  simp [numberOf, hne, hall]

theorem of_numberOf (h : numberOf r start bound digits = .ok n) : n = Decimal.value digits ∧ n < bound := by
  unfold numberOf at h
  split at h
  · cases h
  · split at h
    · rename_i hlt
      cases h
      exact ⟨rfl, hlt⟩
    · cases h

end Literal

/-! ### Demands on rules -/

@[simp] theorem Grammar.Tree.rule_node (r : Rule) (start : Nat) (text : String) (ts : List Tree) :
    (Tree.node r start text ts).rule = r := rfl

section Demands

variable {α : Type} {r wanted : Rule} {rs : List Rule} {ts : List Tree} {f : Unit → Reading α} {x : α}

theorem expect_bind (h : ts.map Tree.rule = rs) : (expect r rs ts >>= f) = f () := by
  rw [expect, if_pos h]
  rfl

theorem expectAll_bind (h : ∀ t ∈ ts, t.rule = wanted) : (expectAll r wanted ts >>= f) = f () :=
  expect_bind (List.map_eq_replicate_iff.mpr h)

/-- A first node with a place of its own, and others of one rule. -/
theorem expect_cons_bind {t : Tree} {first : Rule} (ht : t.rule = first) (hts : ∀ t ∈ ts, t.rule = wanted) :
    (expect r (first :: List.replicate ts.length wanted) (t :: ts) >>= f) = f () :=
  expect_bind (by rw [List.map_cons, ht, List.map_eq_replicate_iff.mpr hts])

theorem expect_bind_eq_ok : (expect r rs ts >>= f) = .ok x ↔ ts.map Tree.rule = rs ∧ f () = .ok x := by
  by_cases h : ts.map Tree.rule = rs
  · rw [expect_bind h]
    exact ⟨fun hf => ⟨h, hf⟩, fun hf => hf.2⟩
  · rw [expect, if_neg h]
    exact ⟨nofun, fun hf => absurd hf.1 h⟩

theorem expectAll_bind_eq_ok : (expectAll r wanted ts >>= f) = .ok x ↔ (∀ t ∈ ts, t.rule = wanted) ∧ f () = .ok x := by
  rw [expectAll, expect_bind_eq_ok, List.map_eq_replicate_iff]

/-- A literal is no initialiser: the node of an expression stands around it. -/
example : Declarator.ofTree
    (.node .variableDeclarator 0 "x=1" [.node .identifier 0 "x" [], .node .intLiteral 2 "1" []]) =
    .error (.shape .variableDeclarator) := rfl

end Demands

/-! ### Parts one after the other -/

section Parts

variable {σ α : Type} {f : σ → Tree → Reading σ} {g : Tree → Reading α} {P : σ → Prop} {a b : σ} {t : Tree}
  {ts : List Tree}

/-- What every part keeps holds in the end. -/
theorem foldlM_preserves (h : ts.foldlM f a = .ok b) (ha : P a)
    (hstep : ∀ t ∈ ts, ∀ a b, f a t = .ok b → P a → P b) : P b := by
  induction ts generalizing a with
  | nil =>
    rw [List.foldlM_nil, except_pure_eq_ok] at h
    exact h ▸ ha
  | cons t ts ih =>
    rw [List.foldlM_cons, except_bind_eq_ok] at h
    obtain ⟨a', ha', h⟩ := h
    exact ih h (hstep t (.head _) a a' ha' ha) (fun t ht => hstep t (.tail _ ht))

/-- What one part brings about and every part keeps holds in the end. -/
theorem foldlM_reaches (h : ts.foldlM f a = .ok b) (ht : t ∈ ts) (hsets : ∀ a b, f a t = .ok b → P b)
    (hstep : ∀ t ∈ ts, ∀ a b, f a t = .ok b → P a → P b) : P b := by
  induction ts generalizing a with
  | nil => cases ht
  | cons u ts ih =>
    rw [List.foldlM_cons, except_bind_eq_ok] at h
    obtain ⟨a', ha', h⟩ := h
    rcases List.mem_cons.mp ht with rfl | ht
    · exact foldlM_preserves h (hsets a a' ha') (fun t ht => hstep t (.tail _ ht))
    · exact ih h ht (fun t ht => hstep t (.tail _ ht))

/-- Parts that are appended one after the other are read like a list. -/
theorem foldlM_push {k : σ → List α → σ} (hnil : ∀ a, k a [] = a)
    (happend : ∀ a xs ys, k (k a xs) ys = k a (xs ++ ys))
    (hstep : ∀ t ∈ ts, ∀ a, f a t = (do return k a [← g t])) (a : σ) :
    ts.foldlM f a = (do return k a (← ts.mapM g)) := by
  induction ts generalizing a with
  | nil => rw [List.foldlM_nil, List.mapM_nil, pure_bind, hnil]
  | cons t ts ih =>
    rw [List.foldlM_cons, hstep t (.head _), List.mapM_cons]
    simp only [bind_assoc, pure_bind]
    refine congrArg (g t >>= ·) (funext fun x => ?_)
    rw [ih (fun t ht => hstep t (.tail _ ht))]
    refine congrArg (ts.mapM g >>= ·) (funext fun xs => ?_)
    rw [happend, List.singleton_append]

end Parts

/-! ### What a part may change -/

section Changes

variable {t : Tree}

theorem VarDecls.of_part {a b : VarDecls} (h : part a t = .ok b) :
    b.vars = a.vars ∨ ∃ v, t.rule = .variableDeclarator ∧ Declarator.ofTree t = .ok v ∧ b.vars = a.vars ++ [v] := by
  unfold part at h
  split at h
  · cases h
    exact .inl rfl
  · rename_i hr
    simp only [except_bind_eq_ok, except_pure_eq_ok] at h
    obtain ⟨v, hv, rfl⟩ := h
    exact .inr ⟨v, hr, hv, rfl⟩
  · cases h

theorem FieldDecl.of_part {a b : FieldDecl} (h : part a t = .ok b) :
    b.vars = a.vars ∨ ∃ v, t.rule = .variableDeclarator ∧ Declarator.ofTree t = .ok v ∧ b.vars = a.vars ++ [v] := by
  unfold part at h
  split at h <;> simp only [except_bind_eq_ok, except_pure_eq_ok] at h
  · obtain ⟨m, -, rfl⟩ := h
    exact .inl rfl
  · obtain ⟨d, hd, rfl⟩ := h
    exact VarDecls.of_part hd

theorem MethodDecl.of_part {a b : MethodDecl} (h : part a t = .ok b) :
    (b.result = a.result ∨ t.rule = .resultType ∧ b.result = .ofString t.text) ∧
      (b.name = a.name ∨ t.rule = .identifier ∧ b.name = t.text) ∧
      (b.params = a.params ∨ t.rule = .formalParameters ∧ paramsOf t = .ok b.params) ∧
      (b.body = a.body ∨ b.body = none ∨
        ∃ body, t.rule = .block ∧ Stmt.listOf t.children = .ok body ∧ b.body = some body) := by
  unfold part at h
  split at h <;> simp only [except_bind_eq_ok, except_pure_eq_ok, reduceCtorEq] at h
  · obtain ⟨m, -, rfl⟩ := h
    exact ⟨.inl rfl, .inl rfl, .inl rfl, .inl rfl⟩
  · rename_i hr
    subst h
    exact ⟨.inr ⟨hr, rfl⟩, .inl rfl, .inl rfl, .inl rfl⟩
  · rename_i hr
    subst h
    exact ⟨.inl rfl, .inr ⟨hr, rfl⟩, .inl rfl, .inl rfl⟩
  · rename_i hr
    obtain ⟨ps, hps, rfl⟩ := h
    exact ⟨.inl rfl, .inl rfl, .inr ⟨hr, hps⟩, .inl rfl⟩
  · rename_i hr
    obtain ⟨body, hbody, rfl⟩ := h
    exact ⟨.inl rfl, .inl rfl, .inl rfl, .inr (.inr ⟨body, hr, hbody, rfl⟩)⟩
  · subst h
    exact ⟨.inl rfl, .inl rfl, .inl rfl, .inr (.inl rfl)⟩

theorem ConstructorDecl.of_part {a b : ConstructorDecl} (h : part a t = .ok b) :
    (b.params = a.params ∨ t.rule = .formalParameters ∧ paramsOf t = .ok b.params) ∧
      (b.body = a.body ∨ t.rule = .constructorBody ∧ Stmt.listOf t.children = .ok b.body) := by
  unfold part at h
  split at h <;> simp only [except_bind_eq_ok, except_pure_eq_ok, reduceCtorEq] at h
  · obtain ⟨m, -, rfl⟩ := h
    exact ⟨.inl rfl, .inl rfl⟩
  · subst h
    exact ⟨.inl rfl, .inl rfl⟩
  · rename_i hr
    obtain ⟨ps, hps, rfl⟩ := h
    exact ⟨.inr ⟨hr, hps⟩, .inl rfl⟩
  · rename_i hr
    obtain ⟨body, hbody, rfl⟩ := h
    exact ⟨.inl rfl, .inr ⟨hr, hbody⟩⟩

theorem ClassDecl.of_part {a b : ClassDecl} (h : part a t = .ok b) :
    (b.name = a.name ∨ t.rule = .identifier ∧ b.name = t.text) ∧
      (b.body = a.body ∨ ∃ member, Member.ofTree t = .ok member ∧ b.body = a.body ++ [member]) := by
  unfold part at h
  split at h <;> simp only [except_bind_eq_ok, except_pure_eq_ok] at h
  · obtain ⟨m, -, rfl⟩ := h
    exact ⟨.inl rfl, .inl rfl⟩
  · rename_i hr
    subst h
    exact ⟨.inr ⟨hr, rfl⟩, .inl rfl⟩
  · obtain ⟨parent, -, rfl⟩ := h
    exact ⟨.inl rfl, .inl rfl⟩
  · obtain ⟨member, hmember, rfl⟩ := h
    exact ⟨.inl rfl, .inr ⟨member, hmember, rfl⟩⟩

theorem Program.of_part {p q : Program} (h : part p t = .ok q) :
    q = p ∨ ∃ d, t.rule = .classDeclaration ∧ ClassDecl.ofTree t = .ok d ∧ q = p ++ [d] := by
  unfold part at h
  split at h <;> simp only [except_bind_eq_ok, except_pure_eq_ok, reduceCtorEq] at h
  · rename_i hr
    obtain ⟨d, hd, rfl⟩ := h
    exact .inr ⟨d, hr, hd, rfl⟩
  · exact .inl h.symm

theorem exists_of_mem_paramsOf {ps : List Param} {x : Param} (h : paramsOf t = .ok ps) (hx : x ∈ ps) :
    ∃ t' ∈ t.children, Param.ofTree t' = .ok x := by
  obtain ⟨r, start, text, ts⟩ := t
  rw [paramsOf, expectAll_bind_eq_ok] at h
  exact exists_of_mem_mapM h.2 hx

end Changes

/-! ### Declarations in the order of the grammar -/

section Orders

variable {us vs ts : List Tree} {type name result params last : Tree} {r : Rule} {start : Nat} {text : String}

theorem Expr.inside_eq {t : Tree} (h : t.rule = .expression) : Expr.inside t = Expr.ofTree t := by
  obtain ⟨_, start, text, ts⟩ := t
  cases h
  cases ts <;> rfl

theorem VarDecls.foldlM_part (hvs : ∀ t ∈ vs, t.rule = .variableDeclarator) (d : VarDecls) :
    vs.foldlM part d = (do return { d with vars := d.vars ++ (← vs.mapM Declarator.ofTree) }) := by
  refine foldlM_push (k := fun d vars => { d with vars := d.vars ++ vars }) (by simp) (by simp) (fun t ht d => ?_) d
  rw [part, hvs t ht]

/-- A local declaration: its type and its variables. -/
theorem Stmt.declaration_eq (htype : type.rule = .unannType) (hvs : ∀ t ∈ vs, t.rule = .variableDeclarator) :
    Stmt.declaration (.node r start text (type :: vs)) =
      (do return .declare (.ofString type.text) (← vs.mapM Declarator.ofTree)) := by
  rw [Stmt.declaration, Tree.children, List.foldlM_cons, VarDecls.part, htype]
  simp only [VarDecls.foldlM_part hvs, bind_assoc, pure_bind]
  rfl

/-- The rules of the labels of a group. -/
def labelRules : List Rule := [.caseLabel, .defaultLabel]

/-- A group: its labels and its statements. -/
theorem Stmt.armOf_eq (hus : ∀ t ∈ us, t.rule ∈ labelRules) (hvs : ∀ t ∈ vs, t.rule ∉ labelRules) (arm : Arm Stmt) :
    Stmt.armOf arm (us ++ vs) = (do
      let labels ← us.mapM Label.ofTree
      return ⟨arm.labels ++ labels, arm.body ++ (← Stmt.listOf vs)⟩) := by
  induction us generalizing arm with
  | cons t us ih =>
    have hr := hus t (.head _)
    simp only [labelRules, List.mem_cons, List.not_mem_nil, or_false] at hr
    have hstep : Stmt.armOf arm (t :: (us ++ vs)) =
        (do Stmt.armOf { arm with labels := arm.labels ++ [← Label.ofTree t] } (us ++ vs)) := by
      rcases hr with hr | hr <;> rw [Stmt.armOf, hr]
    rw [List.cons_append, hstep, List.mapM_cons]
    simp only [ih (fun t ht => hus t (.tail _ ht)), bind_assoc, pure_bind, List.append_assoc, List.singleton_append]
  | nil =>
    rw [List.mapM_nil, pure_bind, List.nil_append, List.append_nil]
    induction vs generalizing arm with
    | nil =>
      have hlist : Stmt.listOf [] = pure [] := rfl
      rw [Stmt.armOf, hlist, pure_bind, List.append_nil]
      rfl
    | cons t vs ih =>
      have hr := hvs t (.head _)
      simp only [labelRules, List.mem_cons, List.not_mem_nil, or_false, not_or] at hr
      have hstep : Stmt.armOf arm (t :: vs) =
          (do Stmt.armOf { arm with body := arm.body ++ [← Stmt.ofTree t] } vs) := by
        rw [Stmt.armOf]
        split
        · exact absurd ‹_› hr.1
        · exact absurd ‹_› hr.2
        · rfl
      rw [hstep, Stmt.listOf]
      simp only [ih (fun t ht => hvs t (.tail _ ht)), bind_assoc, pure_bind, List.append_assoc, List.singleton_append]

/-- A field: its modifiers, its type and its variables. -/
theorem FieldDecl.ofTree_eq (hus : ∀ t ∈ us, t.rule = .modifier) (htype : type.rule = .unannType)
    (hvs : ∀ t ∈ vs, t.rule = .variableDeclarator) :
    FieldDecl.ofTree (.node r start text (us ++ type :: vs)) = (do
      let ms ← us.mapM Modifier.ofTree
      return ⟨ms, .ofString type.text, ← vs.mapM Declarator.ofTree⟩) := by
  have hmodifiers := foldlM_push (f := part) (g := Modifier.ofTree)
    (k := fun d ms => { d with modifiers := d.modifiers ++ ms }) (by simp) (by simp)
    (fun t ht d => by rw [part, hus t ht])
  have hstep : ∀ t ∈ vs, ∀ d : FieldDecl,
      part d t = (do return ⟨d.modifiers, d.type, d.vars ++ [← Declarator.ofTree t]⟩) :=
    fun t ht d => by simp only [part, VarDecls.part, hvs t ht, bind_assoc, pure_bind]
  have hvars := foldlM_push (k := fun (d : FieldDecl) vars => { d with vars := d.vars ++ vars }) (by simp) (by simp)
    hstep
  rw [FieldDecl.ofTree, Tree.children, List.foldlM_append, hmodifiers]
  simp only [List.foldlM_cons, part, htype, VarDecls.part, hvars, bind_assoc, pure_bind]
  rfl

/-- Reads the body of a method, which is missing unless its node is a block. -/
def methodBodyOf (t : Tree) : Reading (Option (List Stmt)) :=
  if t.rule = .block then some <$> Stmt.listOf t.children else pure none

/-- A method: its modifiers, its result, its name, its parameters and its block, or a semicolon in its place. -/
theorem MethodDecl.ofTree_eq (hus : ∀ t ∈ us, t.rule = .modifier) (hresult : result.rule = .resultType)
    (hname : name.rule = .identifier) (hparams : params.rule = .formalParameters)
    (hlast : last.rule ∈ [Rule.block, .emptyBody]) :
    MethodDecl.ofTree (.node r start text (us ++ [result, name, params, last])) = (do
      let ms ← us.mapM Modifier.ofTree
      let ps ← paramsOf params
      return ⟨ms, .ofString result.text, name.text, ps, ← methodBodyOf last⟩) := by
  have hmodifiers := foldlM_push (f := part) (g := Modifier.ofTree)
    (k := fun d ms => { d with modifiers := d.modifiers ++ ms }) (by simp) (by simp)
    (fun t ht d => by rw [part, hus t ht])
  rw [MethodDecl.ofTree, Tree.children, List.foldlM_append, hmodifiers]
  simp only [List.foldlM_cons, List.foldlM_nil, part, hresult, hname, hparams, bind_assoc, pure_bind,
    List.nil_append]
  simp only [List.mem_cons, List.not_mem_nil, or_false] at hlast
  rcases hlast with hlast | hlast
  · simp only [hlast, methodBodyOf, if_pos, bind_assoc, map_eq_pure_bind, pure_bind]
  · simp only [hlast, methodBodyOf, reduceCtorEq, if_false, pure_bind]

/-- A constructor: its modifiers, its name, its parameters and its body. -/
theorem ConstructorDecl.ofTree_eq (hus : ∀ t ∈ us, t.rule = .modifier) (hname : name.rule = .identifier)
    (hparams : params.rule = .formalParameters) (hlast : last.rule = .constructorBody) :
    ConstructorDecl.ofTree (.node r start text (us ++ [name, params, last])) = (do
      let ms ← us.mapM Modifier.ofTree
      let ps ← paramsOf params
      return ⟨ms, name.text, ps, ← Stmt.listOf last.children⟩) := by
  have hmodifiers := foldlM_push (f := part) (g := Modifier.ofTree)
    (k := fun d ms => { d with modifiers := d.modifiers ++ ms }) (by simp) (by simp)
    (fun t ht d => by rw [part, hus t ht])
  rw [ConstructorDecl.ofTree, Tree.children, List.foldlM_append, hmodifiers]
  simp only [List.foldlM_cons, List.foldlM_nil, part, hname, hparams, hlast, bind_assoc, pure_bind,
    List.nil_append]

/-- The rules of the members of a class. -/
def memberRules : List Rule := [.constructorDeclaration, .methodDeclaration, .fieldDeclaration]

/-- A class: its modifiers, its name, its superclass if there is one, and its members. -/
theorem ClassDecl.ofTree_eq {parent : Option Tree} (hus : ∀ t ∈ us, t.rule = .modifier)
    (hname : name.rule = .identifier) (hparent : ∀ t ∈ parent, t.rule = .superclass)
    (hvs : ∀ t ∈ vs, t.rule ∈ memberRules) :
    ClassDecl.ofTree (.node r start text (us ++ name :: (parent.toList ++ vs))) = (do
      let ms ← us.mapM Modifier.ofTree
      let super ← parent.mapM superNameOf
      return ⟨ms, name.text, super, ← vs.mapM Member.ofTree⟩) := by
  have hmodifiers := foldlM_push (f := part) (g := Modifier.ofTree)
    (k := fun d ms => { d with modifiers := d.modifiers ++ ms }) (by simp) (by simp)
    (fun t ht d => by rw [part, hus t ht])
  have hmembers := foldlM_push (f := part) (g := Member.ofTree)
    (k := fun d members => { d with body := d.body ++ members }) (by simp) (by simp) (fun t ht d => by
      have hr := hvs t ht
      simp only [memberRules, List.mem_cons, List.not_mem_nil, or_false] at hr
      rcases hr with hr | hr | hr <;> rw [part, hr])
  rw [ClassDecl.ofTree, Tree.children, List.foldlM_append, hmodifiers]
  cases parent with
  | none =>
    simp only [Option.toList_none, List.nil_append, List.foldlM_cons, part, hname, hmembers, bind_assoc,
      pure_bind, Option.mapM_none]
  | some parent =>
    simp only [Option.toList_some, List.singleton_append, List.foldlM_cons, part, hname, hparent parent rfl,
      hmembers, bind_assoc, pure_bind, Option.mapM_some, List.nil_append, map_eq_pure_bind]

/-- A program: its classes, and the end of the source. -/
theorem Program.ofTree_eq (hvs : ∀ t ∈ vs, t.rule = .classDeclaration) (hlast : last.rule = .endOfInput) :
    Program.ofTree (.node r start text (vs ++ [last])) = vs.mapM ClassDecl.ofTree := by
  have hclasses := foldlM_push (f := part) (g := ClassDecl.ofTree) (k := fun p ds => p ++ ds) (by simp)
    (by simp) (fun t ht p => by rw [part, hvs t ht])
  rw [Program.ofTree, Tree.children, List.foldlM_append, hclasses]
  simp only [List.foldlM_cons, List.foldlM_nil, part, hlast, List.nil_append, bind_pure]

end Orders

end StashMachine
