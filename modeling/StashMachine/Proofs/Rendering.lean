import StashMachine.Proofs.Lexis
import StashMachine.Syntax.Source

/-!
# StashMachine.Proofs.Rendering — expressions written as tokens

* `BinaryOp.level`, `Expr.level`: how tightly operators bind, from assignments (0) to operands without a sign (7).
* `Literal.Written`, `Expr.Written`: the ways to write an expression as tokens.  Brackets stand where an operand binds
  less tightly than its place asks for, and nowhere else; the smallest numbers are a minus and their digits; the
  characters of quotations may be written behind a backslash.
* `Expr.Proper`: what the grammar makes sure of: names, classes and types are spelled as such, and numbers have no sign.
* `Expr.tokens`: one way to write an expression.  It is one if the expression is proper and holds no double
  (`Expr.written_tokens`).
-/

namespace StashMachine

open Grammar

/-! ### Levels -/

/-- How tightly an operator binds. -/
def BinaryOp.level : BinaryOp → Nat
  | or => 1
  | and => 2
  | eq | ne => 3
  | lt | le | gt | ge => 4
  | add | sub => 5
  | mul | div | rem => 6

/-- The spelling of a sign. -/
def UnaryOp.symbol : UnaryOp → String
  | minus => "-"
  | plus => "+"
  | not => "!"

/-- How tightly an expression binds. -/
def Expr.level : Expr → Nat
  | assign .. | compound .. => 0
  | binary op .. => op.level
  | _ => 7

theorem BinaryOp.level_pos (op : BinaryOp) : 1 ≤ op.level := by
  cases op <;> decide

theorem BinaryOp.level_le (op : BinaryOp) : op.level ≤ 6 := by
  cases op <;> decide

/-- What holds of an expression if it holds of its parts. -/
theorem Expr.ofParts {P : Expr → Prop} (literal : ∀ l, P (.literal l)) (name : ∀ p, P (.name p))
    (assign : ∀ p e, P e → P (.assign p e)) (compound : ∀ op p e, P e → P (.compound op p e))
    (increment : ∀ op fix p, P (.increment op fix p)) (binary : ∀ op l r, P l → P r → P (.binary op l r))
    (unary : ∀ op e, P e → P (.unary op e)) (call : ∀ p args, (∀ e ∈ args, P e) → P (.call p args))
    (new : ∀ cls args, (∀ e ∈ args, P e) → P (.new cls args))
    (array : ∀ t es, (∀ e ∈ es, P e) → P (.array t es)) (void : P .void) (e : Expr) : P e := by
  refine @Expr.rec P (fun es => ∀ e ∈ es, P e) literal name assign compound increment binary unary call new array
    void nofun (fun e es he hes e' he' => ?_) e
  rcases List.mem_cons.mp he' with rfl | he'
  · exact he
  · exact hes e' he'

/-! ### Ways to write an expression -/

/-- Tokens in round brackets. -/
def bracketed (us : List Token) : List Token := "(" :: (us ++ [")"])

/-- A text in quotation marks. -/
def quotation (quote : Char) (cs : List Char) : Token := String.ofList (quote :: (cs ++ [quote]))

/-- The ways to write a literal. -/
def Literal.Written : Literal → List Token → Prop
  | int n, us => (0 ≤ n.toInt ∧ us = [toString n.toInt]) ∨ (n = Int32.minValue ∧ us = ["-", "2147483648"])
  | long n, us => ∃ suffix ∈ ["L", "l"], (0 ≤ n.toInt ∧ us = [toString n.toInt ++ suffix]) ∨
    (n = Int64.minValue ∧ us = ["-", "9223372036854775808" ++ suffix])
  | double _, _ => False
  | boolean b, us => us = [if b then "true" else "false"]
  | char c, us => ∃ cs, SpellsChar '\'' c cs ∧ us = [quotation '\'' cs]
  | string s, us => ∃ cs, SpellsChars '"' s.toList cs ∧ us = [quotation '"' cs]
  | null, us => us = ["null"]

namespace Expr

/-- Tokens for an expression in a place that asks for a level: in brackets if it binds less tightly. -/
def Placed (need level : Nat) (W : List Token → Prop) (us : List Token) : Prop :=
  if level < need then ∃ vs, W vs ∧ us = bracketed vs else W us

mutual

/-- The ways to write an expression. -/
def Written : Expr → List Token → Prop
  | literal l => l.Written
  | name p => fun us => us = [p.text]
  | assign p e => fun us => ∃ vs, Written e vs ∧ us = p.text :: "=" :: vs
  | compound op p e => fun us => ∃ vs, Written e vs ∧ us = p.text :: (op.symbol ++ "=") :: vs
  | increment op .pre p => fun us => us = [op.symbol ++ op.symbol, p.text]
  | increment op .post p => fun us => us = [p.text, op.symbol ++ op.symbol]
  | binary op l r => fun us => ∃ vs ws, Placed op.level l.level (Written l) vs ∧
    Placed (op.level + 1) r.level (Written r) ws ∧ us = vs ++ op.symbol :: ws
  | unary op e => fun us => ∃ vs, Placed 7 e.level (Written e) vs ∧ us = op.symbol :: vs
  | call p args => fun us => ∃ uss, WrittenAll args uss ∧ us = p.text :: bracketed (commas uss)
  | new cls args => fun us => ∃ uss, WrittenAll args uss ∧ us = "new" :: cls :: bracketed (commas uss)
  | array t es => fun us =>
    ∃ uss, WrittenAll es uss ∧ us = "new" :: (t.text ++ "[]") :: "\x7b" :: (commas uss ++ ["\x7d"])
  | void => fun _ => False

/-- The ways to write expressions, one after the other. -/
def WrittenAll : List Expr → List (List Token) → Prop
  | [] => fun uss => uss = []
  | e :: es => fun uss => ∃ us vss, Written e us ∧ WrittenAll es vss ∧ uss = us :: vss

end

end Expr

/-! ### Proper expressions -/

/-- The text of a dotted name, which is read back. -/
structure Path.Proper (p : Path) : Prop where
  dotted : IsDotted p.text.toList
  read : Path.ofString p.text = p

/-- The type of the elements of an array. -/
structure TypeName.IsElement (t : TypeName) : Prop where
  word : IsTypeWord t.text.toList
  read : TypeName.ofString (t.text ++ "[]") = .array t

/-- A number without a sign, or the smallest one. -/
def Literal.Proper : Literal → Prop
  | int n => 0 ≤ n.toInt ∨ n = Int32.minValue
  | long n => 0 ≤ n.toInt ∨ n = Int64.minValue
  | _ => True

namespace Expr

mutual

/-- Names, classes and types are spelled as such, and numbers have no sign. -/
def Proper : Expr → Prop
  | literal l => l.Proper
  | name p => p.Proper
  | assign p e => p.Proper ∧ Proper e
  | compound op p e => op.isArithmetic = true ∧ p.Proper ∧ Proper e
  | increment op _ p => (op = .add ∨ op = .sub) ∧ p.Proper
  | binary _ l r => Proper l ∧ Proper r
  | unary _ e => Proper e
  | call p args => p.Proper ∧ ProperAll args
  | new cls args => Rule.identifier.Spells cls.toList ∧ ProperAll args
  | array t es => t.IsElement ∧ ProperAll es
  | void => False

/-- Every expression of a list is proper. -/
def ProperAll : List Expr → Prop
  | [] => True
  | e :: es => Proper e ∧ ProperAll es

end

theorem properAll_iff {es : List Expr} : ProperAll es ↔ ∀ e ∈ es, e.Proper := by
  induction es with
  | nil => simp [ProperAll]
  | cons e es ih => simp [ProperAll, ih]

mutual

/-- Whether an expression holds a double. -/
def hasDouble : Expr → Bool
  | literal (.double _) => true
  | literal _ | name _ | increment .. | void => false
  | assign _ e | compound _ _ e | unary _ e => hasDouble e
  | binary _ l r => hasDouble l || hasDouble r
  | call _ args | new _ args | array _ args => anyDouble args

/-- Whether one of the expressions holds a double. -/
def anyDouble : List Expr → Bool
  | [] => false
  | e :: es => hasDouble e || anyDouble es

end

end Expr

/-! ### One way to write an expression -/

/-- A character inside quotation marks. -/
def escape (quote x : Char) : List Char :=
  if x = '\n' then ['\\', 'n']
  else if x = '\t' then ['\\', 't']
  else if x = '\r' then ['\\', 'r']
  else if x = Char.ofNat 0 then ['\\', '0']
  else if x = quote ∨ x = '\\' then ['\\', x]
  else [x]

/-- The tokens of a literal. -/
def Literal.tokens : Literal → List Token
  | int n => if 0 ≤ n.toInt then [toString n.toInt] else ["-", "2147483648"]
  | long n => if 0 ≤ n.toInt then [toString n.toInt ++ "L"] else ["-", "9223372036854775808L"]
  | double x => [Decimal.text x]
  | boolean b => [if b then "true" else "false"]
  | char c => [quotation '\'' (escape '\'' c)]
  | string s => [quotation '"' (s.toList.flatMap (escape '"'))]
  | null => ["null"]

namespace Expr

/-- Brackets around the tokens of an expression that binds less tightly than its place asks for. -/
def place (need level : Nat) (us : List Token) : List Token := if level < need then bracketed us else us

mutual

/-- The tokens of an expression. -/
def tokens : Expr → List Token
  | literal l => l.tokens
  | name p => [p.text]
  | assign p e => p.text :: "=" :: tokens e
  | compound op p e => p.text :: (op.symbol ++ "=") :: tokens e
  | increment op .pre p => [op.symbol ++ op.symbol, p.text]
  | increment op .post p => [p.text, op.symbol ++ op.symbol]
  | binary op l r => place op.level l.level (tokens l) ++ op.symbol :: place (op.level + 1) r.level (tokens r)
  | unary op e => op.symbol :: place 7 e.level (tokens e)
  | call p args => p.text :: bracketed (commas (tokensAll args))
  | new cls args => "new" :: cls :: bracketed (commas (tokensAll args))
  | array t es => "new" :: (t.text ++ "[]") :: "\x7b" :: (commas (tokensAll es) ++ ["\x7d"])
  | void => []

/-- The tokens of expressions, one after the other. -/
def tokensAll : List Expr → List (List Token)
  | [] => []
  | e :: es => tokens e :: tokensAll es

end

end Expr

theorem spells_escape {quote x : Char} (hquote : escaped quote = quote) : SpellsChar quote x (escape quote x) := by
  unfold escape
  split_ifs with hn ht hr h0 hself
  · exact hn ▸ .behind 'n'
  · exact ht ▸ .behind 't'
  · exact hr ▸ .behind 'r'
  · exact h0 ▸ .behind '0'
  · have hx : escaped x = x := by
      rcases hself with rfl | rfl
      · exact hquote
      · rfl
    have hspells : SpellsChar quote (escaped x) ['\\', x] := .behind x
    rwa [hx] at hspells
  · rw [not_or] at hself
    exact .plain hself.1 hself.2

theorem spells_escapes {quote : Char} (hquote : escaped quote = quote) (xs : List Char) :
    SpellsChars quote xs (xs.flatMap (escape quote)) := by
  induction xs with
  | nil => exact .nil
  | cons x xs ih => exact .cons (spells_escape hquote) ih

theorem Literal.written_tokens {l : Literal} (hl : l.Proper) (hdouble : (Expr.literal l).hasDouble = false) :
    l.Written l.tokens := by
  cases l with
  | int n =>
    simp only [Literal.tokens]
    split_ifs with hn
    · exact .inl ⟨hn, rfl⟩
    · exact .inr ⟨hl.resolve_left hn, rfl⟩
  | long n =>
    simp only [Literal.tokens]
    refine ⟨"L", .head _, ?_⟩
    split_ifs with hn
    · exact .inl ⟨hn, rfl⟩
    · exact .inr ⟨hl.resolve_left hn, rfl⟩
  | double x => cases hdouble
  | boolean b => rfl
  | char c => exact ⟨_, spells_escape rfl, rfl⟩
  | string s => exact ⟨_, spells_escapes rfl _, rfl⟩
  | null => rfl

namespace Expr

theorem placed_place {need level : Nat} {W : List Token → Prop} {us : List Token} (h : W us) :
    Placed need level W (place need level us) := by
  unfold Placed place
  split_ifs
  · exact ⟨us, h, rfl⟩
  · exact h

theorem writtenAll_tokensAll {es : List Expr}
    (h : ∀ e ∈ es, e.Proper → e.hasDouble = false → e.Written e.tokens) (hproper : ProperAll es)
    (hdouble : anyDouble es = false) : WrittenAll es (tokensAll es) := by
  induction es with
  | nil => rfl
  | cons e es ih =>
    simp only [anyDouble, Bool.or_eq_false_iff] at hdouble
    obtain ⟨he, hes⟩ := hproper
    exact ⟨_, _, h e (.head _) he hdouble.1, ih (fun e' he' => h e' (.tail _ he')) hes hdouble.2, rfl⟩

/-- The tokens of an expression are a way to write it. -/
theorem written_tokens {e : Expr} (hproper : e.Proper) (hdouble : e.hasDouble = false) : e.Written e.tokens := by
  induction e using Expr.ofParts with
  | literal l => exact Literal.written_tokens hproper hdouble
  | name p => rfl
  | assign p e ih => exact ⟨_, ih hproper.2 hdouble, rfl⟩
  | compound op p e ih => exact ⟨_, ih hproper.2.2 hdouble, rfl⟩
  | increment op fix p => cases fix <;> rfl
  | binary op l r ihl ihr =>
    simp only [hasDouble, Bool.or_eq_false_iff] at hdouble
    exact ⟨_, _, placed_place (ihl hproper.1 hdouble.1), placed_place (ihr hproper.2 hdouble.2), rfl⟩
  | unary op e ih => exact ⟨_, placed_place (ih hproper hdouble), rfl⟩
  | call p args ih => exact ⟨_, writtenAll_tokensAll ih hproper.2 hdouble, rfl⟩
  | new cls args ih => exact ⟨_, writtenAll_tokensAll ih hproper.2 hdouble, rfl⟩
  | array t es ih => exact ⟨_, writtenAll_tokensAll ih hproper.2 hdouble, rfl⟩
  | void => cases hproper

end Expr

end StashMachine
