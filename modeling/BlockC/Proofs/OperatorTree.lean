import BlockC.Code.Emit
import BlockC.Grammar.Level
import BlockC.Proofs.ProperProgram
import BlockC.Proofs.Scanning
import BlockC.Surface.Reader

/-! # Operator trees

An expression without its places and its symbols: operators over operands, with names as they are
written.  Expressions of the source and expressions bound to symbols both have one; a bound
expression has the one that its C text shows.  `text` writes a tree down the way expressions are
written in C, and the scanner finds exactly the tokens `words` in that text (`scans_text`).
-/
namespace BlockC

/-- Operators over operands, as they are written. -/
inductive OperatorTree where
  | name (text : String)
  | number (value : UInt64)
  | string (text : String)
  | boolean (value : Bool)
  | null
  | binary (left : OperatorTree) (op : BinaryOp) (right : OperatorTree)
  | unary (op : UnaryOp) (argument : OperatorTree)
  | condition (test yes no : OperatorTree)
  | call (callee : String) (args : List OperatorTree)
  | assignment (left : OperatorTree) (op : AssignOp) (right : OperatorTree)
  /-- A tree in parentheses. -/
  | group (inner : OperatorTree)

/-- How an operator is written, as a piece of punctuation. -/
def BinaryOp.punct : BinaryOp → Punct
  | .add => .plus
  | .sub => .dash
  | .mul => .star
  | .div => .slash
  | .mod => .percent
  | .logicalOr => .barBar
  | .logicalAnd => .ampAmp
  | .bitOr => .bar
  | .bitXor => .caret
  | .bitAnd => .amp
  | .eq => .equals
  | .ne => .notEquals
  | .gt => .greater
  | .ge => .greaterEquals
  | .le => .lessEquals
  | .lt => .less
  | .shl => .shiftLeft
  | .shr => .shiftRight

@[inherit_doc BinaryOp.punct]
def UnaryOp.punct : UnaryOp → Punct
  | .not => .bang
  | .bitNot => .tilde
  | .neg => .dash
  | .plus => .plus

@[inherit_doc BinaryOp.punct]
def AssignOp.punct : AssignOp → Punct
  | .assign => .assign
  | .mul => .starEquals
  | .div => .slashEquals
  | .mod => .percentEquals
  | .add => .plusEquals
  | .sub => .dashEquals
  | .shl => .shiftLeftEquals
  | .shr => .shiftRightEquals
  | .and => .ampEquals
  | .or => .barEquals
  | .xor => .caretEquals

theorem BinaryOp.text_punct (op : BinaryOp) : op.punct.text = op.text := by
  cases op <;> rfl

theorem UnaryOp.text_punct (op : UnaryOp) : op.punct.text = op.text := by
  cases op <;> rfl

theorem AssignOp.text_punct (op : AssignOp) : op.punct.text = op.text := by
  cases op <;> rfl

/-- How tightly an operator holds its operands. -/
def BinaryOp.level : BinaryOp → Level
  | .logicalOr => .logicalOr
  | .logicalAnd => .logicalAnd
  | .bitOr => .bitOr
  | .bitXor => .bitXor
  | .bitAnd => .bitAnd
  | .eq | .ne => .equality
  | .lt | .le | .gt | .ge => .relational
  | .shl | .shr => .shift
  | .add | .sub => .additive
  | .mul | .div | .mod => .multiplicative

/-- Operators between two operands hold tighter than conditions and looser than signs. -/
theorem BinaryOp.level_between (op : BinaryOp) :
    Level.conditional.rank < op.level.rank ∧ op.level.rank < Level.unary.rank := by
  cases op <;> decide

theorem BinaryOp.behindOperand (op : BinaryOp) :
    (Kind.punct op.punct).behindOperand? = some (op.level, .binary) := by
  cases op <;> rfl

theorem AssignOp.behindOperand (op : AssignOp) :
    (Kind.punct op.punct).behindOperand? = some (.assignment, .assignment) := by
  cases op <;> rfl

/-- Tokens in parentheses. -/
def grouped (ws : List Word) : List Word :=
  Punct.openParen.word :: (ws ++ [Punct.closeParen.word])

namespace OperatorTree

mutual

/-- The tree without its parentheses. -/
def bare : OperatorTree → OperatorTree
  | .binary left op right => .binary left.bare op right.bare
  | .unary op argument => .unary op argument.bare
  | .condition test yes no => .condition test.bare yes.bare no.bare
  | .call callee args => .call callee (bareAll args)
  | .assignment left op right => .assignment left.bare op right.bare
  | .group inner => inner.bare
  | x => x

/-- The trees without their parentheses. -/
def bareAll : List OperatorTree → List OperatorTree
  | [] => []
  | x :: rest => x.bare :: bareAll rest

end

/-- Whether the outermost operator stores a value. -/
def isAssignment : OperatorTree → Bool
  | .assignment _ _ _ => true
  | _ => false

mutual

/-- The tree can be written down: names are words that are not reserved, strings stand in quotes,
and what is assigned to is not an assignment. -/
def Proper : OperatorTree → Prop
  | .name s => Lexical.IsName s
  | .number _ => True
  | .string s => Lexical.IsQuoted s
  | .boolean _ => True
  | .null => True
  | .binary left _ right => left.Proper ∧ right.Proper
  | .unary _ argument => argument.Proper
  | .condition test yes no => test.Proper ∧ yes.Proper ∧ no.Proper
  | .call callee args => Lexical.IsName callee ∧ AllProper args
  | .assignment left _ right => left.Proper ∧ left.isAssignment = false ∧ right.Proper
  | .group inner => inner.Proper

/-- The trees can be written down. -/
def AllProper : List OperatorTree → Prop
  | [] => True
  | x :: rest => x.Proper ∧ AllProper rest

end

mutual

/-- The tree as C text, with every operand of an operator in parentheses. -/
def text : OperatorTree → String
  | .name s => s
  | .number value => Numeral.decimal value.toNat
  | .string s => s
  | .boolean value => if value then "true" else "false"
  | .null => "null"
  | .binary left op right => "(" ++ left.text ++ ") " ++ op.text ++ " (" ++ right.text ++ ")"
  | .unary op argument => op.text ++ "(" ++ argument.text ++ ")"
  | .condition test yes no =>
    "(" ++ test.text ++ ") ? (" ++ yes.text ++ ") : (" ++ no.text ++ ")"
  | .call callee args => callee ++ Code.parameterList (texts args)
  | .assignment left op right => left.text ++ " " ++ op.text ++ " (" ++ right.text ++ ")"
  | .group inner => "(" ++ inner.text ++ ")"

/-- The trees as C texts. -/
def texts : List OperatorTree → List String
  | [] => []
  | x :: rest => x.text :: texts rest

end

mutual

/-- The tokens of the text of a tree. -/
def words : OperatorTree → List Word
  | .name s => [(.identifier, s)]
  | .number value => [(.number, Numeral.decimal value.toNat)]
  | .string s => [(.string, s)]
  | .boolean value => [if value then Keyword.trueKw.word else Keyword.falseKw.word]
  | .null => [Keyword.nullKw.word]
  | .binary left op right => grouped left.words ++ op.punct.word :: grouped right.words
  | .unary op argument => op.punct.word :: grouped argument.words
  | .condition test yes no =>
    grouped test.words ++ Punct.question.word :: (grouped yes.words ++
      Punct.colon.word :: grouped no.words)
  | .call callee args => (.identifier, callee) :: grouped (argWords args)
  | .assignment left op right => left.words ++ op.punct.word :: grouped right.words
  | .group inner => grouped inner.words

/-- The tokens of the texts of trees, with commas between them. -/
def argWords : List OperatorTree → List Word
  | [] => []
  | [x] => x.words
  | x :: rest => x.words ++ Punct.comma.word :: argWords rest

end

/-! ### The tokens of the text -/

section
open Lexical

/-- A text is scanned as the given tokens, wherever it stands before a break. -/
def ScansAs (s : String) (ws : List Word) : Prop :=
  ∀ rest, Breaks rest → Scans (s.toList ++ rest) ws rest

theorem scans_grouped {s : String} {ws : List Word} (h : ScansAs s ws) (rest : List Char) :
    Scans ('(' :: (s.toList ++ ')' :: rest)) (grouped ws) rest := by
  have hopen : Scans ('(' :: (s.toList ++ ')' :: rest)) [Punct.openParen.word]
      (s.toList ++ ')' :: rest) := scans_punct (p := .openParen) (Punct.ends_self (by decide) _)
  have hclose : Scans (')' :: rest) [Punct.closeParen.word] rest :=
    scans_punct (p := .closeParen) (Punct.ends_self (by decide) _)
  exact hopen.trans ((h _ (breaks_cons (by decide))).trans hclose)

/-- An operator between spaces, before a parenthesis. -/
theorem scans_spaced (p : Punct) (rest : List Char) :
    Scans (' ' :: (p.text.toList ++ ' ' :: '(' :: rest)) [p.word] ('(' :: rest) := by
  have hblank : ∀ d, (p.text.toList ++ ' ' :: '(' :: rest).head? = some d →
      Text.isBlank d = false := by
    intro d hd
    cases hp : p.text.toList with
    | nil => exact absurd hp (by cases p <;> decide)
    | cons c cs =>
      rw [hp] at hd
      obtain rfl : c = d := by simpa using hd
      exact (punct_start hp).2.2.1
  have hpunct : Scans (p.text.toList ++ ' ' :: '(' :: rest) [p.word] (' ' :: '(' :: rest) :=
    scans_punct (Breaks.ends (breaks_cons (by decide)) p)
  have hspace : Scans (' ' :: '(' :: rest) [] ('(' :: rest) := by
    refine scans_space fun d hd => ?_
    obtain rfl : '(' = d := by simpa using hd
    decide
  exact (scans_space hblank).trans (hpunct.trans hspace)

theorem scansAs_name {s : String} (h : IsName s) : ScansAs s [(.identifier, s)] :=
  fun _ hrest => scans_name h hrest

theorem scansAs_number (value : Nat) :
    ScansAs (Numeral.decimal value) [(.number, Numeral.decimal value)] :=
  fun _ hrest => scans_number (matches_decimal value) hrest

mutual

/-- **The scanner finds the tokens of a tree in its text.** -/
theorem scans_text : ∀ x : OperatorTree, x.Proper → ScansAs x.text x.words
  | .name s, h => scansAs_name h
  | .number value, _ => scansAs_number value.toNat
  | .string s, h => fun _ _ => scans_quoted h
  | .boolean true, _ => fun _ hrest => scans_keyword (k := .trueKw) hrest
  | .boolean false, _ => fun _ hrest => scans_keyword (k := .falseKw) hrest
  | .null, _ => fun _ hrest => scans_keyword (k := .nullKw) hrest
  | .binary left op right, ⟨hl, hr⟩ => by
    intro rest hrest
    have hleft := scans_grouped (scans_text left hl)
    have hright := scans_grouped (scans_text right hr)
    simpa [text, words, BinaryOp.text_punct] using
      (hleft _).trans ((scans_spaced op.punct _).trans (hright rest))
  | .unary op argument, h => by
    intro rest hrest
    have harg := scans_grouped (scans_text argument h)
    have hop : Scans (op.punct.text.toList ++ '(' :: (argument.text.toList ++ ')' :: rest))
        [op.punct.word] ('(' :: (argument.text.toList ++ ')' :: rest)) :=
      scans_punct (Breaks.ends (breaks_cons (by decide)) _)
    simpa [text, words, UnaryOp.text_punct] using hop.trans (harg rest)
  | .condition test yes no, ⟨ht, hy, hn⟩ => by
    intro rest hrest
    have htest := scans_grouped (scans_text test ht)
    have hyes := scans_grouped (scans_text yes hy)
    have hno := scans_grouped (scans_text no hn)
    simpa [text, words, Punct.text] using
      (htest _).trans ((scans_spaced .question _).trans ((hyes _).trans
        ((scans_spaced .colon _).trans (hno rest))))
  | .call callee args, ⟨hc, ha⟩ => by
    intro rest hrest
    have hargs := scans_grouped (scans_texts args ha)
    simpa [text, words, Code.parameterList] using
      (scansAs_name hc _ (breaks_cons (by decide))).trans (hargs rest)
  | .assignment left op right, ⟨hl, _, hr⟩ => by
    intro rest hrest
    have hleft := scans_text left hl
    have hright := scans_grouped (scans_text right hr)
    simpa [text, words, AssignOp.text_punct] using
      (hleft _ (breaks_cons (by decide))).trans ((scans_spaced op.punct _).trans (hright rest))
  | .group inner, h => by
    intro rest hrest
    have hinner := scans_grouped (scans_text inner h) rest
    simpa [text, words] using hinner

theorem scans_texts : ∀ xs : List OperatorTree, AllProper xs →
    ScansAs (Text.joined "," (texts xs)) (argWords xs)
  | [], _ => fun _ _ => .done
  | [x], h => scans_text x h.1
  | x :: y :: rest, h => by
    intro behind hbehind
    have hfirst := scans_text x h.1
    have hrest := scans_texts (y :: rest) h.2 behind hbehind
    have hcomma : Scans (',' :: ((Text.joined "," (texts (y :: rest))).toList ++ behind))
        [Punct.comma.word] ((Text.joined "," (texts (y :: rest))).toList ++ behind) :=
      scans_punct (p := .comma) (Punct.ends_self (by decide) _)
    simpa [texts, Text.joined, argWords] using
      (hfirst _ (breaks_cons (by decide))).trans (hcomma.trans hrest)

end
end

end OperatorTree

namespace Bound
open Code (spelled)

mutual

/-- The operator tree of an expression, with names as they are spelled in C. -/
def Expr.operatorTree (t : Table) : Expr → Except Cause OperatorTree
  | .ident id => return .name (← spelled t id)
  | .binary left op right _ => do
    let left ← left.operatorTree t
    return .binary left op (← right.operatorTree t)
  | .unary op argument _ => return .unary op (← argument.operatorTree t)
  | .condition test yes no _ => do
    let test ← test.operatorTree t
    let yes ← yes.operatorTree t
    return .condition test yes (← no.operatorTree t)
  | .call callee args _ => do
    let args ← Expr.operatorTrees t args
    return .call (← spelled t callee) args
  | .assignment left op right _ => do
    let left ← left.operatorTree t
    return .assignment left op (← right.operatorTree t)
  | .parenthesized inner _ => return .group (← inner.operatorTree t)
  | .number value _ => return .number value
  | .string text _ => return .string text
  | .boolean value _ => return .boolean value
  | .null _ => return .name "NULL"

/-- The operator trees of expressions. -/
def Expr.operatorTrees (t : Table) : List Expr → Except Cause (List OperatorTree)
  | [] => return []
  | e :: rest => do
    let first ← e.operatorTree t
    return first :: (← Expr.operatorTrees t rest)

end

mutual

/-- The C text of an expression is the text of its operator tree. -/
theorem expr_eq_text (t : Table) : ∀ e : Expr,
    Code.expr t e = (e.operatorTree t).map OperatorTree.text
  | .ident id => by
    rw [Code.expr, Expr.operatorTree]
    cases Code.spelled t id <;> rfl
  | .binary left op right span => by
    rw [Code.expr, Expr.operatorTree, expr_eq_text t left, expr_eq_text t right]
    cases left.operatorTree t <;> cases right.operatorTree t <;> rfl
  | .unary op argument span => by
    rw [Code.expr, Expr.operatorTree, expr_eq_text t argument]
    cases argument.operatorTree t <;> rfl
  | .condition test yes no span => by
    rw [Code.expr, Expr.operatorTree, expr_eq_text t test, expr_eq_text t yes, expr_eq_text t no]
    cases test.operatorTree t <;> cases yes.operatorTree t <;> cases no.operatorTree t <;> rfl
  | .call callee args span => by
    rw [Code.expr, Expr.operatorTree, exprs_eq_texts t args]
    cases Expr.operatorTrees t args <;> cases Code.spelled t callee <;> rfl
  | .assignment left op right span => by
    rw [Code.expr, Expr.operatorTree, expr_eq_text t left, expr_eq_text t right]
    cases left.operatorTree t <;> cases right.operatorTree t <;> rfl
  | .parenthesized inner span => by
    rw [Code.expr, Expr.operatorTree, expr_eq_text t inner]
    cases inner.operatorTree t <;> rfl
  | .number _ _ | .string _ _ | .boolean _ _ | .null _ => rfl

theorem exprs_eq_texts (t : Table) : ∀ es : List Expr,
    Code.exprs t es = (Expr.operatorTrees t es).map OperatorTree.texts
  | [] => rfl
  | e :: rest => by
    rw [Code.exprs, Expr.operatorTrees, expr_eq_text t e, exprs_eq_texts t rest]
    cases e.operatorTree t <;> cases Expr.operatorTrees t rest <;> rfl

end

end Bound

namespace Surface

mutual

/-- The operator tree of an expression, unless part of it cannot be read. -/
def Expr.operatorTree? : Expr → Option OperatorTree
  | .ident id => some (.name id.dotted)
  | .binary left op right _ => do
    let left ← left.operatorTree?
    return .binary left op (← right.operatorTree?)
  | .unary op argument _ => return .unary op (← argument.operatorTree?)
  | .condition test yes no _ => do
    let test ← test.operatorTree?
    let yes ← yes.operatorTree?
    return .condition test yes (← no.operatorTree?)
  | .call callee args _ => return .call callee.dotted (← Expr.operatorTrees? args)
  | .assignment left op right _ => do
    let left ← left.operatorTree?
    return .assignment left op (← right.operatorTree?)
  | .parenthesized inner _ => return .group (← inner.operatorTree?)
  | .number value _ => some (.number value)
  | .string text _ => some (.string text)
  | .boolean value _ => some (.boolean value)
  | .null _ => some .null
  | .bad _ => none
  | .stuck _ _ => none

/-- The operator trees of expressions, unless part of them cannot be read. -/
def Expr.operatorTrees? : List Expr → Option (List OperatorTree)
  | [] => some []
  | e :: rest => do
    let first ← e.operatorTree?
    return first :: (← Expr.operatorTrees? rest)

end
end Surface
end BlockC
