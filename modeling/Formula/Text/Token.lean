import Formula.Decimal.Layout
import Formula.Decimal.Reading
import Formula.Expr.Basic
import Formula.Text.Lexeme
import Formula.Text.Limits
import Formula.Text.ParseError

/-!
Tokens: lexemes that mean something. Reading them checks the limits on the count of tokens and on
the length of numbers and names.
-/
namespace Formula

/-- Operators that stand in front of their operand. A minus sign is one of them where an operand
is due. -/
inductive PrefixOp where
  | neg
  | sqrt
deriving DecidableEq, Repr

/-- The operator of the node that a prefixed operator makes. -/
def PrefixOp.toUnary : PrefixOp → UnaryOp
  | .neg => .neg
  | .sqrt => .sqrt

/-- Operators in a text. -/
inductive Operator where
  | binary (op : BinaryOp)
  | prefixed (op : PrefixOp)
deriving DecidableEq, Repr

namespace Operator

/-- How tightly an operator binds: operators in front of their operand before multiplication and
division, and these before addition and subtraction. -/
def precedence : Operator → Nat
  | .binary .add | .binary .sub => 1
  | .binary .mul | .binary .div => 2
  | .prefixed _ => 3

/-- Written form of an operator. -/
def text : Operator → List Char
  | .binary op => [op.symbol]
  | .prefixed op => op.toUnary.name

end Operator

/-- What a token is. -/
inductive TokenKind where
  | number (x : Float)
  | operator (op : Operator)
  | openParen
  | closeParen
deriving DecidableEq

/-- A token and where it stands. -/
structure Token where
  kind : TokenKind
  span : Span
deriving DecidableEq

/-- Numbers in messages are written out in full by position, whole ones without a fraction. -/
def TokenKind.numberLayout : Decimal.Layout where
  keepsFraction := false
  isPositional _ := true

namespace Token

/-- Text of a token in messages. -/
def text (t : Token) : String :=
  match t.kind with
  | .number x => String.ofList (TokenKind.numberLayout.write x)
  | .operator op => String.ofList op.text
  | .openParen => "("
  | .closeParen => ")"

/-- The kind of token that a character by itself is. -/
def ofChar? : Char → Option TokenKind
  | '+' => some (.operator (.binary .add))
  | '-' => some (.operator (.binary .sub))
  | '*' => some (.operator (.binary .mul))
  | '/' => some (.operator (.binary .div))
  | '(' => some .openParen
  | ')' => some .closeParen
  | _ => none

/-- The only name that means something. -/
def rootName : List Char := ['s', 'q', 'r', 't']

/-- Meaning of a lexeme that is not too long. -/
def ofLexeme (l : Lexeme) : Except ParseError Token :=
  match l.kind with
  | .numeral => .ok ⟨.number (Decimal.value l.chars), l.span⟩
  | .name =>
    if l.chars = rootName then .ok ⟨.operator (.prefixed .sqrt), l.span⟩
    else .error (.unknownName (String.ofList l.chars) l.span)
  | .single =>
    match ofChar? l.first with
    | some kind => .ok ⟨kind, l.span⟩
    | none => .error (.unexpectedCharacter l.first l.span)

/-- Meaning of the lexeme with the given index in its text. The count of tokens is checked first,
then the length of a number or a name. -/
def ofLexemeAt (limits : Limits) (index : Nat) (l : Lexeme) : Except ParseError Token :=
  if limits.maxTokens ≤ index then .error (.tooLong limits.maxTokens)
  else if l.kind ≠ .single ∧ limits.maxLiteralLength < l.length then
    .error (.literalTooLong limits.maxLiteralLength l.span)
  else ofLexeme l

/-- Meanings of lexemes, of which the first has the given index; the first failure is the
answer. -/
def ofLexemes (limits : Limits) (index : Nat) : List Lexeme → Except ParseError (List Token)
  | [] => .ok []
  | l :: lexemes => do
    let token ← ofLexemeAt limits index l
    let tokens ← ofLexemes limits (index + 1) lexemes
    pure (token :: tokens)

/-- The tokens of a text. -/
def ofChars (limits : Limits) (text : List Char) : Except ParseError (List Token) :=
  ofLexemes limits 0 (Lexeme.scan 0 text)

end Token

end Formula
