import Formula.Text.Span

/-!
What can be wrong with a text that should be an expression.
-/
namespace Formula

/-- The two stacks on which an expression is put together. -/
inductive StackKind where
  | operand
  | operator
deriving DecidableEq, Repr

/-- Name of a stack in a message. -/
def StackKind.name : StackKind → String
  | .operand => "operand"
  | .operator => "operator"

/-- Why a text is no expression. The first four concern a single lexeme, the next four the order
of tokens, and the others the limits of the reader. -/
inductive ParseError where
  | unexpectedCharacter (ch : Char) (span : Span)
  | unknownName (name : String) (span : Span)
  | literalTooLong (limit : Nat) (span : Span)
  | tooLong (limit : Nat)
  | unexpectedEnd
  | expectedCloseParen (got : String) (span : Span)
  | expectedExpression (got : String) (span : Span)
  | unexpectedToken (got : String) (span : Span)
  | stackFull (stack : StackKind)
  | stackEmpty (stack : StackKind)
  | tooDeep (limit : Nat) (span : Span)
deriving DecidableEq, Repr

namespace ParseError

/-- Message for the user. -/
def message : ParseError → String
  | .unexpectedCharacter ch span =>
    "unexpected character '" ++ ch.toString ++ "'" ++ span.text
  | .unknownName name span => "unknown name '" ++ name ++ "'" ++ span.text
  | .literalTooLong limit span =>
    "literal longer than " ++ limit.repr ++ " characters" ++ span.text
  | .tooLong limit => "input too long: more than " ++ limit.repr ++ " tokens"
  | .unexpectedEnd => "end of expression unexpected"
  | .expectedCloseParen got span => "expected: ), but got '" ++ got ++ "'" ++ span.text
  | .expectedExpression got span => "expected expression, but got '" ++ got ++ "'" ++ span.text
  | .unexpectedToken got span =>
    "unexpected '" ++ got ++ "' after complete expression" ++ span.text
  | .stackFull stack => stack.name ++ " stack full"
  | .stackEmpty stack => stack.name ++ " stack empty"
  | .tooDeep limit span =>
    "parentheses nested deeper than " ++ limit.repr ++ " levels" ++ span.text

/-- The part of the text that an error points at, if it points at one. -/
def span? : ParseError → Option Span
  | .unexpectedCharacter _ span | .unknownName _ span | .literalTooLong _ span
  | .expectedCloseParen _ span | .expectedExpression _ span | .unexpectedToken _ span
  | .tooDeep _ span => some span
  | .tooLong _ | .unexpectedEnd | .stackFull _ | .stackEmpty _ => none

end ParseError

end Formula
