import Formula.Text.Span

/-!
Lexemes: the pieces that a text falls into by longest match. Cutting a text never fails; whether a
lexeme means something is decided afterwards.
-/
namespace Formula

/-- The characters that separate lexemes and are no part of any: space, tab, line feed, vertical
tab, form feed and carriage return. -/
def isBlank (c : Char) : Bool :=
  c == ' ' || c == '\t' || c == '\n' || c == '\x0b' || c == '\x0c' || c == '\r'

/-- Digits and points: a number starts with one and goes on with them. -/
def isNumeralChar (c : Char) : Bool :=
  c.isDigit || c == '.'

/-- Characters that a name starts with. -/
def isNameStart (c : Char) : Bool :=
  c.isAlpha || c == '_'

/-- Characters that a name goes on with. -/
def isNameChar (c : Char) : Bool :=
  c.isAlphanum || c == '_'

/-- The kinds of lexemes: runs of digits and points, names, and all other characters, each of
which stands by itself. -/
inductive LexemeKind where
  | numeral
  | name
  | single
deriving DecidableEq, Repr

/-- Kind of the lexeme that starts with the given character. -/
def LexemeKind.ofFirst (c : Char) : LexemeKind :=
  if isNumeralChar c then .numeral else if isNameStart c then .name else .single

/-- Whether a lexeme of this kind goes on with the given character. -/
def LexemeKind.goesOnWith : LexemeKind → Char → Bool
  | .numeral => isNumeralChar
  | .name => isNameChar
  | .single => fun _ => false

/-- Length of the UTF-8 form of a text. -/
def byteLength : List Char → Nat
  | [] => 0
  | c :: text => c.utf8Size + byteLength text

/-- The length of two texts in a row is the sum of theirs. -/
theorem byteLength_append (first second : List Char) :
    byteLength (first ++ second) = byteLength first + byteLength second := by
  induction first with
  | nil => simp [byteLength]
  | cons c text ih =>
    rw [List.cons_append, byteLength, byteLength, ih]
    omega

/-- A piece of a text: its first character, the others, and the position of its first byte. -/
structure Lexeme where
  first : Char
  others : List Char
  start : Nat
deriving DecidableEq, Repr

namespace Lexeme

/-- Kind of a lexeme, told by its first character. -/
def kind (l : Lexeme) : LexemeKind := LexemeKind.ofFirst l.first

/-- The characters of a lexeme. -/
def chars (l : Lexeme) : List Char := l.first :: l.others

/-- Length of a lexeme in bytes. -/
def length (l : Lexeme) : Nat := byteLength l.chars

/-- The bytes of the text that a lexeme covers. -/
def span (l : Lexeme) : Span := ⟨l.start, l.start + l.length⟩

theorem length_dropWhile_lt (p : Char → Bool) (c : Char) (text : List Char) :
    (text.dropWhile p).length < (c :: text).length :=
  Nat.lt_succ_of_le (List.dropWhile_suffix p).length_le

/-- The lexemes of a text that starts at the given byte. -/
def scan (position : Nat) : List Char → List Lexeme
  | [] => []
  | c :: text =>
    if isBlank c then scan (position + c.utf8Size) text
    else
      let goesOn := (LexemeKind.ofFirst c).goesOnWith
      let l : Lexeme := ⟨c, text.takeWhile goesOn, position⟩
      l :: scan (position + l.length) (text.dropWhile goesOn)
termination_by text => text.length
decreasing_by
  · simp
  · exact length_dropWhile_lt _ c text

end Lexeme

end Formula
