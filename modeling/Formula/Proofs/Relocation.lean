import Formula.Proofs.Cutting
import Formula.Proofs.StackReading

/-! Answers do not depend on places. What is read is told by the characters of the lexemes and by
their order; a span is passed on from a lexeme to its token and from the token to an error, and
nothing looks at it on the way. So lexemes with the same characters at other places get the same
answer, with the places changed. -/
namespace Formula

open Grammar

namespace ParseError

/-- The error with another place, if it has one. -/
def movedTo (span : Span) : ParseError → ParseError
  | .unexpectedCharacter ch _ => .unexpectedCharacter ch span
  | .unknownName name _ => .unknownName name span
  | .literalTooLong limit _ => .literalTooLong limit span
  | .expectedCloseParen got _ => .expectedCloseParen got span
  | .expectedExpression got _ => .expectedExpression got span
  | .unexpectedToken got _ => .unexpectedToken got span
  | .tooDeep limit _ => .tooDeep limit span
  | .tooLong limit => .tooLong limit
  | .unexpectedEnd => .unexpectedEnd
  | .stackFull stack => .stackFull stack
  | .stackEmpty stack => .stackEmpty stack

/-- The errors say the same: of nothing in the text, or of two places that correspond. -/
inductive SameAt (Places : Span → Span → Prop) : ParseError → ParseError → Prop where
  | unplaced {e : ParseError} (hSpan : e.span? = none) : SameAt Places e e
  | placed {e : ParseError} {s s' : Span} (hSpan : e.span? = some s) (hPlaces : Places s s') :
      SameAt Places e (e.movedTo s')

end ParseError

/-- The answers are the same: values that correspond, or one error at places that correspond. -/
inductive SameAnswer {α β : Type} (Places : Span → Span → Prop) (Same : α → β → Prop) :
    Except ParseError α → Except ParseError β → Prop where
  | ok {a : α} {b : β} (hSame : Same a b) : SameAnswer Places Same (.ok a) (.ok b)
  | error {e e' : ParseError} (hSame : e.SameAt Places e') :
      SameAnswer Places Same (.error e) (.error e')

/-- The tokens are of one kind, at places that correspond. -/
def Token.SameAt (Places : Span → Span → Prop) (t t' : Token) : Prop :=
  t.kind = t'.kind ∧ Places t.span t'.span

variable {Places : Span → Span → Prop}

namespace SameAnswer

variable {α β γ δ : Type} {Same : α → β → Prop} {Then : γ → δ → Prop}

/-- What goes on from values that correspond has the same answers. -/
theorem bind {x : Except ParseError α} {y : Except ParseError β} {f : α → Except ParseError γ}
    {g : β → Except ParseError δ} (hFirst : SameAnswer Places Same x y)
    (hRest : ∀ a b, Same a b → SameAnswer Places Then (f a) (g b)) :
    SameAnswer Places Then (x >>= f) (y >>= g) := by
  cases hFirst with
  | ok hSame => exact hRest _ _ hSame
  | error hSame => exact .error hSame

theorem unplaced {e : ParseError} (hSpan : e.span? = none) :
    SameAnswer Places Same (.error e) (.error e) :=
  .error (.unplaced hSpan)

/-- An error is moved by naming the other place in it. -/
theorem placed {e : ParseError} {s s' : Span} (hSpan : e.span? = some s) (hPlaces : Places s s') :
    SameAnswer Places Same (.error e) (.error (e.movedTo s')) :=
  .error (.placed hSpan hPlaces)

end SameAnswer

/-- What a lexeme becomes is told by its characters; its place is only passed on. -/
theorem sameAnswer_ofLexeme (l : Lexeme) {start : Nat}
    (hPlaces : Places l.span { l with start := start }.span) :
    SameAnswer Places (Token.SameAt Places) (Token.ofLexeme l)
      (Token.ofLexeme { l with start := start }) := by
  have hKind : Lexeme.kind { l with start := start } = l.kind := rfl
  have hChars : Lexeme.chars { l with start := start } = l.chars := rfl
  rw [Token.ofLexeme, Token.ofLexeme, hKind, hChars]
  cases l.kind with
  | numeral => exact .ok ⟨rfl, hPlaces⟩
  | name =>
      by_cases hRoot : l.chars = Token.rootName
      · simp only [if_pos hRoot]
        exact .ok ⟨rfl, hPlaces⟩
      · simp only [if_neg hRoot]
        exact .placed rfl hPlaces
  | single =>
      cases Token.ofChar? l.first with
      | some k => exact .ok ⟨rfl, hPlaces⟩
      | none => exact .placed rfl hPlaces

/-- Lexemes of the same characters meet the same limits, because lengths are counted in bytes. -/
theorem sameAnswer_ofLexemeAt (limits : Limits) (index : Nat) {l l' : Lexeme}
    (hChars : l.chars = l'.chars) (hPlaces : Places l.span l'.span) :
    SameAnswer Places (Token.SameAt Places) (Token.ofLexemeAt limits index l)
      (Token.ofLexemeAt limits index l') := by
  obtain ⟨start, rfl⟩ : ∃ start, l' = { l with start := start } := by
    obtain ⟨hFirst, hOthers⟩ := List.cons.inj hChars
    exact ⟨l'.start, by rw [hFirst, hOthers]⟩
  have hKind : Lexeme.kind { l with start := start } = l.kind := rfl
  have hLength : Lexeme.length { l with start := start } = l.length := rfl
  rw [Token.ofLexemeAt, Token.ofLexemeAt, hKind, hLength]
  by_cases hCount : limits.maxTokens ≤ index
  · rw [if_pos hCount, if_pos hCount]
    exact .unplaced rfl
  · rw [if_neg hCount, if_neg hCount]
    by_cases hLong : l.kind ≠ .single ∧ limits.maxLiteralLength < l.length
    · rw [if_pos hLong, if_pos hLong]
      exact .placed rfl hPlaces
    · rw [if_neg hLong, if_neg hLong]
      exact sameAnswer_ofLexeme l hPlaces

/-- Lists of lexemes with the same characters become the same tokens, or fail at lexemes of the same
number. -/
theorem sameAnswer_ofLexemes (limits : Limits) (index : Nat) {lexemes lexemes' : List Lexeme}
    (hAll : List.Forall₂ (fun l l' => l.chars = l'.chars ∧ Places l.span l'.span)
      lexemes lexemes') :
    SameAnswer Places (List.Forall₂ (Token.SameAt Places)) (Token.ofLexemes limits index lexemes)
      (Token.ofLexemes limits index lexemes') := by
  induction hAll generalizing index with
  | nil => exact .ok .nil
  | cons hLexeme _ ih =>
      have hFirst := sameAnswer_ofLexemeAt limits index hLexeme.1 hLexeme.2
      refine hFirst.bind fun t t' hToken => (ih (index + 1)).bind fun tokens tokens' hTokens => ?_
      exact .ok (.cons hToken hTokens)

theorem Token.text_eq {t t' : Token} (hKind : t.kind = t'.kind) : t.text = t'.text := by
  rw [text, text, hKind]

namespace Grammar.Reading

variable {t t' : Token}

/-- A step is checked for its token alone, and an error shows the token by its kind. -/
theorem sameAnswer_check (limits : Limits) (base : Stacks) (r : Reading)
    (hToken : t.SameAt Places t') :
    SameAnswer Places Eq (r.check limits base t) (r.check limits base t') := by
  cases r with
  | due l outer =>
      rw [check, check, ← hToken.1]
      split
      · exact .placed rfl hToken.2
      · split
        · exact .unplaced rfl
        · exact .ok rfl
  | done c outer f =>
      rw [check, check]
      split
      · exact .unplaced rfl
      · exact .ok rfl

/-- A reading goes the same way through tokens of the same kinds, and leaves the same tokens. -/
theorem sameAnswer_finish (limits : Limits) (base : Stacks) (r : Reading)
    {tokens tokens' : List Token} (hAll : List.Forall₂ (Token.SameAt Places) tokens tokens') :
    SameAnswer Places (fun a b => a.1 = b.1 ∧ List.Forall₂ (Token.SameAt Places) a.2 b.2)
      (r.finish limits base tokens) (r.finish limits base tokens') := by
  induction hAll generalizing r with
  | nil =>
      rw [finish]
      cases r.sum? with
      | some s => exact .ok ⟨rfl, .nil⟩
      | none => exact .unplaced rfl
  | @cons t t' tokens tokens' hToken hRest ih =>
      rw [finish, finish, ← hToken.1]
      cases r.step t.kind with
      | some next => exact (sameAnswer_check limits base next hToken).bind fun _ _ _ => ih next
      | none =>
          cases r.sum? with
          | some s => exact .ok ⟨rfl, .cons hToken hRest⟩
          | none =>
              cases r with
              | due l outer =>
                  simp only [rejection, ← Token.text_eq hToken.1]
                  exact .placed rfl hToken.2
              | done c outer f =>
                  simp only [rejection, ← Token.text_eq hToken.1]
                  exact .placed rfl hToken.2

end Grammar.Reading

/-- The reader finds the same expression in the same tokens, or the same error at places that
correspond. -/
theorem Expr.sameAnswer_ofTokens (limits : Limits) {tokens tokens' : List Token}
    (hAll : List.Forall₂ (Token.SameAt Places) tokens tokens') :
    SameAnswer Places Eq (ofTokens limits tokens) (ofTokens limits tokens') := by
  rw [ofTokens_eq, ofTokens_eq]
  split
  · exact .unplaced rfl
  · refine (Reading.sameAnswer_finish limits .empty .start hAll).bind ?_
    rintro ⟨s, rest⟩ ⟨s', rest'⟩ ⟨rfl, hRest⟩
    cases hRest with
    | nil => exact .ok rfl
    | @cons t t' rest rest' hToken _ =>
        simp only [← Token.text_eq hToken.1]
        exact .placed rfl hToken.2

/-- The spans are those of the lexemes with one number. -/
def SameNumber (lexemes lexemes' : List Lexeme) (s s' : Span) : Prop :=
  ∃ (i : Nat) (l l' : Lexeme), lexemes[i]? = some l ∧ lexemes'[i]? = some l' ∧
    s = l.span ∧ s' = l'.span

/-- Lexemes of the same words correspond by their numbers. -/
theorem forall₂_sameNumber {lexemes lexemes' : List Lexeme}
    (hWords : lexemes.map (·.chars) = lexemes'.map (·.chars)) :
    List.Forall₂ (fun l l' => l.chars = l'.chars ∧ SameNumber lexemes lexemes' l.span l'.span)
      lexemes lexemes' := by
  have hLength : lexemes.length = lexemes'.length := by
    rw [← List.length_map (·.chars), hWords, List.length_map]
  refine List.forall₂_iff_get.mpr ⟨hLength, fun i hFirst hSecond => ⟨?_, ?_⟩⟩
  · have hWord := congrArg (·[i]?) hWords
    simpa [hFirst, hSecond] using hWord
  · exact ⟨i, _, _, List.getElem?_eq_getElem hFirst, List.getElem?_eq_getElem hSecond, rfl, rfl⟩

/-- Texts that fall into the same words have the same answer. An error is at the lexeme of the same
number. -/
theorem sameAnswer_of_words (limits : Limits) {text text' : String}
    (hWords : (Lexeme.scan 0 text.toList).map (·.chars) =
      (Lexeme.scan 0 text'.toList).map (·.chars)) :
    SameAnswer (SameNumber (Lexeme.scan 0 text.toList) (Lexeme.scan 0 text'.toList)) Eq
      (Expr.parse limits text) (Expr.parse limits text') :=
  (sameAnswer_ofLexemes limits 0 (forall₂_sameNumber hWords)).bind
    fun _ _ => Expr.sameAnswer_ofTokens limits

end Formula
