import Mathlib
import Formula.Proofs.MaximalRuns
import Formula.Proofs.NumeralValue

/-! The tokens of a text, lexeme by lexeme. A text is refused for the first of its lexemes that
something is wrong with; otherwise every lexeme becomes the token that it stands for, and the spans
of the tokens cover all of the text that is not blank. -/
namespace Formula

open Binary64 Decimal

/-- What a word stands for. A number is the nearest double to the decimal number that is written. -/
inductive Denotes : List Char → TokenKind → Prop where
  | number {run : List Char} {q : ℚ} {x : Float} (hRun : StandsFor run q)
      (hSign : signBit x = false) (hNearest : IsNearest q (rank x)) : Denotes run (.number x)
  | root : Denotes ['s', 'q', 'r', 't'] (.operator (.prefixed .sqrt))
  | binary (op : BinaryOp) : Denotes [op.symbol] (.operator (.binary op))
  | openParen : Denotes ['('] .openParen
  | closeParen : Denotes [')'] .closeParen

/-- What is wrong with a lexeme that has the given index in its text. Each fault is looked for
only where there is none of the ones above it. -/
inductive Fault (limits : Limits) (index : Nat) (l : Lexeme) : ParseError → Prop where
  | tooLong (hIndex : limits.maxTokens ≤ index) :
      Fault limits index l (.tooLong limits.maxTokens)
  | literalTooLong (hIndex : index < limits.maxTokens) (hKind : l.kind ≠ .single)
      (hLength : limits.maxLiteralLength < l.length) :
      Fault limits index l (.literalTooLong limits.maxLiteralLength l.span)
  | unknownName (hIndex : index < limits.maxTokens) (hKind : l.kind = .name)
      (hLength : l.length ≤ limits.maxLiteralLength) (hName : String.ofList l.chars ≠ "sqrt") :
      Fault limits index l (.unknownName (String.ofList l.chars) l.span)
  | unexpectedCharacter (hIndex : index < limits.maxTokens) (hKind : l.kind = .single)
      (hSymbol : l.first ∉ ['+', '-', '*', '/', '(', ')']) :
      Fault limits index l (.unexpectedCharacter l.first l.span)

/-- The fault of the first of some lexemes that has any, where the lexemes are counted from the
given index on. -/
inductive FirstFault (limits : Limits) : Nat → List Lexeme → ParseError → Prop where
  | here {index : Nat} {l : Lexeme} {lexemes : List Lexeme} {e : ParseError}
      (hFault : Fault limits index l e) : FirstFault limits index (l :: lexemes) e
  | later {index : Nat} {l : Lexeme} {lexemes : List Lexeme} {e : ParseError}
      (hNone : ∀ e', ¬ Fault limits index l e')
      (rest : FirstFault limits (index + 1) lexemes e) : FirstFault limits index (l :: lexemes) e

/-- The spans follow one another in the text, start and stop between characters, and cover the
bytes of its characters that are no blanks and no others. -/
structure Covers (spans : List Span) (text : String) : Prop where
  nonempty : ∀ s ∈ spans, s.start < s.stop
  ascending : spans.Pairwise fun s t => s.stop ≤ t.start
  boundaries : ∀ s ∈ spans, ∃ before part after, text = before ++ part ++ after ∧
    s.start = before.utf8ByteSize ∧ s.stop = (before ++ part).utf8ByteSize
  bytes : ∀ before c after, text = before ++ String.singleton c ++ after → ∀ position,
    before.utf8ByteSize ≤ position → position < (before ++ String.singleton c).utf8ByteSize →
      ((∃ s ∈ spans, s.start ≤ position ∧ position < s.stop) ↔ isBlank c = false)

/-- Bytes are counted alike for texts and for their characters. -/
theorem utf8ByteSize_ofList (text : List Char) :
    (String.ofList text).utf8ByteSize = byteLength text := by
  induction text with
  | nil => rfl
  | cons c text ih =>
      have hCons : String.ofList (c :: text) = String.singleton c ++ String.ofList text := by
        rw [String.singleton_eq_ofList, ← String.ofList_append, List.singleton_append]
      rw [hCons, String.utf8ByteSize_append, String.utf8ByteSize_singleton, ih, byteLength]

theorem byteLength_toList (text : String) : byteLength text.toList = text.utf8ByteSize := by
  rw [← utf8ByteSize_ofList, String.ofList_toList]

/-- A lexeme has a first character, and every character has a byte at least. -/
theorem Lexeme.start_lt_stop (l : Lexeme) : l.span.start < l.span.stop := by
  have hPos := l.first.utf8Size_pos
  show l.start < l.start + (l.first.utf8Size + byteLength l.others)
  omega

namespace Cut

variable {position : Nat} {text : List Char} {lexemes : List Lexeme}

/-- Lexemes start where the scan does or later. -/
theorem start_le (hCut : Cut position text lexemes) : ∀ l ∈ lexemes, position ≤ l.start := by
  intro l hl
  obtain ⟨first, rest, rfl⟩ := List.append_of_mem hl
  obtain ⟨before, after, _, hStart, _⟩ := hCut.split
  omega

/-- Every lexeme ends before any later one starts. -/
theorem pairwise (hCut : Cut position text lexemes) :
    lexemes.Pairwise fun l m => l.start + l.length ≤ m.start := by
  induction hCut with
  | nil position => exact .nil
  | blank hBlank rest ih => exact ih
  | lexeme l hFirst hOthers hEnd rest ih => exact .cons rest.start_le ih

/-- No lexeme goes on with a blank. -/
theorem isBlank_of_goesOnWith {kind : LexemeKind} {c : Char} (hChar : kind.goesOnWith c = true) :
    isBlank c = false := by
  by_contra hBlank
  simp only [isBlank, Bool.not_eq_false, Bool.or_eq_true, beq_iff_eq] at hBlank
  rcases hBlank with ((((rfl | rfl) | rfl) | rfl) | rfl) | rfl <;> cases kind <;> cases hChar

theorem isBlank_of_mem_chars {l : Lexeme} (hFirst : isBlank l.first = false)
    (hOthers : ∀ c ∈ l.others, l.kind.goesOnWith c = true) :
    ∀ c ∈ l.chars, isBlank c = false := by
  intro c hc
  rcases List.mem_cons.mp hc with rfl | hc
  · exact hFirst
  · exact isBlank_of_goesOnWith (hOthers c hc)

/-- A place in a text that is put together from two is in the second of them or in the first. -/
theorem append_eq_append_cons {first second before after : List Char} {c : Char}
    (hText : first ++ second = before ++ c :: after) :
    (∃ gap, before = first ++ gap ∧ second = gap ++ c :: after) ∨
      ∃ gap, first = before ++ c :: gap := by
  rcases List.append_eq_append_iff.mp hText with hSecond | ⟨gap, rfl, hRest⟩
  · exact .inl hSecond
  · cases gap with
    | nil => exact .inl ⟨[], by simp, hRest.symm⟩
    | cons d gap =>
        obtain ⟨rfl, _⟩ := List.cons.inj hRest
        exact .inr ⟨gap, rfl⟩

/-- A character of the text is part of a lexeme exactly if it is no blank. -/
theorem covered_iff (hCut : Cut position text lexemes) {before after : List Char} {c : Char}
    (hText : text = before ++ c :: after) {p : Nat} (hLow : position + byteLength before ≤ p)
    (hHigh : p < position + byteLength before + c.utf8Size) :
    (∃ l ∈ lexemes, l.start ≤ p ∧ p < l.start + l.length) ↔ isBlank c = false := by
  induction hCut generalizing before with
  | nil position => simp at hText
  | @blank position d text lexemes hBlank rest ih =>
      cases before with
      | nil =>
          obtain ⟨rfl, rfl⟩ := List.cons.inj hText
          rw [byteLength, Nat.add_zero] at hHigh
          refine iff_of_false ?_ (by rw [hBlank]; exact Bool.noConfusion)
          rintro ⟨l, hl, hStart, _⟩
          have hLater := rest.start_le l hl
          omega
      | cons b before =>
          obtain ⟨rfl, rfl⟩ := List.cons.inj hText
          rw [byteLength] at hLow hHigh
          exact ih rfl (by omega) (by omega)
  | @lexeme text lexemes l hFirst hOthers hEnd rest ih =>
      have hLength : l.length = byteLength l.chars := rfl
      rw [List.exists_mem_cons_iff]
      rcases append_eq_append_cons hText with ⟨gap, rfl, hRest⟩ | ⟨gap, hChars⟩
      · rw [byteLength_append] at hLow hHigh
        rw [← ih hRest (by omega) (by omega)]
        refine or_iff_right ?_
        rintro ⟨_, hLess⟩
        omega
      · rw [hChars, byteLength_append, byteLength] at hLength
        refine iff_of_true (.inl ⟨by omega, by omega⟩) ?_
        apply isBlank_of_mem_chars hFirst hOthers
        rw [hChars]
        exact List.mem_append_right _ List.mem_cons_self

end Cut

/-- A text falls apart at each of its lexemes, and the span of the lexeme counts the bytes. -/
theorem Cut.split_text {text : String} {first rest : List Lexeme} {l : Lexeme}
    (hCut : Cut 0 text.toList (first ++ l :: rest)) :
    ∃ before after : String, text = before ++ String.ofList l.chars ++ after ∧
      l.span.start = before.utf8ByteSize ∧
        l.span.stop = (before ++ String.ofList l.chars).utf8ByteSize ∧
          Cut 0 before.toList first ∧
            ((∀ m ∈ first, m.Uniform) →
              MaximalRun l.kind before.toList l.chars after.toList) := by
  obtain ⟨before, after, hText, hStart, hBefore, hRun⟩ := hCut.split
  rw [Nat.zero_add] at hStart
  refine ⟨String.ofList before, String.ofList after, ?_, ?_, ?_, ?_, ?_⟩
  · rw [← String.ofList_append, ← String.ofList_append, List.append_assoc, ← hText,
      String.ofList_toList]
  · rw [utf8ByteSize_ofList]
    exact hStart
  · rw [String.utf8ByteSize_append, utf8ByteSize_ofList, utf8ByteSize_ofList, ← hStart]
    rfl
  · rwa [String.toList_ofList]
  · rwa [String.toList_ofList, String.toList_ofList]

/-- The spans of the lexemes cover the text. -/
theorem Cut.covers {text : String} {lexemes : List Lexeme} (hCut : Cut 0 text.toList lexemes) :
    Covers (lexemes.map (·.span)) text := by
  refine ⟨?_, ?_, ?_, ?_⟩
  · intro s hs
    obtain ⟨l, _, rfl⟩ := List.mem_map.mp hs
    exact l.start_lt_stop
  · exact List.pairwise_map.mpr hCut.pairwise
  · intro s hs
    obtain ⟨l, hl, rfl⟩ := List.mem_map.mp hs
    obtain ⟨first, rest, rfl⟩ := List.append_of_mem hl
    obtain ⟨before, after, hText, hStart, hStop, _⟩ := hCut.split_text
    exact ⟨before, _, after, hText, hStart, hStop⟩
  · intro before c after hText p hLow hHigh
    have hChars : text.toList = before.toList ++ c :: after.toList := by
      rw [hText]
      simp
    have hBefore := byteLength_toList before
    rw [String.utf8ByteSize_append, String.utf8ByteSize_singleton] at hHigh
    rw [← hCut.covered_iff hChars (p := p) (by omega) (by omega)]
    simp only [List.mem_map, exists_exists_and_eq_and]
    rfl

variable {limits : Limits} {index : Nat} {l : Lexeme}

/-- What a word is read as is what it stands for. For a number this says that its value is the
double nearest to the decimal that is written. -/
theorem Means.denotes {longest : Nat} {word : List Char} {k : TokenKind}
    (hMeans : Means longest word k) : Denotes word k := by
  cases hMeans with
  | number hRun hChars hLength =>
      obtain ⟨q, hStands⟩ := exists_standsFor hChars
      obtain ⟨hSign, hNearest⟩ := hStands.value_isNearest
      exact .number hStands hSign hNearest
  | root hLength => exact .root
  | binary op => exact .binary op
  | openParen => exact .openParen
  | closeParen => exact .closeParen

theorem ofChar?_eq_none_iff (c : Char) :
    Token.ofChar? c = none ↔ c ∉ ['+', '-', '*', '/', '(', ')'] := by
  unfold Token.ofChar?
  split <;> simp_all

theorem ofList_eq_sqrt_iff (chars : List Char) :
    String.ofList chars = "sqrt" ↔ chars = Token.rootName := by
  constructor
  · intro hName
    rw [← String.toList_ofList (l := chars), hName]
    rfl
  · rintro rfl
    rfl

/-- A lexeme in itself is no word if it is an unknown name or an unknown character. -/
theorem ofLexeme_eq_error_iff (l : Lexeme) (e : ParseError) :
    Token.ofLexeme l = .error e ↔
      (l.kind = .name ∧ String.ofList l.chars ≠ "sqrt" ∧
        .unknownName (String.ofList l.chars) l.span = e) ∨
      (l.kind = .single ∧ l.first ∉ ['+', '-', '*', '/', '(', ')'] ∧
        .unexpectedCharacter l.first l.span = e) := by
  rw [Token.ofLexeme]
  cases hKind : l.kind with
  | numeral => simp
  | name =>
      rw [Ne, ofList_eq_sqrt_iff]
      by_cases hRoot : l.chars = Token.rootName
      · simp [hRoot]
      · simp [hRoot]
  | single =>
      rw [← ofChar?_eq_none_iff]
      cases hSymbol : Token.ofChar? l.first with
      | some k => simp
      | none => simp

/-- A lexeme is refused for its fault. -/
theorem ofLexemeAt_eq_error_iff (limits : Limits) (index : Nat) (l : Lexeme) (e : ParseError) :
    Token.ofLexemeAt limits index l = .error e ↔ Fault limits index l e := by
  rw [Token.ofLexemeAt]
  constructor
  · intro hError
    by_cases hCount : limits.maxTokens ≤ index
    · rw [if_pos hCount] at hError
      cases hError
      exact .tooLong hCount
    · have hIndex := Nat.not_le.mp hCount
      rw [if_neg hCount] at hError
      by_cases hLong : l.kind ≠ .single ∧ limits.maxLiteralLength < l.length
      · rw [if_pos hLong] at hError
        cases hError
        exact .literalTooLong hIndex hLong.1 hLong.2
      · rw [if_neg hLong, ofLexeme_eq_error_iff] at hError
        rcases hError with ⟨hKind, hName, rfl⟩ | ⟨hKind, hSymbol, rfl⟩
        · have hLength : l.length ≤ limits.maxLiteralLength :=
            Nat.not_lt.mp fun hLess => hLong ⟨by simp [hKind], hLess⟩
          exact .unknownName hIndex hKind hLength hName
        · exact .unexpectedCharacter hIndex hKind hSymbol
  · intro hFault
    cases hFault with
    | tooLong hIndex => exact if_pos hIndex
    | literalTooLong hIndex hKind hLength =>
        rw [if_neg (Nat.not_le.mpr hIndex), if_pos ⟨hKind, hLength⟩]
    | unknownName hIndex hKind hLength hName =>
        rw [if_neg (Nat.not_le.mpr hIndex), if_neg fun hLong => Nat.not_lt.mpr hLength hLong.2,
          ofLexeme_eq_error_iff]
        exact .inl ⟨hKind, hName, rfl⟩
    | unexpectedCharacter hIndex hKind hSymbol =>
        rw [if_neg (Nat.not_le.mpr hIndex), if_neg fun hLong => hLong.1 hKind,
          ofLexeme_eq_error_iff]
        exact .inr ⟨hKind, hSymbol, rfl⟩

theorem no_fault_of_ofLexemeAt {t : Token} (hToken : Token.ofLexemeAt limits index l = .ok t)
    (e : ParseError) : ¬ Fault limits index l e := by
  intro hFault
  rw [← ofLexemeAt_eq_error_iff, hToken] at hFault
  cases hFault

/-- The answer for a list of lexemes is the fault of the first one that has any. -/
theorem ofLexemes_eq_error_iff (limits : Limits) (index : Nat) (lexemes : List Lexeme)
    (e : ParseError) :
    Token.ofLexemes limits index lexemes = .error e ↔ FirstFault limits index lexemes e := by
  induction lexemes generalizing index with
  | nil =>
      refine iff_of_false ?_ ?_
      · intro hError
        cases hError
      · intro hFault
        cases hFault
  | cons l lexemes ih =>
      rw [Token.ofLexemes]
      cases hToken : Token.ofLexemeAt limits index l with
      | error e' =>
          have hFault := (ofLexemeAt_eq_error_iff limits index l e').mp hToken
          constructor
          · intro hError
            cases hError
            exact .here hFault
          · intro hFirst
            cases hFirst with
            | here hOther =>
                rw [← ofLexemeAt_eq_error_iff, hToken] at hOther
                cases hOther
                rfl
            | later hNone _ => exact absurd hFault (hNone e')
      | ok t =>
          have hNone := no_fault_of_ofLexemeAt hToken
          constructor
          · intro hError
            apply FirstFault.later hNone
            rw [← ih]
            cases hRest : Token.ofLexemes limits (index + 1) lexemes with
            | error e' =>
                rw [hRest] at hError
                cases hError
                rfl
            | ok tokens =>
                rw [hRest] at hError
                cases hError
          · intro hFirst
            cases hFirst with
            | here hFault => exact absurd hFault (hNone e)
            | later _ rest =>
                rw [← ih] at rest
                rw [rest]
                rfl

/-- How a text becomes tokens. There is one way to cut it into lexemes by longest match. It is
refused for the first fault of a lexeme, and for nothing else; without a fault every lexeme becomes
one token, which it denotes, and the tokens cover what is not blank. -/
theorem ofChars_firstFault_or_covers (limits : Limits) (text : String) :
    ∃ lexemes, (∀ others, Cut 0 text.toList others ↔ others = lexemes) ∧
      (∀ e, Token.ofChars limits text.toList = .error e ↔ FirstFault limits 0 lexemes e) ∧
        ((∀ e, ¬ FirstFault limits 0 lexemes e) →
          ∃ tokens, Token.ofChars limits text.toList = .ok tokens ∧
            List.Forall₂ (fun l t => Denotes l.chars t.kind ∧ t.span = l.span) lexemes tokens ∧
              Covers (tokens.map (·.span)) text) := by
  refine ⟨Lexeme.scan 0 text.toList, cut_iff 0 text.toList, fun e => ?_, fun hNone => ?_⟩
  · rw [Token.ofChars]
    exact ofLexemes_eq_error_iff limits 0 _ e
  · cases hTokens : Token.ofChars limits text.toList with
    | error e =>
        rw [Token.ofChars, ofLexemes_eq_error_iff] at hTokens
        exact absurd hTokens (hNone e)
    | ok tokens =>
        obtain ⟨lexemes, hCut, _, hAll⟩ := (ofChars_eq_ok_iff limits text.toList tokens).mp hTokens
        obtain rfl := hCut.eq_scan
        have hSpans : List.Forall₂ Eq ((Lexeme.scan 0 text.toList).map (·.span))
            (tokens.map (·.span)) := by
          rw [List.forall₂_map_left_iff, List.forall₂_map_right_iff]
          exact hAll.imp fun l t h => h.2.symm
        rw [List.forall₂_eq_eq_eq] at hSpans
        refine ⟨tokens, rfl, hAll.imp fun l t h => ⟨h.1.denotes, h.2⟩, ?_⟩
        rw [← hSpans]
        exact hCut.covers

/-- A name ends at a point, and a second point is part of the number that it ends. -/
theorem ofChars_root_of_number :
    let lexemes : List Lexeme := [⟨'s', ['q', 'r', 't'], 0⟩, ⟨'.', ['5', '.'], 4⟩]
    Cut 0 "sqrt.5.\t".toList lexemes ∧ (∀ e, ¬ FirstFault .standard 0 lexemes e) ∧
      ∃ tokens, Token.ofChars .standard "sqrt.5.\t".toList = .ok tokens ∧
        List.Forall₂ (fun l t => Denotes l.chars t.kind ∧ t.span = l.span) lexemes tokens ∧
          Covers (tokens.map (·.span)) "sqrt.5.\t" := by
  intro lexemes
  obtain ⟨others, hCut, hError, hOk⟩ := ofChars_firstFault_or_covers .standard "sqrt.5.\t"
  obtain rfl : lexemes = others := by
    rw [← hCut, String.toList_ofList, cut_iff]
    decide +kernel
  have hTokens : Token.ofChars .standard "sqrt.5.\t".toList =
      .ok [⟨.operator (.prefixed .sqrt), ⟨0, 4⟩⟩, ⟨.number 0.5, ⟨4, 7⟩⟩] := by
    rw [String.toList_ofList]
    decide +kernel
  have hNone : ∀ e, ¬ FirstFault .standard 0 lexemes e := by
    intro e
    rw [← hError, hTokens]
    exact nofun
  exact ⟨(hCut _).mpr rfl, hNone, hOk hNone⟩

end Formula
