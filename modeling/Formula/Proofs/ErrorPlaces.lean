import Formula.Proofs.LexemeFaults
import Formula.Proofs.Refusals
import Formula.Proofs.ShortestDecimal

/-! What an error points at. An error with a span marks one whole lexeme of the text, and what the
error says is true of that lexeme and of the text in front of it, whatever the limits are. -/
namespace Formula

open Binary64 Decimal Grammar

/-- Groups that are open behind a text when `groups` are open in front of it; none can be closed
where none is open. -/
def openBehind (groups : Nat) : List Char → Option Nat
  | [] => some groups
  | c :: text =>
    if c = '(' then openBehind (groups + 1) text
    else if c = ')' then if groups = 0 then none else openBehind (groups - 1) text
    else openBehind groups text

/-- A span marks a part of a text, and the part is one lexeme of the text. -/
structure Marks (span : Span) (text before part after : String) : Prop where
  text_eq : text = before ++ part ++ after
  start_eq : span.start = before.utf8ByteSize
  stop_eq : span.stop = (before ++ part).utf8ByteSize
  lexeme : ∃ lexemes l, Cut 0 text.toList lexemes ∧ l ∈ lexemes ∧ l.span = span ∧
    l.chars = part.toList

namespace Marks

variable {span : Span} {text before part after : String}

/-- What is marked is not empty, so an error never points between two characters. -/
theorem start_lt_stop (hMarks : Marks span text before part after) : span.start < span.stop := by
  obtain ⟨lexemes, l, _, _, rfl, _⟩ := hMarks.lexeme
  exact l.start_lt_stop

theorem stop_le (hMarks : Marks span text before part after) : span.stop ≤ text.utf8ByteSize := by
  have hText : text.utf8ByteSize = (before ++ part).utf8ByteSize + after.utf8ByteSize := by
    rw [hMarks.text_eq, String.utf8ByteSize_append]
  rw [hMarks.stop_eq, hText]
  exact Nat.le_add_right _ _

end Marks

/-- An error names a lexeme by its own text, unless it is a number. A number is named by the
written form of its value, whose digits denote the same number unless that is infinity. -/
def Named (before part after got : String) : Prop :=
  (part ∈ ["+", "-", "*", "/", "(", ")", "sqrt"] ∧ got = part) ∨
    MaximalRun .numeral before.toList part.toList after.toList ∧
      ∃ x, Denotes part.toList (.number x) ∧
        got = String.ofList (TokenKind.numberLayout.write x) ∧
          (rank x < infinityRank → Denotes got.toList (.number x))

/-- What an error says of the part of the text that it points at. -/
def Culprit (limits : Limits) (before part after : String) : ParseError → Prop
  | .unexpectedCharacter ch _ =>
    part = String.singleton ch ∧ ch ∉ ['+', '-', '*', '/', '(', ')']
  | .unknownName name _ =>
    part = name ∧ name ≠ "sqrt" ∧ part.utf8ByteSize ≤ limits.maxLiteralLength ∧
      MaximalRun .name before.toList part.toList after.toList
  | .literalTooLong limit _ =>
    limit = limits.maxLiteralLength ∧ limit < part.utf8ByteSize ∧
      ∃ kind ≠ .single, MaximalRun kind before.toList part.toList after.toList
  | .tooDeep limit _ =>
    limit = limits.maxDepth ∧ part = "(" ∧ openBehind 0 before.toList = some limit
  | .expectedExpression got _ =>
    Named before part after got ∧ ¬ IsRun .numeral part.toList ∧ part ∉ ["(", "-", "sqrt"]
  | .expectedCloseParen got _ =>
    Named before part after got ∧ part ∉ ["+", "-", "*", "/", ")"]
  | .unexpectedToken got _ => Named before part after got ∧ part ∉ ["+", "-", "*", "/"]
  | .tooLong _ | .unexpectedEnd | .stackFull _ | .stackEmpty _ => False

/-- The groups that are open behind a text are counted piece by piece. -/
theorem openBehind_append (groups : Nat) (first second : List Char) :
    openBehind groups (first ++ second) =
      (openBehind groups first).bind fun groups => openBehind groups second := by
  induction first generalizing groups with
  | nil => rfl
  | cons c first ih =>
      simp only [List.cons_append, openBehind, ih]
      split
      · rfl
      · split
        · split
          · rfl
          · rfl
        · rfl

theorem openBehind_eq_self {text : List Char} (hOpen : '(' ∉ text) (hClose : ')' ∉ text)
    (groups : Nat) : openBehind groups text = some groups := by
  induction text with
  | nil => rfl
  | cons c text ih =>
      obtain ⟨hOpen, hOpens⟩ := List.ne_and_not_mem_of_not_mem_cons hOpen
      obtain ⟨hClose, hCloses⟩ := List.ne_and_not_mem_of_not_mem_cons hClose
      rw [openBehind, if_neg hOpen.symm, if_neg hClose.symm]
      exact ih hOpens hCloses

/-- A word opens and closes the groups that its token does. -/
theorem openBehind_word {longest : Nat} {word : List Char} {k : TokenKind}
    (hMeans : Means longest word k) {r next : Reading} (hStep : r.step k = some next) :
    openBehind r.groups.length word = some next.groups.length := by
  have hCount := Reading.groups_step hStep
  cases hMeans with
  | number hRun hChars hLength =>
      have hAbsent {c : Char} (hOther : isNumeralChar c = false) : c ∉ word := by
        intro hc
        rw [hChars c hc] at hOther
        cases hOther
      rw [openBehind_eq_self (hAbsent rfl) (hAbsent rfl)]
      simpa using hCount.symm
  | root hLength =>
      rw [openBehind_eq_self (by decide) (by decide)]
      simpa using hCount.symm
  | binary op =>
      rw [openBehind_eq_self (by cases op <;> decide) (by cases op <;> decide)]
      simpa using hCount.symm
  | openParen =>
      rw [openBehind, if_pos rfl, openBehind]
      exact congrArg some (by simpa using hCount.symm)
  | closeParen =>
      have hGroups : next.groups.length + 1 = r.groups.length := by simpa using hCount
      rw [← hGroups]
      rfl

/-- Behind the text of some tokens as many groups are open as in the reading of the tokens: no word
but a parenthesis contains one. -/
theorem openBehind_cut {longest position : Nat} {text : List Char} {lexemes : List Lexeme}
    (hCut : Cut position text lexemes) {tokens : List Token}
    (hAll : List.Forall₂ (fun l t => Means longest l.chars t.kind ∧ t.span = l.span) lexemes tokens)
    {r last : Reading} (hRun : r.run (tokens.map (·.kind)) = some last) :
    openBehind r.groups.length text = some last.groups.length := by
  induction hCut generalizing tokens r with
  | nil position =>
      cases hAll
      cases hRun
      rfl
  | @blank position c text lexemes hBlank rest ih =>
      have hOpen : c ≠ '(' := by
        rintro rfl
        cases hBlank
      have hClose : c ≠ ')' := by
        rintro rfl
        cases hBlank
      rw [openBehind, if_neg hOpen, if_neg hClose]
      exact ih hAll hRun
  | lexeme l hFirst hOthers hEnd rest ih =>
      obtain ⟨t, tokens, hMeans, hTokens, rfl⟩ := List.forall₂_cons_left_iff.mp hAll
      obtain ⟨next, hStep, hNext⟩ := Option.bind_eq_some_iff.mp hRun
      rw [openBehind_append, openBehind_word hMeans.1 hStep]
      exact ih hTokens hNext

/-- The written form of a number denotes it. -/
theorem denotes_write {x : Float} (hSign : signBit x = false) (hFinite : rank x < infinityRank) :
    Denotes (TokenKind.numberLayout.write x) (.number x) := by
  have hPositional (leading : Int) : TokenKind.numberLayout.isPositional leading = true := rfl
  obtain ⟨q, hStands, hNearest⟩ := exists_standsFor_write hPositional hSign hFinite
  exact .number hStands hSign hNearest

/-- A token names its word. -/
theorem named_of_means {longest : Nat} {word : List Char} {k : TokenKind}
    (hMeans : Means longest word k) {before after : String} {span : Span}
    (hRun : IsRun .numeral word → MaximalRun .numeral before.toList word after.toList) :
    Named before (String.ofList word) after (Token.mk k span).text := by
  cases hMeans with
  | number hWord hChars hLength =>
      obtain ⟨c, text, rfl⟩ := List.exists_cons_of_ne_nil hWord
      obtain ⟨hFirst, hOthers⟩ := List.forall_mem_cons.mp hChars
      obtain ⟨q, hStands⟩ := exists_standsFor hChars
      refine .inr ⟨?_, value (c :: text), ?_, rfl, fun hFinite => ?_⟩
      · rw [String.toList_ofList]
        exact hRun ⟨if_pos hFirst, hOthers⟩
      · rw [String.toList_ofList]
        exact (Means.number hWord hChars hLength).denotes
      · rw [Token.text, String.toList_ofList]
        exact denotes_write hStands.value_isNearest.1 hFinite
  | root hLength => exact .inl ⟨by simp, rfl⟩
  | binary op => cases op <;> exact .inl ⟨by simp [BinaryOp.symbol], rfl⟩
  | openParen => exact .inl ⟨by simp, rfl⟩
  | closeParen => exact .inl ⟨by simp, rfl⟩

/-- A number is none of the other words. -/
theorem ofList_not_mem {word : List Char} (hChars : ∀ c ∈ word, isNumeralChar c = true)
    {names : List String} (hNames : ∀ name ∈ names, name.toList.all isNumeralChar = false) :
    String.ofList word ∉ names := by
  intro hMem
  have hName := hNames _ hMem
  rw [String.toList_ofList, List.all_eq_true.mpr hChars] at hName
  cases hName

/-- What is said of a refused token is true of its word. -/
theorem culprit_of_refuses {limits : Limits} {last : Reading} {k : TokenKind} {span : Span}
    {word : List Char} (hMeans : Means limits.maxLiteralLength word k) {before after : String}
    (hRun : IsRun .numeral word → MaximalRun .numeral before.toList word after.toList)
    (hOpen : openBehind 0 before.toList = some last.groups.length) {e : ParseError}
    (hRefuses : last.Refuses limits ⟨k, span⟩ e) :
    Culprit limits before (String.ofList word) after e := by
  have hNamed : Named before (String.ofList word) after (Token.mk k span).text :=
    named_of_means hMeans hRun
  cases hRefuses with
  | tooDeep hKind hGroups =>
      obtain rfl : k = .openParen := hKind
      cases hMeans
      rw [hGroups] at hOpen
      exact ⟨rfl, rfl, hOpen⟩
  | expectedExpression hNumber hGroup hPrefix hSign =>
      refine ⟨hNamed, ?_⟩
      have hSingle {c : Char} (hOther : isNumeralChar c = false) :
          ¬ IsRun .numeral (String.ofList [c]).toList := by
        rw [String.toList_ofList]
        intro hNumeral
        have hChar := (kind_eq_numeral_iff (l := ⟨c, [], 0⟩)).mp hNumeral.1
        rw [hOther] at hChar
        cases hChar
      cases hMeans with
      | number => exact absurd rfl (hNumber _)
      | root => exact absurd rfl (hPrefix _)
      | openParen => exact absurd rfl hGroup
      | closeParen => exact ⟨hSingle rfl, by decide⟩
      | binary op =>
          cases op with
          | sub => exact absurd rfl hSign
          | add | mul | div => exact ⟨hSingle rfl, by decide⟩
  | expectedCloseParen hBinary hClose =>
      refine ⟨hNamed, ?_⟩
      cases hMeans with
      | number _ hChars _ => exact ofList_not_mem hChars (by decide)
      | binary op => exact absurd rfl (hBinary op)
      | closeParen => exact absurd rfl hClose
      | root | openParen => decide
  | unexpectedToken hBinary =>
      refine ⟨hNamed, ?_⟩
      cases hMeans with
      | number _ hChars _ => exact ofList_not_mem hChars (by decide)
      | binary op => exact absurd rfl (hBinary op)
      | root | openParen | closeParen => decide

/-- What is said of a faulty lexeme is true of it. -/
theorem culprit_of_fault {limits : Limits} {index : Nat} {l : Lexeme} {e : ParseError} {span : Span}
    {before after : String} (hFault : Fault limits index l e) (hSpan : e.span? = some span)
    (hRun : MaximalRun l.kind before.toList l.chars after.toList) :
    span = l.span ∧ Culprit limits before (String.ofList l.chars) after e := by
  have hSize : (String.ofList l.chars).utf8ByteSize = l.length := utf8ByteSize_ofList l.chars
  cases hFault with
  | tooLong hIndex => cases hSpan
  | literalTooLong hIndex hKind hLength =>
      cases hSpan
      refine ⟨rfl, rfl, by omega, l.kind, hKind, ?_⟩
      rw [String.toList_ofList]
      exact hRun
  | unknownName hIndex hKind hLength hName =>
      cases hSpan
      refine ⟨rfl, rfl, hName, by omega, ?_⟩
      rw [String.toList_ofList, ← hKind]
      exact hRun
  | unexpectedCharacter hIndex hKind hSymbol =>
      cases hSpan
      have hAlone : l.others = [] := by
        refine List.eq_nil_iff_forall_not_mem.mpr fun c hc => ?_
        have hGoesOn := hRun.isRun.2 c hc
        rw [hKind] at hGoesOn
        cases hGoesOn
      refine ⟨rfl, ?_, hSymbol⟩
      rw [Lexeme.chars, hAlone, String.singleton_eq_ofList]

/-- The lexemes in front of the first fault are words. -/
theorem FirstFault.exists_fault {limits : Limits} {index : Nat} {lexemes : List Lexeme}
    {e : ParseError} (hFirst : FirstFault limits index lexemes e)
    (hOthers : ∀ l ∈ lexemes, ∀ c ∈ l.others, l.kind.goesOnWith c = true) :
    ∃ before l after index, lexemes = before ++ l :: after ∧ (∀ m ∈ before, m.Uniform) ∧
      Fault limits index l e := by
  induction hFirst with
  | @here index l lexemes e hFault => exact ⟨[], l, lexemes, index, rfl, by simp, hFault⟩
  | @later index m lexemes e hNone rest ih =>
      obtain ⟨hFirst, hRest⟩ := List.forall_mem_cons.mp hOthers
      obtain ⟨before, l, after, place, rfl, hWords, hFault⟩ := ih hRest
      refine ⟨m :: before, l, after, place, rfl, List.forall_mem_cons.mpr ⟨?_, hWords⟩, hFault⟩
      cases hToken : Token.ofLexemeAt limits index m with
      | error e' => exact absurd ((ofLexemeAt_eq_error_iff limits index m e').mp hToken) (hNone e')
      | ok t => exact ((ofLexemeAt_eq_ok_iff limits index hFirst).mp hToken).2.1.uniform

/-- A lexeme that is cut from a text stands between two parts of it. -/
theorem exists_marks {text : String} {lexemes first rest : List Lexeme} {l : Lexeme}
    (hCut : Cut 0 text.toList lexemes) (hLexemes : lexemes = first ++ l :: rest)
    (hWords : ∀ m ∈ first, m.Uniform) :
    ∃ before after, Marks l.span text before (String.ofList l.chars) after ∧
      Cut 0 before.toList first ∧ MaximalRun l.kind before.toList l.chars after.toList := by
  subst lexemes
  obtain ⟨before, after, hText, hStart, hStop, hBefore, hRun⟩ := hCut.split_text
  refine ⟨before, after, ⟨hText, hStart, hStop, ?_⟩, hBefore, hRun hWords⟩
  exact ⟨_, l, hCut, List.mem_append_right _ List.mem_cons_self, rfl, String.toList_ofList.symm⟩

/-- An error of the lexemes points at its culprit. -/
theorem exists_culprit_of_lexemes {limits : Limits} {text : String} {e : ParseError} {span : Span}
    (hTokens : Token.ofChars limits text.toList = .error e) (hSpan : e.span? = some span) :
    ∃ before part after, Marks span text before part after ∧
      Culprit limits before part after e := by
  have hCut : Cut 0 text.toList (Lexeme.scan 0 text.toList) := (cut_iff _ _ _).mpr rfl
  rw [Token.ofChars, ofLexemes_eq_error_iff] at hTokens
  obtain ⟨first, l, rest, index, hLexemes, hWords, hFault⟩ := hTokens.exists_fault hCut.others
  obtain ⟨before, after, hMarks, _, hRun⟩ := exists_marks hCut hLexemes hWords
  obtain ⟨rfl, hCulprit⟩ := culprit_of_fault hFault hSpan hRun
  exact ⟨before, _, after, hMarks, hCulprit⟩

/-- An error of the tokens points at its culprit. -/
theorem exists_culprit_of_tokens {limits : Limits} {text : String} {tokens : List Token}
    (hTokens : Token.ofChars limits text.toList = .ok tokens) {e : ParseError} {span : Span}
    (hError : Expr.ofTokens limits tokens = .error e) (hSpan : e.span? = some span) :
    ∃ before part after, Marks span text before part after ∧
      Culprit limits before part after e := by
  obtain ⟨lexemes, hCut, _, hAll⟩ := (ofChars_eq_ok_iff limits text.toList tokens).mp hTokens
  obtain ⟨read, t, unread, last, rfl, hRun, rfl, hRefuses⟩ := Expr.exists_refuses hError hSpan
  -- All tokens have words, so the lexemes in front of the refused one are runs of one kind.
  have hRead := List.forall₂_take_append _ _ _ hAll
  have hWords := ((List.forall₂_and_left _ _).mp
    (hRead.imp fun m _ hMeans => ⟨hMeans.1.uniform, hMeans⟩)).1
  obtain ⟨l, rest, ⟨hMeans, hPlace⟩, _, hRest⟩ :=
    List.forall₂_cons_right_iff.mp (List.forall₂_drop_append _ _ _ hAll)
  have hLexemes := (List.take_append_drop read.length lexemes).symm
  rw [hRest] at hLexemes
  obtain ⟨before, after, hMarks, hBefore, hMaximal⟩ := exists_marks hCut hLexemes hWords
  rw [← hPlace] at hMarks
  refine ⟨before, _, after, hMarks,
    culprit_of_refuses hMeans (fun hNumeral => ?_) (openBehind_cut hBefore hRead hRun) hRefuses⟩
  have hKind : l.kind = .numeral := hNumeral.1
  rwa [hKind] at hMaximal

/-- An error that has a place in the text points at its culprit. The span holds at least one byte,
lies within the text and marks one whole lexeme of it, of which the error tells the truth. -/
theorem parse_error_culprit (limits : Limits) (text : String) (e : ParseError) (span : Span)
    (hError : Expr.parse limits text = .error e) (hSpan : e.span? = some span) :
    span.start < span.stop ∧ span.stop ≤ text.utf8ByteSize ∧
      ∃ before part after, Marks span text before part after ∧
        Culprit limits before part after e := by
  have hCulprit : ∃ before part after, Marks span text before part after ∧
      Culprit limits before part after e := by
    rw [Expr.parse, Expr.ofChars] at hError
    cases hTokens : Token.ofChars limits text.toList with
    | error e' =>
        rw [hTokens] at hError
        cases hError
        exact exists_culprit_of_lexemes hTokens hSpan
    | ok tokens =>
        rw [hTokens] at hError
        exact exists_culprit_of_tokens hTokens hError hSpan
  obtain ⟨before, part, after, hMarks, _⟩ := id hCulprit
  exact ⟨hMarks.start_lt_stop, hMarks.stop_le, hCulprit⟩

/-- The group that is one too many. -/
theorem parse_tooDeep_culprit :
    let limits : Limits := ⟨8, 8, 1, 8⟩
    let span : Span := ⟨3, 4⟩
    Expr.parse limits "2*((1))" = .error (.tooDeep 1 span) ∧
      (ParseError.tooDeep 1 span).span? = some span ∧ span.start < span.stop ∧
        span.stop ≤ "2*((1))".utf8ByteSize ∧
          ∃ before part after, Marks span "2*((1))" before part after ∧
            Culprit limits before part after (.tooDeep 1 span) := by
  intro limits span
  have hTokens : Token.ofChars limits "2*((1))".toList =
      .ok [⟨.number 2, ⟨0, 1⟩⟩, ⟨.operator (.binary .mul), ⟨1, 2⟩⟩, ⟨.openParen, ⟨2, 3⟩⟩,
        ⟨.openParen, ⟨3, 4⟩⟩, ⟨.number 1, ⟨4, 5⟩⟩, ⟨.closeParen, ⟨5, 6⟩⟩,
        ⟨.closeParen, ⟨6, 7⟩⟩] := by
    rw [String.toList_ofList]
    decide +kernel
  have hError : Expr.parse limits "2*((1))" = .error (.tooDeep 1 span) := by
    rw [Expr.parse, Expr.ofChars, hTokens]
    rfl
  exact ⟨hError, rfl, parse_error_culprit limits _ _ span hError rfl⟩

end Formula
