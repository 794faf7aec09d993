import Formula.Proofs.LexemeFaults
import Formula.Proofs.Relocation

/-! Blanks between lexemes. Two texts in a row are cut as each of them alone, unless a lexeme at the
end of the first goes on with the start of the second. No lexeme goes on with a blank, so blanks
may be put between lexemes, and taken away where nothing runs together: words and answers stay. -/
namespace Formula

/-- No lexeme that ends at the place goes on with the text that starts there. -/
def Seam (lexemes : List Lexeme) (place : Nat) (text : List Char) : Prop :=
  ∀ l ∈ lexemes, l.span.stop = place → ∀ c ∈ text.head?, l.kind.goesOnWith c = false

/-- Every character has a byte at least. -/
theorem byteLength_eq_zero_iff {text : List Char} : byteLength text = 0 ↔ text = [] := by
  cases text with
  | nil => exact iff_of_true rfl rfl
  | cons c text =>
      have hPos := c.utf8Size_pos
      simp only [byteLength, reduceCtorEq, iff_false]
      omega

namespace Cut

variable {position : Nat} {first second : List Char} {lexemes lexemes' all : List Lexeme}

/-- Texts that meet at a seam are cut one after the other. -/
theorem append (hFirst : Cut position first lexemes)
    (hSecond : Cut (position + byteLength first) second lexemes')
    (hSeam : Seam lexemes (position + byteLength first) second) :
    Cut position (first ++ second) (lexemes ++ lexemes') := by
  induction hFirst with
  | nil position => exact hSecond
  | @blank position c text lexemes hBlank rest ih =>
      rw [byteLength, ← Nat.add_assoc] at hSecond hSeam
      exact .blank hBlank (ih hSecond hSeam)
  | @lexeme text lexemes l hFirst hOthers hEnd rest ih =>
      rw [byteLength_append, ← Nat.add_assoc] at hSecond hSeam
      obtain ⟨hHere, hLater⟩ := List.forall_mem_cons.mp hSeam
      rw [List.append_assoc, List.cons_append]
      refine .lexeme l hFirst hOthers ?_ (ih hSecond hLater)
      cases text with
      | nil => exact hHere rfl
      | cons c text => exact hEnd

/-- A text that is cut falls apart at every place that is strictly inside no lexeme. -/
theorem of_append (hCut : Cut position (first ++ second) all)
    (hPlace : ∀ l ∈ all, l.kind ≠ .single →
      ¬ (l.span.start < position + byteLength first ∧ position + byteLength first < l.span.stop)) :
    ∃ lexemes lexemes', all = lexemes ++ lexemes' ∧ Cut position first lexemes ∧
      Cut (position + byteLength first) second lexemes' ∧
        Seam lexemes (position + byteLength first) second := by
  generalize hText : first ++ second = text at hCut
  induction hCut generalizing first with
  | nil position =>
      obtain ⟨rfl, rfl⟩ := List.append_eq_nil_iff.mp hText
      exact ⟨[], [], rfl, .nil position, .nil position, List.forall_mem_nil _⟩
  | @blank position c text all hBlank rest ih =>
      cases first with
      | nil =>
          obtain rfl : second = c :: text := hText
          exact ⟨[], all, rfl, .nil position, .blank hBlank rest, List.forall_mem_nil _⟩
      | cons d first =>
          obtain ⟨rfl, hRest⟩ := List.cons.inj hText
          rw [byteLength, ← Nat.add_assoc] at hPlace ⊢
          obtain ⟨lexemes, lexemes', hAll, hFirst, hSecond, hSeam⟩ := ih hPlace hRest
          exact ⟨lexemes, lexemes', hAll, .blank hBlank hFirst, hSecond, hSeam⟩
  | @lexeme text all l hFirst hOthers hEnd rest ih =>
      obtain ⟨hHere, hLater⟩ := List.forall_mem_cons.mp hPlace
      have hBehind (gap : List Char) (hGap : first = l.chars ++ gap)
          (hRest : gap ++ second = text) :
          ∃ lexemes lexemes', l :: all = lexemes ++ lexemes' ∧ Cut l.start first lexemes ∧
            Cut (l.start + byteLength first) second lexemes' ∧
              Seam lexemes (l.start + byteLength first) second := by
        subst first
        rw [byteLength_append, ← Nat.add_assoc] at hLater ⊢
        obtain ⟨lexemes, lexemes', rfl, hBefore, hSecond, hSeam⟩ := ih hLater hRest
        refine ⟨l :: lexemes, lexemes', rfl, .lexeme l hFirst hOthers ?_ hBefore, hSecond,
          List.forall_mem_cons.mpr ⟨fun hStop => ?_, hSeam⟩⟩
        · intro c hc
          apply hEnd
          rw [← hRest, List.head?_append, Option.mem_def.mp hc]
          rfl
        · have hNone : byteLength gap = 0 := Nat.left_eq_add.mp hStop
          rw [byteLength_eq_zero_iff] at hNone
          rw [hNone, List.nil_append] at hRest
          exact hRest ▸ hEnd
      rcases List.append_eq_append_iff.mp hText with ⟨gap, hChars, hRest⟩ | ⟨gap, hGap, hRest⟩
      · cases first with
        | nil =>
            rw [List.nil_append] at hChars
            rw [hRest, ← hChars]
            exact ⟨[], l :: all, rfl, .nil _, .lexeme l hFirst hOthers hEnd rest,
              List.forall_mem_nil _⟩
        | cons c first =>
            cases gap with
            | nil => exact hBehind [] (by rw [hChars, List.append_nil, List.append_nil]) hRest
            | cons d gap =>
                -- The place is between two characters of the lexeme.
                have hOther : d ∈ l.others := by
                  rw [(List.cons.inj hChars).2]
                  simp
                have hKind : l.kind ≠ .single := by
                  intro hSingle
                  have hGoesOn := hOthers d hOther
                  rw [hSingle] at hGoesOn
                  cases hGoesOn
                have hStop : l.span.stop = l.start + byteLength (c :: first) +
                    byteLength (d :: gap) := by
                  rw [Nat.add_assoc, ← byteLength_append, ← hChars]
                  rfl
                have hC := c.utf8Size_pos
                have hD := d.utf8Size_pos
                rw [hStop] at hHere
                simp only [byteLength] at hHere
                exact absurd ⟨show l.start < _ by omega, by omega⟩ (hHere hKind)
      · exact hBehind gap hGap hRest.symm

/-- The words of a text are the same wherever it stands. -/
theorem cutInto (hCut : Cut position first lexemes) : CutInto first (lexemes.map (·.chars)) := by
  induction hCut with
  | nil position => exact cutInto_nil
  | blank hBlank rest ih => exact ih.cons hBlank
  | lexeme l hFirst hOthers hEnd rest ih => exact ih.word hFirst hOthers hEnd

/-- A lexeme that stops where the text does has the last character of the text. -/
theorem exists_getLast? (hCut : Cut position first lexemes) {l : Lexeme} (hMem : l ∈ lexemes)
    (hStop : l.span.stop = position + byteLength first) :
    ∃ c ∈ first.getLast?, c ∈ l.chars := by
  obtain ⟨others, rest, rfl⟩ := List.append_of_mem hMem
  obtain ⟨before, after, rfl, hStart, -, -⟩ := hCut.split
  have hLength : l.span.stop = l.start + byteLength l.chars := rfl
  rw [byteLength_append, byteLength_append] at hStop
  have hNone : byteLength after = 0 := by omega
  rw [byteLength_eq_zero_iff] at hNone
  have hWord : l.chars ≠ [] := List.cons_ne_nil _ _
  refine ⟨l.chars.getLast hWord, ?_, List.getLast_mem hWord⟩
  rw [hNone, List.append_nil, List.getLast?_append, List.getLast?_eq_some_getLast hWord]
  rfl

end Cut

variable {before blanks after : List Char} {lexemes : List Lexeme}

theorem CutInto.prepend_blanks (hBlanks : ∀ c ∈ blanks, isBlank c = true) {words : List (List Char)}
    (hText : CutInto after words) : CutInto (blanks ++ after) words := by
  induction blanks with
  | nil => exact hText
  | cons c blanks ih =>
      obtain ⟨hFirst, hRest⟩ := List.forall_mem_cons.mp hBlanks
      exact (ih hRest).cons hFirst

/-- A blank ends every lexeme. -/
theorem seam_of_isBlank {c : Char} (hBlank : isBlank c = true) (place : Nat) :
    Seam lexemes place (c :: after) := by
  intro l _ _
  apply ends_cons
  by_contra hGoesOn
  rw [Bool.not_eq_false] at hGoesOn
  rw [Cut.isBlank_of_goesOnWith hGoesOn] at hBlank
  cases hBlank

theorem Seam.prepend_blanks {place : Nat} (hSeam : Seam lexemes place after)
    (hBlanks : ∀ c ∈ blanks, isBlank c = true) : Seam lexemes place (blanks ++ after) := by
  cases blanks with
  | nil => exact hSeam
  | cons c blanks => exact seam_of_isBlank (hBlanks c List.mem_cons_self) place

namespace Cut

/-- Blanks that are put between lexemes change no word. -/
theorem words_insert (hBlanks : ∀ c ∈ blanks, isBlank c = true)
    (hCut : Cut 0 (before ++ after) lexemes)
    (hPlace : ∀ l ∈ lexemes, l.kind ≠ .single →
      ¬ (l.span.start < byteLength before ∧ byteLength before < l.span.stop)) :
    ∃ lexemes', Cut 0 (before ++ (blanks ++ after)) lexemes' ∧
      lexemes.map (·.chars) = lexemes'.map (·.chars) := by
  rw [← Nat.zero_add (byteLength before)] at hPlace
  obtain ⟨first, second, rfl, hFirst, hSecond, hSeam⟩ := hCut.of_append hPlace
  obtain ⟨moved, hMoved, hWords⟩ := hSecond.cutInto.prepend_blanks hBlanks (0 + byteLength before)
  refine ⟨first ++ moved, hFirst.append hMoved (hSeam.prepend_blanks hBlanks), ?_⟩
  rw [List.map_append, List.map_append, hWords]

/-- Blanks are taken away from between lexemes that do not run together without them. -/
theorem words_delete (hBlanks : ∀ c ∈ blanks, isBlank c = true)
    (hCut : Cut 0 (before ++ (blanks ++ after)) lexemes)
    (hNumeral : ∀ c ∈ before.getLast?, ∀ d ∈ after.head?,
      ¬ (isNumeralChar c = true ∧ isNumeralChar d = true))
    (hName : ∀ l ∈ lexemes, l.kind = .name → l.span.stop = byteLength before →
      ∀ d ∈ after.head?, isNameChar d = false) :
    ∃ lexemes', Cut 0 (before ++ after) lexemes' ∧
      lexemes'.map (·.chars) = lexemes.map (·.chars) := by
  cases blanks with
  | nil => exact ⟨lexemes, hCut, rfl⟩
  | cons b blanks =>
      have hFirst := cut_scan 0 before
      have hSecond := cut_scan (0 + byteLength before) after
      obtain ⟨moved, hMoved, hWords⟩ :=
        hSecond.cutInto.prepend_blanks hBlanks (0 + byteLength before)
      have hBlank : isBlank b = true := hBlanks b List.mem_cons_self
      obtain rfl := hCut.unique (hFirst.append hMoved (seam_of_isBlank hBlank _))
      refine ⟨_, hFirst.append hSecond ?_, by rw [List.map_append, List.map_append, hWords]⟩
      intro l hMem hStop d hd
      cases hKind : l.kind with
      | single => rfl
      | name =>
          rw [Nat.zero_add] at hStop
          exact hName l (List.mem_append_left _ hMem) hKind hStop d hd
      | numeral =>
          obtain ⟨c, hLast, hChar⟩ := hFirst.exists_getLast? hMem hStop
          have hDigit : isNumeralChar c = true := by
            rcases List.mem_cons.mp hChar with rfl | hOther
            · exact kind_eq_numeral_iff.mp hKind
            · have hGoesOn := hFirst.others l hMem c hOther
              rwa [hKind] at hGoesOn
          exact Bool.eq_false_iff.mpr fun hGoesOn => hNumeral c hLast d hd ⟨hDigit, hGoesOn⟩

end Cut

/-- The place between the two parts of a text is strictly inside none of its numbers and names. -/
def Insertable (before after : String) : Prop :=
  ∀ l ∈ Lexeme.scan 0 (before ++ after).toList, l.kind ≠ .single →
    ¬ (l.span.start < before.utf8ByteSize ∧ before.utf8ByteSize < l.span.stop)

/-- The blanks of a text do not stand between two characters of numbers, and not between a name and
a character that names go on with. -/
structure Deletable (before blanks after : String) : Prop where
  numeral : ∀ c ∈ before.toList.getLast?, ∀ d ∈ after.toList.head?,
    ¬ (isNumeralChar c = true ∧ isNumeralChar d = true)
  name : ∀ l ∈ Lexeme.scan 0 (before ++ blanks ++ after).toList, l.kind = .name →
    l.span.stop = before.utf8ByteSize → ∀ d ∈ after.toList.head?, isNameChar d = false

/-- Blanks between lexemes do not matter. Whether they are put where they divide no number and no
name, or taken away from where nothing runs together without them, the text has the same words, in
the same order. It is read as the same expression, or refused with the same error: one that has a
place is at the lexeme of the same number in both texts. -/
theorem parse_sameAnswer_of_blanks (limits : Limits) (before blanks after : String)
    (hBlanks : ∀ c ∈ blanks.toList, isBlank c = true)
    (hPlace : Insertable before after ∨ Deletable before blanks after) :
    let lexemes := Lexeme.scan 0 (before ++ after).toList
    let lexemes' := Lexeme.scan 0 (before ++ blanks ++ after).toList
    lexemes.map (·.chars) = lexemes'.map (·.chars) ∧
      SameAnswer (SameNumber lexemes lexemes') Eq
        (Expr.parse limits (before ++ after)) (Expr.parse limits (before ++ blanks ++ after)) := by
  intro lexemes lexemes'
  have hText : (before ++ after).toList = before.toList ++ after.toList := String.toList_append
  have hText' : (before ++ blanks ++ after).toList =
      before.toList ++ (blanks.toList ++ after.toList) := by
    rw [String.toList_append, String.toList_append, List.append_assoc]
  have hWords : lexemes.map (·.chars) = lexemes'.map (·.chars) := by
    rcases hPlace with hInsert | hDelete
    · have hCut := cut_scan 0 (before ++ after).toList
      rw [hText] at hCut
      rw [Insertable, ← byteLength_toList, hText] at hInsert
      obtain ⟨others, hOthers, hSame⟩ := hCut.words_insert hBlanks hInsert
      rw [← hText'] at hOthers
      rwa [← hText, hOthers.eq_scan] at hSame
    · have hCut := cut_scan 0 (before ++ blanks ++ after).toList
      have hName := hDelete.name
      rw [hText'] at hCut
      rw [← byteLength_toList, hText'] at hName
      obtain ⟨others, hOthers, hSame⟩ := hCut.words_delete hBlanks hDelete.numeral hName
      rw [← hText] at hOthers
      rwa [← hText', hOthers.eq_scan] at hSame
  exact ⟨hWords, sameAnswer_of_words limits hWords⟩

/-- A number runs into no name, so the blanks between the two may go. The root that no operator
precedes is then met two bytes earlier. -/
theorem parse_root_next_to_number :
    let limits : Limits := ⟨8, 8, 8, 8⟩
    (∀ c ∈ " \t".toList, isBlank c = true) ∧ Deletable "2" " \t" "sqrt" ∧
      Expr.parse limits "2sqrt" = .error (.unexpectedToken "sqrt" ⟨1, 5⟩) ∧
        Expr.parse limits "2 \tsqrt" = .error (.unexpectedToken "sqrt" ⟨3, 7⟩) := by
  intro limits
  have hBlanks : ∀ c ∈ " \t".toList, isBlank c = true := List.all_eq_true.mp (by decide +kernel)
  have hNear : Lexeme.scan 0 ("2" ++ "sqrt").toList =
      [⟨'2', [], 0⟩, ⟨'s', ['q', 'r', 't'], 1⟩] := by
    decide +kernel
  have hFar : Lexeme.scan 0 ("2" ++ " \t" ++ "sqrt").toList =
      [⟨'2', [], 0⟩, ⟨'s', ['q', 'r', 't'], 3⟩] := by
    decide +kernel
  have hDelete : Deletable "2" " \t" "sqrt" := by
    constructor
    · rintro c hc d hd ⟨hDigit, hChar⟩
      rw [String.toList_ofList] at hd
      cases hd
      cases hChar
    · rw [hFar]
      intro l hMem hKind hStop
      rcases List.mem_pair.mp hMem with rfl | rfl
      · cases hKind
      · cases hStop
  have hTokens : Token.ofChars limits ("2" ++ "sqrt").toList =
      .ok [⟨.number 2, ⟨0, 1⟩⟩, ⟨.operator (.prefixed .sqrt), ⟨1, 5⟩⟩] := by
    decide +kernel
  have hError : Expr.parse limits ("2" ++ "sqrt") = .error (.unexpectedToken "sqrt" ⟨1, 5⟩) := by
    rw [Expr.parse, Expr.ofChars, hTokens]
    rfl
  refine ⟨hBlanks, hDelete, hError, ?_⟩
  have hSame := (parse_sameAnswer_of_blanks limits _ _ _ hBlanks (.inr hDelete)).2
  rw [hError, hNear, hFar] at hSame
  generalize hOther : Expr.parse limits ("2" ++ " \t" ++ "sqrt") = answer at hSame
  cases hSame with
  | error hAt =>
      cases hAt with
      | unplaced hSpan => cases hSpan
      | placed hSpan hPlaces =>
          cases hSpan
          obtain ⟨i, l, l', hLexeme, hLexeme', hHere, rfl⟩ := hPlaces
          match i with
          | 0 =>
              cases hLexeme
              cases hHere
          | 1 =>
              cases hLexeme'
              exact hOther

end Formula
