import Mathlib.Data.List.Forall2
import Formula.Text.Token

/-! Texts as sequences of words: what it means to be cut by longest match, and what the words
mean. Both are relations; the scanner and the reader of lexemes are shown to decide them. -/
namespace Formula

/-- A text that starts at the given byte, cut into lexemes from left to right. Blanks belong to no
lexeme, and a lexeme ends only where its kind does not go on. -/
inductive Cut : Nat → List Char → List Lexeme → Prop where
  | nil (position : Nat) : Cut position [] []
  | blank {position : Nat} {c : Char} {text : List Char} {lexemes : List Lexeme}
      (hBlank : isBlank c = true) (rest : Cut (position + c.utf8Size) text lexemes) :
      Cut position (c :: text) lexemes
  | lexeme {text : List Char} {lexemes : List Lexeme} (l : Lexeme)
      (hFirst : isBlank l.first = false)
      (hOthers : ∀ c ∈ l.others, l.kind.goesOnWith c = true)
      (hEnd : ∀ c ∈ text.head?, l.kind.goesOnWith c = false)
      (rest : Cut (l.start + l.length) text lexemes) :
      Cut l.start (l.chars ++ text) (l :: lexemes)

/-- The words of the language and what they mean, where numbers and names have at most `longest`
bytes. -/
inductive Means (longest : Nat) : List Char → TokenKind → Prop where
  | number {run : List Char} (hRun : run ≠ []) (hChars : ∀ c ∈ run, isNumeralChar c = true)
      (hLength : byteLength run ≤ longest) : Means longest run (.number (Decimal.value run))
  | root (hLength : 4 ≤ longest) :
      Means longest ['s', 'q', 'r', 't'] (.operator (.prefixed .sqrt))
  | binary (op : BinaryOp) : Means longest [op.symbol] (.operator (.binary op))
  | openParen : Means longest ['('] .openParen
  | closeParen : Means longest [')'] .closeParen

/-- The scanner cuts a text into maximal runs. -/
theorem cut_scan (position : Nat) (text : List Char) :
    Cut position text (Lexeme.scan position text) := by
  fun_induction Lexeme.scan position text with
  | case1 position => exact .nil position
  | case2 position c text hBlank ih => exact .blank hBlank ih
  | case3 position c text hBlank goesOn l ih =>
      have hText : c :: text = l.chars ++ text.dropWhile goesOn := by
        simp [Lexeme.chars, l, List.takeWhile_append_dropWhile]
      rw [hText]
      refine Cut.lexeme l (by simpa using hBlank) ?_ ?_ ih
      · intro d hd
        exact List.all_eq_true.mp List.all_takeWhile d hd
      · intro d hd
        have hHead := List.head?_dropWhile_not goesOn text
        rw [Option.mem_def.mp hd] at hHead
        exact hHead

/-- A run ends at once where the next character does not go on with it. -/
theorem run_ends {p : Char → Bool} {text : List Char} (hEnd : ∀ c ∈ text.head?, p c = false) :
    text.takeWhile p = [] ∧ text.dropWhile p = text := by
  cases text with
  | nil => exact ⟨rfl, rfl⟩
  | cons c text =>
      have hFirst : p c = false := hEnd c rfl
      simp [hFirst]

theorem ends_cons {p : Char → Bool} {c : Char} {text : List Char} (hStop : p c = false) :
    ∀ d ∈ (c :: text).head?, p d = false := by
  intro d hd
  cases hd
  exact hStop

/-- Every cut is the one that the scanner makes. -/
theorem Cut.eq_scan {position : Nat} {text : List Char} {lexemes : List Lexeme}
    (hCut : Cut position text lexemes) : lexemes = Lexeme.scan position text := by
  induction hCut with
  | nil position => rw [Lexeme.scan]
  | blank hBlank rest ih => rw [Lexeme.scan, if_pos hBlank, ih]
  | @lexeme text lexemes l hFirst hOthers hEnd rest ih =>
      obtain ⟨hNone, hAll⟩ := run_ends hEnd
      have hTake : (l.others ++ text).takeWhile l.kind.goesOnWith = l.others := by
        rw [List.takeWhile_append_of_pos hOthers, hNone, List.append_nil]
      have hDrop : (l.others ++ text).dropWhile l.kind.goesOnWith = text := by
        rw [List.dropWhile_append_of_pos hOthers, hAll]
      rw [Lexeme.chars, List.cons_append, Lexeme.scan, if_neg (by simp [hFirst]), ih]
      simp only [Lexeme.kind] at hTake hDrop
      simp only [hTake, hDrop]

/-- A text falls into lexemes in one way. -/
theorem Cut.unique {position : Nat} {text : List Char} {lexemes others : List Lexeme}
    (hCut : Cut position text lexemes) (hOther : Cut position text others) : lexemes = others :=
  hCut.eq_scan.trans hOther.eq_scan.symm

theorem cut_iff (position : Nat) (text : List Char) (lexemes : List Lexeme) :
    Cut position text lexemes ↔ lexemes = Lexeme.scan position text :=
  ⟨Cut.eq_scan, fun h => h ▸ cut_scan position text⟩

/-- The lexemes of a cut go on with the characters of their kinds. -/
theorem Cut.others {position : Nat} {text : List Char} {lexemes : List Lexeme}
    (hCut : Cut position text lexemes) :
    ∀ l ∈ lexemes, ∀ c ∈ l.others, l.kind.goesOnWith c = true := by
  induction hCut with
  | nil position => simp
  | blank hBlank rest ih => exact ih
  | lexeme l hFirst hOthers hEnd rest ih => exact List.forall_mem_cons.mpr ⟨hOthers, ih⟩

variable {longest : Nat} {l : Lexeme} {t : Token} {k : TokenKind}

/-- Digits and points start numerals, and nothing else does. -/
theorem kind_eq_numeral_iff : l.kind = .numeral ↔ isNumeralChar l.first = true := by
  by_cases hFirst : isNumeralChar l.first = true
  · simp [Lexeme.kind, LexemeKind.ofFirst, hFirst]
  · by_cases hName : isNameStart l.first = true
    · simp [Lexeme.kind, LexemeKind.ofFirst, hFirst, hName]
    · simp [Lexeme.kind, LexemeKind.ofFirst, hFirst, hName]

/-- The reader of lexemes knows the words. -/
theorem Means.ofLexeme (hMeans : Means longest l.chars k) :
    Token.ofLexeme l = .ok ⟨k, l.span⟩ := by
  rcases l with ⟨first, others, start⟩
  cases hMeans with
  | number hRun hChars hLength =>
      have hKind : Lexeme.kind ⟨first, others, start⟩ = .numeral :=
        kind_eq_numeral_iff.mpr (hChars first List.mem_cons_self)
      rw [Token.ofLexeme, hKind]
  | root hLength => rfl
  | binary op => cases op <;> rfl
  | openParen => rfl
  | closeParen => rfl

theorem Means.ne_nil {word : List Char} (hMeans : Means longest word k) : word ≠ [] := by
  cases hMeans with
  | number hRun => exact hRun
  | root | binary | openParen | closeParen => simp

/-- What a word means does not depend on how long words may be. -/
theorem Means.kind_unique {other : Nat} {word : List Char} {k' : TokenKind}
    (hMeans : Means longest word k) (hOther : Means other word k') : k = k' := by
  obtain ⟨first, others, rfl⟩ := List.exists_cons_of_ne_nil hMeans.ne_nil
  have hFirst := Means.ofLexeme (l := ⟨first, others, 0⟩) hMeans
  rw [Means.ofLexeme (l := ⟨first, others, 0⟩) hOther] at hFirst
  cases hFirst
  rfl

/-- A token that a word means is never a negation; these are told from minus signs by the place
where they stand. -/
theorem Means.ne_neg {word : List Char} (hMeans : Means longest word k) :
    k ≠ .operator (.prefixed .neg) := by
  cases hMeans <;> simp

/-- Only numbers and names can be too long. -/
theorem Means.length_le (hMeans : Means longest l.chars k) :
    l.kind = .single ∨ l.length ≤ longest := by
  rcases l with ⟨first, others, start⟩
  cases hMeans with
  | number hRun hChars hLength => exact .inr hLength
  | root hLength => exact .inr hLength
  | binary op => cases op <;> exact .inl rfl
  | openParen => exact .inl rfl
  | closeParen => exact .inl rfl

/-- The single characters that the lexer knows are words. -/
theorem means_of_ofChar? {c : Char} (hMeaning : Token.ofChar? c = some k) :
    Means longest [c] k := by
  unfold Token.ofChar? at hMeaning
  split at hMeaning <;> cases hMeaning
  · exact .binary .add
  · exact .binary .sub
  · exact .binary .mul
  · exact .binary .div
  · exact .openParen
  · exact .closeParen

/-- A lexeme with a meaning is a word, when it goes on with the characters of its kind. -/
theorem means_of_ofLexeme (hOthers : ∀ c ∈ l.others, l.kind.goesOnWith c = true)
    (hLength : l.kind = .single ∨ l.length ≤ longest) (hToken : Token.ofLexeme l = .ok t) :
    Means longest l.chars t.kind ∧ t.span = l.span := by
  cases hKind : l.kind with
  | numeral =>
      simp only [Token.ofLexeme, hKind, Except.ok.injEq] at hToken
      subst t
      refine ⟨.number (by simp [Lexeme.chars]) ?_ ?_, rfl⟩
      · intro c hc
        rcases List.mem_cons.mp hc with rfl | hc
        · exact kind_eq_numeral_iff.mp hKind
        · have hChar := hOthers c hc
          rw [hKind] at hChar
          exact hChar
      · exact hLength.resolve_left (by simp [hKind])
  | name =>
      rw [Token.ofLexeme, hKind] at hToken
      by_cases hRoot : l.chars = Token.rootName
      · simp only [if_pos hRoot, Except.ok.injEq] at hToken
        subst t
        have hBytes : byteLength l.chars ≤ longest := hLength.resolve_left (by simp [hKind])
        rw [hRoot] at hBytes ⊢
        exact ⟨.root hBytes, rfl⟩
      · simp [if_neg hRoot] at hToken
  | single =>
      have hAlone : l.others = [] := by
        refine List.eq_nil_iff_forall_not_mem.mpr fun c hc => ?_
        have hChar := hOthers c hc
        rw [hKind] at hChar
        cases hChar
      rw [Token.ofLexeme, hKind] at hToken
      rw [Lexeme.chars, hAlone]
      cases hMeaning : Token.ofChar? l.first with
      | none => simp [hMeaning] at hToken
      | some kind =>
          simp only [hMeaning, Except.ok.injEq] at hToken
          subst t
          exact ⟨means_of_ofChar? hMeaning, rfl⟩

/-- A lexeme becomes a token when it is within the count of tokens and is a word that is not too
long. The token has the span of the lexeme. -/
theorem ofLexemeAt_eq_ok_iff (limits : Limits) (index : Nat)
    (hOthers : ∀ c ∈ l.others, l.kind.goesOnWith c = true) :
    Token.ofLexemeAt limits index l = .ok t ↔
      index < limits.maxTokens ∧ Means limits.maxLiteralLength l.chars t.kind ∧
        t.span = l.span := by
  rw [Token.ofLexemeAt]
  by_cases hCount : limits.maxTokens ≤ index
  · simp only [if_pos hCount, reduceCtorEq, false_iff]
    omega
  · rw [if_neg hCount]
    by_cases hLong : l.kind ≠ .single ∧ limits.maxLiteralLength < l.length
    · rw [if_pos hLong]
      simp only [reduceCtorEq, false_iff]
      rintro ⟨_, hMeans, _⟩
      rcases hMeans.length_le with hSingle | hLength
      · exact hLong.1 hSingle
      · omega
    · rw [if_neg hLong]
      constructor
      · intro hToken
        have hLength : l.kind = .single ∨ l.length ≤ limits.maxLiteralLength := by
          by_cases hSingle : l.kind = .single
          · exact .inl hSingle
          · exact .inr (Nat.not_lt.mp fun h => hLong ⟨hSingle, h⟩)
        exact ⟨Nat.not_le.mp hCount, means_of_ofLexeme hOthers hLength hToken⟩
      · rintro ⟨_, hMeans, hSpan⟩
        rw [hMeans.ofLexeme, ← hSpan]

/-- Lexemes are read when there are not too many and each of them is a word. -/
theorem ofLexemes_eq_ok_iff {limits : Limits} {lexemes : List Lexeme} {tokens : List Token}
    (index : Nat) (hOthers : ∀ l ∈ lexemes, ∀ c ∈ l.others, l.kind.goesOnWith c = true) :
    Token.ofLexemes limits index lexemes = .ok tokens ↔
      (lexemes = [] ∨ index + lexemes.length ≤ limits.maxTokens) ∧
        List.Forall₂ (fun l t => Means limits.maxLiteralLength l.chars t.kind ∧ t.span = l.span)
          lexemes tokens := by
  induction lexemes generalizing index tokens with
  | nil => cases tokens <;> simp [Token.ofLexemes]
  | cons l lexemes ih =>
      obtain ⟨hFirst, hRest⟩ := List.forall_mem_cons.mp hOthers
      constructor
      · intro hTokens
        rw [Token.ofLexemes] at hTokens
        cases hToken : Token.ofLexemeAt limits index l with
        | error e => simp [hToken, bind, Except.bind] at hTokens
        | ok t =>
            cases hTail : Token.ofLexemes limits (index + 1) lexemes with
            | error e => simp [hToken, hTail, bind, Except.bind] at hTokens
            | ok rest =>
                rw [hToken, hTail] at hTokens
                cases hTokens
                obtain ⟨hIndex, hMeans⟩ := (ofLexemeAt_eq_ok_iff limits index hFirst).mp hToken
                obtain ⟨hCount, hAll⟩ := (ih (index + 1) hRest).mp hTail
                refine ⟨.inr ?_, .cons hMeans hAll⟩
                rcases hCount with rfl | hCount
                · exact hIndex
                · rw [List.length_cons]
                  omega
      · rintro ⟨hCount, hAll⟩
        rcases hAll with _ | ⟨hMeans, hAll⟩
        have hIndex : index + (l :: lexemes).length ≤ limits.maxTokens :=
          hCount.resolve_left (by simp)
        rw [List.length_cons] at hIndex
        have hToken := (ofLexemeAt_eq_ok_iff limits index hFirst).mpr
          ⟨by omega, hMeans⟩
        have hTail := (ih (index + 1) hRest).mpr ⟨.inr (by omega), hAll⟩
        rw [Token.ofLexemes, hToken, hTail]
        rfl

/-- The texts that become tokens are those that are cut into words. -/
theorem ofChars_eq_ok_iff (limits : Limits) (text : List Char) (tokens : List Token) :
    Token.ofChars limits text = .ok tokens ↔
      ∃ lexemes, Cut 0 text lexemes ∧ lexemes.length ≤ limits.maxTokens ∧
        List.Forall₂ (fun l t => Means limits.maxLiteralLength l.chars t.kind ∧ t.span = l.span)
          lexemes tokens := by
  have hEmpty : (Lexeme.scan 0 text = [] ∨
      0 + (Lexeme.scan 0 text).length ≤ limits.maxTokens) ↔
        (Lexeme.scan 0 text).length ≤ limits.maxTokens := by
    rw [Nat.zero_add]
    constructor
    · rintro (hNil | hLength)
      · rw [hNil]
        exact Nat.zero_le _
      · exact hLength
    · exact .inr
  rw [Token.ofChars, ofLexemes_eq_ok_iff 0 (cut_scan 0 text).others, hEmpty]
  simp only [cut_iff, exists_eq_left]

/-- Which tokens there are for some lexemes is a question about their characters, because the spans
are given. -/
theorem forall₂_means_iff {longest : Nat} {lexemes : List Lexeme} {kinds : List TokenKind} :
    (∃ tokens : List Token, tokens.map (·.kind) = kinds ∧
      List.Forall₂ (fun l t => Means longest l.chars t.kind ∧ t.span = l.span) lexemes tokens) ↔
        List.Forall₂ (Means longest) (lexemes.map (·.chars)) kinds := by
  rw [List.forall₂_map_left_iff]
  constructor
  · rintro ⟨tokens, rfl, hAll⟩
    rw [List.forall₂_map_right_iff]
    exact hAll.imp fun l t h => h.1
  · intro hAll
    induction hAll with
    | nil => exact ⟨[], rfl, .nil⟩
    | @cons l k lexemes kinds hMeans _ ih =>
        obtain ⟨tokens, rfl, hTokens⟩ := ih
        exact ⟨⟨k, l.span⟩ :: tokens, rfl, .cons ⟨hMeans, rfl⟩ hTokens⟩

/-- Words have one list of meanings, however long they may be. -/
theorem kinds_unique {longest other : Nat} {words : List (List Char)}
    {kinds kinds' : List TokenKind}
    (hAll : List.Forall₂ (Means longest) words kinds)
    (hOther : List.Forall₂ (Means other) words kinds') : kinds = kinds' := by
  induction hAll generalizing kinds' with
  | nil => exact (List.forall₂_nil_left_iff.mp hOther).symm
  | cons hMeans _ ih =>
      obtain ⟨k', rest, hFirst, hRest, rfl⟩ := List.forall₂_cons_left_iff.mp hOther
      rw [hMeans.kind_unique hFirst, ih hRest]

theorem neg_not_mem {longest : Nat} {words : List (List Char)} {kinds : List TokenKind}
    (hAll : List.Forall₂ (Means longest) words kinds) :
    .operator (.prefixed .neg) ∉ kinds := by
  induction hAll with
  | nil => simp
  | cons hMeans _ ih => simpa using ⟨hMeans.ne_neg.symm, ih⟩

/-- Cutting never reports a full stack. -/
theorem ofLexemes_ne_stackFull (limits : Limits) (index : Nat) (lexemes : List Lexeme)
    (stack : StackKind) : Token.ofLexemes limits index lexemes ≠ .error (.stackFull stack) := by
  induction lexemes generalizing index with
  | nil => simp [Token.ofLexemes]
  | cons l lexemes ih =>
      have hToken : Token.ofLexemeAt limits index l ≠ .error (.stackFull stack) := by
        unfold Token.ofLexemeAt Token.ofLexeme
        repeat' split
        all_goals simp
      rw [Token.ofLexemes]
      cases hFirst : Token.ofLexemeAt limits index l with
      | error e =>
          rw [hFirst] at hToken
          simpa [bind, Except.bind] using hToken
      | ok t =>
          have hTail := ih (index + 1)
          cases hRest : Token.ofLexemes limits (index + 1) lexemes with
          | error e =>
              rw [hRest] at hTail
              simpa [bind, Except.bind] using hTail
          | ok tokens => simp [bind, Except.bind, pure, Except.pure]

end Formula
