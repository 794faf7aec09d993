import Formula.Proofs.Cutting

/-! Lexemes as the longest runs at their places. Longest match looks ahead only. That a lexeme could
not start earlier either holds behind words of the language, because the characters of each word
start lexemes of one kind. -/
namespace Formula

/-- A run of the given kind: one character that starts it and others that it goes on with. -/
def IsRun (kind : LexemeKind) : List Char → Prop
  | [] => False
  | c :: text => LexemeKind.ofFirst c = kind ∧ ∀ d ∈ text, kind.goesOnWith d = true

/-- A run that is part of no longer one at its place in a text. -/
structure MaximalRun (kind : LexemeKind) (before word after : List Char) : Prop where
  isRun : IsRun kind word
  maximal : ∀ left right, left <:+ before → right <+: after → IsRun kind (left ++ word ++ right) →
    left = [] ∧ right = []

/-- All characters of a lexeme could start one of its kind. -/
def Lexeme.Uniform (l : Lexeme) : Prop := ∀ c ∈ l.chars, LexemeKind.ofFirst c = l.kind

/-- Numerals consist of digits and points and names of letters, so each character of a word could
have started it. -/
theorem Means.uniform {longest : Nat} {l : Lexeme} {k : TokenKind}
    (hMeans : Means longest l.chars k) : l.Uniform := by
  rcases l with ⟨first, others, start⟩
  cases hMeans with
  | number hRun hChars hLength =>
      have hKind (c : Char) (hc : c ∈ first :: others) : LexemeKind.ofFirst c = .numeral :=
        if_pos (hChars c hc)
      intro c hc
      exact (hKind c hc).trans (hKind first List.mem_cons_self).symm
  | root hLength =>
      intro c hc
      simp only [Lexeme.chars, List.mem_cons, List.not_mem_nil, or_false] at hc
      rcases hc with rfl | rfl | rfl | rfl <;> rfl
  | binary op | openParen | closeParen =>
      intro c hc
      rw [List.mem_singleton.mp hc]
      rfl

/-- The front of a run is one, and what is behind it goes on with the run. -/
theorem isRun_append_left {kind : LexemeKind} {word right : List Char} (hWord : word ≠ [])
    (hRun : IsRun kind (word ++ right)) :
    IsRun kind word ∧ ∀ c ∈ right, kind.goesOnWith c = true := by
  cases word with
  | nil => exact absurd rfl hWord
  | cons c word =>
      obtain ⟨hFirst, hOthers⟩ := hRun
      exact ⟨⟨hFirst, fun d hd => hOthers d (List.mem_append_left _ hd)⟩,
        fun d hd => hOthers d (List.mem_append_right _ hd)⟩

/-- No run goes from a uniform lexeme into what follows it. -/
theorem Lexeme.Uniform.not_isRun {m : Lexeme} (hUniform : m.Uniform) {rest : List Char}
    (hEnd : ∀ c ∈ rest.head?, m.kind.goesOnWith c = false) (hRest : rest ≠ []) {left : List Char}
    (hLeft : left ≠ []) (hSuffix : left <:+ m.chars) (kind : LexemeKind) :
    ¬ IsRun kind (left ++ rest) := by
  intro hRun
  obtain ⟨hWord, hOthers⟩ := isRun_append_left hLeft hRun
  obtain ⟨c, left, rfl⟩ := List.exists_cons_of_ne_nil hLeft
  obtain ⟨d, rest, rfl⟩ := List.exists_cons_of_ne_nil hRest
  have hKind := hUniform c (hSuffix.subset List.mem_cons_self)
  rw [hWord.1] at hKind
  have hGoesOn := hOthers d List.mem_cons_self
  rw [hKind, hEnd d rfl] at hGoesOn
  cases hGoesOn

theorem ofFirst_of_isBlank {c : Char} (hBlank : isBlank c = true) :
    LexemeKind.ofFirst c = .single := by
  simp only [isBlank, Bool.or_eq_true, beq_iff_eq] at hBlank
  rcases hBlank with ((((rfl | rfl) | rfl) | rfl) | rfl) | rfl <;> rfl

/-- No run starts with a blank and goes on. -/
theorem not_isRun_of_isBlank {c : Char} (hBlank : isBlank c = true) {rest : List Char}
    (hRest : rest ≠ []) (kind : LexemeKind) : ¬ IsRun kind (c :: rest) := by
  intro hRun
  obtain ⟨hKind, hOthers⟩ := hRun
  obtain ⟨d, rest, rfl⟩ := List.exists_cons_of_ne_nil hRest
  have hGoesOn := hOthers d List.mem_cons_self
  rw [← hKind, ofFirst_of_isBlank hBlank] at hGoesOn
  cases hGoesOn

theorem IsRun.ne_nil {kind : LexemeKind} {word : List Char} (hRun : IsRun kind word) :
    word ≠ [] := by
  rintro rfl
  exact hRun

namespace MaximalRun

variable {kind : LexemeKind} {before word after : List Char}

/-- A run that is maximal stays so behind a blank, as it cannot reach back over it. -/
theorem blank {c : Char} (hBlank : isBlank c = true) (hRun : MaximalRun kind before word after) :
    MaximalRun kind (c :: before) word after := by
  refine ⟨hRun.isRun, fun left right hLeft hRight hLonger => ?_⟩
  rcases List.suffix_cons_iff.mp hLeft with rfl | hLeft
  · have hRest : before ++ word ++ right ≠ [] := by simp [hRun.isRun.ne_nil]
    exact absurd hLonger (not_isRun_of_isBlank hBlank hRest kind)
  · exact hRun.maximal left right hLeft hRight hLonger

/-- A longer run would start inside the lexeme in front of all that is left. -/
theorem lexeme {m : Lexeme} (hUniform : m.Uniform)
    (hEnd : ∀ c ∈ (before ++ (word ++ after)).head?, m.kind.goesOnWith c = false)
    (hRun : MaximalRun kind before word after) :
    MaximalRun kind (m.chars ++ before) word after := by
  have hWord := hRun.isRun.ne_nil
  refine ⟨hRun.isRun, fun left right hLeft hRight hLonger => ?_⟩
  by_cases hShort : left <:+ before
  · exact hRun.maximal left right hShort hRight hLonger
  · obtain ⟨more, rfl⟩ := (List.suffix_or_suffix_of_suffix hLeft
      (List.suffix_append m.chars before)).resolve_left hShort
    have hMore : more ≠ [] := by
      rintro rfl
      exact hShort List.suffix_rfl
    have hInside := List.suffix_append_self_iff.mp hLeft
    have hHead : (before ++ (word ++ right)).head? = (before ++ (word ++ after)).head? := by
      obtain ⟨c, text, rfl⟩ := List.exists_cons_of_ne_nil hWord
      simp [List.head?_append]
    rw [List.append_assoc, List.append_assoc] at hLonger
    rw [← hHead] at hEnd
    exact absurd hLonger (hUniform.not_isRun hEnd (by simp [hWord]) hMore hInside kind)

end MaximalRun

/-- A cut falls apart at each of its lexemes. Behind words, the lexeme is a run that could be no
longer on either side. -/
theorem Cut.split {position : Nat} {text : List Char} {first rest : List Lexeme} {l : Lexeme}
    (hCut : Cut position text (first ++ l :: rest)) :
    ∃ before after, text = before ++ (l.chars ++ after) ∧
      l.start = position + byteLength before ∧ Cut position before first ∧
        ((∀ m ∈ first, m.Uniform) → MaximalRun l.kind before l.chars after) := by
  generalize hLexemes : first ++ l :: rest = lexemes at hCut
  induction hCut generalizing first with
  | nil position => simp at hLexemes
  | @blank position c text lexemes hBlank _ ih =>
      obtain ⟨before, after, rfl, hStart, hBefore, hRun⟩ := ih hLexemes
      refine ⟨c :: before, after, rfl, ?_, .blank hBlank hBefore, fun hWords => ?_⟩
      · rw [hStart, byteLength, Nat.add_assoc]
      · exact (hRun hWords).blank hBlank
  | @lexeme text lexemes m hFirst hOthers hStop _ ih =>
      cases first with
      | nil =>
          obtain ⟨rfl, rfl⟩ := List.cons.inj hLexemes
          refine ⟨[], text, rfl, rfl, .nil _, fun _ => ⟨⟨rfl, hOthers⟩, ?_⟩⟩
          intro left right hLeft hRight hLonger
          obtain rfl := List.suffix_nil.mp hLeft
          refine ⟨rfl, ?_⟩
          by_contra hMore
          obtain ⟨c, right, rfl⟩ := List.exists_cons_of_ne_nil hMore
          obtain ⟨after, rfl⟩ := hRight
          have hGoesOn := (isRun_append_left (by simp [Lexeme.chars]) hLonger).2 c
            List.mem_cons_self
          rw [hStop c rfl] at hGoesOn
          cases hGoesOn
      | cons m' first =>
          obtain ⟨rfl, hRest⟩ := List.cons.inj hLexemes
          obtain ⟨before, after, rfl, hStart, hBefore, hRun⟩ := ih hRest
          refine ⟨m'.chars ++ before, after, ?_, ?_, ?_, fun hWords => ?_⟩
          · rw [List.append_assoc]
          · rw [hStart, byteLength_append, Nat.add_assoc]
            rfl
          · refine .lexeme m' hFirst hOthers (fun c hc => ?_) hBefore
            apply hStop
            rw [List.head?_append, Option.mem_def.mp hc]
            rfl
          · obtain ⟨hUniform, hWords⟩ := List.forall_mem_cons.mp hWords
            exact (hRun hWords).lexeme hUniform hStop

end Formula
