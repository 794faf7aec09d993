import Formula.Proofs.PrintedWords

/-! Written expressions tell the expression apart. Every operator has its own parentheses, and no
leaf holds a blank or a closing parenthesis before its end, so what follows an expression begins
where the expression does not go on. -/
namespace Formula

open Binary64 Decimal

namespace Handle

/-- Value of a hexadecimal digit. -/
def digitValue (c : Char) : Nat :=
  ['0', '1', '2', '3', '4', '5', '6', '7', '8', '9', 'a', 'b', 'c', 'd', 'e', 'f'].idxOf c

/-- The number that is written with hexadecimal digits. -/
def textValue (text : List Char) : Nat :=
  text.foldl (fun n c => 16 * n + digitValue c) 0

theorem digitValue_digitChar {n : Nat} (hDigit : n < 16) : digitValue n.digitChar = n := by
  interval_cases n <;> rfl

theorem textValue_concat (text : List Char) (c : Char) :
    textValue (text ++ [c]) = 16 * textValue text + digitValue c := by
  rw [textValue, textValue, List.foldl_append, List.foldl_cons, List.foldl_nil]

theorem textValue_toDigits (n : Nat) : textValue (Nat.toDigits 16 n) = n := by
  induction n using Nat.strong_induction_on with
  | h n ih =>
      by_cases hDigit : n < 16
      · rw [Nat.toDigits_of_lt_base hDigit]
        simpa [textValue] using digitValue_digitChar hDigit
      · have hBase : 16 ≤ n := Nat.not_lt.mp hDigit
        rw [Nat.toDigits_of_base_le (by omega) hBase, textValue_concat,
          ih (n / 16) (Nat.div_lt_self (by omega) (by omega)),
          digitValue_digitChar (Nat.mod_lt n (by omega)), Nat.div_add_mod]

theorem textValue_replicate_append (width : Nat) (text : List Char) :
    textValue (List.replicate width '0' ++ text) = textValue text := by
  induction width with
  | zero => rfl
  | succ width ih => exact ih

/-- The text of a handle tells its identifier, since zeros in front count for nothing. -/
theorem textValue_text (h : Handle) : textValue h.text = h.id.toNat := by
  rw [text, List.leftpad, textValue_replicate_append, textValue_toDigits]

/-- Handles are told apart by their texts. -/
theorem text_injective {h k : Handle} (hText : h.text = k.text) : h = k := by
  have hId : h.id.toNat = k.id.toNat := by
    rw [← textValue_text, ← textValue_text, hText]
  cases h
  cases k
  exact congrArg Handle.mk (UInt32.toNat_inj.mp hId)

/-- Hexadecimal numbers have no other characters than digits. -/
theorem exists_digitChar_of_mem_toDigits {n : Nat} {c : Char} (hMem : c ∈ Nat.toDigits 16 n) :
    ∃ d < 16, c = d.digitChar := by
  induction n using Nat.strong_induction_on with
  | h n ih =>
      by_cases hDigit : n < 16
      · rw [Nat.toDigits_of_lt_base hDigit, List.mem_singleton] at hMem
        exact ⟨n, hDigit, hMem⟩
      · have hBase : 16 ≤ n := Nat.not_lt.mp hDigit
        rw [Nat.toDigits_of_base_le (by omega) hBase, List.mem_append, List.mem_singleton] at hMem
        rcases hMem with hWhole | hLast
        · exact ih (n / 16) (Nat.div_lt_self (by omega) (by omega)) hWhole
        · exact ⟨n % 16, Nat.mod_lt n (by omega), hLast⟩

theorem exists_digitChar_of_mem_text {h : Handle} {c : Char} (hMem : c ∈ h.text) :
    ∃ d < 16, c = d.digitChar := by
  rw [text, List.leftpad, List.mem_append] at hMem
  rcases hMem with hZero | hDigit
  · exact ⟨0, by omega, List.eq_of_mem_replicate hZero⟩
  · exact exists_digitChar_of_mem_toDigits hDigit

end Handle

/-- What may stand behind an operand. -/
def EndsOperand (c : Char) : Prop := c = ' ' ∨ c = ')'

/-- A text that does not go on with an operand. -/
def Ends (text : List Char) : Prop := ∀ c ∈ text.head?, EndsOperand c

theorem ends_of_endsOperand {c : Char} (hEnd : EndsOperand c) (text : List Char) :
    Ends (c :: text) := by
  intro d hd
  obtain rfl := Option.mem_some_iff.mp hd
  exact hEnd

theorem ends_blank (text : List Char) : Ends (' ' :: text) :=
  ends_of_endsOperand (.inl rfl) text

theorem ends_close (text : List Char) : Ends (')' :: text) :=
  ends_of_endsOperand (.inr rfl) text

/-- A word with no end of an operand in it stops where the text ends the operand. -/
theorem append_inj_of_ends {first second x y : List Char} (hFirst : ∀ c ∈ first, ¬ EndsOperand c)
    (hSecond : ∀ c ∈ second, ¬ EndsOperand c) (hX : Ends x) (hY : Ends y)
    (hText : first ++ x = second ++ y) : first = second ∧ x = y := by
  rcases List.append_eq_append_iff.mp hText with ⟨gap, rfl, rfl⟩ | ⟨gap, rfl, rfl⟩
  · cases gap with
    | nil => simp
    | cons c gap =>
        exact absurd (hX c rfl) (hSecond c (List.mem_append_right _ List.mem_cons_self))
  · cases gap with
    | nil => simp
    | cons c gap =>
        exact absurd (hY c rfl) (hFirst c (List.mem_append_right _ List.mem_cons_self))

/-- The text of a handle has no blank and no parenthesis. -/
theorem Handle.not_endsOperand (h : Handle) : ∀ c ∈ h.text, ¬ EndsOperand c := by
  intro c hMem
  obtain ⟨d, hDigit, rfl⟩ := exists_digitChar_of_mem_text hMem
  interval_cases d <;> simp [EndsOperand, Nat.digitChar]

/-- The handle of a record has a letter in front. -/
theorem Handle.not_endsOperand_marked (h : Handle) : ∀ c ∈ 'p' :: h.text, ¬ EndsOperand c :=
  List.forall_mem_cons.mpr ⟨by simp [EndsOperand], h.not_endsOperand⟩

/-- The letter in front of the handle of a record is no digit. -/
theorem Handle.text_ne_marked (h k : Handle) : h.text ≠ 'p' :: k.text := by
  intro hText
  have hMem : 'p' ∈ h.text := hText ▸ List.mem_cons_self
  obtain ⟨d, hDigit, hChar⟩ := exists_digitChar_of_mem_text hMem
  interval_cases d <;> cases hChar

theorem UnaryOp.not_endsOperand {op : UnaryOp} : ∀ c ∈ op.name, ¬ EndsOperand c := by
  cases op <;> simp [UnaryOp.name, EndsOperand]

namespace Decimal

/-- A character of a written number, unless it is the sign. -/
def IsMagnitudeChar (c : Char) : Prop :=
  isNumeralChar c = true ∨ c ∈ ['N', 'a', 'i', 'n', 'f']

/-- Blanks, parentheses, signs and the first letters of marked handles and of operators are in no
magnitude. -/
theorem IsMagnitudeChar.not_mem {c : Char} (hChar : IsMagnitudeChar c) :
    c ∉ [' ', ')', '(', 'p', '-', 's', 'c'] := by
  intro hMem
  simp only [List.mem_cons, List.not_mem_nil, or_false] at hMem
  rcases hMem with rfl | rfl | rfl | rfl | rfl | rfl | rfl <;>
    exact absurd hChar (by simp [IsMagnitudeChar, isNumeralChar])

/-- A number is written as a magnitude, with a sign in front of it or without one. -/
theorem exists_magnitude (places : Nat) (x : Float) :
    ∃ c text, (∀ d ∈ c :: text, IsMagnitudeChar d) ∧
      (fixed places x = c :: text ∨ fixed places x = '-' :: c :: text) := by
  rw [fixed, signed]
  by_cases hNumber : infinityRank < rank x
  · rw [if_pos hNumber]
    exact ⟨'N', ['a', 'N'], by simp [IsMagnitudeChar], .inl rfl⟩
  · rw [if_neg hNumber]
    by_cases hInfinite : rank x = infinityRank
    · simp only [if_pos hInfinite]
      refine ⟨'i', ['n', 'f'], by simp [IsMagnitudeChar], ?_⟩
      split
      · exact .inr rfl
      · exact .inl rfl
    · simp only [if_neg hInfinite]
      obtain ⟨c, text, hText⟩ :=
        List.exists_cons_of_ne_nil (withPoint_ne_nil places (scaled places (rank x)))
      refine ⟨c, text, fun d hd => ?_, ?_⟩
      · rw [← hText] at hd
        exact .inl (isNumeralChar_of_mem_withPoint hd)
      · rw [hText]
        split
        · exact .inr rfl
        · exact .inl rfl

theorem not_endsOperand_of_mem_fixed {places : Nat} {x : Float} :
    ∀ c ∈ fixed places x, ¬ EndsOperand c := by
  intro c hMem hEnd
  obtain ⟨first, text, hChars, hText⟩ := exists_magnitude places x
  have hOther : c ≠ '-' := by
    rintro rfl
    exact absurd hEnd (by simp [EndsOperand])
  have hChar : IsMagnitudeChar c := by
    rcases hText with hText | hText
    · rw [hText] at hMem
      exact hChars c hMem
    · rw [hText] at hMem
      exact hChars c ((List.mem_cons.mp hMem).resolve_left hOther)
  apply hChar.not_mem
  rcases hEnd with rfl | rfl
  · simp
  · simp

/-- A number is not written like the name of an operator. -/
theorem fixed_ne_name (places : Nat) (x : Float) (op : UnaryOp) : fixed places x ≠ op.name := by
  intro hName
  obtain ⟨first, text, hChars, hText⟩ := exists_magnitude places x
  have hFirst := (hChars first List.mem_cons_self).not_mem
  rw [hName] at hText
  rcases hText with hText | hText
  · cases op <;>
    · obtain ⟨rfl, _⟩ := List.cons.inj hText
      exact hFirst (by simp)
  · cases op <;> simp [UnaryOp.name] at hText

end Decimal

namespace Expr

/-- Expressions of one shape with the same operators, parameters and written numbers. A parameter
and a record differ, also when they have one handle. -/
inductive SameForm : Expr → Expr → Prop where
  | param (h : Handle) : SameForm (.param h) (.param h)
  | resolved {r s : Record} (hHandle : r.handle = s.handle) : SameForm (.resolved r) (.resolved s)
  | number {x y : Float} (hText : fixed places x = fixed places y) :
      SameForm (.number x) (.number y)
  | binary {a b c d : Expr} (op : BinaryOp) (hLeft : SameForm a c) (hRight : SameForm b d) :
      SameForm (.binary op a b) (.binary op c d)
  | unary {a b : Expr} (op : UnaryOp) (hOperand : SameForm a b) :
      SameForm (.unary op a) (.unary op b)

/-- Expressions of one form are written alike. -/
theorem SameForm.write_eq {a b : Expr} (hForm : a.SameForm b) (rest : List Char) :
    a.write rest = b.write rest := by
  induction hForm generalizing rest with
  | param h => rfl
  | resolved hHandle => rw [write, write, hHandle]
  | number hText => rw [write, write, hText]
  | binary op _ _ hLeft hRight => rw [write, write, hRight, hLeft]
  | unary op _ hOperand => rw [write, write, hOperand]

/-- The first characters that an expression may have. -/
def Initial : Expr → Char → Prop
  | .param _, c | .resolved _, c => c = 'p'
  | .number _, c => c ≠ 'p' ∧ c ∉ ['(', 's', 'c']
  | .binary _ _ _, c | .unary _ _, c => c = '('

/-- No expression is written as nothing, and its first character tells its kind. -/
theorem exists_initial (e : Expr) (rest : List Char) :
    ∃ c text, e.write rest = c :: text ∧ e.Initial c := by
  cases e with
  | param h => exact ⟨'p', _, rfl, rfl⟩
  | resolved r => exact ⟨'p', _, rfl, rfl⟩
  | binary op left right => exact ⟨'(', _, rfl, rfl⟩
  | unary op operand => exact ⟨'(', _, rfl, rfl⟩
  | number x =>
      obtain ⟨c, text, hChars, hText⟩ := exists_magnitude places x
      have hFirst := (hChars c List.mem_cons_self).not_mem
      rcases hText with hText | hText
      · refine ⟨c, text ++ rest, by rw [write, hText]; rfl, ?_, ?_⟩
        · rintro rfl
          exact hFirst (by simp)
        · intro hMem
          simp_all
      · exact ⟨'-', c :: text ++ rest, by rw [write, hText]; rfl, by simp, by simp⟩

/-- Expressions whose texts agree share a first character. -/
theorem initial_of_write_eq {a b : Expr} {x y : List Char} (hText : a.write x = b.write y) :
    ∃ c, a.Initial c ∧ b.Initial c := by
  obtain ⟨c, first, hFirst, hA⟩ := exists_initial a x
  obtain ⟨d, second, hSecond, hB⟩ := exists_initial b y
  rw [hFirst, hSecond] at hText
  obtain ⟨rfl, _⟩ := List.cons.inj hText
  exact ⟨c, hA, hB⟩

/-- The operand behind an open parenthesis is told from the name of an operator. -/
theorem write_ne_name (e : Expr) (op : UnaryOp) {x y : List Char} (hX : Ends x) (hY : Ends y) :
    e.write x ≠ op.name ++ y := by
  intro hText
  cases e with
  | number n =>
      exact fixed_ne_name places n op
        (append_inj_of_ends not_endsOperand_of_mem_fixed op.not_endsOperand hX hY hText).1
  | param h => cases op <;> simp [write, UnaryOp.name] at hText
  | resolved r => cases op <;> simp [write, UnaryOp.name] at hText
  | binary symbol left right => cases op <;> simp [write, UnaryOp.name] at hText
  | unary name operand => cases op <;> simp [write, UnaryOp.name] at hText

/-- The text of a parameter ends at its parenthesis. -/
theorem leaf_inj {first second x y : List Char} (hFirst : ∀ c ∈ first, ¬ EndsOperand c)
    (hSecond : ∀ c ∈ second, ¬ EndsOperand c)
    (hText : ['p', 'a', 'r', 'a', 'm', '('] ++ first ++ ')' :: x =
      ['p', 'a', 'r', 'a', 'm', '('] ++ second ++ ')' :: y) : first = second ∧ x = y := by
  rw [List.append_assoc, List.append_assoc] at hText
  obtain ⟨hWord, hRest⟩ := append_inj_of_ends hFirst hSecond (ends_close x) (ends_close y)
    (List.append_cancel_left hText)
  exact ⟨hWord, (List.cons.inj hRest).2⟩

/-- Binary operators are told apart by their symbols. -/
theorem symbol_injective {o p : BinaryOp} (hSymbol : o.symbol = p.symbol) : o = p := by
  cases o <;> cases p <;> first | rfl | cases hSymbol

theorem name_injective {o p : UnaryOp} (hName : o.name = p.name) : o = p := by
  cases o <;> cases p <;> first | rfl | cases hName

/-- Two expressions with ends behind them are the same text only if they have the same form and the
same text behind them. -/
theorem sameForm_of_write_eq {a b : Expr} {x y : List Char} (hX : Ends x) (hY : Ends y)
    (hText : a.write x = b.write y) : a.SameForm b ∧ x = y := by
  induction a generalizing b x y with
  | param h =>
      obtain ⟨c, rfl, hFirst⟩ := initial_of_write_eq hText
      cases b with
      | param k =>
          obtain ⟨hHandle, hRest⟩ := leaf_inj h.not_endsOperand k.not_endsOperand hText
          rw [Handle.text_injective hHandle]
          exact ⟨.param k, hRest⟩
      | resolved r =>
          obtain ⟨hHandle, _⟩ :=
            leaf_inj h.not_endsOperand r.handle.not_endsOperand_marked hText
          exact absurd hHandle (h.text_ne_marked r.handle)
      | number n => exact absurd rfl hFirst.1
      | binary | unary => cases hFirst
  | resolved r =>
      obtain ⟨c, rfl, hFirst⟩ := initial_of_write_eq hText
      cases b with
      | param k =>
          obtain ⟨hHandle, _⟩ :=
            leaf_inj r.handle.not_endsOperand_marked k.not_endsOperand hText
          exact absurd hHandle.symm (k.text_ne_marked r.handle)
      | resolved s =>
          obtain ⟨hHandle, hRest⟩ :=
            leaf_inj r.handle.not_endsOperand_marked s.handle.not_endsOperand_marked hText
          exact ⟨.resolved (Handle.text_injective (List.cons.inj hHandle).2), hRest⟩
      | number n => exact absurd rfl hFirst.1
      | binary | unary => cases hFirst
  | number n =>
      obtain ⟨c, hNumber, hFirst⟩ := initial_of_write_eq hText
      cases b with
      | number m =>
          obtain ⟨hNumber, hRest⟩ := append_inj_of_ends not_endsOperand_of_mem_fixed
            not_endsOperand_of_mem_fixed hX hY hText
          exact ⟨.number hNumber, hRest⟩
      | param | resolved => exact absurd hFirst hNumber.1
      | binary | unary =>
          obtain rfl := hFirst
          exact absurd List.mem_cons_self hNumber.2
  | binary op left right hLeft hRight =>
      obtain ⟨c, rfl, hFirst⟩ := initial_of_write_eq hText
      cases b with
      | binary other first second =>
          -- The first operands end at a blank, so they leave the same text for the second ones.
          obtain ⟨hLefts, hBehind⟩ :=
            hLeft (ends_blank _) (ends_blank _) (List.cons.inj hText).2
          simp only [List.cons.injEq, true_and] at hBehind
          obtain ⟨hSymbol, hOperands⟩ := hBehind
          obtain ⟨hRights, hRest⟩ := hRight (ends_close x) (ends_close y) hOperands
          rw [symbol_injective hSymbol]
          exact ⟨.binary other hLefts hRights, (List.cons.inj hRest).2⟩
      | unary name operand =>
          exact absurd (List.cons.inj hText).2
            (left.write_ne_name name (ends_blank _) (ends_blank _))
      | param | resolved => cases hFirst
      | number m => exact absurd List.mem_cons_self hFirst.2
  | unary op operand hOperand =>
      obtain ⟨c, rfl, hFirst⟩ := initial_of_write_eq hText
      cases b with
      | binary symbol left right =>
          exact absurd (List.cons.inj hText).2.symm
            (left.write_ne_name op (ends_blank _) (ends_blank _))
      | unary other inner =>
          obtain ⟨hName, hBehind⟩ := append_inj_of_ends op.not_endsOperand other.not_endsOperand
            (ends_blank _) (ends_blank _) (List.cons.inj hText).2
          obtain ⟨hOperands, hRest⟩ :=
            hOperand (ends_close x) (ends_close y) (List.cons.inj hBehind).2
          rw [name_injective hName]
          exact ⟨.unary other hOperands, (List.cons.inj hRest).2⟩
      | param | resolved => cases hFirst
      | number m => exact absurd List.mem_cons_self hFirst.2

theorem print_append (e : Expr) (c : Char) (text : String) :
    (e.print ++ String.singleton c ++ text).toList = e.write (c :: text.toList) := by
  rw [print, String.toList_append, String.toList_append, String.toList_ofList,
    String.toList_singleton, List.append_assoc, ← write_append]
  rfl

/-- Written forms are unambiguous. They are equal exactly if the expressions have the same form,
and none of them, with a blank or a closing parenthesis and any text behind it, begins with a
different one that has such an end. -/
theorem print_eq_iff_sameForm (a b : Expr) :
    (a.print = b.print ↔ a.SameForm b) ∧
      ∀ c d : Char, c ∈ [' ', ')'] → d ∈ [' ', ')'] → ∀ x y : String,
        a.print ++ String.singleton c ++ x = b.print ++ String.singleton d ++ y →
          a.print = b.print ∧ c = d ∧ x = y := by
  have hPrint (hForm : a.SameForm b) : a.print = b.print := by
    rw [print, print, hForm.write_eq]
  refine ⟨⟨fun hText => ?_, hPrint⟩, fun c d hC hD x y hText => ?_⟩
  · have hNil : Ends [] := fun c hc => by cases hc
    exact (sameForm_of_write_eq hNil hNil (String.ofList_injective hText)).1
  · have hEnds {e : Char} (hEnd : e ∈ [' ', ')']) (text : List Char) : Ends (e :: text) :=
      ends_of_endsOperand (by simpa [EndsOperand] using hEnd) text
    have hChars := congrArg String.toList hText
    rw [print_append, print_append] at hChars
    obtain ⟨hForm, hRest⟩ := sameForm_of_write_eq (hEnds hC _) (hEnds hD _) hChars
    obtain ⟨hEnd, hBehind⟩ := List.cons.inj hRest
    exact ⟨hPrint hForm, hEnd, String.toList_injective hBehind⟩

/-- Numbers that round to the same places are written alike, and so are expressions with them. -/
theorem print_difference_of_rounded :
    let a := binary .sub (number (-1)) (number 2)
    let b := binary .sub (number (-1.0002)) (number 1.9998)
    let behind := String.singleton ')' ++ " / 2"
    a.print = "(-1.000 - 2.000)" ∧ a.SameForm b ∧ a.print ++ behind = b.print ++ behind ∧
      a.print = b.print ∧ ')' = ')' ∧ " / 2" = " / 2" := by
  intro a b behind
  have hText : a.print = "(-1.000 - 2.000)" := by decide +kernel
  have hPrint : a.print = b.print := by
    rw [hText]
    decide +kernel
  obtain ⟨hForm, hEnds⟩ := print_eq_iff_sameForm a b
  have hBehind : a.print ++ behind = b.print ++ behind := by rw [hPrint]
  rw [← String.append_assoc, ← String.append_assoc] at hBehind
  have hAlike := hEnds ')' ')' (by simp) (by simp) " / 2" " / 2" hBehind
  rw [String.append_assoc, String.append_assoc] at hBehind
  exact ⟨hText, hForm.mp hPrint, hBehind, hAlike⟩

end Expr

end Formula
