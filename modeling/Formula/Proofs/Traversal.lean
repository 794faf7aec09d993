import Mathlib.Data.List.Forall2

/-! Computations that can fail, one for each element of a list. They are done from left to right,
and the first that fails is the failure of the list. -/
namespace Formula

/-- Lists that correspond item by item end together. -/
theorem getElem?_of_forall₂ {α β : Type} {R : α → β → Prop} {as : List α} {bs : List β}
    (hItems : List.Forall₂ R as bs) (i : Nat) :
    (as[i]? = none ∧ bs[i]? = none) ∨ ∃ a b, as[i]? = some a ∧ bs[i]? = some b ∧ R a b := by
  induction hItems generalizing i with
  | nil => exact .inl ⟨rfl, rfl⟩
  | cons hFirst _ ih =>
      cases i with
      | zero => exact .inr ⟨_, _, rfl, rfl, hFirst⟩
      | succ i => exact ih i

section Traversal

variable {α β ε : Type} {f : α → Except ε β} {as : List α}

/-- A list succeeds when all of its elements do, with their results in order. -/
theorem mapM_eq_ok_iff {bs : List β} :
    as.mapM f = .ok bs ↔ List.Forall₂ (fun a b => f a = .ok b) as bs := by
  induction as generalizing bs with
  | nil => simp [pure, Except.pure, eq_comm]
  | cons a as ih =>
      rw [List.mapM_cons, List.forall₂_cons_left_iff]
      cases hFirst : f a with
      | error e => simp [bind, Except.bind]
      | ok b =>
          cases hOthers : as.mapM f with
          | error e => simp [bind, Except.bind, ← ih, hOthers]
          | ok others => simp [bind, Except.bind, pure, Except.pure, ← ih, hOthers, eq_comm]

/-- The result for an element stands in the place of the element. -/
theorem getElem?_of_mapM_eq_ok {bs : List β} {i : Nat} {a : α} (hAll : as.mapM f = .ok bs)
    (hPlace : as[i]? = some a) : ∃ b, bs[i]? = some b ∧ f a = .ok b := by
  rcases getElem?_of_forall₂ (mapM_eq_ok_iff.mp hAll) i with ⟨hNone, -⟩ | ⟨c, b, hSame, hb, hf⟩
  · rw [hPlace] at hNone
    cases hNone
  · rw [hPlace, Option.some.injEq] at hSame
    subst c
    exact ⟨b, hb, hf⟩

/-- Every result is that of some element. -/
theorem exists_mem_of_mapM_eq_ok {bs : List β} {b : β} (hAll : as.mapM f = .ok bs)
    (hMem : b ∈ bs) : ∃ a ∈ as, f a = .ok b := by
  obtain ⟨i, hPlace⟩ := List.mem_iff_getElem?.mp hMem
  rcases getElem?_of_forall₂ (mapM_eq_ok_iff.mp hAll) i with ⟨-, hNone⟩ | ⟨a, c, ha, hSame, hf⟩
  · cases hNone.symm.trans hPlace
  · cases hSame.symm.trans hPlace
    exact ⟨a, List.mem_of_getElem? ha, hf⟩

theorem mapM_cons_eq_error_iff {a : α} {e : ε} :
    (a :: as).mapM f = .error e ↔
      f a = .error e ∨ (∃ b, f a = .ok b) ∧ as.mapM f = .error e := by
  rw [List.mapM_cons]
  cases hFirst : f a with
  | error first => simp [bind, Except.bind]
  | ok b =>
      cases hOthers : as.mapM f <;> simp [bind, Except.bind, pure, Except.pure]

/-- A list fails as its first element that fails. -/
theorem mapM_eq_error_iff {e : ε} :
    as.mapM f = .error e ↔
      ∃ before a after, as = before ++ a :: after ∧ (∀ b ∈ before, ∃ c, f b = .ok c) ∧
        f a = .error e := by
  induction as with
  | nil => simp [pure, Except.pure]
  | cons a as ih =>
      rw [mapM_cons_eq_error_iff]
      constructor
      · rintro (hFirst | ⟨hFirst, hOthers⟩)
        · exact ⟨[], a, as, rfl, by simp, hFirst⟩
        · obtain ⟨before, c, after, rfl, hBefore, hLast⟩ := ih.mp hOthers
          exact ⟨a :: before, c, after, rfl, List.forall_mem_cons.mpr ⟨hFirst, hBefore⟩, hLast⟩
      · rintro ⟨before, c, after, hSplit, hBefore, hLast⟩
        cases before with
        | nil =>
            cases hSplit
            exact .inl hLast
        | cons b before =>
            cases hSplit
            obtain ⟨hFirst, hOthers⟩ := List.forall_mem_cons.mp hBefore
            exact .inr ⟨hFirst, ih.mpr ⟨before, c, after, rfl, hOthers, hLast⟩⟩

/-- What succeeds for all elements succeeds for the list, in the same order. -/
theorem exists_mapM_eq_ok {P : α → β → Prop} (as : List α)
    (hAll : ∀ a ∈ as, ∃ b, f a = .ok b ∧ P a b) :
    ∃ bs, as.mapM f = .ok bs ∧ bs.length = as.length ∧
      ∀ (i : Nat) (a : α), as[i]? = some a → ∃ b, bs[i]? = some b ∧ P a b := by
  induction as with
  | nil => exact ⟨[], rfl, rfl, by simp⟩
  | cons a as ih =>
      obtain ⟨hFirst, hOthers⟩ := List.forall_mem_cons.mp hAll
      obtain ⟨b, hb, hP⟩ := hFirst
      obtain ⟨bs, hbs, hLength, hEntries⟩ := ih hOthers
      refine ⟨b :: bs, ?_, congrArg (· + 1) hLength, ?_⟩
      · rw [List.mapM_cons, hb, hbs]
        rfl
      · intro i c hc
        cases i with
        | zero =>
            obtain rfl : a = c := by simpa using hc
            exact ⟨b, rfl, hP⟩
        | succ i => exact hEntries i c hc

end Traversal

end Formula
