import Formula.Text.Grammar

/-! Sentences read token by token, from left to right. What is read at any place is a syntax
tree with one hole: inside every open group a sum, a product and some operators may wait for an
operand. No stack and no limit occurs here; both are compared with these trees elsewhere. -/
namespace Formula.Grammar

/-- The sum and the product of a group that wait for their right operands. -/
structure Chain where
  sum? : Option (Sum × SumOp)
  product? : Option (Product × ProductOp)

/-- A group that is read up to a place where an operand is due. The operators in front of that
operand are listed with the nearest first. -/
structure Level extends Chain where
  prefixes : List PrefixOp

/-- The part of a sentence that is read. An operand is due, or has just been completed; the
groups around the innermost one follow from the inside out. -/
inductive Reading where
  | due (inner : Level) (outer : List Level)
  | done (inner : Chain) (outer : List Level) (operand : Factor)

namespace Chain

/-- The chain of a group of which nothing is read. -/
def empty : Chain := ⟨none, none⟩

/-- The product that a chain makes with its last factor. -/
def product (c : Chain) (f : Factor) : Product :=
  match c.product? with
  | none => .single f
  | some (p, op) => .join p op f

/-- The sum that a chain makes with its last factor. -/
def sum (c : Chain) (f : Factor) : Sum :=
  match c.sum? with
  | none => .single (c.product f)
  | some (s, op) => .join s op (c.product f)

/-- The chain behind a binary operator that follows a factor. -/
def extend (c : Chain) (f : Factor) : BinaryOp → Chain
  | .add => ⟨some (c.sum f, .plus), none⟩
  | .sub => ⟨some (c.sum f, .minus), none⟩
  | .mul => ⟨c.sum?, some (c.product f, .times)⟩
  | .div => ⟨c.sum?, some (c.product f, .over)⟩

/-- The tokens of a chain. -/
def kinds (c : Chain) : List TokenKind :=
  (c.sum?.elim [] fun (s, op) => s.kinds ++ [.operator (.binary op.toBinary)]) ++
    c.product?.elim [] fun (p, op) => p.kinds ++ [.operator (.binary op.toBinary)]

end Chain

namespace Level

/-- A group of which nothing is read. -/
def start : Level := ⟨.empty, []⟩

/-- One more operator in front of the operand that is due. -/
def push (l : Level) (op : PrefixOp) : Level := { l with prefixes := op :: l.prefixes }

/-- The factor that the operators in front of an operand make of it. -/
def wrap (l : Level) (f : Factor) : Factor :=
  l.prefixes.foldl (fun f op => .prefixed op f) f

/-- The tokens of a level. -/
def kinds (l : Level) : List TokenKind :=
  l.toChain.kinds ++ (l.prefixes.map prefixKind).reverse

end Level

namespace Reading

/-- Nothing is read. -/
def start : Reading := .due .start []

/-- Reads one token more, where one of its kind can stand. -/
def step : Reading → TokenKind → Option Reading
  | .due l outer, .number x => some (.done l.toChain outer (l.wrap (.number x)))
  | .due l outer, .openParen => some (.due .start (l :: outer))
  | .due l outer, .operator (.prefixed op) => some (.due (l.push op) outer)
  | .due l outer, .operator (.binary .sub) => some (.due (l.push .neg) outer)
  | .done c outer f, .operator (.binary op) => some (.due ⟨c.extend f op, []⟩ outer)
  | .done c (l :: outer) f, .closeParen =>
    some (.done l.toChain outer (l.wrap (.group (c.sum f))))
  | _, _ => none

/-- Reads a list of tokens. -/
def run (r : Reading) : List TokenKind → Option Reading
  | [] => some r
  | k :: kinds => (r.step k).bind fun next => next.run kinds

/-- The sentence that is read, if the reading is one. -/
def sum? : Reading → Option Sum
  | .done c [] f => some (c.sum f)
  | _ => none

/-- Tokens of the groups around the innermost one. -/
def outerKinds (outer : List Level) : List TokenKind :=
  outer.reverse.flatMap fun l => l.kinds ++ [.openParen]

/-- The tokens that are read. -/
def kinds : Reading → List TokenKind
  | .due l outer => outerKinds outer ++ l.kinds
  | .done c outer f => outerKinds outer ++ c.kinds ++ f.kinds

end Reading

theorem Chain.kinds_product (c : Chain) (f : Factor) :
    (c.product f).kinds =
      (c.product?.elim [] fun (p, op) => p.kinds ++ [.operator (.binary op.toBinary)]) ++
        f.kinds := by
  rcases c with ⟨sum?, _ | ⟨p, op⟩⟩
  · simp [Chain.product, Product.kinds]
  · simp [Chain.product, Product.kinds]

/-- A sum ends with the factor that was read last, and with nothing that waits. -/
theorem Chain.kinds_sum (c : Chain) (f : Factor) : (c.sum f).kinds = c.kinds ++ f.kinds := by
  rcases c with ⟨_ | ⟨s, op⟩, product?⟩
  · simp [Chain.sum, Chain.kinds, Sum.kinds, Chain.kinds_product]
  · simp [Chain.sum, Chain.kinds, Sum.kinds, Chain.kinds_product]

/-- Going on with a binary operator keeps the tokens, whether the operator binds more tightly than
those that wait or not. -/
theorem Chain.kinds_extend (c : Chain) (f : Factor) (op : BinaryOp) :
    (c.extend f op).kinds = c.kinds ++ f.kinds ++ [.operator (.binary op)] := by
  cases op <;>
    simp [Chain.extend, Chain.kinds, Chain.kinds_sum, Chain.kinds_product, SumOp.toBinary,
      ProductOp.toBinary]

/-- The operator that was read first stands in front of the others. -/
theorem Level.kinds_wrap (l : Level) (f : Factor) :
    (l.wrap f).kinds = (l.prefixes.map prefixKind).reverse ++ f.kinds := by
  rcases l with ⟨c, prefixes⟩
  induction prefixes generalizing f with
  | nil => simp [Level.wrap]
  | cons op prefixes ih =>
      have hRest := ih (.prefixed op f)
      simp only [Level.wrap, List.foldl_cons] at hRest ⊢
      simp [hRest, Factor.kinds]

/-- A step reads exactly its token. A negation has no token of its own: it is written with a
minus sign, so a list of tokens that came from a text has none. -/
theorem Reading.kinds_step {r next : Reading} {k : TokenKind} (hStep : r.step k = some next)
    (hWritten : k ≠ .operator (.prefixed .neg)) : next.kinds = r.kinds ++ [k] := by
  cases r with
  | due l outer =>
      cases k with
      | number x =>
          simp only [step, Option.some.injEq] at hStep
          subst next
          simp [kinds, Level.kinds, Level.kinds_wrap, Factor.kinds]
      | openParen =>
          simp only [step, Option.some.injEq] at hStep
          subst next
          simp [kinds, outerKinds, Level.start, Level.kinds, Chain.empty, Chain.kinds]
      | closeParen => simp [step] at hStep
      | operator op =>
          cases op with
          | prefixed op =>
              cases op with
              | neg => exact absurd rfl hWritten
              | sqrt =>
                  simp only [step, Option.some.injEq] at hStep
                  subst next
                  simp [kinds, Level.push, Level.kinds, prefixKind]
          | binary op =>
              cases op <;> simp only [step, Option.some.injEq, reduceCtorEq] at hStep
              subst next
              simp [kinds, Level.push, Level.kinds, prefixKind]
  | done c outer f =>
      cases k with
      | number x => simp [step] at hStep
      | openParen => simp [step] at hStep
      | closeParen =>
          cases outer with
          | nil => simp [step] at hStep
          | cons l outer =>
              simp only [step, Option.some.injEq] at hStep
              subst next
              simp [kinds, outerKinds, Level.kinds, Level.kinds_wrap, Factor.kinds,
                Chain.kinds_sum]
      | operator op =>
          cases op with
          | prefixed op => simp [step] at hStep
          | binary op =>
              simp only [step, Option.some.injEq] at hStep
              subst next
              simp [kinds, Level.kinds, Chain.kinds_extend]

/-- The rest of a list of tokens is read from where the first part leads. -/
theorem Reading.run_append (r : Reading) (first second : List TokenKind) :
    r.run (first ++ second) = (r.run first).bind fun next => next.run second := by
  induction first generalizing r with
  | nil => rfl
  | cons k first ih =>
      rw [List.cons_append, run, run]
      cases r.step k with
      | none => rfl
      | some next => exact ih next

/-- A run reads exactly its tokens. -/
theorem Reading.kinds_run {r last : Reading} {kinds : List TokenKind}
    (hRun : r.run kinds = some last)
    (hWritten : .operator (.prefixed .neg) ∉ kinds) : last.kinds = r.kinds ++ kinds := by
  induction kinds generalizing r with
  | nil =>
      cases hRun
      simp
  | cons k kinds ih =>
      obtain ⟨hHead, hTail⟩ := List.ne_and_not_mem_of_not_mem_cons hWritten
      obtain ⟨next, hStep, hRest⟩ := Option.bind_eq_some_iff.mp hRun
      rw [ih hRest hTail, kinds_step hStep hHead.symm]
      simp

/-- A complete sentence is the tokens that were read of it. -/
theorem Reading.kinds_sum? {r : Reading} {s : Sum} (hSum : r.sum? = some s) :
    s.kinds = r.kinds := by
  cases r with
  | due l outer => cases hSum
  | done c outer f =>
      cases outer with
      | cons l outer => cases hSum
      | nil =>
          cases hSum
          simp [kinds, outerKinds, Chain.kinds_sum]

/-- The reading behind a product whose group has the given sum waiting. -/
def Reading.ofProduct (sum? : Option (Sum × SumOp)) (outer : List Level) : Product → Reading
  | .single f => .done ⟨sum?, none⟩ outer f
  | .join p op f => .done ⟨sum?, some (p, op)⟩ outer f

/-- The reading behind a sum. -/
def Reading.ofSum (outer : List Level) : Sum → Reading
  | .single p => .ofProduct none outer p
  | .join s op p => .ofProduct (some (s, op)) outer p

/-- A product goes on with another factor. -/
theorem Reading.step_ofProduct_times (sum? : Option (Sum × SumOp)) (outer : List Level)
    (p : Product) (op : ProductOp) :
    (ofProduct sum? outer p).step (.operator (.binary op.toBinary)) =
      some (.due ⟨⟨sum?, some (p, op)⟩, []⟩ outer) := by
  cases p <;> cases op <;> rfl

/-- A sum goes on with another product, whatever it has waiting. -/
theorem Reading.step_ofSum_plus (outer : List Level) (s : Sum) (op : SumOp) :
    (ofSum outer s).step (.operator (.binary op.toBinary)) =
      some (.due ⟨⟨some (s, op), none⟩, []⟩ outer) := by
  rcases s with ⟨_ | _⟩ | ⟨s, _, _ | _⟩ <;> cases op <;> rfl

/-- A sum in parentheses becomes a factor of the group around it. -/
theorem Reading.step_ofSum_closeParen (l : Level) (outer : List Level) (s : Sum) :
    (ofSum (l :: outer) s).step .closeParen =
      some (.done l.toChain outer (l.wrap (.group s))) := by
  rcases s with ⟨_ | _⟩ | ⟨s, _, _ | _⟩ <;> rfl

theorem Reading.sum?_ofSum (s : Sum) : (ofSum [] s).sum? = some s := by
  rcases s with ⟨_ | _⟩ | ⟨s, _, _ | _⟩ <;> rfl

mutual

/-- Reading a sum leads behind the sum. There is one equation for each kind of syntax tree. The
tokens that follow are arbitrary, so the equations compose along a sentence. -/
theorem Reading.run_sum (s : Sum) (outer : List Level) (rest : List TokenKind) :
    (Reading.due .start outer).run (s.kinds ++ rest) = (ofSum outer s).run rest := by
  cases s with
  | single p => exact run_product p none outer rest
  | join s op p =>
      rw [Sum.kinds, List.append_assoc, run_sum s, List.cons_append, run, step_ofSum_plus]
      exact run_product p _ outer rest

theorem Reading.run_product (p : Product) (sum? : Option (Sum × SumOp)) (outer : List Level)
    (rest : List TokenKind) :
    (Reading.due ⟨⟨sum?, none⟩, []⟩ outer).run (p.kinds ++ rest) =
      (ofProduct sum? outer p).run rest := by
  cases p with
  | single f => exact run_factor f _ outer rest
  | join p op f =>
      rw [Product.kinds, List.append_assoc, run_product p, List.cons_append, run,
        step_ofProduct_times]
      exact run_factor f _ outer rest

theorem Reading.run_factor (f : Factor) (l : Level) (outer : List Level)
    (rest : List TokenKind) :
    (Reading.due l outer).run (f.kinds ++ rest) =
      (Reading.done l.toChain outer (l.wrap f)).run rest := by
  cases f with
  | number x => rfl
  | group s =>
      have hInner := run_sum s (l :: outer) (.closeParen :: rest)
      rw [run, step_ofSum_closeParen] at hInner
      simpa [Factor.kinds, run, step] using hInner
  | prefixed op f =>
      have hInner := run_factor f (l.push op) outer rest
      cases op <;> exact hInner

end

/-- Reading a sentence from the start ends with the syntax tree of that sentence. -/
theorem Reading.run_start_sum (s : Sum) :
    start.run s.kinds = some (ofSum [] s) := by
  have hRun := run_sum s [] []
  rw [List.append_nil] at hRun
  exact hRun

/-- Each list of tokens is the written form of one syntax tree at most. -/
theorem Sum.kinds_injective : Function.Injective Sum.kinds := by
  intro s t hKinds
  have hRun := Reading.run_start_sum s
  rw [hKinds, Reading.run_start_sum t, Option.some.injEq] at hRun
  have hSum := congrArg Reading.sum? hRun
  rw [Reading.sum?_ofSum, Reading.sum?_ofSum, Option.some.injEq] at hSum
  exact hSum.symm

/-- A list of tokens is a sentence exactly when reading it ends with a whole one. -/
theorem kinds_eq_iff_run {kinds : List TokenKind} (s : Sum)
    (hWritten : .operator (.prefixed .neg) ∉ kinds) :
    s.kinds = kinds ↔ ∃ r, Reading.start.run kinds = some r ∧ r.sum? = some s := by
  constructor
  · rintro rfl
    exact ⟨_, Reading.run_start_sum s, Reading.sum?_ofSum s⟩
  · rintro ⟨r, hRun, hSum⟩
    rw [Reading.kinds_sum? hSum, Reading.kinds_run hRun hWritten]
    rfl

end Formula.Grammar
