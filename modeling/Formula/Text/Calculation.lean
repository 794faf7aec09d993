import Formula.Expr.Evaluation
import Formula.Text.Parsing

/-!
Values of texts.
-/
namespace Formula

/-- Value of a text, read under the standard limits, at a store. -/
def evalText (s : Store) (g : Registry) (text : String) : Except ParseError Float := do
  let e ← Expr.parse .standard text
  pure (e.eval s g)

end Formula
