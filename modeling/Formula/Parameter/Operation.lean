import Formula.Parameter.Registry

/-!
Operations on the registry and their runs. Every registry that a program can get is the result of
a run that starts without records.
-/
namespace Formula

/-- The operations that change tables or records. Looking up values and handing out records change
nothing. -/
inductive Operation where
  | newTable (name : String)
  | insert (name : String) (h : Handle) (v : Float)
  | set (name : String) (h : Handle) (v : Float)
  | newRecord (h : Handle) (v : Float)
  | write (r : Record) (v : Float)

namespace Registry

/-- The registry after one operation. -/
def perform (g : Registry) : Operation → Registry
  | .newTable name => g.newTable name
  | .insert name h v => (g.insert name h v).2
  | .set name h v => (g.set name h v).2
  | .newRecord h v => (g.newRecord h v).2
  | .write r v => g.write r v

/-- The registry after a sequence of operations. -/
def run (g : Registry) (ops : List Operation) : Registry :=
  ops.foldl perform g

/-- Registries that a program can get. -/
def Reachable (g : Registry) : Prop :=
  ∃ ops, g = empty.run ops

end Registry

end Formula
