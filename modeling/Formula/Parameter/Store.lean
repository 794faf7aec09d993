import Formula.Parameter.Registry

/-!
Stores: what an expression is evaluated against. A store gives a value to every handle, and it may
hand out the shared record behind a handle.
-/
namespace Formula

/-- A source of parameter values. Handing out a record may create it, hence the registry in the
answer. -/
structure Store where
  /-- Current value of a handle. -/
  lookup : Registry → Handle → Float
  /-- The record behind a handle, if the store has one. -/
  resolve : Handle → Registry → Option Record × Registry

/-- The named table as a store: it hands out its own records. -/
def Store.ofTable (name : String) : Store where
  lookup g h := g.lookup name h
  resolve h g := ((g.table name).record? h, g)

end Formula
