import Formula.Parameter.Table

/-!
The registry: all tables, by name, over one memory. Inserting a known handle writes to the record
that is there already, so whoever holds the record sees the new value; no operation ever puts
another record in its place.
-/
namespace Formula

/-- Named tables over one memory. A name that was never used stands for the empty table. -/
structure Registry where
  memory : Memory
  tables : Std.TreeMap String Table

namespace Registry

/-- The registry without records. -/
def empty : Registry := ⟨.empty, ∅⟩

/-- The table of the given name. -/
def table (g : Registry) (name : String) : Table :=
  g.tables.getD name .empty

/-- Puts a table in the place of the one with the given name. -/
def setTable (g : Registry) (name : String) (t : Table) : Registry :=
  { g with tables := g.tables.insert name t }

/-- The table that was put under a name is found under it. -/
theorem table_setTable_self (g : Registry) (name : String) (t : Table) :
    (g.setTable name t).table name = t := by
  simp [table, setTable]

/-- Putting a table under one name leaves the tables of all others alone. -/
theorem table_setTable_of_ne {name other : String} (hName : other ≠ name) (g : Registry)
    (t : Table) : (g.setTable name t).table other = g.table other := by
  simp [table, setTable, Std.TreeMap.getD_insert, hName.symm]

/-- Starts the named table anew, without handles. Records of the old table live on with those
that hold them. -/
def newTable (g : Registry) (name : String) : Registry :=
  g.setTable name .empty

/-- Current value of a record. -/
def read (g : Registry) (r : Record) : Float :=
  g.memory.read r

/-- Sets the value of a record, for all who hold it. -/
def write (g : Registry) (r : Record) (v : Float) : Registry :=
  { g with memory := g.memory.write r v }

/-- A fresh record outside any table. -/
def newRecord (g : Registry) (h : Handle) (v : Float) : Record × Registry :=
  let (r, memory) := g.memory.allocate h v
  (r, { g with memory := memory })

/-- Gives the handle the value `v` in the named table: in the record that the table has for it,
else in a fresh one. Answers the record. -/
def insert (g : Registry) (name : String) (h : Handle) (v : Float) : Record × Registry :=
  match (g.table name).record? h with
  | some r => (r, g.write r v)
  | none =>
    let (r, g) := g.newRecord h v
    (r, g.setTable name ⟨(g.table name).records.insert h r⟩)

/-- Sets the value of a handle that the named table knows; answers whether it knows it. -/
def set (g : Registry) (name : String) (h : Handle) (v : Float) : Bool × Registry :=
  match (g.table name).record? h with
  | some r => (true, g.write r v)
  | none => (false, g)

/-- Inserts pairs of handle and value in order, so that the last of two pairs wins. -/
def insertAll (g : Registry) (name : String) (items : List (Handle × Float)) : Registry :=
  items.foldl (fun g item => (g.insert name item.1 item.2).2) g

/-- A new table of the given name that holds the given pairs. -/
def tableOf (g : Registry) (name : String) (items : List (Handle × Float)) : Registry :=
  (g.newTable name).insertAll name items

/-- Current value of a handle in the named table. -/
def get? (g : Registry) (name : String) (h : Handle) : Option Float :=
  (g.table name).get? g.memory h

/-- Current value of a handle in the named table, and no number for an unknown one. -/
def lookup (g : Registry) (name : String) (h : Handle) : Float :=
  (g.table name).lookup g.memory h

end Registry

end Formula
