import Std.Data.TreeMap
import Formula.Parameter.Record

/-!
Parameter tables: the records of a solver, found by handle. A table only refers to its records;
their values are in the memory.
-/
namespace Formula

open Formula.Binary64

/-- One record for each handle that the table knows. -/
structure Table where
  records : Std.TreeMap Handle Record

namespace Table

/-- The table that knows no handle. -/
def empty : Table := ⟨∅⟩

/-- The record of a handle. -/
def record? (t : Table) (h : Handle) : Option Record :=
  t.records[h]?

/-- Whether the table knows a handle. -/
def contains (t : Table) (h : Handle) : Bool :=
  t.records.contains h

/-- Count of the handles that the table knows. -/
def size (t : Table) : Nat :=
  t.records.size

/-- Whether the table knows no handle. -/
def isEmpty (t : Table) : Bool :=
  t.records.isEmpty

/-- The handles that the table knows, in ascending order. -/
def handles (t : Table) : List Handle :=
  t.records.keys

/-- Current value of a handle. -/
def get? (t : Table) (m : Memory) (h : Handle) : Option Float :=
  (t.record? h).map m.read

/-- Current value of a handle, and no number for one that the table does not know. -/
def lookup (t : Table) (m : Memory) (h : Handle) : Float :=
  (t.get? m h).getD nan

end Table

end Formula
