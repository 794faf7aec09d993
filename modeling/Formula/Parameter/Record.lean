import Formula.Decimal.Layout
import Formula.Parameter.Handle

/-!
Parameter records. A record is shared by all that hold it: it keeps its handle for ever, and its
current value stands in a cell of the memory, where everyone who holds the record sees a change.
-/
namespace Formula

open Formula.Binary64

/-- A record of the parameter `handle`, whose value is in the given cell of the memory. -/
structure Record where
  handle : Handle
  cell : Nat
deriving DecidableEq, Repr, Inhabited

/-- Two records stand for the same parameter when their handles agree, whatever their cells. -/
def Record.sameParameter (r s : Record) : Bool :=
  decide (r.handle = s.handle)

/-- The current values of all records. -/
structure Memory where
  values : Array Float

namespace Memory

/-- The memory without cells. -/
def empty : Memory := ⟨#[]⟩

/-- Current value of a record. -/
def read (m : Memory) (r : Record) : Float :=
  m.values.getD r.cell nan

/-- Sets the value of a record, for all who hold it. -/
def write (m : Memory) (r : Record) (v : Float) : Memory :=
  ⟨m.values.setIfInBounds r.cell v⟩

/-- A fresh record with a cell of its own. -/
def allocate (m : Memory) (h : Handle) (v : Float) : Record × Memory :=
  (⟨h, m.values.size⟩, ⟨m.values.push v⟩)

/-- Records of one cell have one value, for whatever handles. -/
theorem read_eq_of_cell_eq {m : Memory} {r s : Record} (hCell : s.cell = r.cell) :
    m.read s = m.read r := by
  rw [read, read, hCell]

/-- A record reads what was last written to it. -/
theorem read_write_self {m : Memory} {r : Record} (hCell : r.cell < m.values.size) (v : Float) :
    (m.write r v).read r = v := by
  simp [read, write, Array.getD, hCell]

/-- Writing to a record leaves all others alone. -/
theorem read_write_of_ne {r s : Record} (hCell : s.cell ≠ r.cell) (m : Memory) (v : Float) :
    (m.write r v).read s = m.read s := by
  simp [read, write, Array.getD_eq_getD_getElem?, hCell.symm]

/-- Writing makes no cells. -/
theorem size_write (m : Memory) (r : Record) (v : Float) :
    (m.write r v).values.size = m.values.size := by
  simp [write]

/-- A fresh record takes one more cell. -/
theorem size_allocate (m : Memory) (h : Handle) (v : Float) :
    (m.allocate h v).2.values.size = m.values.size + 1 := by
  simp [allocate]

/-- A fresh record has the value that it was made with. -/
theorem read_allocate_self (m : Memory) (h : Handle) (v : Float) :
    (m.allocate h v).2.read (m.allocate h v).1 = v := by
  simp [read, allocate, Array.getD]

/-- A fresh record has a cell that no older record has, so the older ones keep their values. -/
theorem read_allocate_of_lt {m : Memory} {r : Record} (hCell : r.cell < m.values.size)
    (h : Handle) (v : Float) : (m.allocate h v).2.read r = m.read r := by
  simp [read, allocate, Array.getD_eq_getD_getElem?, Array.getElem?_push, Nat.ne_of_lt hCell]

end Memory

/-- Values of records keep a fraction when whole, and are written with an exponent from `10 ^ 16`
on and, unless zero, below `10 ^ (-4)`. -/
def Record.valueLayout : Decimal.Layout where
  keepsFraction := true
  isPositional e := decide (-4 ≤ e ∧ e < 16)

/-- Description of a record with the value `v`, for diagnostics. -/
def Record.describe (r : Record) (v : Float) : String :=
  "Param \x7b handle: ParamHandle(" ++ String.ofList (Nat.toDigits 10 r.handle.id.toNat) ++
    "), value: " ++ String.ofList (Record.valueLayout.write v) ++ " \x7d"

end Formula
