/-!
Handles: the numbers by which expressions name their parameters.
-/
namespace Formula

/-- A parameter's name: a 32-bit number without further meaning. -/
structure Handle where
  id : UInt32
deriving DecidableEq, Repr, Inhabited

namespace Handle

/-- Handles are ordered by number. -/
instance : Ord Handle := ⟨compareOn Handle.id⟩

instance : Std.TransOrd Handle :=
  inferInstanceAs (Std.TransCmp (compareOn Handle.id))

instance : Std.LawfulEqOrd Handle where
  eq_of_compare {a b} hEq := by
    have hId : a.id = b.id := Std.LawfulEqOrd.eq_of_compare hEq
    cases a
    cases b
    exact congrArg Handle.mk hId

/-- Written form of a handle: eight hexadecimal digits. -/
def text (h : Handle) : List Char :=
  (Nat.toDigits 16 h.id.toNat).leftpad 8 '0'

end Handle

end Formula
