import Mathlib.Logic.Function.Basic
import Formula.Parameter.Registry

/-! What a program does with tables and records, told twice: over the registry, where values are
in records that tables and programs share, and over plain maps, where a table is a function from
handles to values and nothing is shared. A program names its tables; the records that it gets it
keeps in a list, and writes to them by their places in that list. -/
namespace Formula

/-- What a program asks for. -/
inductive Request where
  | newTable (name : String)
  | tableOf (name : String) (items : List (Handle × Float))
  | insert (name : String) (h : Handle) (v : Float)
  | set (name : String) (h : Handle) (v : Float)
  | resolve (name : String) (h : Handle)
  | newRecord (h : Handle) (v : Float)
  | write (place : Nat) (v : Float)

/-- The table that a request makes, if it makes one. -/
def Request.makes? : Request → Option String
  | .newTable name | .tableOf name _ => some name
  | _ => none

/-- A registry, and the records that a program has got from it, the earliest first. -/
structure Session where
  registry : Registry
  held : List Record

namespace Session

def empty : Session := ⟨.empty, []⟩

def perform (s : Session) : Request → Session
  | .newTable name => { s with registry := s.registry.newTable name }
  | .tableOf name items => { s with registry := s.registry.tableOf name items }
  | .insert name h v =>
    let (r, g) := s.registry.insert name h v
    ⟨g, s.held ++ [r]⟩
  | .set name h v => { s with registry := (s.registry.set name h v).2 }
  | .resolve name h => { s with held := s.held ++ ((s.registry.table name).record? h).toList }
  | .newRecord h v =>
    let (r, g) := s.registry.newRecord h v
    ⟨g, s.held ++ [r]⟩
  | .write place v =>
    match s.held[place]? with
    | some r => { s with registry := s.registry.write r v }
    | none => s

def run (s : Session) (requests : List Request) : Session :=
  requests.foldl perform s

end Session

/-- A map. A name stands for the table that was made last under it, and the tables before it live
on with the records that were got from them. A record outside any table is a map of its own, with
one entry. -/
inductive MapId where
  | table (name : String) (earlier : Nat)
  | alone (number : Nat)
deriving DecidableEq

/-- A place for a value: a handle of a map. -/
structure Slot where
  map : MapId
  handle : Handle
deriving DecidableEq

structure PlainMaps where
  /-- How many tables were made under a name, the first one apart: it is there from the start. -/
  made : String → Nat
  /-- How many records were made outside tables. -/
  alone : Nat
  maps : MapId → Handle → Option Float

namespace PlainMaps

def empty : PlainMaps := ⟨fun _ => 0, 0, fun _ _ => none⟩

variable (p : PlainMaps)

/-- The map that a table's name stands for. -/
def current (name : String) : MapId := .table name (p.made name)

/-- The values that the named table has for its handles. -/
def table (name : String) : Handle → Option Float := p.maps (p.current name)

def value? (a : Slot) : Option Float := p.maps a.map a.handle

/-- Whether the map was made already. -/
def Has : MapId → Prop
  | .table name earlier => earlier ≤ p.made name
  | .alone number => number < p.alone

/-- Gives one handle of one map a value. -/
def put (a : Slot) (v : Float) : PlainMaps :=
  { p with maps := Function.update p.maps a.map (Function.update (p.maps a.map) a.handle (some v)) }

/-- Makes a new table. Of several values for a handle the last one counts. -/
def start (name : String) (items : List (Handle × Float)) : PlainMaps where
  made := Function.update p.made name (p.made name + 1)
  alone := p.alone
  maps := Function.update p.maps (.table name (p.made name + 1)) fun h => items.reverse.lookup h

theorem has_current (name : String) : p.Has (p.current name) :=
  Nat.le_refl (p.made name)

/-- The next table of a name is yet to be made. -/
theorem not_has_next (name : String) : ¬p.Has (.table name (p.made name + 1)) :=
  Nat.not_succ_le_self (p.made name)

/-- Tables of different names have different maps. -/
theorem current_inj {name other : String} : p.current name = p.current other ↔ name = other := by
  constructor
  · intro hEq
    exact (MapId.table.inj hEq).1
  · intro hEq
    rw [hEq]

/-- One slot gets the value, and all others keep theirs. -/
theorem value?_put (a : Slot) (v : Float) :
    (p.put a v).value? = Function.update p.value? a (some v) := by
  funext b
  rcases a with ⟨i, h⟩
  rcases b with ⟨j, k⟩
  by_cases hMap : j = i
  · subst j
    by_cases hHandle : k = h
    · subst k
      simp [value?, put]
    · simp [value?, put, hHandle]
  · simp [value?, put, hMap]

theorem current_put (a : Slot) (v : Float) (name : String) :
    (p.put a v).current name = p.current name :=
  rfl

theorem current_start (name : String) (items : List (Handle × Float)) :
    (p.start name items).current name = .table name (p.made name + 1) := by
  simp [current, start]

theorem current_start_of_ne {name other : String} (hName : other ≠ name)
    (items : List (Handle × Float)) : (p.start name items).current other = p.current other := by
  simp [current, start, hName]

/-- The maps that were made stay, those of earlier tables of the name included. -/
theorem has_start {i : MapId} (hHas : p.Has i) (name : String) (items : List (Handle × Float)) :
    (p.start name items).Has i := by
  cases i with
  | alone number => exact hHas
  | table other earlier =>
      by_cases hName : other = name
      · subst other
        simpa [Has, start] using Nat.le_succ_of_le hHas
      · simpa [Has, start, hName] using hHas

/-- A new table changes no value: whoever holds a record of the old one still sees it. -/
theorem value?_start {a : Slot} (hHas : p.Has a.map) (name : String)
    (items : List (Handle × Float)) : (p.start name items).value? a = p.value? a := by
  have hOld : a.map ≠ .table name (p.made name + 1) := fun hEq =>
    p.not_has_next name (hEq ▸ hHas)
  simp [value?, start, hOld]

/-- A new table with one value more is the new table that is then given that value. -/
theorem put_start (name : String) (items : List (Handle × Float)) (h : Handle) (v : Float) :
    (p.start name items).put ⟨(p.start name items).current name, h⟩ v =
      p.start name (items ++ [(h, v)]) := by
  rw [current_start, put, start, start, PlainMaps.mk.injEq]
  refine ⟨rfl, rfl, ?_⟩
  rw [Function.update_idem]
  congr 1
  funext k
  by_cases hHandle : k = h
  · simp [hHandle]
  · have hOther : (k == h) = false := beq_eq_false_iff_ne.mpr hHandle
    simp [List.lookup_cons, hHandle, hOther]

end PlainMaps

/-- Plain maps, and the slots whose records a program has got. -/
structure PlainSession where
  maps : PlainMaps
  held : List Slot

namespace PlainSession

def empty : PlainSession := ⟨.empty, []⟩

def perform (s : PlainSession) : Request → PlainSession
  | .newTable name => { s with maps := s.maps.start name [] }
  | .tableOf name items => { s with maps := s.maps.start name items }
  | .insert name h v =>
    let a : Slot := ⟨s.maps.current name, h⟩
    ⟨s.maps.put a v, s.held ++ [a]⟩
  | .set name h v =>
    if (s.maps.table name h).isSome then { s with maps := s.maps.put ⟨s.maps.current name, h⟩ v }
    else s
  | .resolve name h =>
    if (s.maps.table name h).isSome then { s with held := s.held ++ [⟨s.maps.current name, h⟩] }
    else s
  | .newRecord h v =>
    let a : Slot := ⟨.alone s.maps.alone, h⟩
    ⟨{ s.maps.put a v with alone := s.maps.alone + 1 }, s.held ++ [a]⟩
  | .write place v =>
    match s.held[place]? with
    | some a => { s with maps := s.maps.put a v }
    | none => s

def run (s : PlainSession) (requests : List Request) : PlainSession :=
  requests.foldl perform s

/-- The slot that a request gives a value, of those that there were before. -/
def target? (s : PlainSession) : Request → Option Slot
  | .insert name h _ | .set name h _ => some ⟨s.maps.current name, h⟩
  | .write place _ => s.held[place]?
  | .newTable _ | .tableOf .. | .resolve .. | .newRecord .. => none

/-- A request changes no value but that of its target. -/
theorem value?_perform {s : PlainSession} {a : Slot} (hHas : s.maps.Has a.map) {q : Request}
    (hTarget : s.target? q ≠ some a) : (s.perform q).maps.value? a = s.maps.value? a := by
  cases q with
  | newTable name => exact s.maps.value?_start hHas name []
  | tableOf name items => exact s.maps.value?_start hHas name items
  | insert name h v =>
      have hOther : a ≠ ⟨s.maps.current name, h⟩ := fun hEq => hTarget (hEq ▸ rfl)
      rw [perform, PlainMaps.value?_put, Function.update_of_ne hOther]
  | set name h v =>
      have hOther : a ≠ ⟨s.maps.current name, h⟩ := fun hEq => hTarget (hEq ▸ rfl)
      rw [perform]
      split
      · rw [PlainMaps.value?_put, Function.update_of_ne hOther]
      · rfl
  | resolve name h =>
      rw [perform]
      split
      · rfl
      · rfl
  | newRecord h v =>
      have hOther : a ≠ ⟨.alone s.maps.alone, h⟩ := by
        intro hEq
        rw [hEq] at hHas
        exact absurd hHas (Nat.lt_irrefl s.maps.alone)
      change (s.maps.put ⟨.alone s.maps.alone, h⟩ v).value? a = s.maps.value? a
      rw [PlainMaps.value?_put, Function.update_of_ne hOther]
  | write place v =>
      rw [perform]
      split
      case h_1 b hHeld =>
        have hOther : a ≠ b := fun hEq => hTarget (hEq ▸ hHeld)
        rw [PlainMaps.value?_put, Function.update_of_ne hOther]
      case h_2 => rfl

/-- A name stands for the same table until another one is made under it. -/
theorem current_perform (s : PlainSession) {name : String} {q : Request}
    (hMakes : q.makes? ≠ some name) : (s.perform q).maps.current name = s.maps.current name := by
  cases q with
  | newTable other =>
      have hName : name ≠ other := fun hEq => hMakes (hEq ▸ rfl)
      exact s.maps.current_start_of_ne hName []
  | tableOf other items =>
      have hName : name ≠ other := fun hEq => hMakes (hEq ▸ rfl)
      exact s.maps.current_start_of_ne hName items
  | insert other h v => rfl
  | newRecord h v => rfl
  | set other h v | resolve other h | write place v =>
      rw [perform]
      split
      · rfl
      · rfl

end PlainSession

end Formula
