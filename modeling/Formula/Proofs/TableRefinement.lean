import Mathlib.Data.List.Induction
import Mathlib.Data.List.Nodup
import Formula.Proofs.Sessions
import Formula.Proofs.TableRecords

/-! Tables behave as plain maps. Each cell of the memory stands for one slot of one map and no two
cells for the same, and every table holds for its handles the records of exactly those cells. Every
operation keeps this. -/
namespace Formula

open Formula.Binary64

/-- The layout says which slot each cell of the memory stands for. Together the cells have the
values of all slots. -/
structure Stores (m : Memory) (value? : Slot → Option Float) (layout : List Slot) : Prop where
  size : layout.length = m.values.size
  nodup : layout.Nodup
  value : ∀ (r : Record) (a : Slot), layout[r.cell]? = some a → value? a = some (m.read r)
  complete : ∀ a, value? a ≠ none → a ∈ layout

/-- The record is that of the slot. -/
def Stands (layout : List Slot) (r : Record) (a : Slot) : Prop :=
  r.handle = a.handle ∧ layout[r.cell]? = some a

theorem getElem?_concat_eq_some_iff {α : Type} {l : List α} {a b : α} {i : Nat} :
    (l ++ [a])[i]? = some b ↔ l[i]? = some b ∨ i = l.length ∧ a = b := by
  rcases Nat.lt_trichotomy i l.length with hLess | rfl | hGreater
  · simp [List.getElem?_append_left hLess, Nat.ne_of_lt hLess]
  · simp
  · have hBeyond : (l ++ [a]).length ≤ i := by
      rw [List.length_append]
      exact hGreater
    rw [List.getElem?_eq_none hBeyond, List.getElem?_eq_none (Nat.le_of_lt hGreater)]
    simp [Nat.ne_of_gt hGreater]

/-- One more cell stands for one more slot, and the older records stay those of their slots. -/
theorem stands_concat_iff {layout : List Slot} {r : Record} {a b : Slot} :
    Stands (layout ++ [a]) r b ↔
      Stands layout r b ∨ a = b ∧ r = ⟨a.handle, layout.length⟩ := by
  rcases r with ⟨h, c⟩
  rw [Stands, getElem?_concat_eq_some_iff, and_or_left]
  refine or_congr Iff.rfl ?_
  rw [Record.mk.injEq]
  constructor
  · rintro ⟨hHandle, hCell, rfl⟩
    exact ⟨rfl, hHandle, hCell⟩
  · rintro ⟨rfl, hHandle, hCell⟩
    exact ⟨hHandle, hCell, rfl⟩

namespace Stores

variable {m : Memory} {value? : Slot → Option Float} {layout : List Slot} {r : Record} {a : Slot}

theorem cell_lt (hStores : Stores m value? layout) (hCell : layout[r.cell]? = some a) :
    r.cell < m.values.size := by
  obtain ⟨hLength, _⟩ := List.getElem?_eq_some_iff.mp hCell
  rw [← hStores.size]
  exact hLength

theorem value?_eq_none (hStores : Stores m value? layout) (hFresh : a ∉ layout) :
    value? a = none :=
  not_not.mp (mt (hStores.complete a) hFresh)

/-- Writing to a record changes the value of its slot and of no other, because every slot has one
cell. -/
theorem write (hStores : Stores m value? layout) (hCell : layout[r.cell]? = some a) (v : Float) :
    Stores (m.write r v) (Function.update value? a (some v)) layout where
  size := by rw [Memory.size_write, hStores.size]
  nodup := hStores.nodup
  value := by
    intro s b hOther
    have hSize := hStores.cell_lt hCell
    by_cases hSame : s.cell = r.cell
    · cases hCell.symm.trans (hSame ▸ hOther)
      rw [Function.update_self, Memory.read_eq_of_cell_eq hSame, Memory.read_write_self hSize]
    · have hSlot : b ≠ a := by
        rintro rfl
        have hLength := hStores.size ▸ hSize
        exact hSame ((List.getElem?_inj hLength hStores.nodup).mp (hCell.trans hOther.symm)).symm
      rw [Function.update_of_ne hSlot, Memory.read_write_of_ne hSame]
      exact hStores.value s b hOther
  complete := by
    intro b hValue
    by_cases hSlot : b = a
    · rw [hSlot]
      exact List.mem_of_getElem? hCell
    · rw [Function.update_of_ne hSlot] at hValue
      exact hStores.complete b hValue

/-- A fresh cell may stand for any slot that has none yet. -/
theorem allocate (hStores : Stores m value? layout) (hFresh : a ∉ layout) (h : Handle)
    (v : Float) :
    Stores (m.allocate h v).2 (Function.update value? a (some v)) (layout ++ [a]) where
  size := by rw [Memory.size_allocate, List.length_append, List.length_singleton, hStores.size]
  nodup := List.nodup_append'.mpr ⟨hStores.nodup, List.nodup_singleton a, by simpa using hFresh⟩
  value := by
    intro r b hCell
    rcases getElem?_concat_eq_some_iff.mp hCell with hOld | ⟨hLast, rfl⟩
    · have hSlot : b ≠ a := fun hEq => hFresh (hEq ▸ List.mem_of_getElem? hOld)
      rw [Function.update_of_ne hSlot, Memory.read_allocate_of_lt (hStores.cell_lt hOld)]
      exact hStores.value r b hOld
    · have hSame : r.cell = (m.allocate h v).1.cell := hLast.trans hStores.size
      rw [Function.update_self, Memory.read_eq_of_cell_eq hSame, Memory.read_allocate_self]
  complete := by
    intro b hValue
    by_cases hSlot : b = a
    · simp [hSlot]
    · rw [Function.update_of_ne hSlot] at hValue
      exact List.mem_append_left _ (hStores.complete b hValue)

end Stores

/-- The registry holds the maps. A table has the records of the slots of its map, and no slot of a
map that is yet to be made has a cell. -/
structure Represents (g : Registry) (p : PlainMaps) (layout : List Slot) : Prop where
  stores : Stores g.memory p.value? layout
  record : ∀ name h r,
    (g.table name).record? h = some r ↔ Stands layout r ⟨p.current name, h⟩
  has : ∀ a ∈ layout, p.Has a.map

namespace Represents

variable {g : Registry} {p : PlainMaps} {layout : List Slot} {r : Record} {a : Slot}
  {name : String} {h : Handle}

theorem empty : Represents .empty .empty [] where
  stores := ⟨rfl, List.nodup_nil, by simp, fun a hValue => absurd rfl hValue⟩
  record := by simp [Stands, Registry.table, Registry.empty, Table.empty, Table.record?]
  has := by simp

/-- A handle that a table does not know has no cell yet. -/
theorem not_mem_of_unknown (hRep : Represents g p layout)
    (hUnknown : (g.table name).record? h = none) : ⟨p.current name, h⟩ ∉ layout := by
  intro hMem
  obtain ⟨c, hCell⟩ := List.mem_iff_getElem?.mp hMem
  have hRecord := (hRep.record name h ⟨h, c⟩).mpr ⟨rfl, hCell⟩
  rw [hUnknown] at hRecord
  cases hRecord

/-- Writing to a record gives its slot the value, in whatever table or in none. -/
theorem write (hRep : Represents g p layout) (hCell : layout[r.cell]? = some a) (v : Float) :
    Represents (g.write r v) (p.put a v) layout where
  stores := by
    rw [PlainMaps.value?_put]
    exact hRep.stores.write hCell v
  record := hRep.record
  has := hRep.has

/-- A record outside any table is a map of its own. -/
theorem newRecord (hRep : Represents g p layout) (h : Handle) (v : Float) :
    Represents (g.newRecord h v).2 { p.put ⟨.alone p.alone, h⟩ v with alone := p.alone + 1 }
      (layout ++ [⟨.alone p.alone, h⟩]) where
  stores := by
    have hFresh : ⟨.alone p.alone, h⟩ ∉ layout :=
      fun hMem => absurd (hRep.has _ hMem) (Nat.lt_irrefl p.alone)
    have hStores := hRep.stores.allocate hFresh h v
    rw [← PlainMaps.value?_put] at hStores
    exact hStores
  record := by
    intro name k r
    have hSlot : (⟨.alone p.alone, h⟩ : Slot) ≠ ⟨p.current name, k⟩ := by
      intro hEq
      cases congrArg Slot.map hEq
    refine (hRep.record name k r).trans ?_
    exact (stands_concat_iff.trans (or_iff_left fun hNew => hSlot hNew.1)).symm
  has := by
    intro b hMem
    rcases List.mem_append.mp hMem with hOld | hNew
    · have hBefore := hRep.has b hOld
      rcases b with ⟨i, k⟩
      cases i with
      | table other earlier => exact hBefore
      | alone number => exact Nat.lt_succ_of_lt hBefore
    · obtain rfl := List.mem_singleton.mp hNew
      exact Nat.lt_succ_self p.alone

/-- A table gets a record for a handle that it did not know. -/
theorem insert_of_unknown (hRep : Represents g p layout)
    (hUnknown : (g.table name).record? h = none) (v : Float) :
    Represents (g.insert name h v).2 (p.put ⟨p.current name, h⟩ v)
      (layout ++ [⟨p.current name, h⟩]) where
  stores := by
    rw [PlainMaps.value?_put, Registry.insert_of_unknown hUnknown]
    exact hRep.stores.allocate (hRep.not_mem_of_unknown hUnknown) h v
  record := by
    intro other k r
    have hRecord : (g.insert name h v).1 = ⟨h, layout.length⟩ := by
      rw [Registry.insert_of_unknown hUnknown, hRep.stores.size]
      rfl
    have hSlot : (⟨p.current name, h⟩ : Slot) = ⟨p.current other, k⟩ ↔ other = name ∧ k = h := by
      rw [Slot.mk.injEq, p.current_inj]
      exact and_congr eq_comm eq_comm
    rw [Registry.record?_insert, hRecord, PlainMaps.current_put, stands_concat_iff, hSlot]
    by_cases hSame : other = name ∧ k = h
    · obtain ⟨rfl, rfl⟩ := hSame
      rw [if_pos ⟨rfl, rfl⟩, ← hRep.record, hUnknown, Option.some.injEq, eq_comm]
      simp
    · rw [if_neg hSame, hRep.record]
      exact (or_iff_left fun hNew => hSame hNew.1).symm
  has := by
    intro b hMem
    rcases List.mem_append.mp hMem with hOld | hNew
    · exact hRep.has b hOld
    · obtain rfl := List.mem_singleton.mp hNew
      exact p.has_current name

/-- Inserting gives the slot of the handle a value, in the cell that it has or in a fresh one. -/
theorem insert (hRep : Represents g p layout) (name : String) (h : Handle) (v : Float) :
    ∃ more, Represents (g.insert name h v).2 (p.put ⟨p.current name, h⟩ v) (layout ++ more) ∧
      Stands (layout ++ more) (g.insert name h v).1 ⟨p.current name, h⟩ := by
  cases hRecord : (g.table name).record? h with
  | some r =>
      have hStands := (hRep.record name h r).mp hRecord
      rw [Registry.insert_of_known hRecord]
      refine ⟨[], ?_⟩
      rw [List.append_nil]
      exact ⟨hRep.write hStands.2 v, hStands⟩
  | none =>
      have hAfter := hRep.insert_of_unknown hRecord v
      refine ⟨_, hAfter, (hAfter.record name h _).mp ?_⟩
      rw [Registry.record?_insert, if_pos ⟨rfl, rfl⟩]

/-- A new table is a map without cells. The map that the name stood for keeps its own. -/
theorem newTable (hRep : Represents g p layout) (name : String) :
    Represents (g.newTable name) (p.start name []) layout where
  stores := by
    have hValues : (p.start name []).value? = p.value? := by
      funext a
      by_cases hNew : a.map = .table name (p.made name + 1)
      · have hFresh : a ∉ layout := fun hMem => p.not_has_next name (hNew ▸ hRep.has a hMem)
        rw [hRep.stores.value?_eq_none hFresh]
        simp [PlainMaps.value?, PlainMaps.start, hNew]
      · simp [PlainMaps.value?, PlainMaps.start, hNew]
    rw [hValues]
    exact hRep.stores
  record := by
    intro other k r
    by_cases hName : other = name
    · subst other
      have hNone : ¬Stands layout r ⟨(p.start name []).current name, k⟩ := by
        rw [PlainMaps.current_start]
        intro hStands
        exact p.not_has_next name (hRep.has _ (List.mem_of_getElem? hStands.2))
      rw [Registry.newTable, Registry.table_setTable_self]
      simp [Table.record?, Table.empty, hNone]
    · rw [Registry.newTable, Registry.table_setTable_of_ne hName, hRep.record,
        PlainMaps.current_start_of_ne p hName]
  has := fun a hMem => p.has_start (hRep.has a hMem) name []

/-- A table of given pairs is a new one with the pairs inserted. -/
theorem tableOf (hRep : Represents g p layout) (name : String) (items : List (Handle × Float)) :
    ∃ more, Represents (g.tableOf name items) (p.start name items) (layout ++ more) := by
  induction items using List.reverseRecOn with
  | nil => exact ⟨[], (List.append_nil layout).symm ▸ hRep.newTable name⟩
  | append_singleton items item ih =>
      obtain ⟨more, hBefore⟩ := ih
      obtain ⟨last, hAfter, -⟩ := hBefore.insert name item.1 item.2
      rw [PlainMaps.put_start, List.append_assoc] at hAfter
      refine ⟨more ++ last, ?_⟩
      rw [Registry.tableOf, Registry.insertAll, List.foldl_concat]
      exact hAfter

/-- A table has the values of its map. -/
theorem get?_eq (hRep : Represents g p layout) (name : String) (h : Handle) :
    g.get? name h = p.table name h := by
  rw [Registry.get?, Table.get?]
  cases hRecord : (g.table name).record? h with
  | some r =>
      have hStands := (hRep.record name h r).mp hRecord
      exact (hRep.stores.value r _ hStands.2).symm
  | none =>
      exact (hRep.stores.value?_eq_none (hRep.not_mem_of_unknown hRecord)).symm

end Represents

end Formula
