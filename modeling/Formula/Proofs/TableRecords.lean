import Formula.Parameter.Operation

/-! Which records the tables hold. An operation may add a record to a table that had none for its
handle, and it may write to a record; only starting the table anew takes a record out of it. So
whoever got a record from a table keeps sharing it with that table. -/
namespace Formula

/-- A table knows the handles that it has records for. -/
theorem Table.isSome_record? (t : Table) (h : Handle) : (t.record? h).isSome = t.contains h :=
  Std.TreeMap.isSome_getElem?_eq_contains

theorem Table.mem_handles (t : Table) (h : Handle) : h ∈ t.handles ↔ t.contains h := by
  rw [handles, contains, Std.TreeMap.mem_keys, Std.TreeMap.contains_iff_mem]

theorem Handle.id_lt_id {h k : Handle} (hOrder : compare h k = .lt) : h.id < k.id :=
  Std.compare_eq_lt.mp hOrder

/-- Handles are listed in ascending order, so each of them once. -/
theorem Table.handles_ascending (t : Table) : t.handles.Pairwise (·.id < ·.id) := by
  have hOrdered : t.handles.Pairwise fun h k => compare h k = .lt := Std.TreeMap.ordered_keys
  exact hOrdered.imp Handle.id_lt_id

theorem Table.nodup_handles (t : Table) : t.handles.Nodup := by
  refine t.handles_ascending.imp ?_
  intro h k hLess hEq
  subst k
  exact UInt32.lt_irrefl h.id hLess

theorem Table.length_handles (t : Table) : t.handles.length = t.size :=
  Std.TreeMap.length_keys

theorem Table.isEmpty_iff (t : Table) : t.isEmpty ↔ ∀ h, t.contains h = false := by
  simp only [isEmpty, contains, Std.TreeMap.isEmpty_iff_forall_contains]

namespace Registry

variable {g : Registry} {name : String} {h : Handle} {r : Record}

/-- A known handle keeps its record, and its value is written there. -/
theorem insert_of_known (hRecord : (g.table name).record? h = some r) (v : Float) :
    g.insert name h v = (r, g.write r v) := by
  rw [insert, hRecord]

/-- An unknown handle gets a fresh record, which the table holds from then on. -/
theorem insert_of_unknown (hRecord : (g.table name).record? h = none) (v : Float) :
    g.insert name h v =
      ((g.newRecord h v).1, (g.newRecord h v).2.setTable name
        ⟨(g.table name).records.insert h (g.newRecord h v).1⟩) := by
  rw [insert, hRecord]
  rfl

/-- Behind an insertion the table holds the record that was answered. All that it held for other
handles, and all other tables, are as before. -/
theorem record?_insert (g : Registry) (name other : String) (h k : Handle) (v : Float) :
    ((g.insert name h v).2.table other).record? k =
      if other = name ∧ k = h then some (g.insert name h v).1
      else (g.table other).record? k := by
  cases hRecord : (g.table name).record? h with
  | some r =>
      rw [insert_of_known hRecord]
      by_cases hSame : other = name ∧ k = h
      · rw [if_pos hSame, hSame.1, hSame.2]
        exact hRecord
      · rw [if_neg hSame]
        rfl
  | none =>
      rw [insert_of_unknown hRecord]
      by_cases hName : other = name
      · subst other
        rw [table_setTable_self]
        by_cases hHandle : k = h
        · simp [Table.record?, hHandle]
        · have hOrder : compare h k ≠ .eq := fun hEq =>
            hHandle (Std.LawfulEqOrd.eq_of_compare hEq).symm
          simp [Table.record?, Std.TreeMap.getElem?_insert, hOrder, hHandle]
      · rw [table_setTable_of_ne hName, if_neg (fun hSame => hName hSame.1)]
        rfl

/-- Setting a value moves no record. -/
theorem table_set (g : Registry) (name other : String) (h : Handle) (v : Float) :
    (g.set name h v).2.table other = g.table other := by
  rw [set]
  split
  · rfl
  · rfl

/-- The record that a table holds for a handle stays with the table, whatever happens to other
handles, other tables and values. -/
theorem record?_perform (hRecord : (g.table name).record? h = some r) {op : Operation}
    (hKeeps : op ≠ .newTable name) : ((g.perform op).table name).record? h = some r := by
  cases op with
  | newTable other =>
      have hName : name ≠ other := fun hSame => hKeeps (hSame ▸ rfl)
      rw [perform, newTable, table_setTable_of_ne hName]
      exact hRecord
  | insert other k v =>
      rw [perform, record?_insert]
      by_cases hSame : name = other ∧ h = k
      · obtain ⟨rfl, rfl⟩ := hSame
        rw [if_pos ⟨rfl, rfl⟩, insert_of_known hRecord]
      · rw [if_neg hSame]
        exact hRecord
  | set other k v =>
      rw [perform, table_set]
      exact hRecord
  | newRecord k v => exact hRecord
  | write s v => exact hRecord

/-- Whoever got a record from a table shares it with the table until the table is made anew. -/
theorem record?_run {ops : List Operation} (hKeeps : .newTable name ∉ ops)
    (hRecord : (g.table name).record? h = some r) :
    ((g.run ops).table name).record? h = some r := by
  induction ops generalizing g with
  | nil => exact hRecord
  | cons op ops ih =>
      obtain ⟨hFirst, hRest⟩ := List.ne_and_not_mem_of_not_mem_cons hKeeps
      exact ih hRest (record?_perform hRecord hFirst.symm)

/-- Every table keeps its records under their own handles. -/
def KeysRecords (g : Registry) : Prop :=
  ∀ name h r, (g.table name).record? h = some r → r.handle = h

/-- The record that an insertion answers is one for the handle that was inserted. -/
theorem KeysRecords.handle_insert (hKeys : g.KeysRecords) (name : String) (h : Handle)
    (v : Float) : (g.insert name h v).1.handle = h := by
  cases hRecord : (g.table name).record? h with
  | some r =>
      rw [insert_of_known hRecord]
      exact hKeys name h r hRecord
  | none =>
      rw [insert_of_unknown hRecord]
      rfl

/-- Only an insertion puts a record into a table, and that under its own handle. -/
theorem KeysRecords.perform (hKeys : g.KeysRecords) (op : Operation) :
    (g.perform op).KeysRecords := by
  intro name h r hRecord
  cases op with
  | newTable other =>
      by_cases hName : name = other
      · rw [hName, Registry.perform, newTable, table_setTable_self] at hRecord
        simp [Table.record?, Table.empty] at hRecord
      · rw [Registry.perform, newTable, table_setTable_of_ne hName] at hRecord
        exact hKeys name h r hRecord
  | insert other k v =>
      rw [Registry.perform, record?_insert] at hRecord
      split at hRecord
      · rename_i hSame
        cases hRecord
        exact (hKeys.handle_insert other k v).trans hSame.2.symm
      · exact hKeys name h r hRecord
  | set other k v =>
      rw [Registry.perform, table_set] at hRecord
      exact hKeys name h r hRecord
  | newRecord k v => exact hKeys name h r hRecord
  | write s v => exact hKeys name h r hRecord

theorem KeysRecords.run (hKeys : g.KeysRecords) (ops : List Operation) :
    (g.run ops).KeysRecords := by
  induction ops generalizing g with
  | nil => exact hKeys
  | cons op ops ih => exact ih (hKeys.perform op)

/-- In every registry that a program can get, records stand under their own handles. -/
theorem Reachable.keysRecords (hReachable : g.Reachable) : g.KeysRecords := by
  obtain ⟨ops, rfl⟩ := hReachable
  apply KeysRecords.run
  intro name h r hRecord
  simp [Registry.empty, table, Table.record?, Table.empty] at hRecord

end Registry

end Formula
