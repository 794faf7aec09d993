import Mathlib.Data.Set.Card
import Formula.Proofs.TableRefinement
import Formula.Proofs.Traversal

/-! A session over the registry and the one over plain maps that asks for the same never come
apart. What the tables answer is what the maps say, and the records that a program has got are
those of the slots that it got them for, so sharing is seen only through the record that is
shared. -/
namespace Formula

open Formula.Binary64

/-- A record keeps its slot when the memory gets more cells. -/
theorem Stands.append {layout : List Slot} {r : Record} {a : Slot} (hStands : Stands layout r a)
    (more : List Slot) : Stands (layout ++ more) r a := by
  obtain ⟨hLength, _⟩ := List.getElem?_eq_some_iff.mp hStands.2
  exact ⟨hStands.1, (List.getElem?_append_left hLength).trans hStands.2⟩

/-- A slot has one record, and a record stands for one slot. -/
theorem Stands.eq_iff {layout : List Slot} (hNodup : layout.Nodup) {r t : Record} {a b : Slot}
    (hFirst : Stands layout r a) (hSecond : Stands layout t b) : r = t ↔ a = b := by
  constructor
  · intro hEq
    subst t
    exact Option.some.inj (hFirst.2.symm.trans hSecond.2)
  · intro hEq
    subst b
    obtain ⟨hLength, _⟩ := List.getElem?_eq_some_iff.mp hFirst.2
    have hCell := (List.getElem?_inj hLength hNodup).mp (hFirst.2.trans hSecond.2.symm)
    rcases r with ⟨h, c⟩
    rcases t with ⟨k, d⟩
    exact Record.mk.injEq h c k d ▸ ⟨hFirst.1.trans hSecond.1.symm, hCell⟩

/-- Both sessions had the same requests. -/
structure Follows (s : Session) (p : PlainSession) (layout : List Slot) : Prop where
  represents : Represents s.registry p.maps layout
  held : List.Forall₂ (Stands layout) s.held p.held

namespace Follows

variable {s : Session} {p : PlainSession} {layout : List Slot}

theorem held_append (hFollows : Follows s p layout) (more : List Slot) :
    List.Forall₂ (Stands (layout ++ more)) s.held p.held :=
  hFollows.held.imp fun _ _ hStands => hStands.append more

/-- A record and a slot that belong together are handed out together. -/
theorem held_concat {rs : List Record} {as : List Slot} {r : Record} {a : Slot}
    (hHeld : List.Forall₂ (Stands layout) rs as) (hStands : Stands layout r a) :
    List.Forall₂ (Stands layout) (rs ++ [r]) (as ++ [a]) :=
  List.rel_append hHeld (.cons hStands .nil)

/-- A table has a record for exactly the handles of its map, and it is that of the slot. -/
theorem record_or_unknown (hFollows : Follows s p layout) (name : String) (h : Handle) :
    (∃ r, (s.registry.table name).record? h = some r ∧ (p.maps.table name h).isSome = true ∧
      Stands layout r ⟨p.maps.current name, h⟩) ∨
    ((s.registry.table name).record? h = none ∧ (p.maps.table name h).isSome = false) := by
  have hKnown : (p.maps.table name h).isSome = ((s.registry.table name).record? h).isSome := by
    rw [← hFollows.represents.get?_eq, Registry.get?, Table.get?, Option.isSome_map]
  cases hRecord : (s.registry.table name).record? h with
  | some r =>
      rw [hRecord] at hKnown
      exact .inl ⟨r, rfl, hKnown, (hFollows.represents.record name h r).mp hRecord⟩
  | none =>
      rw [hRecord] at hKnown
      exact .inr ⟨rfl, hKnown⟩

/-- Every request keeps the session in step with the plain one. Cells are never given away, so what
stood for a slot stands for it afterwards. -/
theorem perform (hFollows : Follows s p layout) (q : Request) :
    ∃ more, Follows (s.perform q) (p.perform q) (layout ++ more) := by
  have hRep := hFollows.represents
  cases q with
  | newTable name =>
      refine ⟨[], ?_, hFollows.held_append []⟩
      rw [List.append_nil]
      exact hRep.newTable name
  | tableOf name items =>
      obtain ⟨more, hAfter⟩ := hRep.tableOf name items
      exact ⟨more, hAfter, hFollows.held_append more⟩
  | insert name h v =>
      obtain ⟨more, hAfter, hStands⟩ := hRep.insert name h v
      exact ⟨more, hAfter, held_concat (hFollows.held_append more) hStands⟩
  | set name h v =>
      refine ⟨[], ?_⟩
      rw [List.append_nil, Session.perform, PlainSession.perform, Registry.set]
      rcases hFollows.record_or_unknown name h with
        ⟨r, hRecord, hKnown, hStands⟩ | ⟨hRecord, hUnknown⟩
      · rw [hRecord, if_pos hKnown]
        exact ⟨hRep.write hStands.2 v, hFollows.held⟩
      · rw [hRecord, if_neg (Bool.eq_false_iff.mp hUnknown)]
        exact hFollows
  | resolve name h =>
      refine ⟨[], ?_⟩
      rw [List.append_nil, Session.perform, PlainSession.perform]
      rcases hFollows.record_or_unknown name h with
        ⟨r, hRecord, hKnown, hStands⟩ | ⟨hRecord, hUnknown⟩
      · rw [hRecord, if_pos hKnown]
        exact ⟨hRep, held_concat hFollows.held hStands⟩
      · rw [hRecord, if_neg (Bool.eq_false_iff.mp hUnknown), Option.toList_none, List.append_nil]
        exact hFollows
  | newRecord h v =>
      have hNew : (s.registry.newRecord h v).1 = ⟨h, layout.length⟩ := by
        rw [hRep.stores.size]
        rfl
      exact ⟨_, hRep.newRecord h v,
        held_concat (hFollows.held_append _) (stands_concat_iff.mpr (.inr ⟨rfl, hNew⟩))⟩
  | write place v =>
      refine ⟨[], ?_⟩
      rw [List.append_nil, Session.perform, PlainSession.perform]
      rcases getElem?_of_forall₂ hFollows.held place with
        ⟨hRecord, hSlot⟩ | ⟨r, a, hRecord, hSlot, hStands⟩
      · rw [hRecord, hSlot]
        exact hFollows
      · rw [hRecord, hSlot]
        exact ⟨hRep.write hStands.2 v, hFollows.held⟩

/-- Sessions that start in step stay so under all requests. -/
theorem run (hFollows : Follows s p layout) (requests : List Request) :
    ∃ more, Follows (s.run requests) (p.run requests) (layout ++ more) := by
  induction requests generalizing s p layout with
  | nil =>
      refine ⟨[], ?_⟩
      rw [List.append_nil]
      exact hFollows
  | cons q requests ih =>
      obtain ⟨more, hStep⟩ := hFollows.perform q
      obtain ⟨last, hRest⟩ := ih hStep
      rw [List.append_assoc] at hRest
      exact ⟨more ++ last, hRest⟩

theorem contains_eq (hFollows : Follows s p layout) (name : String) (h : Handle) :
    (s.registry.table name).contains h = (p.maps.table name h).isSome := by
  rw [← Table.isSome_record?]
  rcases hFollows.record_or_unknown name h with ⟨r, hRecord, hKnown, -⟩ | ⟨hRecord, hUnknown⟩
  · rw [hRecord, hKnown, Option.isSome_some]
  · rw [hRecord, hUnknown, Option.isSome_none]

theorem mem_handles (hFollows : Follows s p layout) (name : String) (h : Handle) :
    h ∈ (s.registry.table name).handles ↔ p.maps.table name h ≠ none := by
  rw [Table.mem_handles, hFollows.contains_eq, Option.isSome_iff_ne_none]

theorem stands_of_held (hFollows : Follows s p layout) {i : Nat} {r : Record} {a : Slot}
    (hRecord : s.held[i]? = some r) (hSlot : p.held[i]? = some a) : Stands layout r a := by
  rcases getElem?_of_forall₂ hFollows.held i with ⟨hNone, -⟩ | ⟨r', a', hRecord', hSlot', hStands⟩
  · rw [hNone] at hRecord
    cases hRecord
  · cases hRecord.symm.trans hRecord'
    cases hSlot.symm.trans hSlot'
    exact hStands

end Follows

/-- The tables answer what the maps say, and the records are shared as the slots are. -/
structure Agrees (s : Session) (p : PlainSession) : Prop where
  get? : ∀ (name : String) (h : Handle), s.registry.get? name h = p.maps.table name h
  lookup : ∀ (name : String) (h : Handle),
    s.registry.lookup name h = (p.maps.table name h).getD nan
  contains : ∀ (name : String) (h : Handle),
    (s.registry.table name).contains h = (p.maps.table name h).isSome
  size : ∀ name : String,
    ((s.registry.table name).size : ℕ∞) = {h | p.maps.table name h ≠ none}.encard
  isEmpty : ∀ name : String,
    (s.registry.table name).isEmpty ↔ ∀ h : Handle, p.maps.table name h = none
  handles_ascending : ∀ name : String, (s.registry.table name).handles.Pairwise (·.id < ·.id)
  mem_handles : ∀ (name : String) (h : Handle),
    h ∈ (s.registry.table name).handles ↔ p.maps.table name h ≠ none
  /-- Setting a value answers whether the table knows the handle. -/
  set : ∀ (name : String) (h : Handle) (v : Float),
    (s.registry.set name h v).1 = (p.maps.table name h).isSome
  /-- The record that a table has for a handle is of that handle, and has its value. -/
  record : ∀ (name : String) (h : Handle),
    ((s.registry.table name).record? h).map (fun r => (r.handle, s.registry.read r)) =
      (p.maps.table name h).map fun v => (h, v)
  /-- Inserting a handle that the table knows answers the record that the table has for it. -/
  insert : ∀ (name : String) (h : Handle) (v : Float) (r : Record),
    (s.registry.table name).record? h = some r → (s.registry.insert name h v).1 = r
  /-- The records that a program has got are of the handles of their slots, and have the values. -/
  held : List.Forall₂ (fun r a => r.handle = a.handle ∧ p.maps.value? a = some (s.registry.read r))
    s.held p.held
  /-- Records that were got for one slot are one record, and those for two slots are two. -/
  same : ∀ i j : Nat, s.held[i]? = s.held[j]? ↔ p.held[i]? = p.held[j]?
  /-- What gives a value to another handle, another table or a record of neither leaves the value
  of a table's handle as it is. -/
  keeps_table : ∀ (q : Request) (name : String) (h : Handle), q.makes? ≠ some name →
    p.target? q ≠ some ⟨p.maps.current name, h⟩ →
      (s.perform q).registry.get? name h = s.registry.get? name h
  /-- What gives a value to another record leaves that of a record as it is. -/
  keeps_record : ∀ (q : Request) (i : Nat) (r : Record) (a : Slot), s.held[i]? = some r →
    p.held[i]? = some a → p.target? q ≠ some a →
      (s.perform q).registry.read r = s.registry.read r

/-- A session that is in step shows a program what the plain one does. -/
theorem Follows.agrees {s : Session} {p : PlainSession} {layout : List Slot}
    (hFollows : Follows s p layout) : Agrees s p where
  get? := hFollows.represents.get?_eq
  lookup := by
    intro name h
    rw [← hFollows.represents.get?_eq]
    rfl
  contains := hFollows.contains_eq
  size := by
    intro name
    have hKeys : {h | p.maps.table name h ≠ none} =
        ((s.registry.table name).handles.toFinset : Set Handle) := by
      ext h
      rw [Set.mem_ofPred_eq, List.coe_toFinset, Set.mem_ofPred_eq, hFollows.mem_handles]
    rw [hKeys, Set.encard_coe_eq_coe_finsetCard,
      List.toFinset_card_of_nodup (Table.nodup_handles _), Table.length_handles]
  isEmpty := by
    intro name
    rw [Table.isEmpty_iff]
    simp only [hFollows.contains_eq, Option.isSome_eq_false_iff, Option.isNone_iff_eq_none]
  handles_ascending := fun name => Table.handles_ascending _
  mem_handles := hFollows.mem_handles
  set := by
    intro name h v
    rw [Registry.set]
    rcases hFollows.record_or_unknown name h with ⟨r, hRecord, hKnown, -⟩ | ⟨hRecord, hUnknown⟩
    · rw [hRecord, hKnown]
    · rw [hRecord, hUnknown]
  record := by
    intro name h
    rw [← hFollows.represents.get?_eq, Registry.get?, Table.get?]
    rcases hFollows.record_or_unknown name h with ⟨r, hRecord, -, hStands⟩ | ⟨hRecord, -⟩
    · rw [hRecord, Option.map_some, Option.map_some, Option.map_some, hStands.1]
      rfl
    · rw [hRecord]
      rfl
  insert := by
    intro name h v r hRecord
    rw [Registry.insert_of_known hRecord]
  held := hFollows.held.imp fun r a hStands =>
    ⟨hStands.1, hFollows.represents.stores.value _ _ hStands.2⟩
  same := by
    intro i j
    have hNodup := hFollows.represents.stores.nodup
    rcases getElem?_of_forall₂ hFollows.held i with
      ⟨hRecord, hSlot⟩ | ⟨r, a, hRecord, hSlot, hFirst⟩
    · rw [hRecord, hSlot]
      rcases getElem?_of_forall₂ hFollows.held j with
        ⟨hRecord', hSlot'⟩ | ⟨t, b, hRecord', hSlot', -⟩
      · simp only [hRecord', hSlot']
      · simp only [hRecord', hSlot', reduceCtorEq]
    · rw [hRecord, hSlot]
      rcases getElem?_of_forall₂ hFollows.held j with
        ⟨hRecord', hSlot'⟩ | ⟨t, b, hRecord', hSlot', hSecond⟩
      · simp only [hRecord', hSlot', reduceCtorEq]
      · simp only [hRecord', hSlot', Option.some.injEq, hFirst.eq_iff hNodup hSecond]
  keeps_table := by
    intro q name h hMakes hTarget
    obtain ⟨more, hAfter⟩ := hFollows.perform q
    have hHas := p.maps.has_current name
    rw [hAfter.represents.get?_eq, hFollows.represents.get?_eq, PlainMaps.table,
      PlainSession.current_perform p hMakes]
    exact PlainSession.value?_perform hHas hTarget
  keeps_record := by
    intro q i r a hRecord hSlot hTarget
    obtain ⟨more, hAfter⟩ := hFollows.perform q
    have hStands := hFollows.stands_of_held hRecord hSlot
    have hHas := hFollows.represents.has a (List.mem_of_getElem? hStands.2)
    have hValue := PlainSession.value?_perform hHas hTarget
    rw [hAfter.represents.stores.value _ _ (hStands.append more).2,
      hFollows.represents.stores.value _ _ hStands.2] at hValue
    exact Option.some.inj hValue

/-- Whatever a program asks for, tables and records behave as plain maps and places in them. -/
theorem session_agrees (requests : List Request) :
    Agrees (Session.empty.run requests) (PlainSession.empty.run requests) := by
  have hStart : Follows .empty .empty [] := ⟨.empty, .nil⟩
  obtain ⟨more, hFollows⟩ := hStart.run requests
  exact hFollows.agrees

end Formula
