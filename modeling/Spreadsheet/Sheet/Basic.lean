import Spreadsheet.Sheet.Record

namespace Spreadsheet

structure Sheet where
  records : CellMap Record
  deleted : CellSet

namespace Sheet

def empty : Sheet := ⟨∅, ∅⟩

instance : Inhabited Sheet := ⟨empty⟩

def get? (s : Sheet) (id : Cell) : Option Record :=
  s.records[id]?

def ids (s : Sheet) : List Cell :=
  s.records.keys

def isDeleted (s : Sheet) (id : Cell) : Bool :=
  s.deleted.contains id

def reading (s : Sheet) : Lookup := fun id =>
  match s.get? id with
  | some r => r.reading
  | none => if s.isDeleted id then .error .deletedCell else .empty

def put (s : Sheet) (id : Cell) (r : Record) : Sheet :=
  { s with records := s.records.insert id r }

def modify (s : Sheet) (id : Cell) (f : Record → Record) : Sheet :=
  match s.get? id with
  | some r => s.put id (f r)
  | none => s

def write (s : Sheet) (id : Cell) (raw : String) : Sheet :=
  let r := match s.get? id with
    | some r => r.rewrite raw
    | none => .ofRaw raw
  ⟨s.records.insert id r, s.deleted.erase id⟩

def clear (s : Sheet) (id : Cell) : Sheet :=
  { s with records := s.records.erase id }

def delete (s : Sheet) (id : Cell) : Sheet :=
  ⟨s.records.erase id, s.deleted.insert id⟩

def fail (s : Sheet) (code : CellError) (ids : List Cell) : Sheet :=
  ids.foldl (fun s id => s.modify id (·.fail code)) s

def evaluate (s : Sheet) (policy : Policy) (raw : String) : Outcome Value :=
  Raw.evaluate policy s.reading raw

def refresh (s : Sheet) (policy : Policy) (id : Cell) : Sheet :=
  s.modify id fun r => r.apply (s.evaluate policy r.raw)

def size (s : Sheet) : Nat :=
  s.records.size

def counts (s : Sheet) (ids : List Cell) : Nat × Nat :=
  let records := ids.filterMap s.get?
  let errors := records.countP (·.error?.isSome)
  (records.length - errors, errors)

theorem get?_put (s : Sheet) (id x : Cell) (r : Record) :
    (s.put id r).get? x = if id = x then some r else s.get? x := by
  simp [put, get?, Std.ExtTreeMap.getElem?_insert]

theorem get?_modify (s : Sheet) (id x : Cell) (f : Record → Record) :
    (s.modify id f).get? x = if id = x then (s.get? x).map f else s.get? x := by
  unfold modify
  split
  · rename_i r h
    rw [get?_put]
    split
    · rename_i e
      rw [← e, h]
      rfl
    · rfl
  · rename_i h
    split
    · rename_i e
      rw [← e, h]
      rfl
    · rfl

@[ext] theorem ext {s t : Sheet} (hr : ∀ id, s.get? id = t.get? id)
    (hd : ∀ id, id ∈ s.deleted ↔ id ∈ t.deleted) : s = t := by
  obtain ⟨r, d⟩ := s
  obtain ⟨r', d'⟩ := t
  congr
  · exact Std.ExtTreeMap.ext_getElem? hr
  · exact Std.ExtTreeSet.ext_mem hd

end Sheet

end Spreadsheet
