import Std.Data.ExtTreeMap
import Std.Data.ExtTreeSet

/-!
# Tables and arenas

Names and ids index most of what a graph holds. A table keeps its keys in ascending order: names by their characters, ids by
number. An arena is a table that hands out its ids itself, counting from zero, and never hands out one twice.
-/

namespace Dataflow

/-- A table by name, in ascending order of the names. -/
abbrev NameMap (α : Type) := Std.ExtTreeMap String α compare

/-- A set of names, in ascending order. -/
abbrev NameSet := Std.ExtTreeSet String compare

/-- A table by id, in ascending order of the ids. -/
abbrev IdMap (α : Type) := Std.ExtTreeMap Nat α compare

/-- A set of ids, in ascending order. -/
abbrev IdSet := Std.ExtTreeSet Nat compare

/-- The table of some pairs; of two for one name the later counts. -/
def tableOf {α : Type} (pairs : List (String × α)) : NameMap α := pairs.foldl (fun t (name, x) => t.insert name x) ∅

/-- Objects under ids that count from zero. The next id is above every id in use, so an id is never given twice. -/
structure Arena (α : Type) where
  items : IdMap α
  next : Nat
  lt_next : ∀ i ∈ items, i < next

namespace Arena

variable {α : Type}

/-- The arena without objects. -/
def empty : Arena α := ⟨∅, 0, fun _ h => absurd h Std.ExtTreeMap.not_mem_empty⟩

instance : Inhabited (Arena α) := ⟨empty⟩

/-- The object under an id. -/
def get? (a : Arena α) (i : Nat) : Option α := a.items[i]?

/-- The number of objects. -/
def size (a : Arena α) : Nat := a.items.size

/-- The objects in ascending order of their ids. -/
def toList (a : Arena α) : List (Nat × α) := a.items.toList

/-- The arena with one object more, under the id `a.next`. -/
def push (a : Arena α) (x : α) : Arena α where
  items := a.items.insert a.next x
  next := a.next + 1
  lt_next i h := by
    rcases Std.ExtTreeMap.mem_insert.1 h with h | h
    · have := Std.LawfulEqCmp.eq_of_compare h
      omega
    · have := a.lt_next i h
      omega

/-- The arena with the object under an id changed by `f`; nothing changes when there is none. -/
def modify (a : Arena α) (i : Nat) (f : α → α) : Arena α where
  items := a.items.modify i f
  next := a.next
  lt_next j h := a.lt_next j (Std.ExtTreeMap.mem_modify.1 h)

/-- The arena without the object under an id. -/
def erase (a : Arena α) (i : Nat) : Arena α where
  items := a.items.erase i
  next := a.next
  lt_next j h := a.lt_next j (Std.ExtTreeMap.mem_of_mem_erase h)

theorem get?_push (a : Arena α) (x : α) (i : Nat) :
    (a.push x).get? i = if i = a.next then some x else a.get? i := by
  simp only [get?, push, Std.ExtTreeMap.getElem?_insert, Std.LawfulEqCmp.compare_eq_iff_eq, @eq_comm _ a.next]

theorem get?_modify (a : Arena α) (i j : Nat) (f : α → α) :
    (a.modify i f).get? j = if j = i then (a.get? j).map f else a.get? j := by
  simp only [get?, modify, Std.ExtTreeMap.getElem?_modify, Std.LawfulEqCmp.compare_eq_iff_eq]
  by_cases h : i = j
  · simp [h]
  · simp [h, Ne.symm h]

theorem get?_erase (a : Arena α) (i j : Nat) : (a.erase i).get? j = if j = i then none else a.get? j := by
  simp only [get?, erase, Std.ExtTreeMap.getElem?_erase, Std.LawfulEqCmp.compare_eq_iff_eq, @eq_comm _ i]

/-- The id of the next object is not in use. -/
theorem get?_next (a : Arena α) : a.get? a.next = none :=
  Std.ExtTreeMap.getElem?_eq_none fun h => absurd (a.lt_next _ h) (by omega)

end Arena

end Dataflow
