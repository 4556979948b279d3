import Dataflow.Operator.Basic

/-!
# Sequences of keyed values

A channel carries a sequence of slots, each an entry under a key. Keys that differ by at most a tolerance count as one: a slot
under such a key takes the place of the one that is there. Reading at a key gives the slot at or before it, the slot at or after
it, or the weight of the key between the two.

The operations are written for any type of keys with the arithmetic that they need. Channels use single-precision floats.
-/

namespace Dataflow

abbrev EntryId := Nat
abbrev ProcessId := Nat

/-- The arithmetic that sequences need of their keys. -/
class KeyArith (K : Type) where
  sub : K → K → K
  div : K → K → K
  abs : K → K
  lt : K → K → Bool
  le : K → K → Bool
  zero : K
  one : K

instance : KeyArith Float32 where
  sub a b := a - b
  div a b := a / b
  abs := Float32.abs
  lt a b := a < b
  le a b := a ≤ b
  zero := 0
  one := 1

/-- An entry under a key, and the process that writes it, if any. -/
structure Slot (K : Type) where
  entry : EntryId
  key : K
  creator : Option ProcessId := none
  deriving DecidableEq, Repr

/-- What reading a sequence at a key gives. -/
inductive Reading (K : Type) where
  | entry (id : EntryId)
  | weight (w : K)
  deriving DecidableEq, Repr

namespace Sequence

open KeyArith

variable {K : Type} [KeyArith K]

/-- Two keys count as one when they differ by at most `ε`. -/
def near (ε a b : K) : Bool := le (abs (sub a b)) ε

/-- The sequence with a slot put before the first one with a greater key. Where a key near its own comes first, that slot keeps
its key and gets the new entry and creator; the entry that it held is given back. -/
def insert (ε : K) (slot : Slot K) : List (Slot K) → List (Slot K) × Option EntryId
  | [] => ([slot], none)
  | s :: rest =>
    if near ε s.key slot.key then ({ s with entry := slot.entry, creator := slot.creator } :: rest, some s.entry)
    else if lt slot.key s.key then (slot :: s :: rest, none)
    else
      let (rest, replaced) := insert ε slot rest
      (s :: rest, replaced)

/-- Every key is less than the next one. -/
def ascending : List (Slot K) → Bool
  | a :: b :: rest => lt a.key b.key && ascending (b :: rest)
  | _ => true

/-- The position of the first slot whose key is at least `key`, less the tolerance; the length when there is none. -/
def seek (ε key : K) (slots : List (Slot K)) : Nat := slots.findIdx fun s => le (sub key ε) s.key

/-- The number, moved into the interval from zero to one. -/
def clamp (w : K) : K :=
  let w := if lt w zero then zero else w
  if lt one w then one else w

/-- The weight of a key between the slots on either side of position `i`; zero before the first slot and after the last. -/
def weightAt (key : K) (slots : List (Slot K)) (i : Nat) : K :=
  match slots[i - 1]?, slots[i]? with
  | some a, some b => if i = 0 then zero else clamp (div (sub key a.key) (sub b.key a.key))
  | _, _ => zero

/-- What the sequence holds at a key; nothing when it has no slots. -/
def read (ε : K) (access : Access) (key : K) (slots : List (Slot K)) : Option (Reading K) :=
  let i := seek ε key slots
  match access with
  | .first => slots.head?.map (.entry ·.entry)
  | .floor => (slots[i - 1]?).map (.entry ·.entry)
  | .ceiling => (slots[min i (slots.length - 1)]?).map (.entry ·.entry)
  | .weight => if slots.isEmpty then none else some (.weight (weightAt key slots i))

end Sequence

end Dataflow
