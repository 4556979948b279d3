import Dataflow.Channel.Substitution

/-!
# Channel maps

A channel map names the channels at one point of a graph. With every name it keeps the names of the parameters that can flow
into it, and, for every key that a substitution spells of those, the channel built for it and how many instances use it.
-/

namespace Dataflow

/-- A channel and the number of instances that use it. -/
structure Cell where
  channel : Option ChannelId := none
  uses : Nat := 0
  deriving DecidableEq, Repr, Inhabited

/-- A name's record: the parameters it depends on, and its channels by key. -/
structure MapEntry where
  params : NameSet := ∅
  cells : NameMap Cell := ∅
  deriving DecidableEq

instance : Inhabited MapEntry := ⟨{}⟩

/-- A table from names to the parameters that they depend on. -/
abbrev ParamTable := NameMap NameSet

/-- The named channels at one point of a graph. -/
structure ChannelMap where
  id : MapId
  entries : NameMap MapEntry := ∅
  deriving DecidableEq

/-- The union of two sets of names. -/
def unionNames (a b : NameSet) : NameSet := a.insertMany b.toList

/-- The union of a list of sets of names. -/
def unionAll (sets : List NameSet) : NameSet := sets.foldl unionNames ∅

namespace ParamTable

/-- The table with further parameters noted under a name. -/
def add (t : ParamTable) (name : String) (params : NameSet) : ParamTable :=
  t.insert name (unionNames ((t[name]?).getD ∅) params)

/-- The table with everything of another one noted too. -/
def merge (t other : ParamTable) : ParamTable := other.toList.foldl (fun t (name, params) => add t name params) t

/-- All parameters of a table. -/
def all (t : ParamTable) : NameSet := unionAll t.values

end ParamTable

namespace ChannelMap

/-- The map that holds a table's names and no channels. -/
def ofTable (id : MapId) (t : ParamTable) : ChannelMap := ⟨id, t.map fun _ params => { params }⟩

/-- The names in ascending order. -/
def names (m : ChannelMap) : List String := m.entries.keys

/-- The record of a name; the empty one when the map does not have the name. -/
def entryOf (m : ChannelMap) (name : String) : MapEntry := (m.entries[name]?).getD {}

/-- The key that a substitution spells for a name. -/
def keyOf (m : ChannelMap) (name : String) (sub : Substitution) : String := sub.keyOf (m.entryOf name).params

/-- What is cached for a name under a substitution. -/
def cell? (m : ChannelMap) (name : String) (sub : Substitution) : Option Cell := (m.entryOf name).cells[m.keyOf name sub]?

/-- The channel of a name under a substitution. -/
def channel? (m : ChannelMap) (name : String) (sub : Substitution) : Option ChannelId :=
  (m.cell? name sub).bind (·.channel)

/-- The map with a cell set for a name under a substitution. -/
def setCell (m : ChannelMap) (name : String) (sub : Substitution) (cell : Cell) : ChannelMap :=
  let e := m.entryOf name
  { m with entries := m.entries.insert name { e with cells := e.cells.insert (m.keyOf name sub) cell } }

/-- The names that have a channel under a substitution, with it, in ascending order. -/
def resolve (m : ChannelMap) (sub : Substitution) : List (String × ChannelId) :=
  m.names.filterMap fun name => (m.channel? name sub).map (name, ·)

/-- The substitution that binds every name to its channel. -/
def toSubstitution (m : ChannelMap) (sub : Substitution) : Substitution := .ofList (m.resolve sub)

/-- The table from names to the parameters that they depend on. -/
def table (m : ChannelMap) : ParamTable := m.entries.map fun _ e => e.params

/-- All parameters that any name depends on. -/
def allParams (m : ChannelMap) : NameSet := m.table.all

/-- The map in which what is cached under a substitution has one user more. -/
def markUsed (m : ChannelMap) (sub : Substitution) : ChannelMap :=
  { m with entries := m.entries.map fun _ e =>
      { e with cells := e.cells.modify (sub.keyOf e.params) fun c => { c with uses := c.uses + 1 } } }

/-- The channels whose last user leaves when one user of what is cached under a substitution leaves. -/
def lastUsed (m : ChannelMap) (sub : Substitution) : List ChannelId :=
  m.names.filterMap fun name => (m.cell? name sub).bind fun c => if c.uses ≤ 1 then c.channel else none

/-- The map in which what is cached under a substitution has one user less, and is forgotten with the last one. -/
def markUnused (m : ChannelMap) (sub : Substitution) : ChannelMap :=
  { m with entries := m.entries.map fun _ e =>
      { e with cells := e.cells.alter (sub.keyOf e.params) fun
          | none => none
          | some c => if c.uses ≤ 1 then none else some { c with uses := c.uses - 1 } } }

/-- All channels of a map. -/
def channels (m : ChannelMap) : List ChannelId :=
  m.entries.values.flatMap fun e => e.cells.values.filterMap (·.channel)

end ChannelMap

end Dataflow
