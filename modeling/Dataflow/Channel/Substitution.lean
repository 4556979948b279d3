import Dataflow.Channel.Store

/-!
# Substitutions

A substitution binds names to channels. What is computed under it depends on its bindings of a few names only, and is cached
under the key that those bindings spell.
-/

namespace Dataflow

/-- Names bound to channels. -/
structure Substitution where
  bindings : NameMap ChannelId := ∅
  deriving DecidableEq

namespace Substitution

/-- The substitution that binds nothing. -/
def empty : Substitution := {}

instance : Inhabited Substitution := ⟨empty⟩

/-- The substitution of some bindings; of two for one name the later counts. -/
def ofList (bindings : List (String × ChannelId)) : Substitution := ⟨tableOf bindings⟩

/-- The channel that a name is bound to. -/
def get? (s : Substitution) (name : String) : Option ChannelId := s.bindings[name]?

/-- Whether nothing is bound. -/
def isEmpty (s : Substitution) : Bool := s.bindings.isEmpty

/-- One binding as it stands in a key. -/
def keyPart (name : String) (channel : ChannelId) : String := name ++ ">" ++ toString channel

/-- The key of the bindings of `names`: those that are bound, in the order given. -/
def key (s : Substitution) (names : List String) : String :=
  ";".intercalate (names.filterMap fun name => (s.get? name).map (keyPart name))

/-- The key of the bindings of a set of names. -/
def keyOf (s : Substitution) (names : NameSet) : String := s.key names.toList

/-- The bindings of a set of names. -/
def restrict (s : Substitution) (names : NameSet) : Substitution := ⟨s.bindings.filter fun name _ => names.contains name⟩

/-- The key of all bindings. -/
def fullKey (s : Substitution) : String := s.key s.bindings.keys

end Substitution

end Dataflow
