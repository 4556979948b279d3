import Dataflow.Arena
import Dataflow.Channel.Sequence

/-!
# The store of entries and channels

A channel is the wire of one named flow: a sequence of slots, the processes and outlets that listen to it, and the map that made
it. The store holds all entries and all channels, and keeps with every entry the channels that hold it, once for each slot.
-/

namespace Dataflow

abbrev ChannelId := Nat
abbrev MapId := Nat
abbrev OutletId := Nat

/-- Who is told when the data on a channel changes. -/
inductive Listener where
  | process (id : ProcessId)
  | outlet (id : OutletId)
  deriving DecidableEq, Repr

/-- The wire of one named flow. -/
structure Channel where
  owner : MapId
  slots : List (Slot Float32) := []
  listeners : List Listener := []
  deriving DecidableEq, Repr

/-- An entry and the channels that hold it. -/
structure StoredEntry where
  entry : Entry
  watchers : List ChannelId := []

/-- All entries and channels. Keys that differ by at most `tolerance` count as one. -/
structure Store where
  entries : Arena StoredEntry := .empty
  channels : Arena Channel := .empty
  nextMap : MapId := 0
  tolerance : Float32

namespace Store

/-- The entry under an id. -/
def entryAt? (s : Store) (id : EntryId) : Option Entry := (s.entries.get? id).map (·.entry)

/-- The channel under an id. -/
def channel? (s : Store) (id : ChannelId) : Option Channel := s.channels.get? id

/-- The channels that hold an entry. -/
def watchers (s : Store) (id : EntryId) : List ChannelId := ((s.entries.get? id).map (·.watchers)).getD []

/-- The store with one entry more, under the id `s.entries.next`. -/
def pushEntry (s : Store) (e : Entry) : Store := { s with entries := s.entries.push { entry := e } }

/-- The store with the entry under an id changed by `f`. -/
def modifyEntry (s : Store) (id : EntryId) (f : Entry → Entry) : Store :=
  { s with entries := s.entries.modify id fun r => { r with entry := f r.entry } }

/-- The store without the entry under an id. -/
def freeEntry (s : Store) (id : EntryId) : Store := { s with entries := s.entries.erase id }

/-- The store in which the channel is noted once more with an entry. -/
def watch (s : Store) (entry : EntryId) (channel : ChannelId) : Store :=
  { s with entries := s.entries.modify entry fun r => { r with watchers := r.watchers ++ [channel] } }

/-- The store in which the channel is noted once less with an entry. -/
def unwatch (s : Store) (entry : EntryId) (channel : ChannelId) : Store :=
  { s with entries := s.entries.modify entry fun r => { r with watchers := r.watchers.erase channel } }

/-- The store with one channel more, without slots, under the id `s.channels.next`. -/
def pushChannel (s : Store) (owner : MapId) : Store := { s with channels := s.channels.push { owner } }

/-- The store with a slot put into a channel's sequence. -/
def addSlot (s : Store) (id : ChannelId) (slot : Slot Float32) : Store :=
  match s.channel? id with
  | none => s
  | some c =>
    let (slots, replaced) := Sequence.insert s.tolerance slot c.slots
    let s := { s with channels := s.channels.modify id ({ · with slots }) }
    let s := match replaced with
      | some old => s.unwatch old id
      | none => s
    s.watch slot.entry id

/-- The store without a channel. -/
def freeChannel (s : Store) (id : ChannelId) : Store :=
  match s.channel? id with
  | none => s
  | some c => c.slots.foldl (fun s slot => s.unwatch slot.entry id) { s with channels := s.channels.erase id }

/-- The store without a channel, if the map owns it. -/
def release (s : Store) (id : ChannelId) (map : MapId) : Store :=
  if (s.channel? id).any (·.owner = map) then s.freeChannel id else s

/-- The store in which a listener, who is told once however often it is added, listens to a channel. -/
def listen (s : Store) (id : ChannelId) (l : Listener) : Store :=
  { s with channels := s.channels.modify id fun c =>
      if c.listeners.contains l then c else { c with listeners := c.listeners ++ [l] } }

/-- The store in which a listener no longer listens to a channel. -/
def unlisten (s : Store) (id : ChannelId) (l : Listener) : Store :=
  { s with channels := s.channels.modify id fun c => { c with listeners := c.listeners.filter (· ≠ l) } }

/-- The slots of a channel; none when there is no such channel. -/
def slots (s : Store) (id : ChannelId) : List (Slot Float32) := ((s.channel? id).map (·.slots)).getD []

/-- The processes that write a slot of a channel. -/
def creators (s : Store) (id : ChannelId) : List ProcessId := (s.slots id).filterMap (·.creator)

/-- The type of the first entry on a channel. -/
def typeOf? (s : Store) (id : ChannelId) : Option DataType :=
  ((s.slots id).head?.bind (s.entryAt? ·.entry)).map (·.type)

/-- Whether the keys of a channel ascend. -/
def isOrdered (s : Store) (id : ChannelId) : Bool := Sequence.ascending (s.slots id)

/-- Whether two channels are merged under one name, the later one otherwise taking the place of the earlier. Channels with
different numbers of slots merge; of the same number, they merge when their types agree, unless both have one slot and their
keys count as one. -/
def mergesChannel (s : Store) (current other : ChannelId) : Bool :=
  match s.channel? current, s.channel? other with
  | some a, some b =>
    if a.slots.length ≠ b.slots.length then true
    else if s.typeOf? current ≠ s.typeOf? other then false
    else match a.slots, b.slots with
      | [x], [y] => !Sequence.near s.tolerance x.key y.key
      | _, _ => true
  | _, _ => false

/-- Whether a slot is added to a channel under one name, a channel of its own otherwise taking the place of the earlier. It is
added unless the channel has one slot, of another type or under a key that counts as its own. -/
def mergesSlot (s : Store) (current : ChannelId) (slot : Slot Float32) : Bool :=
  match s.channel? current with
  | none => false
  | some a => match a.slots with
    | [x] =>
      if s.typeOf? current ≠ (s.entryAt? slot.entry).map (·.type) then false
      else !Sequence.near s.tolerance x.key slot.key
    | _ => true

/-- What a channel holds at a key. -/
def read (s : Store) (id : ChannelId) (access : Access) (key : Float32) : Option (Reading Float32) :=
  Sequence.read s.tolerance access key (s.slots id)

/-- The id of the first entry on a channel. -/
def firstId? (s : Store) (id : ChannelId) : Option EntryId := (s.slots id).head?.map (·.entry)

/-- The first entry on a channel. -/
def first? (s : Store) (id : ChannelId) : Option Entry := (s.firstId? id).bind s.entryAt?

end Store

end Dataflow
