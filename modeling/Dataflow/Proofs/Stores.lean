import Dataflow.Proofs.Access

/-!
# Stores: what the operations do to channels and entries

The wire of a channel is its owner and its slots, its listeners aside: what a merge reads of it. Every operation of the store is
told by what it does to wires, to entries, to watchers and to listeners.
-/

namespace Dataflow

namespace Store

variable (s : Store) (c id : ChannelId) (e : EntryId)

/-- The owner and the slots of a channel. -/
def wire? : Option (MapId × List (Slot Float32)) := (s.channel? c).map fun ch => (ch.owner, ch.slots)

/-- Who listens to a channel; nobody when there is no such channel. -/
def listenersOf : List Listener := ((s.channel? c).map (·.listeners)).getD []

/-- The type of an entry. -/
def typeAt? : Option DataType := (s.entryAt? e).map (·.type)

theorem slots_eq : s.slots c = ((s.wire? c).map (·.2)).getD [] := by
  rw [slots, wire?]
  rcases s.channel? c with _ | ch <;> rfl

theorem slots_of_wire? {s : Store} {c : ChannelId} {o : MapId} {l : List (Slot Float32)} (h : s.wire? c = some (o, l)) :
    s.slots c = l := by
  rw [slots_eq, h]
  rfl

theorem isSome_wire? : (s.wire? c).isSome = (s.channel? c).isSome := by rw [wire?, Option.isSome_map]

theorem any_owner (m : MapId) : (s.channel? c).any (·.owner = m) = (s.wire? c).any (·.1 = m) := by
  rw [wire?]
  rcases s.channel? c with _ | ch <;> rfl

theorem typeOf?_eq : s.typeOf? c = (s.slots c).head?.bind fun x => s.typeAt? x.entry := by
  rw [typeOf?]
  rcases (s.slots c).head? with _ | x <;> rfl

/-- A channel in use has an id that was handed out. -/
theorem lt_next_of_wire? {s : Store} {c : ChannelId} {w : MapId × List (Slot Float32)} (h : s.wire? c = some w) :
    c < s.channels.next := by
  obtain ⟨ch, hc, -⟩ := Option.map_eq_some_iff.1 h
  exact s.channels.lt_next c (Std.ExtTreeMap.mem_iff_isSome_getElem?.2 (by rw [show s.channels.items[c]? = some ch from hc]; rfl))

theorem lt_next_of_entryAt? {s : Store} {e : EntryId} {x : Entry} (h : s.entryAt? e = some x) : e < s.entries.next := by
  obtain ⟨r, hr, -⟩ := Option.map_eq_some_iff.1 h
  exact s.entries.lt_next e (Std.ExtTreeMap.mem_iff_isSome_getElem?.2 (by rw [show s.entries.items[e]? = some r from hr]; rfl))

/-! ## Watching -/

@[simp] theorem channels_watch : (s.watch e c).channels = s.channels := rfl

@[simp] theorem channels_unwatch : (s.unwatch e c).channels = s.channels := rfl

theorem entryAt?_watch (e' : EntryId) : (s.watch e c).entryAt? e' = s.entryAt? e' := by
  rw [entryAt?, watch, Arena.get?_modify, entryAt?]
  split
  · rcases s.entries.get? e' with _ | r <;> rfl
  · rfl

theorem entryAt?_unwatch (e' : EntryId) : (s.unwatch e c).entryAt? e' = s.entryAt? e' := by
  rw [entryAt?, unwatch, Arena.get?_modify, entryAt?]
  split
  · rcases s.entries.get? e' with _ | r <;> rfl
  · rfl

theorem watchers_watch (e' : EntryId) :
    (s.watch e c).watchers e' = if e' = e ∧ (s.entryAt? e').isSome then s.watchers e' ++ [c] else s.watchers e' := by
  rw [watchers, watch, Arena.get?_modify, watchers, entryAt?]
  by_cases h : e' = e
  · rw [if_pos h]
    rcases s.entries.get? e' with _ | r <;> simp [h]
  · rw [if_neg h, if_neg fun h' => h h'.1]

theorem watchers_unwatch (e' : EntryId) :
    (s.unwatch e c).watchers e' = if e' = e then (s.watchers e').erase c else s.watchers e' := by
  rw [watchers, unwatch, Arena.get?_modify, watchers]
  split
  · rcases s.entries.get? e' with _ | r <;> rfl
  · rfl

/-- The store after the slots of a list are no longer noted with a channel. -/
def unwatchAll (c : ChannelId) (l : List (Slot Float32)) : Store := l.foldl (fun s x => s.unwatch x.entry c) s

@[simp] theorem channels_unwatchAll (l : List (Slot Float32)) : (s.unwatchAll c l).channels = s.channels := by
  rw [unwatchAll]
  induction l generalizing s with
  | nil => rfl
  | cons x l ih => rw [List.foldl_cons, ih, channels_unwatch]

theorem unwatchAll_fields (l : List (Slot Float32)) :
    (s.unwatchAll c l).nextMap = s.nextMap ∧ (s.unwatchAll c l).tolerance = s.tolerance ∧
      (s.unwatchAll c l).entries.next = s.entries.next := by
  rw [unwatchAll]
  induction l generalizing s with
  | nil => exact ⟨rfl, rfl, rfl⟩
  | cons x l ih => exact ih (s.unwatch x.entry c)

theorem entryAt?_unwatchAll (l : List (Slot Float32)) : (s.unwatchAll c l).entryAt? e = s.entryAt? e := by
  rw [unwatchAll]
  induction l generalizing s with
  | nil => rfl
  | cons x l ih => rw [List.foldl_cons, ih, entryAt?_unwatch]

/-! ## Channels -/

/-- A slot that is put into a channel is watched by it, in place of the entry that it replaces. -/
theorem addSlot_eq {s : Store} {id : ChannelId} {ch : Channel} (h : s.channel? id = some ch) (x : Slot Float32) :
    s.addSlot id x =
      (match (Sequence.insert s.tolerance x ch.slots).2 with
      | some old => Store.unwatch { s with channels := s.channels.modify id fun ch' =>
          { ch' with slots := (Sequence.insert s.tolerance x ch.slots).1 } } old id
      | none => { s with channels := s.channels.modify id fun ch' =>
          { ch' with slots := (Sequence.insert s.tolerance x ch.slots).1 } }).watch x.entry id := by
  unfold addSlot
  split
  · rename_i hn
    cases hn.symm.trans h
  · rename_i c hc
    cases hc.symm.trans h
    rfl

theorem addSlot_of_none {s : Store} {id : ChannelId} (h : s.channel? id = none) (x : Slot Float32) : s.addSlot id x = s := by
  simp only [addSlot, h]

theorem channel?_addSlot (x : Slot Float32) :
    (s.addSlot id x).channel? c = if c = id then (s.channel? c).map fun ch =>
      { ch with slots := (Sequence.insert s.tolerance x ch.slots).1 } else s.channel? c := by
  rcases hid : s.channel? id with _ | ch
  · rw [addSlot_of_none hid]
    split
    · rename_i h
      rw [h, hid]
      rfl
    · rfl
  · have hc : (s.addSlot id x).channel? c = if c = id then (s.channel? c).map fun ch' =>
        { ch' with slots := (Sequence.insert s.tolerance x ch.slots).1 } else s.channel? c := by
      rw [addSlot_eq hid]
      rcases (Sequence.insert s.tolerance x ch.slots).2 with _ | old <;> exact Arena.get?_modify ..
    rw [hc]
    split
    · rename_i h
      rw [h, hid]
      rfl
    · rfl

theorem wire?_addSlot (x : Slot Float32) :
    (s.addSlot id x).wire? c =
      if c = id then (s.wire? c).map fun w => (w.1, (Sequence.insert s.tolerance x w.2).1) else s.wire? c := by
  rw [wire?, channel?_addSlot, wire?]
  split
  · rcases s.channel? c with _ | ch <;> rfl
  · rfl

theorem listenersOf_addSlot (x : Slot Float32) : (s.addSlot id x).listenersOf c = s.listenersOf c := by
  rw [listenersOf, channel?_addSlot, listenersOf]
  split
  · rcases s.channel? c with _ | ch <;> rfl
  · rfl

theorem addSlot_fields (x : Slot Float32) :
    (s.addSlot id x).nextMap = s.nextMap ∧ (s.addSlot id x).tolerance = s.tolerance ∧
      (s.addSlot id x).entries.next = s.entries.next ∧ (s.addSlot id x).channels.next = s.channels.next := by
  rcases hid : s.channel? id with _ | ch
  · rw [addSlot_of_none hid]
    exact ⟨rfl, rfl, rfl, rfl⟩
  · rw [addSlot_eq hid]
    rcases (Sequence.insert s.tolerance x ch.slots).2 with _ | old <;> exact ⟨rfl, rfl, rfl, rfl⟩

theorem entryAt?_addSlot (x : Slot Float32) : (s.addSlot id x).entryAt? e = s.entryAt? e := by
  rcases hid : s.channel? id with _ | ch
  · rw [addSlot_of_none hid]
  · rw [addSlot_eq hid, entryAt?_watch]
    rcases (Sequence.insert s.tolerance x ch.slots).2 with _ | old
    · rfl
    · exact entryAt?_unwatch ..

theorem channel?_pushChannel (o : MapId) :
    (s.pushChannel o).channel? c = if c = s.channels.next then some { owner := o } else s.channel? c := Arena.get?_push ..

theorem wire?_pushChannel (o : MapId) :
    (s.pushChannel o).wire? c = if c = s.channels.next then some (o, []) else s.wire? c := by
  rw [wire?, channel?_pushChannel, wire?]
  split <;> rfl

/-- A new channel has no slots, and so had its id. -/
theorem slots_pushChannel (o : MapId) : (s.pushChannel o).slots c = s.slots c := by
  rw [slots_eq, wire?_pushChannel, slots_eq]
  split
  · rename_i hc
    rcases hw : s.wire? c with _ | w
    · rfl
    · exact absurd (lt_next_of_wire? (hc ▸ hw)) (Nat.lt_irrefl _)
  · rfl

theorem listenersOf_pushChannel (o : MapId) : (s.pushChannel o).listenersOf c = s.listenersOf c := by
  rw [listenersOf, channel?_pushChannel, listenersOf]
  split
  · rename_i h
    rw [h, show s.channel? s.channels.next = none from Arena.get?_next _]
    rfl
  · rfl

theorem freeChannel_eq {s : Store} {id : ChannelId} {ch : Channel} (h : s.channel? id = some ch) :
    s.freeChannel id = { s with channels := s.channels.erase id : Store }.unwatchAll id ch.slots := by
  simp only [freeChannel, h]
  rfl

theorem freeChannel_of_none {s : Store} {id : ChannelId} (h : s.channel? id = none) : s.freeChannel id = s := by
  simp only [freeChannel, h]

theorem channel?_freeChannel : (s.freeChannel id).channel? c = if c = id then none else s.channel? c := by
  rcases hid : s.channel? id with _ | ch
  · rw [freeChannel_of_none hid]
    split
    · rename_i h
      rw [h, hid]
    · rfl
  · rw [freeChannel_eq hid, channel?, channels_unwatchAll, Arena.get?_erase, channel?]

theorem entryAt?_freeChannel : (s.freeChannel id).entryAt? e = s.entryAt? e := by
  rcases hid : s.channel? id with _ | ch
  · rw [freeChannel_of_none hid]
  · rw [freeChannel_eq hid, entryAt?_unwatchAll]
    rfl

theorem freeChannel_fields :
    (s.freeChannel id).nextMap = s.nextMap ∧ (s.freeChannel id).tolerance = s.tolerance ∧
      (s.freeChannel id).entries.next = s.entries.next ∧ (s.freeChannel id).channels.next = s.channels.next := by
  rcases hid : s.channel? id with _ | ch
  · rw [freeChannel_of_none hid]
    exact ⟨rfl, rfl, rfl, rfl⟩
  · rw [freeChannel_eq hid]
    obtain ⟨h1, h2, h3⟩ := unwatchAll_fields { s with channels := s.channels.erase id } id ch.slots
    exact ⟨h1, h2, h3, by rw [channels_unwatchAll]; rfl⟩

/-- Only channels of a map are released by it. -/
theorem channel?_release (m : MapId) :
    (s.release id m).channel? c =
      if c = id ∧ (s.wire? c).any (·.1 = m) then none else s.channel? c := by
  rw [release, any_owner]
  by_cases h : (s.wire? id).any (·.1 = m)
  · rw [if_pos h, channel?_freeChannel]
    by_cases hc : c = id
    · subst hc
      rw [if_pos rfl, if_pos ⟨rfl, h⟩]
    · rw [if_neg hc, if_neg fun h' => hc h'.1]
  · rw [if_neg h, if_neg]
    rintro ⟨rfl, h'⟩
    exact h h'

theorem wire?_release (m : MapId) :
    (s.release id m).wire? c = if c = id ∧ (s.wire? c).any (·.1 = m) then none else s.wire? c := by
  rw [wire?, channel?_release]
  split <;> rfl

theorem entryAt?_release (m : MapId) : (s.release id m).entryAt? e = s.entryAt? e := by
  rw [release]
  split
  · exact entryAt?_freeChannel ..
  · rfl

theorem release_fields (m : MapId) :
    (s.release id m).nextMap = s.nextMap ∧ (s.release id m).tolerance = s.tolerance ∧
      (s.release id m).entries.next = s.entries.next ∧ (s.release id m).channels.next = s.channels.next := by
  rw [release]
  split
  · exact freeChannel_fields ..
  · exact ⟨rfl, rfl, rfl, rfl⟩

/-! ## Listening -/

theorem channel?_listen (l : Listener) :
    (s.listen id l).channel? c = if c = id then (s.channel? c).map fun ch =>
      if ch.listeners.contains l then ch else { ch with listeners := ch.listeners ++ [l] } else s.channel? c :=
  Arena.get?_modify ..

theorem wire?_listen (l : Listener) : (s.listen id l).wire? c = s.wire? c := by
  rw [wire?, channel?_listen, wire?]
  split
  · rcases s.channel? c with _ | ch
    · rfl
    · rw [Option.map_some, Option.map_some, Option.map_some]
      split <;> rfl
  · rfl

theorem mem_listenersOf_listen (l l' : Listener) :
    l' ∈ (s.listen id l).listenersOf c ↔ l' ∈ s.listenersOf c ∨ (c = id ∧ l' = l ∧ (s.channel? c).isSome) := by
  rw [listenersOf, channel?_listen, listenersOf]
  by_cases h : c = id
  · subst h
    rw [if_pos rfl]
    rcases s.channel? c with _ | ch
    · simp
    · simp only [Option.map_some, Option.getD_some, Option.isSome_some, and_true, true_and]
      split
      · rename_i hl
        have hl := List.contains_iff_mem.1 hl
        constructor
        · exact .inl
        · rintro (h | rfl)
          · exact h
          · exact hl
      · rw [List.mem_append, List.mem_singleton]
  · simp [h]

theorem channel?_unlisten (l : Listener) :
    (s.unlisten id l).channel? c = if c = id then (s.channel? c).map fun ch =>
      { ch with listeners := ch.listeners.filter (· ≠ l) } else s.channel? c := Arena.get?_modify ..

theorem wire?_unlisten (l : Listener) : (s.unlisten id l).wire? c = s.wire? c := by
  rw [wire?, channel?_unlisten, wire?]
  split
  · rcases s.channel? c with _ | ch <;> rfl
  · rfl

theorem mem_listenersOf_unlisten (l l' : Listener) :
    l' ∈ (s.unlisten id l).listenersOf c ↔ l' ∈ s.listenersOf c ∧ (c = id → l' ≠ l) := by
  rw [listenersOf, channel?_unlisten, listenersOf]
  by_cases h : c = id
  · subst h
    rw [if_pos rfl]
    rcases s.channel? c with _ | ch <;> simp
  · simp [h]

/-! ## Entries -/

theorem entryAt?_pushEntry (x : Entry) :
    (s.pushEntry x).entryAt? e = if e = s.entries.next then some x else s.entryAt? e := by
  rw [entryAt?, pushEntry, Arena.get?_push, entryAt?]
  split <;> rfl

theorem entryAt?_modifyEntry (e' : EntryId) (f : Entry → Entry) :
    (s.modifyEntry e f).entryAt? e' = if e' = e then (s.entryAt? e').map f else s.entryAt? e' := by
  rw [entryAt?, modifyEntry, Arena.get?_modify, entryAt?]
  split
  · rcases s.entries.get? e' with _ | r <;> rfl
  · rfl

theorem entryAt?_freeEntry (e' : EntryId) : (s.freeEntry e).entryAt? e' = if e' = e then none else s.entryAt? e' := by
  rw [entryAt?, freeEntry, Arena.get?_erase, entryAt?]
  split <;> rfl

end Store

end Dataflow
