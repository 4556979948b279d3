import Dataflow.Proofs.Put

/-!
# Mirrored stores: entries know the channels that hold them

Every entry keeps a list of the channels that hold it, once for each slot. All operations of the store keep these lists exact, so
a change of an entry finds every channel that shows it.
-/

namespace Dataflow

namespace Store

/-- Every entry is watched by each channel as often as the channel has slots that hold it, and slots hold entries whose ids were
handed out. -/
structure Mirrored (s : Store) : Prop where
  watchers : ∀ e, (s.entryAt? e).isSome → ∀ c, (s.watchers e).count c = (s.slots c).countP (·.entry = e)
  born : ∀ c, ∀ y ∈ s.slots c, y.entry < s.entries.next

end Store

namespace Sequence

variable {K : Type} [KeyArith K]

/-- Putting a slot in adds its entry, and takes the replaced one away. -/
theorem countP_insert (ε : K) (x : Slot K) (l : List (Slot K)) (e : EntryId) :
    (insert ε x l).1.countP (·.entry = e) + (if (insert ε x l).2 = some e then 1 else 0) =
      l.countP (·.entry = e) + (if x.entry = e then 1 else 0) := by
  induction l with
  | nil => simp [insert, List.countP_cons]
  | cons a l ih =>
    rw [insert]
    split
    · simp only [List.countP_cons, Option.some.injEq, decide_eq_true_eq]
      omega
    · split
      · simp [List.countP_cons]
      · simp only [List.countP_cons]
        omega

/-- The entry that is replaced was there. -/
theorem mem_of_replaced {ε : K} {x : Slot K} {l : List (Slot K)} {e : EntryId} (h : (insert ε x l).2 = some e) :
    ∃ y ∈ l, y.entry = e := by
  induction l with
  | nil => cases h
  | cons a l ih =>
    rw [insert] at h
    split at h
    · exact ⟨a, List.mem_cons_self .., Option.some.inj h⟩
    · split at h
      · cases h
      · obtain ⟨y, hy, he⟩ := ih h
        exact ⟨y, List.mem_cons_of_mem _ hy, he⟩

end Sequence

namespace Store

variable {s : Store}

theorem slots_addSlot (s : Store) (id c : ChannelId) (x : Slot Float32) :
    (s.addSlot id x).slots c =
      if c = id ∧ (s.channel? id).isSome then (Sequence.insert s.tolerance x (s.slots c)).1 else s.slots c := by
  rw [slots_eq, slots_eq, wire?_addSlot]
  by_cases h : c = id
  · subst h
    rw [if_pos rfl]
    rcases hw : s.wire? c with _ | w
    · rw [if_neg]
      · rfl
      · rw [← isSome_wire?, hw]
        simp
    · rw [if_pos]
      · rfl
      · rw [← isSome_wire?, hw]
        simp
  · rw [if_neg h, if_neg fun h' => h h'.1]

theorem watchers_of_entries_eq {s s' : Store} (h : s'.entries = s.entries) (e : EntryId) : s'.watchers e = s.watchers e := by
  rw [watchers, h, watchers]

theorem entryAt?_of_entries_eq {s s' : Store} (h : s'.entries = s.entries) (e : EntryId) : s'.entryAt? e = s.entryAt? e := by
  rw [entryAt?, h, entryAt?]

theorem mirrored_of_eq {s' : Store} (h : s.Mirrored) (he : s'.entries = s.entries) (hs : ∀ c, s'.slots c = s.slots c) :
    s'.Mirrored := by
  refine ⟨fun e hx c => ?_, fun c y hy => ?_⟩
  · rw [entryAt?_of_entries_eq he] at hx
    rw [watchers_of_entries_eq he, hs, h.watchers e hx]
  · rw [hs] at hy
    rw [he]
    exact h.born c y hy

/-- A slot that is put in is noted with its entry, and no longer with the entry that it replaces. -/
theorem watchers_addSlot {id : ChannelId} {ch : Channel} (hid : s.channel? id = some ch) (x : Slot Float32) (e : EntryId) :
    (s.addSlot id x).watchers e =
      (if (Sequence.insert s.tolerance x ch.slots).2 = some e then (s.watchers e).erase id else s.watchers e) ++
        if e = x.entry ∧ (s.entryAt? e).isSome then [id] else [] := by
  rw [addSlot_eq hid, watchers_watch]
  rcases (Sequence.insert s.tolerance x ch.slots).2 with _ | old
  · change (if e = x.entry ∧ (s.entryAt? e).isSome then s.watchers e ++ [id] else s.watchers e) = _
    rw [if_neg (Option.some_ne_none e).symm]
    split
    · rfl
    · rw [List.append_nil]
  · rw [watchers_unwatch, entryAt?_unwatch]
    change (if e = x.entry ∧ (s.entryAt? e).isSome then (if e = old then (s.watchers e).erase id else s.watchers e) ++ [id]
      else if e = old then (s.watchers e).erase id else s.watchers e) = _
    simp only [Option.some.injEq, eq_comm (a := old)]
    split
    · rfl
    · rw [List.append_nil]

theorem mirrored_addSlot (h : s.Mirrored) (id : ChannelId) {x : Slot Float32} (hx : x.entry < s.entries.next) :
    (s.addSlot id x).Mirrored := by
  rcases hid : s.channel? id with _ | ch
  · rw [addSlot_of_none hid]
    exact h
  have hch : ch.slots = s.slots id := by
    rw [slots, hid]
    rfl
  have hself : (s.addSlot id x).slots id = (Sequence.insert s.tolerance x (s.slots id)).1 := by
    rw [slots_addSlot, if_pos ⟨rfl, by rw [hid]; rfl⟩]
  have hother : ∀ c, c ≠ id → (s.addSlot id x).slots c = s.slots c := by
    intro c hc
    rw [slots_addSlot, if_neg fun h' => hc h'.1]
  refine ⟨fun e he c => ?_, fun c y hy => ?_⟩
  · rw [entryAt?_addSlot] at he
    have hcount := Sequence.countP_insert s.tolerance x (s.slots id) e
    have hw := h.watchers e he
    have hwatch := watchers_addSlot hid x e
    simp only [hch, he, and_true] at hwatch
    -- the entry that is replaced was watched
    have hpos : (Sequence.insert s.tolerance x (s.slots id)).2 = some e → 0 < (s.watchers e).count id := by
      intro hr
      obtain ⟨y, hy, hye⟩ := Sequence.mem_of_replaced hr
      rw [hw id, List.countP_pos_iff]
      exact ⟨y, hy, by simpa using hye⟩
    rw [hwatch, List.count_append]
    by_cases hc : c = id
    · rw [hc, hself]
      have hadd : (if e = x.entry then [id] else []).count id = if x.entry = e then 1 else 0 := by
        by_cases hxe : e = x.entry
        · rw [if_pos hxe, if_pos hxe.symm, List.count_singleton_self]
        · rw [if_neg hxe, if_neg (Ne.symm hxe), List.count_nil]
      rw [hadd]
      rw [← hw id] at hcount
      by_cases hr : (Sequence.insert s.tolerance x (s.slots id)).2 = some e
      · have := hpos hr
        rw [if_pos hr, List.count_erase_self]
        rw [if_pos hr] at hcount
        omega
      · rw [if_neg hr]
        rw [if_neg hr] at hcount
        omega
    · rw [hother c hc, ← hw c]
      have herase : ((s.watchers e).erase id).count c = (s.watchers e).count c := List.count_erase_of_ne hc
      have hsing : ([id] : List ChannelId).count c = 0 := List.count_eq_zero_of_not_mem (by simpa using hc)
      split <;> split <;> simp [herase, hsing]
  · rw [slots_addSlot] at hy
    rw [(addSlot_fields s id x).2.2.1]
    split at hy
    · rcases Sequence.of_mem_insert hy with hy | hy
      · exact h.born c y hy
      · rw [hy.1]
        exact hx
    · exact h.born c y hy

theorem mirrored_addSlots (h : s.Mirrored) (id : ChannelId) {l : List (Slot Float32)} (hl : ∀ x ∈ l, x.entry < s.entries.next) :
    (s.addSlots id l).Mirrored := by
  induction l generalizing s with
  | nil => exact h
  | cons x l ih =>
    refine ih (mirrored_addSlot h id (hl x (List.mem_cons_self ..))) fun y hy => ?_
    rw [(addSlot_fields s id x).2.2.1]
    exact hl y (List.mem_cons_of_mem _ hy)

theorem mirrored_pushChannel (h : s.Mirrored) (o : MapId) : (s.pushChannel o).Mirrored := by
  refine mirrored_of_eq h rfl fun c => ?_
  rw [slots_eq, wire?_pushChannel, slots_eq]
  split
  · rename_i hc
    rcases hw : s.wire? c with _ | w
    · rfl
    · rw [hc] at hw
      exact absurd (lt_next_of_wire? hw) (Nat.lt_irrefl _)
  · rfl

theorem watchers_unwatchAll (s : Store) (c : ChannelId) (l : List (Slot Float32)) (e : EntryId) (c' : ChannelId) :
    ((s.unwatchAll c l).watchers e).count c' =
      (s.watchers e).count c' - if c' = c then l.countP (·.entry = e) else 0 := by
  rw [unwatchAll]
  induction l generalizing s with
  | nil => simp
  | cons x l ih =>
    rw [List.foldl_cons, ih, watchers_unwatch]
    by_cases hc : c' = c
    · subst hc
      rw [if_pos rfl, if_pos rfl, List.countP_cons]
      by_cases he : e = x.entry
      · rw [if_pos he, List.count_erase_self, if_pos (by simpa using he.symm)]
        omega
      · rw [if_neg he, if_neg (by simpa using fun h' => he h'.symm)]
        omega
    · rw [if_neg hc, if_neg hc]
      split
      · rw [List.count_erase_of_ne hc]
      · rfl

theorem slots_freeChannel (s : Store) (id c : ChannelId) : (s.freeChannel id).slots c = if c = id then [] else s.slots c := by
  rw [slots, channel?_freeChannel, slots]
  split <;> rfl

theorem mirrored_freeChannel (h : s.Mirrored) (id : ChannelId) : (s.freeChannel id).Mirrored := by
  rcases hid : s.channel? id with _ | ch
  · rw [freeChannel_of_none hid]
    exact h
  have hch : ch.slots = s.slots id := by
    rw [slots, hid]
    rfl
  refine ⟨fun e he c => ?_, fun c y hy => ?_⟩
  · rw [entryAt?_freeChannel] at he
    rw [slots_freeChannel, freeChannel_eq hid, watchers_unwatchAll]
    change (s.watchers e).count c - _ = _
    rw [h.watchers e he, hch]
    by_cases hc : c = id
    · subst hc
      simp
    · simp [hc]
  · rw [slots_freeChannel] at hy
    rw [(freeChannel_fields s id).2.2.1]
    split at hy
    · exact absurd hy List.not_mem_nil
    · exact h.born c y hy

theorem mirrored_release (h : s.Mirrored) (id : ChannelId) (m : MapId) : (s.release id m).Mirrored := by
  rw [release]
  split
  · exact mirrored_freeChannel h id
  · exact h

theorem mirrored_newChannel (h : s.Mirrored) (m : MapId) {l : List (Slot Float32)} (hl : ∀ x ∈ l, x.entry < s.entries.next) :
    (s.newChannel m l).1.Mirrored := mirrored_addSlots (mirrored_pushChannel h m) _ hl

theorem mirrored_takeOver (h : s.Mirrored) (m : MapId) (c : ChannelId) : (s.takeOver m c).1.Mirrored := by
  rw [takeOver]
  split
  · exact h
  · exact mirrored_newChannel h m (h.born c)

theorem later_takeOver (s : Store) (m : MapId) (c : ChannelId) : Later s (s.takeOver m c).1 := by
  rw [takeOver]
  split
  · exact .refl s
  · exact later_newChannel ..

/-- Merging keeps a store mirrored. -/
theorem mirrored_put (h : s.Mirrored) (m : MapId) (cur : Option ChannelId) {f : Feed}
    (hf : ∀ x ∈ s.feedSlots f, x.entry < s.entries.next) : (s.put m cur f).1.Mirrored := by
  rcases cur with _ | cur <;> rcases f with c | x
  · exact h
  · exact mirrored_newChannel h m hf
  · rw [put]
    split
    · exact h
    · split
      · exact mirrored_addSlots (mirrored_takeOver h m cur) _ ((mirrored_takeOver h m cur).born c)
      · exact mirrored_release h cur m
  · rw [put]
    split
    · refine mirrored_addSlot (mirrored_takeOver h m cur) _ ?_
      rw [(later_takeOver s m cur).entries]
      exact hf x (List.mem_singleton_self _)
    · refine mirrored_newChannel (mirrored_release h cur m) m ?_
      rw [(later_release s cur m).entries]
      exact hf

theorem slots_of_wire?_eq {s s' : Store} {c : ChannelId} (h : s'.wire? c = s.wire? c) : s'.slots c = s.slots c := by
  rw [slots_eq, h, slots_eq]

theorem mirrored_listen (h : s.Mirrored) (id : ChannelId) (l : Listener) : (s.listen id l).Mirrored :=
  mirrored_of_eq h rfl fun c => slots_of_wire?_eq (wire?_listen s c id l)

theorem mirrored_unlisten (h : s.Mirrored) (id : ChannelId) (l : Listener) : (s.unlisten id l).Mirrored :=
  mirrored_of_eq h rfl fun c => slots_of_wire?_eq (wire?_unlisten s c id l)

theorem mirrored_pushEntry (h : s.Mirrored) (x : Entry) : (s.pushEntry x).Mirrored := by
  refine ⟨fun e he c => ?_, fun c y hy => ?_⟩
  · rw [entryAt?_pushEntry] at he
    change _ = (s.slots c).countP (·.entry = e)
    rw [watchers, pushEntry, Arena.get?_push]
    split
    · rename_i hn
      subst hn
      symm
      rw [List.countP_eq_zero.2]
      · rfl
      · intro y hy
        have := h.born c y hy
        simpa using Nat.ne_of_lt this
    · rename_i hn
      rw [if_neg hn] at he
      exact h.watchers e he c
  · exact Nat.lt_succ_of_lt (h.born c y hy)

theorem mirrored_modifyEntry (h : s.Mirrored) (e : EntryId) (f : Entry → Entry) : (s.modifyEntry e f).Mirrored := by
  have hw : ∀ e', (s.modifyEntry e f).watchers e' = s.watchers e' := by
    intro e'
    rw [watchers, modifyEntry, Arena.get?_modify, watchers]
    split
    · rcases s.entries.get? e' with _ | r <;> rfl
    · rfl
  refine ⟨fun e' he c => ?_, h.born⟩
  rw [hw]
  refine h.watchers e' ?_ c
  rw [entryAt?_modifyEntry] at he
  split at he
  · rwa [Option.isSome_map] at he
  · exact he

theorem mirrored_freeEntry (h : s.Mirrored) (e : EntryId) : (s.freeEntry e).Mirrored := by
  refine ⟨fun e' he c => ?_, h.born⟩
  rw [entryAt?_freeEntry] at he
  split at he
  · cases he
  · rename_i hne
    change _ = (s.slots c).countP (·.entry = e')
    rw [watchers, freeEntry, Arena.get?_erase, if_neg hne]
    exact h.watchers e' he c

end Store

end Dataflow
