import Dataflow.Proofs.Operate
import Dataflow.Proofs.Teardown

/-!
# Covered stores: no entry is watched in vain

An entry may be shown by slots of channels that were filled before it was made, and these do not watch it. But whatever watches an entry
has a slot for it: the list of channels of an entry is at no time longer than the slots ask for, and it is empty when there are no channels.
-/

namespace Dataflow

namespace Store

/-- No channel watches an entry more often than it has slots that hold it. -/
def Covered (s : Store) : Prop := ∀ e c, (s.watchers e).count c ≤ (s.slots c).countP (·.entry = e)

variable {s s' : Store}

theorem Covered.of_le (h : s.Covered) (he : ∀ e c, (s'.watchers e).count c ≤ (s.watchers e).count c)
    (hs : ∀ c, s'.slots c = s.slots c) : s'.Covered := fun e c => by
  rw [hs]
  exact Nat.le_trans (he e c) (h e c)

theorem Covered.of_entries_eq (h : s.Covered) (he : s'.entries = s.entries) (hs : ∀ c, s'.slots c = s.slots c) : s'.Covered :=
  h.of_le (fun e c => Nat.le_of_eq (by rw [watchers_of_entries_eq he])) hs

theorem covered_addSlot (h : s.Covered) (id : ChannelId) (x : Slot Float32) : (s.addSlot id x).Covered := by
  rcases hid : s.channel? id with _ | ch
  · rw [addSlot_of_none hid]
    exact h
  have hch : ch.slots = s.slots id := by
    rw [slots, hid]
    rfl
  intro e c
  have hw := h e c
  rw [watchers_addSlot hid x e, hch, List.count_append]
  by_cases hc : c = id
  · subst hc
    have hcount := Sequence.countP_insert s.tolerance x (s.slots c) e
    have hadd : (if e = x.entry ∧ (s.entryAt? e).isSome then [c] else []).count c ≤ if x.entry = e then 1 else 0 := by
      split
      · rename_i hx
        rw [if_pos hx.1.symm, List.count_singleton_self]
      · exact Nat.zero_le _
    have hself : (s.addSlot c x).slots c = (Sequence.insert s.tolerance x (s.slots c)).1 := by
      rw [slots_addSlot, if_pos ⟨rfl, by rw [hid]; rfl⟩]
    rw [hself]
    by_cases hr : (Sequence.insert s.tolerance x (s.slots c)).2 = some e
    · -- the slot that is replaced held the entry, whether it was noted there or not
      obtain ⟨y, hy, hye⟩ := Sequence.mem_of_replaced hr
      have hpos : 0 < (s.slots c).countP (·.entry = e) := List.countP_pos_iff.2 ⟨y, hy, by simpa using hye⟩
      rw [if_pos hr, List.count_erase_self]
      rw [if_pos hr] at hcount
      omega
    · rw [if_neg hr]
      rw [if_neg hr] at hcount
      omega
  · have hsing : (if e = x.entry ∧ (s.entryAt? e).isSome then [id] else []).count c = 0 := by
      split
      · exact List.count_eq_zero_of_not_mem (by simpa using hc)
      · rfl
    have hother : (s.addSlot id x).slots c = s.slots c := by
      rw [slots_addSlot, if_neg fun h' => hc h'.1]
    rw [hsing, hother]
    split
    · rwa [List.count_erase_of_ne hc]
    · exact hw

theorem covered_addSlots (h : s.Covered) (id : ChannelId) (l : List (Slot Float32)) : (s.addSlots id l).Covered := by
  induction l generalizing s with
  | nil => exact h
  | cons x l ih => exact ih (covered_addSlot h id x)

theorem covered_pushChannel (h : s.Covered) (m : MapId) : (s.pushChannel m).Covered := h.of_entries_eq rfl fun c => s.slots_pushChannel c m

theorem covered_freeChannel (h : s.Covered) (id : ChannelId) : (s.freeChannel id).Covered := by
  rcases hid : s.channel? id with _ | ch
  · rw [freeChannel_of_none hid]
    exact h
  intro e c
  have hw := h e c
  have hch : ch.slots = s.slots id := by
    rw [slots, hid]
    rfl
  rw [slots_freeChannel, freeChannel_eq hid, watchers_unwatchAll, hch]
  change (s.watchers e).count c - _ ≤ _
  split
  · rename_i hc
    subst hc
    exact Nat.le_of_eq (Nat.sub_eq_zero_of_le hw)
  · exact Nat.le_trans (Nat.sub_le ..) hw

theorem covered_release (h : s.Covered) (id : ChannelId) (m : MapId) : (s.release id m).Covered := by
  rw [release]
  split
  · exact covered_freeChannel h id
  · exact h

theorem covered_releaseAll (h : s.Covered) (m : MapId) (cs : List ChannelId) : (s.releaseAll m cs).Covered := by
  induction cs generalizing s with
  | nil => exact h
  | cons c cs ih => exact ih (covered_release h c m)

theorem covered_newChannel (h : s.Covered) (m : MapId) (l : List (Slot Float32)) : (s.newChannel m l).1.Covered :=
  covered_addSlots (covered_pushChannel h m) _ l

theorem covered_takeOver (h : s.Covered) (m : MapId) (c : ChannelId) : (s.takeOver m c).1.Covered := by
  rw [takeOver]
  split
  · exact h
  · exact covered_newChannel h m _

/-- Merging keeps a store covered, whatever is merged. -/
theorem covered_put (h : s.Covered) (m : MapId) (cur : Option ChannelId) (f : Feed) : (s.put m cur f).1.Covered := by
  rcases cur with _ | cur <;> rcases f with c | x
  · exact h
  · exact covered_newChannel h m _
  · rw [put]
    split
    · exact h
    · split
      · exact covered_addSlots (covered_takeOver h m cur) _ _
      · exact covered_release h cur m
  · rw [put]
    split
    · exact covered_addSlot (covered_takeOver h m cur) _ _
    · exact covered_newChannel (covered_release h cur m) m _

theorem covered_of_wires (h : s.Covered) (he : s'.entries = s.entries) (hs : ∀ c, s'.wire? c = s.wire? c) : s'.Covered :=
  h.of_entries_eq he fun c => slots_of_wire?_eq (hs c)

theorem covered_listenAll (h : s.Covered) (l : Listener) (cs : List ChannelId) : (s.listenAll l cs).Covered :=
  covered_of_wires h (listenAll_fields s l cs).1 (wire?_listenAll s l cs)

theorem covered_unlistenAll (h : s.Covered) (l : Listener) (cs : List (Option ChannelId)) : (s.unlistenAll l cs).Covered :=
  covered_of_wires h (unlistenAll_fields s l cs).1 (wire?_unlistenAll s l cs)

theorem covered_pushEntry (h : s.Covered) (x : Entry) : (s.pushEntry x).Covered := by
  refine h.of_le (fun e c => ?_) fun _ => rfl
  rw [watchers, pushEntry, Arena.get?_push]
  split
  · exact Nat.zero_le _
  · exact Nat.le_refl _

theorem covered_pushEmpties (h : s.Covered) (types : List DataType) : (s.pushEmpties types).Covered := by
  induction types generalizing s with
  | nil => exact h
  | cons t types ih => exact ih (covered_pushEntry h _)

theorem covered_freeEntry (h : s.Covered) (id : EntryId) : (s.freeEntry id).Covered := by
  refine h.of_le (fun e c => ?_) fun _ => rfl
  rw [watchers, freeEntry, Arena.get?_erase]
  split
  · exact Nat.zero_le _
  · exact Nat.le_refl _

theorem covered_freeAll (h : s.Covered) (es : List EntryId) : (s.freeAll es).Covered := by
  induction es generalizing s with
  | nil => exact h
  | cons e es ih => exact ih (covered_freeEntry h e)

theorem covered_dropProcess (h : s.Covered) (id : ProcessId) (p : Process) : (s.dropProcess id p).Covered :=
  covered_freeAll (covered_unlistenAll h _ _) _

/-- Without channels nobody watches an entry. -/
theorem Covered.watchers_eq_nil (h : s.Covered) (hs : ∀ c, s.channel? c = none) (e : EntryId) : s.watchers e = [] := by
  refine List.eq_nil_iff_forall_not_mem.2 fun c hc => ?_
  have hpos := List.count_pos_iff.2 hc
  have hle := h e c
  rw [slots, hs] at hle
  exact Nat.not_lt.2 hle hpos

end Store

end Dataflow
