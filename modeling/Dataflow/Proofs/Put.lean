import Dataflow.Proofs.Draft

/-!
# Putting a feed into a store

One merge step as an operation of the store: the map that merges has a channel for the name, or none, and gets the channel that it
has afterwards. What the channel then shows is the draft after one more feed. Nothing happens to other channels, and to the
channel that the map had only when the map owns it.
-/

namespace Dataflow

namespace Store

/-- The store with slots put into a channel's sequence in turn. -/
def addSlots (s : Store) (id : ChannelId) (l : List (Slot Float32)) : Store := l.foldl (fun s x => s.addSlot id x) s

/-- The store with a channel more that a map owns and that holds the slots, and its id. -/
def newChannel (s : Store) (m : MapId) (l : List (Slot Float32)) : Store × ChannelId :=
  ((s.pushChannel m).addSlots s.channels.next l, s.channels.next)

/-- The store with a channel that a map owns in place of another: itself, or a copy. -/
def takeOver (s : Store) (m : MapId) (c : ChannelId) : Store × ChannelId :=
  if (s.channel? c).any (·.owner = m) then (s, c) else s.newChannel m (s.slots c)

/-- The store after a map merged a feed, and the channel that it then has, given the one that it had. -/
def put (s : Store) (m : MapId) : Option ChannelId → Feed → Store × ChannelId
  | none, .channel c => (s, c)
  | none, .slot x => s.newChannel m [x]
  | some cur, .channel c =>
    if cur = c then (s, cur)
    else if s.mergesChannel cur c then
      let t := s.takeOver m cur
      (t.1.addSlots t.2 (t.1.slots c), t.2)
    else (s.release cur m, c)
  | some cur, .slot x =>
    if s.mergesSlot cur x then
      let t := s.takeOver m cur
      (t.1.addSlot t.2 x, t.2)
    else (s.release cur m).newChannel m [x]

/-- The ids and settings of a store that do not go back. -/
structure Later (s s' : Store) : Prop where
  nextMap : s'.nextMap = s.nextMap
  tolerance : s'.tolerance = s.tolerance
  entries : s'.entries.next = s.entries.next
  entryAt? : ∀ e, s'.entryAt? e = s.entryAt? e
  channels : s.channels.next ≤ s'.channels.next

theorem Later.refl (s : Store) : Later s s := ⟨rfl, rfl, rfl, fun _ => rfl, Nat.le_refl _⟩

theorem Later.trans {s s' s'' : Store} (h : Later s s') (h' : Later s' s'') : Later s s'' :=
  ⟨h'.nextMap.trans h.nextMap, h'.tolerance.trans h.tolerance, h'.entries.trans h.entries,
    fun e => (h'.entryAt? e).trans (h.entryAt? e), Nat.le_trans h.channels h'.channels⟩

theorem later_addSlot (s : Store) (id : ChannelId) (x : Slot Float32) : Later s (s.addSlot id x) := by
  obtain ⟨h1, h2, h3, h4⟩ := addSlot_fields s id x
  exact ⟨h1, h2, h3, fun e => entryAt?_addSlot s id e x, Nat.le_of_eq h4.symm⟩

theorem later_addSlots (s : Store) (id : ChannelId) (l : List (Slot Float32)) : Later s (s.addSlots id l) := by
  induction l generalizing s with
  | nil => exact .refl s
  | cons x l ih => exact (later_addSlot s id x).trans (ih _)

theorem later_pushChannel (s : Store) (m : MapId) : Later s (s.pushChannel m) :=
  ⟨rfl, rfl, rfl, fun _ => rfl, Nat.le_succ _⟩

theorem later_newChannel (s : Store) (m : MapId) (l : List (Slot Float32)) : Later s (s.newChannel m l).1 :=
  (later_pushChannel s m).trans (later_addSlots ..)

theorem later_release (s : Store) (c : ChannelId) (m : MapId) : Later s (s.release c m) := by
  obtain ⟨h1, h2, h3, h4⟩ := release_fields s c m
  exact ⟨h1, h2, h3, fun e => entryAt?_release s c e m, Nat.le_of_eq h4.symm⟩

theorem next_addSlots (s : Store) (id : ChannelId) (l : List (Slot Float32)) :
    (s.addSlots id l).channels.next = s.channels.next := by
  induction l generalizing s with
  | nil => rfl
  | cons x l ih => exact (ih _).trans (addSlot_fields s id x).2.2.2

theorem next_newChannel (s : Store) (m : MapId) (l : List (Slot Float32)) :
    (s.newChannel m l).1.channels.next = s.channels.next + 1 := next_addSlots ..

theorem wire?_addSlots (s : Store) (id c : ChannelId) (l : List (Slot Float32)) :
    (s.addSlots id l).wire? c =
      if c = id then (s.wire? c).map fun w => (w.1, Sequence.insertAll s.tolerance w.2 l) else s.wire? c := by
  induction l generalizing s with
  | nil =>
    change s.wire? c = _
    split
    · rcases s.wire? c with _ | w <;> rfl
    · rfl
  | cons x l ih =>
    rw [addSlots, List.foldl_cons, ← addSlots, ih, wire?_addSlot, (later_addSlot s id x).tolerance]
    split
    · rcases s.wire? c with _ | w <;> rfl
    · rfl

theorem wire?_newChannel (s : Store) (m : MapId) (l : List (Slot Float32)) (c : ChannelId) :
    (s.newChannel m l).1.wire? c =
      if c = s.channels.next then some (m, Sequence.insertAll s.tolerance [] l) else s.wire? c := by
  rw [newChannel, wire?_addSlots, wire?_pushChannel, (later_pushChannel s m).tolerance]
  split <;> rfl

theorem listenersOf_addSlots (s : Store) (id c : ChannelId) (l : List (Slot Float32)) :
    (s.addSlots id l).listenersOf c = s.listenersOf c := by
  induction l generalizing s with
  | nil => rfl
  | cons x l ih => exact (ih _).trans (listenersOf_addSlot ..)

theorem listenersOf_newChannel (s : Store) (m : MapId) (l : List (Slot Float32)) (c : ChannelId) :
    (s.newChannel m l).1.listenersOf c = s.listenersOf c :=
  (listenersOf_addSlots ..).trans (listenersOf_pushChannel ..)

/-- Taking a channel over leaves it or copies it; the copy is new. -/
theorem takeOver_spec {s : Store} {m o : MapId} {c : ChannelId} {l : List (Slot Float32)} (h : s.wire? c = some (o, l)) :
    (o = m ∧ s.takeOver m c = (s, c)) ∨ (o ≠ m ∧ s.takeOver m c = s.newChannel m l) := by
  have hany : (s.channel? c).any (·.owner = m) = decide (o = m) := by
    rw [any_owner, h]
    rfl
  rw [takeOver, hany]
  by_cases ho : o = m
  · exact .inl ⟨ho, by rw [decide_eq_true ho, if_pos rfl]⟩
  · refine .inr ⟨ho, ?_⟩
    rw [decide_eq_false ho, if_neg (by decide), slots_of_wire? h]

/-- What a map shows for a name: nothing yet, or the channel of a draft, which is the lender's or, from `base` on, the map's
own. -/
def Shows (s : Store) (m : MapId) (base : Nat) : Option ChannelId → Option Draft → Prop
  | none, none => True
  | some c, some d => ∃ o, s.wire? c = some (o, d.slots) ∧
    match d.lender with
    | some l => c = l ∧ o ≠ m
    | none => o = m ∧ base ≤ c
  | _, _ => False

/-- A map has a channel exactly when there is a draft. -/
theorem Shows.eq_none_iff {s : Store} {m : MapId} {base : Nat} {cur : Option ChannelId} {d : Option Draft}
    (h : s.Shows m base cur d) : cur = none ↔ d = none := by
  rcases cur with _ | c <;> rcases d with _ | d
  · simp
  · exact False.elim h
  · exact False.elim h
  · simp

/-- What a map shows does not depend on when the phase began. -/
theorem Shows.mono {s : Store} {m : MapId} {base base' : Nat} {cur : Option ChannelId} {d : Option Draft}
    (h : s.Shows m base cur d) (hb : base' ≤ base) : s.Shows m base' cur d := by
  rcases cur with _ | c <;> rcases d with _ | d
  · trivial
  · exact h
  · exact h
  · obtain ⟨o, hw, hl⟩ := h
    refine ⟨o, hw, ?_⟩
    rcases hd : d.lender with _ | l <;> rw [hd] at hl
    · exact ⟨hl.1, Nat.le_trans hb hl.2⟩
    · exact hl

/-- A channel that is shown is the lender's, or the map's own. -/
theorem Shows.of_some {s : Store} {m : MapId} {base : Nat} {c : ChannelId} {d : Option Draft} (h : s.Shows m base (some c) d) :
    ∃ e o, d = some e ∧ s.wire? c = some (o, e.slots) ∧ (e.lender = some c ∧ o ≠ m ∨ e.lender = none ∧ o = m ∧ base ≤ c) := by
  rcases d with _ | e
  · exact False.elim h
  · obtain ⟨o, hw, hl⟩ := h
    refine ⟨e, o, rfl, hw, ?_⟩
    rcases hd : e.lender with _ | l <;> rw [hd] at hl
    · exact .inr ⟨rfl, hl⟩
    · exact .inl ⟨congrArg some hl.1.symm, hl.2⟩

/-- A feed that a map may borrow from: a slot, or a channel that is in use and that the map does not own. -/
def Lends (s : Store) (m : MapId) : Feed → Prop
  | .channel c => ∃ o l, s.wire? c = some (o, l) ∧ o ≠ m
  | .slot _ => True

/-- What a merge leaves alone: every channel but the one that the map had and owns. -/
structure PutFrame (s s' : Store) (m : MapId) (cur : Option ChannelId) : Prop where
  later : Later s s'
  wires : ∀ c w, s.wire? c = some w → (cur = some c → w.1 ≠ m) → s'.wire? c = some w
  listeners : ∀ c w, s.wire? c = some w → (cur = some c → w.1 ≠ m) → s'.listenersOf c = s.listenersOf c

theorem PutFrame.of_release {s : Store} {m : MapId} {cur : ChannelId} : PutFrame s (s.release cur m) m (some cur) := by
  have hne : ∀ c w, s.wire? c = some w → (some cur = some c → w.1 ≠ m) → ¬ (c = cur ∧ (s.wire? c).any (·.1 = m) = true) := by
    rintro c w hw hc ⟨rfl, ha⟩
    rw [hw] at ha
    exact hc rfl (of_decide_eq_true ha)
  refine ⟨later_release .., fun c w hw hc => ?_, fun c w hw hc => ?_⟩
  · rw [wire?_release, if_neg (hne c w hw hc), hw]
  · rw [listenersOf, channel?_release, if_neg (hne c w hw hc), listenersOf]

theorem PutFrame.newChannel {s s' : Store} {m : MapId} {cur : Option ChannelId} (h : PutFrame s s' m cur)
    (l : List (Slot Float32)) : PutFrame s (s'.newChannel m l).1 m cur := by
  have hne : ∀ c w, s.wire? c = some w → c ≠ s'.channels.next := by
    rintro c w hw rfl
    exact absurd (lt_next_of_wire? hw) (Nat.not_lt.2 h.later.channels)
  refine ⟨h.later.trans (later_newChannel ..), fun c w hw hc => ?_, fun c w hw hc => ?_⟩
  · rw [wire?_newChannel, if_neg (hne c w hw), h.wires c w hw hc]
  · rw [listenersOf_newChannel, h.listeners c w hw hc]

theorem PutFrame.refl (s : Store) (m : MapId) (cur : Option ChannelId) : PutFrame s s m cur :=
  ⟨.refl s, fun _ _ h _ => h, fun _ _ _ _ => rfl⟩

theorem PutFrame.addSlots {s s' : Store} {m : MapId} {cur : Option ChannelId} (h : PutFrame s s' m cur) {id : ChannelId}
    (hid : s.channels.next ≤ id ∨ ∃ l, s.wire? id = some (m, l) ∧ cur = some id) (l : List (Slot Float32)) :
    PutFrame s (s'.addSlots id l) m cur := by
  have hne : ∀ c w, s.wire? c = some w → (cur = some c → w.1 ≠ m) → c ≠ id := by
    rintro c w hw hc rfl
    rcases hid with hid | ⟨l', hw', hcur⟩
    · exact absurd (lt_next_of_wire? hw) (Nat.not_lt.2 hid)
    · rw [hw] at hw'
      cases hw'
      exact hc hcur rfl
  refine ⟨h.later.trans (later_addSlots ..), fun c w hw hc => ?_, fun c w hw hc => ?_⟩
  · rw [wire?_addSlots, if_neg (hne c w hw hc), h.wires c w hw hc]
  · rw [listenersOf_addSlots, h.listeners c w hw hc]

/-- Merging a feed shows the draft after one more feed, and leaves every other channel alone. -/
theorem put_spec {s : Store} {m : MapId} {base : Nat} {cur : Option ChannelId} {d : Option Draft} {f : Feed}
    (hs : s.Shows m base cur d) (hb : base ≤ s.channels.next) (hf : s.Lends m f) :
    (s.put m cur f).1.Shows m base (some (s.put m cur f).2) (s.merge d f) ∧ PutFrame s (s.put m cur f).1 m cur := by
  rcases cur with _ | cur <;> rcases d with _ | d
  · rcases f with c | x
    · obtain ⟨o, l, hw, ho⟩ := hf
      exact ⟨⟨o, by rw [slots_of_wire? hw]; exact hw, rfl, ho⟩, .refl ..⟩
    · refine ⟨⟨m, ?_, rfl, hb⟩, PutFrame.newChannel (.refl ..) _⟩
      change (s.newChannel m [x]).1.wire? s.channels.next = _
      rw [wire?_newChannel, if_pos rfl]
  · exact hs.elim
  · exact hs.elim
  · obtain ⟨o, hw, hl⟩ := hs
    -- the channel that is taken over: the map's own as it is, or a new copy
    have htake : ∃ t, s.takeOver m cur = t ∧ PutFrame s t.1 m (some cur) ∧ t.1.wire? t.2 = some (m, s.owned d) ∧ base ≤ t.2 ∧
        (s.channels.next ≤ t.2 ∨ ∃ l, s.wire? t.2 = some (m, l) ∧ some cur = some t.2) := by
      rcases takeOver_spec (m := m) hw with ⟨ho, ht⟩ | ⟨ho, ht⟩
      · refine ⟨_, ht, .refl .., ?_, ?_, .inr ⟨d.slots, by rw [← ho]; exact hw, rfl⟩⟩
        · rcases hld : d.lender with _ | l
          · rw [owned, hld, ← ho]
            exact hw
          · rw [hld] at hl
            exact absurd ho hl.2
        · rcases hld : d.lender with _ | l
          · rw [hld] at hl
            exact hl.2
          · rw [hld] at hl
            exact absurd ho hl.2
      · refine ⟨_, ht, PutFrame.newChannel (.refl ..) _, ?_, hb, .inl (Nat.le_refl _)⟩
        rw [show (s.newChannel m d.slots).2 = s.channels.next from rfl, wire?_newChannel, if_pos rfl]
        rcases hld : d.lender with _ | l
        · rw [hld] at hl
          exact absurd hl.1 ho
        · rw [owned, hld]
          rfl
    obtain ⟨t, ht, hframe, htw, htb, hid⟩ := htake
    rcases f with c | x
    · obtain ⟨o', l', hw', ho'⟩ := hf
      have hsl : s.slots c = l' := slots_of_wire? hw'
      rw [put]
      by_cases hc : cur = c
      · -- the feed is what is there already
        rw [if_pos hc]
        subst hc
        rw [hw] at hw'
        cases hw'
        rcases hld : d.lender with _ | l
        · rw [hld] at hl
          exact absurd hl.1 ho'
        · rw [hld] at hl
          refine ⟨?_, .refl ..⟩
          rw [merge, hld, hl.1, if_pos rfl]
          exact ⟨o, hl.1 ▸ hw, by rw [hld]; exact ⟨rfl, hl.2⟩⟩
      · rw [if_neg hc]
        have hlend : d.lender ≠ some c := by
          intro h
          rw [h] at hl
          exact hc hl.1
        rw [mergesChannel_eq hw hw', merge, if_neg hlend, hsl]
        by_cases hm : s.mergesSlots d.slots l' = true
        · rw [if_pos hm, if_pos hm, ht]
          have htsl : t.1.slots c = l' := by
            have := hframe.wires c _ hw' fun _ => ho'
            exact slots_of_wire? this
          refine ⟨⟨m, ?_, rfl, htb⟩, hframe.addSlots hid _⟩
          change (t.1.addSlots t.2 (t.1.slots c)).wire? t.2 = _
          rw [wire?_addSlots, if_pos rfl, htw, htsl, hframe.later.tolerance]
          rfl
        · rw [if_neg hm, if_neg hm]
          refine ⟨⟨o', ?_, rfl, ho'⟩, .of_release⟩
          exact PutFrame.of_release.wires c _ hw' fun _ => ho'
    · rw [put, mergesSlot_eq hw, merge]
      by_cases hm : s.mergesOne d.slots x = true
      · rw [if_pos hm, if_pos hm, ht]
        refine ⟨⟨m, ?_, rfl, htb⟩, hframe.addSlots hid [x]⟩
        change (t.1.addSlots t.2 [x]).wire? t.2 = _
        rw [wire?_addSlots, if_pos rfl, htw, hframe.later.tolerance]
        rfl
      · rw [if_neg hm, if_neg hm]
        refine ⟨⟨m, ?_, rfl, ?_⟩, PutFrame.of_release.newChannel _⟩
        · change ((s.release cur m).newChannel m [x]).1.wire? (s.release cur m).channels.next = _
          rw [wire?_newChannel, if_pos rfl, (later_release s cur m).tolerance]
        · exact Nat.le_trans hb (later_release s cur m).channels

/-- Where the channel of a merge comes from: it is the feed's, the one that the map had and owns, or new. -/
theorem put_channel {s : Store} {m : MapId} {cur : Option ChannelId} {f : Feed} (hf : s.Lends m f)
    (hc : ∀ c, cur = some c → (s.wire? c).isSome) :
    (∃ o l, s.wire? (s.put m cur f).2 = some (o, l) ∧ o ≠ m) ∨
    (∃ l, cur = some (s.put m cur f).2 ∧ s.wire? (s.put m cur f).2 = some (m, l)) ∨
    (s.put m cur f).2 = s.channels.next := by
  have htake : ∀ c, cur = some c → (∃ l, cur = some (s.takeOver m c).2 ∧ s.wire? (s.takeOver m c).2 = some (m, l)) ∨
      (s.takeOver m c).2 = s.channels.next := by
    intro c hcc
    obtain ⟨⟨o, l⟩, hw⟩ := Option.isSome_iff_exists.1 (hc c hcc)
    rcases takeOver_spec (m := m) hw with ⟨rfl, ht⟩ | ⟨-, ht⟩
    · exact .inl ⟨l, by rw [ht]; exact hcc, by rw [ht]; exact hw⟩
    · exact .inr (by rw [ht]; rfl)
  rcases cur with _ | cur <;> rcases f with c | x
  · obtain ⟨o, l, hw, ho⟩ := hf
    exact .inl ⟨o, l, hw, ho⟩
  · exact .inr (.inr rfl)
  · obtain ⟨o, l, hw, ho⟩ := hf
    rw [put]
    split
    · rename_i hcc
      exact .inl ⟨o, l, by rw [hcc]; exact hw, ho⟩
    · split
      · exact .inr (htake cur rfl)
      · exact .inl ⟨o, l, hw, ho⟩
  · rw [put]
    split
    · exact .inr (htake cur rfl)
    · exact .inr (.inr (release_fields s cur m).2.2.2)

/-- A merge gives no channel that was there another owner. -/
theorem owner_put {s : Store} {m o : MapId} {cur : Option ChannelId} {f : Feed} {c : ChannelId} {l : List (Slot Float32)}
    (h : (s.put m cur f).1.wire? c = some (o, l)) (hc : c < s.channels.next) : ∃ l', s.wire? c = some (o, l') := by
  have hadd : ∀ {t : Store} {id : ChannelId} {xs l : List (Slot Float32)}, (t.addSlots id xs).wire? c = some (o, l) →
      ∃ l', t.wire? c = some (o, l') := by
    intro t id xs l h
    rw [wire?_addSlots] at h
    split at h
    · obtain ⟨⟨o', l'⟩, hw, he⟩ := Option.map_eq_some_iff.1 h
      obtain ⟨rfl, -⟩ := Prod.mk.inj he
      exact ⟨l', hw⟩
    · exact ⟨l, h⟩
  have hnew : ∀ {t : Store} {xs l : List (Slot Float32)}, t.channels.next = s.channels.next →
      (t.newChannel m xs).1.wire? c = some (o, l) → ∃ l', t.wire? c = some (o, l') := by
    intro t xs l ht h
    rw [wire?_newChannel, if_neg] at h
    · exact ⟨l, h⟩
    · rintro rfl
      exact absurd hc (by rw [ht]; exact Nat.lt_irrefl _)
  have htake : ∀ {c' : ChannelId} {l : List (Slot Float32)}, (s.takeOver m c').1.wire? c = some (o, l) →
      ∃ l', s.wire? c = some (o, l') := by
    intro c' l h
    rw [takeOver] at h
    split at h
    · exact ⟨l, h⟩
    · exact hnew rfl h
  have hrel : ∀ {c' : ChannelId} {l : List (Slot Float32)}, (s.release c' m).wire? c = some (o, l) → s.wire? c = some (o, l) := by
    intro c' l h
    rw [wire?_release] at h
    split at h
    · cases h
    · exact h
  rcases cur with _ | cur <;> rcases f with c' | x
  · exact ⟨l, h⟩
  · exact hnew rfl h
  · rw [put] at h
    split at h
    · exact ⟨l, h⟩
    · split at h
      · obtain ⟨l', h⟩ := hadd h
        exact htake h
      · exact ⟨l, hrel h⟩
  · rw [put] at h
    split at h
    · obtain ⟨l', h⟩ := @hadd _ _ [x] _ h
      exact htake h
    · obtain ⟨l', h⟩ := hnew (release_fields s cur m).2.2.2 h
      exact ⟨l', hrel h⟩

end Store

end Dataflow
