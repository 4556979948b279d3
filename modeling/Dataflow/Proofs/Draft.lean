import Dataflow.Proofs.Stores

/-!
# Drafts: what merging builds, as a function of what is merged

Merging the feeds of a name in turn either borrows the channel of one of them or builds a channel of the port's own. A draft says
which of the two, and with which slots. It is computed from the feeds and the store alone.
-/

namespace Dataflow

/-- What is merged under a name: a whole channel, or one slot. -/
inductive Feed where
  | channel (id : ChannelId)
  | slot (slot : Slot Float32)

/-- What has been merged under a name: the slots, and the channel that they are borrowed from, if they are. -/
structure Draft where
  lender : Option ChannelId
  slots : List (Slot Float32)

namespace Sequence

variable {K : Type} [KeyArith K]

/-- A sequence with further slots put into it in turn. -/
def insertAll (ε : K) (base slots : List (Slot K)) : List (Slot K) := slots.foldl (fun acc x => (insert ε x acc).1) base

@[simp] theorem insertAll_nil (ε : K) (base : List (Slot K)) : insertAll ε base [] = base := rfl

/-- After a slot is put in, every slot holds the entry of an earlier one or the new one's. -/
theorem of_mem_insert {ε : K} {x y : Slot K} {l : List (Slot K)} (h : y ∈ (insert ε x l).1) :
    y ∈ l ∨ (y.entry = x.entry ∧ y.creator = x.creator) := by
  induction l with
  | nil =>
    rw [insert, List.mem_singleton] at h
    exact .inr (by rw [h]; exact ⟨rfl, rfl⟩)
  | cons a l ih =>
    rw [insert] at h
    split at h
    · rcases List.mem_cons.1 h with rfl | h
      · exact .inr ⟨rfl, rfl⟩
      · exact .inl (List.mem_cons_of_mem _ h)
    · split at h
      · rcases List.mem_cons.1 h with rfl | h
        · exact .inr ⟨rfl, rfl⟩
        · exact .inl h
      · rcases List.mem_cons.1 h with rfl | h
        · exact .inl (List.mem_cons_self ..)
        · rcases ih h with h | h
          · exact .inl (List.mem_cons_of_mem _ h)
          · exact .inr h

theorem of_mem_insertAll {ε : K} {y : Slot K} {base l : List (Slot K)} (h : y ∈ insertAll ε base l) :
    ∃ x ∈ base ++ l, y.entry = x.entry ∧ y.creator = x.creator := by
  induction l generalizing base with
  | nil => exact ⟨y, List.mem_append_left _ h, rfl, rfl⟩
  | cons a l ih =>
    obtain ⟨x, hx, he⟩ := @ih (insert ε a base).1 h
    rcases List.mem_append.1 hx with hx | hx
    · rcases of_mem_insert hx with hx | hx
      · exact ⟨x, List.mem_append_left _ hx, he⟩
      · exact ⟨a, List.mem_append_right _ (List.mem_cons_self ..), he.1.trans hx.1, he.2.trans hx.2⟩
    · exact ⟨x, List.mem_append_right _ (List.mem_cons_of_mem _ hx), he⟩

end Sequence

namespace Store

variable (s : Store)

/-- The type of the first entry of a sequence. -/
def firstType? (l : List (Slot Float32)) : Option DataType := l.head?.bind fun x => s.typeAt? x.entry

/-- Whether two sequences are merged. -/
def mergesSlots (a b : List (Slot Float32)) : Bool :=
  if a.length ≠ b.length then true
  else if s.firstType? a ≠ s.firstType? b then false
  else match a, b with
    | [x], [y] => !Sequence.near s.tolerance x.key y.key
    | _, _ => true

/-- Whether a slot is added to a sequence. -/
def mergesOne (a : List (Slot Float32)) (x : Slot Float32) : Bool :=
  match a with
  | [y] => if s.firstType? a ≠ s.typeAt? x.entry then false else !Sequence.near s.tolerance y.key x.key
  | _ => true

theorem mergesChannel_eq {s : Store} {c c' : ChannelId} {o o' : MapId} {a b : List (Slot Float32)}
    (h : s.wire? c = some (o, a)) (h' : s.wire? c' = some (o', b)) : s.mergesChannel c c' = s.mergesSlots a b := by
  obtain ⟨ch, hc, he⟩ := Option.map_eq_some_iff.1 h
  obtain ⟨ch', hc', he'⟩ := Option.map_eq_some_iff.1 h'
  obtain ⟨rfl, rfl⟩ := Prod.mk.inj he
  obtain ⟨rfl, rfl⟩ := Prod.mk.inj he'
  simp only [mergesChannel, hc, hc', mergesSlots, typeOf?_eq, slots_of_wire? h, slots_of_wire? h', firstType?]
  rfl

theorem mergesSlot_eq {s : Store} {c : ChannelId} {o : MapId} {a : List (Slot Float32)} (h : s.wire? c = some (o, a))
    (x : Slot Float32) : s.mergesSlot c x = s.mergesOne a x := by
  obtain ⟨ch, hc, he⟩ := Option.map_eq_some_iff.1 h
  obtain ⟨rfl, rfl⟩ := Prod.mk.inj he
  simp only [mergesSlot, hc, mergesOne, typeOf?_eq, slots_of_wire? h, firstType?, typeAt?]
  rfl

/-- The slots that a feed brings. -/
def feedSlots : Feed → List (Slot Float32)
  | .channel c => s.slots c
  | .slot x => [x]

/-- The slots of a draft as a port takes them over: copied one by one, when they are borrowed. -/
def owned (d : Draft) : List (Slot Float32) :=
  if d.lender.isSome then Sequence.insertAll s.tolerance [] d.slots else d.slots

/-- The draft after one more feed. -/
def merge : Option Draft → Feed → Option Draft
  | none, .channel c => some ⟨some c, s.slots c⟩
  | none, .slot x => some ⟨none, Sequence.insertAll s.tolerance [] [x]⟩
  | some d, .channel c =>
    if d.lender = some c then some d
    else if s.mergesSlots d.slots (s.slots c) then some ⟨none, Sequence.insertAll s.tolerance (s.owned d) (s.slots c)⟩
    else some ⟨some c, s.slots c⟩
  | some d, .slot x =>
    if s.mergesOne d.slots x then some ⟨none, Sequence.insertAll s.tolerance (s.owned d) [x]⟩
    else some ⟨none, Sequence.insertAll s.tolerance [] [x]⟩

/-- The draft of some feeds in turn. -/
def draft (fs : List Feed) : Option Draft := fs.foldl s.merge none

theorem draft_append (fs : List Feed) (f : Feed) : s.draft (fs ++ [f]) = s.merge (s.draft fs) f := by
  rw [draft, List.foldl_append]
  rfl

theorem isSome_merge (d : Option Draft) (f : Feed) : (s.merge d f).isSome := by
  rcases d with _ | d <;> rcases f with c | x <;> simp only [merge] <;> (repeat' split) <;> rfl

/-- Nothing is built exactly when nothing is merged. -/
theorem draft_eq_none_iff {fs : List Feed} : s.draft fs = none ↔ fs = [] := by
  constructor
  · intro h
    induction fs using List.reverseRecOn with
    | nil => rfl
    | append_singleton l f =>
      rw [draft_append] at h
      have := isSome_merge s (s.draft l) f
      rw [h] at this
      cases this
  · rintro rfl
    rfl

/-- What a merge adds: every slot holds the entry of a slot that was there or that the feed brings, and a channel that it
borrows is the feed's own or borrowed before. -/
theorem of_merge {s : Store} {d : Option Draft} {f : Feed} {e : Draft} (h : s.merge d f = some e) :
    (∀ y ∈ e.slots, ∃ x, (x ∈ s.feedSlots f ∨ ∃ d', d = some d' ∧ x ∈ d'.slots) ∧
      y.entry = x.entry ∧ y.creator = x.creator) ∧
    ∀ c, e.lender = some c → (f = .channel c ∧ e.slots = s.slots c) ∨ d = some e := by
  have hins : ∀ {base l : List (Slot Float32)} {d' : Draft}, base = s.owned d' → l = s.feedSlots f → d = some d' →
      ∀ y ∈ Sequence.insertAll s.tolerance base l, ∃ x, (x ∈ s.feedSlots f ∨ ∃ d', d = some d' ∧ x ∈ d'.slots) ∧
        y.entry = x.entry ∧ y.creator = x.creator := by
    intro base l d' hb hl hd y hy
    obtain ⟨x, hx, he⟩ := Sequence.of_mem_insertAll hy
    rcases List.mem_append.1 hx with hx | hx
    · rw [hb, owned] at hx
      split at hx
      · obtain ⟨z, hz, he'⟩ := Sequence.of_mem_insertAll hx
        exact ⟨z, .inr ⟨d', hd, by simpa using hz⟩, he.1.trans he'.1, he.2.trans he'.2⟩
      · exact ⟨x, .inr ⟨d', hd, hx⟩, he⟩
    · exact ⟨x, .inl (hl ▸ hx), he⟩
  have hone : ∀ {x : Slot Float32}, f = .slot x → ∀ y ∈ Sequence.insertAll s.tolerance [] [x],
      ∃ x, (x ∈ s.feedSlots f ∨ ∃ d', d = some d' ∧ x ∈ d'.slots) ∧ y.entry = x.entry ∧ y.creator = x.creator := by
    intro x hf y hy
    obtain ⟨z, hz, he⟩ := Sequence.of_mem_insertAll hy
    exact ⟨z, .inl (by rw [hf]; exact hz), he⟩
  rcases d with _ | d' <;> rcases f with c | x <;> simp only [merge] at h
  · cases h
    refine ⟨fun y hy => ⟨y, .inl hy, rfl, rfl⟩, fun c' hc => .inl ?_⟩
    cases hc
    exact ⟨rfl, rfl⟩
  · cases h
    exact ⟨hone rfl, fun c' hc => nomatch hc⟩
  · split at h
    · cases h
      exact ⟨fun y hy => ⟨y, .inr ⟨_, rfl, hy⟩, rfl, rfl⟩, fun c' hc => .inr rfl⟩
    · split at h
      · cases h
        exact ⟨hins rfl rfl rfl, fun c' hc => nomatch hc⟩
      · cases h
        refine ⟨fun y hy => ⟨y, .inl hy, rfl, rfl⟩, fun c' hc => .inl ?_⟩
        cases hc
        exact ⟨rfl, rfl⟩
  · split at h
    · cases h
      exact ⟨hins rfl rfl rfl, fun c' hc => nomatch hc⟩
    · cases h
      exact ⟨hone rfl, fun c' hc => nomatch hc⟩

/-- Every slot of a draft holds the entry of a slot that some feed brings. -/
theorem of_mem_draft {s : Store} {fs : List Feed} {d : Draft} (h : s.draft fs = some d) {y : Slot Float32} (hy : y ∈ d.slots) :
    ∃ f ∈ fs, ∃ x ∈ s.feedSlots f, y.entry = x.entry ∧ y.creator = x.creator := by
  induction fs using List.reverseRecOn generalizing d y with
  | nil => cases h
  | append_singleton fs f ih =>
    rw [draft_append] at h
    obtain ⟨x, hx, he⟩ := (of_merge h).1 y hy
    rcases hx with hx | ⟨d', hd, hx⟩
    · exact ⟨f, List.mem_append_right _ (List.mem_singleton_self _), x, hx, he⟩
    · obtain ⟨f', hf, z, hz, he'⟩ := ih hd hx
      exact ⟨f', List.mem_append_left _ hf, z, hz, he.1.trans he'.1, he.2.trans he'.2⟩

/-- A draft that borrows a channel has that channel among its feeds, and its slots. -/
theorem of_lender {s : Store} {fs : List Feed} {d : Draft} (h : s.draft fs = some d) {c : ChannelId} (hc : d.lender = some c) :
    .channel c ∈ fs ∧ d.slots = s.slots c := by
  induction fs using List.reverseRecOn generalizing d with
  | nil => cases h
  | append_singleton fs f ih =>
    rw [draft_append] at h
    rcases (of_merge h).2 c hc with ⟨rfl, hs⟩ | hd
    · exact ⟨List.mem_append_right _ (List.mem_singleton_self _), hs⟩
    · obtain ⟨hm, hs⟩ := ih hd hc
      exact ⟨List.mem_append_left _ hm, hs⟩

/-! ## Two stores that agree on the feeds -/

/-- Two stores read the same of some feeds: their slots, and the types of their entries. -/
structure Agree (s s' : Store) (fs : List Feed) : Prop where
  tolerance : s'.tolerance = s.tolerance
  slots : ∀ f ∈ fs, s'.feedSlots f = s.feedSlots f
  types : ∀ f ∈ fs, ∀ x ∈ s.feedSlots f, s'.typeAt? x.entry = s.typeAt? x.entry

theorem Agree.mono {s s' : Store} {fs fs' : List Feed} (h : Agree s s' fs) (hs : fs' ⊆ fs) : Agree s s' fs' :=
  ⟨h.tolerance, fun f hf => h.slots f (hs hf), fun f hf => h.types f (hs hf)⟩

theorem firstType?_congr {s s' : Store} {l : List (Slot Float32)}
    (h : ∀ x ∈ l, s'.typeAt? x.entry = s.typeAt? x.entry) : s'.firstType? l = s.firstType? l := by
  rcases l with _ | ⟨x, l⟩
  · rfl
  · exact h x (List.mem_cons_self ..)

theorem merge_congr {s s' : Store} {f : Feed} (h : Agree s s' [f]) {d : Option Draft}
    (hd : ∀ e, d = some e → ∀ x ∈ e.slots, s'.typeAt? x.entry = s.typeAt? x.entry) : s'.merge d f = s.merge d f := by
  have hf := h.slots f (List.mem_singleton_self _)
  have ht := h.types f (List.mem_singleton_self _)
  rcases d with _ | d <;> rcases f with c | x <;> simp only [feedSlots] at hf ht <;> simp only [merge]
  · rw [hf]
  · rw [h.tolerance]
  · have hm : s'.mergesSlots d.slots (s.slots c) = s.mergesSlots d.slots (s.slots c) := by
      unfold mergesSlots
      rw [firstType?_congr (hd d rfl), firstType?_congr ht, h.tolerance]
    rw [hf, hm, owned, owned, h.tolerance]
  · have hm : s'.mergesOne d.slots x = s.mergesOne d.slots x := by
      unfold mergesOne
      rw [firstType?_congr (hd d rfl), ht x (List.mem_singleton_self _), h.tolerance]
    rw [hm, owned, owned, h.tolerance]

/-- Drafts depend on what is read of their feeds only. -/
theorem draft_congr {s s' : Store} {fs : List Feed} (h : Agree s s' fs) : s'.draft fs = s.draft fs := by
  induction fs using List.reverseRecOn with
  | nil => rfl
  | append_singleton fs f ih =>
    have hfs : Agree s s' fs := h.mono (List.subset_append_left _ _)
    rw [draft_append, draft_append, ih hfs]
    refine merge_congr (h.mono (List.subset_append_right _ _)) fun e he x hx => ?_
    obtain ⟨f', hf, z, hz, hez⟩ := of_mem_draft he hx
    rw [hez.1]
    exact hfs.types f' hf z hz

end Store

end Dataflow
