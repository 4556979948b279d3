import Dataflow.Proofs.Draft

/-!
# Matching drafts

Two stores that bring matching slots under matching channels build matching drafts: what a merge does depends on keys, on the types of
entries, and on which channels are the same, and on nothing else of what is merged.
-/

namespace Dataflow

/-- Where the value of a slot comes from: its entry, and the process that writes it, if any. -/
def Slot.origin (y : Slot Float32) : EntryId × Option ProcessId := (y.entry, y.creator)

/-- The slots have the same key and matching origins. -/
structure Slot.Matches (T : EntryId × Option ProcessId → EntryId × Option ProcessId → Prop) (x y : Slot Float32) : Prop where
  key : y.key = x.key
  origin : T x.origin y.origin

namespace Sequence

variable {T : EntryId × Option ProcessId → EntryId × Option ProcessId → Prop} {x x' : Slot Float32} {l l' a a' : List (Slot Float32)}

/-- Putting matching slots into matching sequences gives matching sequences. -/
theorem insert_matches (ε : Float32) (hx : Slot.Matches T x x') (h : List.Forall₂ (Slot.Matches T) l l') :
    List.Forall₂ (Slot.Matches T) (insert ε x l).1 (insert ε x' l').1 := by
  induction h with
  | nil => exact .cons hx .nil
  | cons hy hl ih =>
    rw [insert, insert, hx.key, hy.key]
    split
    · exact .cons ⟨rfl, hx.origin⟩ hl
    · split
      · exact .cons hx (.cons hy hl)
      · exact .cons hy ih

theorem insertAll_matches (ε : Float32) (ha : List.Forall₂ (Slot.Matches T) a a') (h : List.Forall₂ (Slot.Matches T) l l') :
    List.Forall₂ (Slot.Matches T) (insertAll ε a l) (insertAll ε a' l') :=
  List.rel_foldl (R := Slot.Matches T) (P := List.Forall₂ (Slot.Matches T)) (fun _ _ hacc _ _ hx => insert_matches ε hx hacc) ha h

end Sequence

/-- The feeds are matching channels, or matching slots. -/
inductive Feed.Matches (C : ChannelId → ChannelId → Prop) (T : EntryId × Option ProcessId → EntryId × Option ProcessId → Prop) :
    Feed → Feed → Prop where
  | channel {c c' : ChannelId} (h : C c c') : Matches C T (.channel c) (.channel c')
  | slot {x x' : Slot Float32} (h : Slot.Matches T x x') : Matches C T (.slot x) (.slot x')

/-- The drafts have matching slots, and borrow them from matching channels or not at all. -/
structure Draft.Matches (C : ChannelId → ChannelId → Prop) (T : EntryId × Option ProcessId → EntryId × Option ProcessId → Prop)
    (d d' : Draft) : Prop where
  lender : Option.Rel C d.lender d'.lender
  slots : List.Forall₂ (Slot.Matches T) d.slots d'.slots

namespace Store

/-- Channels match one to one and with their slots, and matching slots hold entries of the same type. -/
structure Correspond (C : ChannelId → ChannelId → Prop) (T : EntryId × Option ProcessId → EntryId × Option ProcessId → Prop)
    (s s' : Store) : Prop where
  tolerance : s'.tolerance = s.tolerance
  types : ∀ a a', T a a' → s'.typeAt? a'.1 = s.typeAt? a.1
  slots : ∀ c c', C c c' → List.Forall₂ (Slot.Matches T) (s.slots c) (s'.slots c')
  unique : ∀ c c' d d', C c c' → C d d' → (c = d ↔ c' = d')

namespace Correspond

variable {C : ChannelId → ChannelId → Prop} {T : EntryId × Option ProcessId → EntryId × Option ProcessId → Prop} {s s' : Store}
  {l l' a a' : List (Slot Float32)}

section Parts

variable (h : Correspond C T s s')

include h

theorem firstType? (hl : List.Forall₂ (Slot.Matches T) l l') : s'.firstType? l' = s.firstType? l := by
  cases hl with
  | nil => rfl
  | cons hx _ => exact h.types _ _ hx.origin

/-- Whether sequences are merged is the same for matching ones. -/
theorem mergesSlots (ha : List.Forall₂ (Slot.Matches T) a a') (hl : List.Forall₂ (Slot.Matches T) l l') :
    s'.mergesSlots a' l' = s.mergesSlots a l := by
  unfold Store.mergesSlots
  rw [h.firstType? ha, h.firstType? hl, h.tolerance, ← ha.length_eq, ← hl.length_eq]
  congr 2
  cases ha with
  | nil => rfl
  | cons hx ha =>
    cases ha with
    | cons _ _ => rfl
    | nil =>
      cases hl with
      | nil => rfl
      | cons hy hl =>
        cases hl with
        | cons _ _ => rfl
        | nil =>
          dsimp only
          rw [hx.key, hy.key]

/-- Whether a slot is added is the same for matching ones. -/
theorem mergesOne (ha : List.Forall₂ (Slot.Matches T) a a') {x x' : Slot Float32} (hx : Slot.Matches T x x') :
    s'.mergesOne a' x' = s.mergesOne a x := by
  have hfirst := h.firstType? ha
  cases ha with
  | nil => rfl
  | cons hy ha =>
    cases ha with
    | cons _ _ => rfl
    | nil =>
      have htype : s'.typeAt? x'.entry = s.typeAt? x.entry := h.types _ _ hx.origin
      rw [Store.mergesOne, Store.mergesOne, hfirst, htype, h.tolerance, hy.key, hx.key]

theorem owned {d d' : Draft} (hd : Draft.Matches C T d d') : List.Forall₂ (Slot.Matches T) (s.owned d) (s'.owned d') := by
  have hlender : d'.lender.isSome = d.lender.isSome := by
    have := hd.lender
    generalize d.lender = o at this
    generalize d'.lender = o' at this
    cases this <;> rfl
  rw [Store.owned, Store.owned, hlender, h.tolerance]
  split
  · exact Sequence.insertAll_matches _ .nil hd.slots
  · exact hd.slots

/-- A merge of matching feeds keeps drafts matching. -/
theorem merge {o o' : Option Draft} (ho : Option.Rel (Draft.Matches C T) o o') {f f' : Feed} (hf : Feed.Matches C T f f') :
    Option.Rel (Draft.Matches C T) (s.merge o f) (s'.merge o' f') := by
  cases ho with
  | none =>
    cases hf with
    | channel hc => exact .some ⟨.some hc, h.slots _ _ hc⟩
    | slot hx =>
      rw [Store.merge, Store.merge, h.tolerance]
      exact .some ⟨.none, Sequence.insertAll_matches _ .nil (.cons hx .nil)⟩
  | @some d d' hd =>
    cases hf with
    | @channel c c' hc =>
      have hsame : d'.lender = some c' ↔ d.lender = some c := by
        have := hd.lender
        generalize d.lender = e at this
        generalize d'.lender = e' at this
        cases this with
        | none => exact ⟨(fun hc => by cases hc), (fun hc => by cases hc)⟩
        | some hl => rw [Option.some.injEq, Option.some.injEq, h.unique _ _ _ _ hl hc]
      rw [Store.merge, Store.merge, h.mergesSlots hd.slots (h.slots c c' hc), h.tolerance]
      by_cases hl : d.lender = some c
      · rw [if_pos hl, if_pos (hsame.2 hl)]
        exact .some hd
      · rw [if_neg hl, if_neg fun hl' => hl (hsame.1 hl')]
        split
        · exact .some ⟨.none, Sequence.insertAll_matches _ (h.owned hd) (h.slots c c' hc)⟩
        · exact .some ⟨.some hc, h.slots c c' hc⟩
    | @slot x x' hx =>
      rw [Store.merge, Store.merge, h.mergesOne hd.slots hx, h.tolerance]
      split
      · exact .some ⟨.none, Sequence.insertAll_matches _ (h.owned hd) (.cons hx .nil)⟩
      · exact .some ⟨.none, Sequence.insertAll_matches _ .nil (.cons hx .nil)⟩

end Parts

/-- Matching feeds give matching drafts. -/
theorem draft (h : Correspond C T s s') {fs fs' : List Feed} (hf : List.Forall₂ (Feed.Matches C T) fs fs') :
    Option.Rel (Draft.Matches C T) (s.draft fs) (s'.draft fs') :=
  List.rel_foldl (R := Feed.Matches C T) (P := Option.Rel (Draft.Matches C T)) (fun _ _ ho _ _ hx => h.merge ho hx) .none hf

end Correspond

end Store

end Dataflow
