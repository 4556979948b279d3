import Dataflow.Proofs.Matching
import Dataflow.Proofs.Current

/-!
# Graphs that are authored alike

Two graphs that are authored alike are the same but for the ids of nodes and entries. Without templates they derive the same: where both
have the instance of a node, the channels of its ports are linked one to one, with the same keys, and with entries that leaves hold alike or
that the processes of the same node write at the same place.
-/

namespace Dataflow

/-- The design with the nodes that it refers to placed elsewhere. -/
def Design.place (φ : NodeId → NodeId) (d : Design) : Design :=
  { d with children := d.children.map φ, source := d.source.map φ, proto := d.proto.map φ }

/-- Lists match when they match position by position. -/
theorem forall₂_of_getElem? {α β : Type} {R : α → β → Prop} : ∀ {l : List α} {l' : List β}, (∀ k : Nat, Option.Rel R l[k]? l'[k]?) →
    List.Forall₂ R l l'
  | [], [], _ => .nil
  | [], _ :: _, h => nomatch h 0
  | _ :: _, [], h => nomatch h 0
  | a :: l, b :: l', h => by
    refine .cons ?_ (forall₂_of_getElem? fun k => h (k + 1))
    cases h 0 with
    | some hab => exact hab

theorem forall₂_of_mem_both {α β : Type} {P Q : α → β → Prop} {l : List α} {l' : List β} (h : List.Forall₂ P l l')
    (hPQ : ∀ a ∈ l, ∀ b ∈ l', P a b → Q a b) : List.Forall₂ Q l l' := by
  induction h with
  | nil => exact .nil
  | cons hab _ ih =>
    exact .cons (hPQ _ (List.mem_cons_self ..) _ (List.mem_cons_self ..) hab)
      (ih fun a ha b hb => hPQ a (List.mem_cons_of_mem _ ha) b (List.mem_cons_of_mem _ hb))

/-- Lists that match name by name bring matching feeds under a name. -/
theorem named_matches {M : Feed → Feed → Prop} {fs fs' : List (String × Feed)}
    (h : List.Forall₂ (fun a b : String × Feed => b.1 = a.1 ∧ M a.2 b.2) fs fs') (x : String) : List.Forall₂ M (named x fs) (named x fs') := by
  refine List.rel_map (fun _ _ hab => hab.2) (List.rel_filter (fun a b hab => ?_) h)
  show (a.1 == x) = true ↔ (b.1 == x) = true
  rw [hab.1]

/-- Leaves of two graphs that differ at most in the ids of their entries, which hold the same. -/
structure Leaf.Alike (g g' : Graph) (l l' : Leaf) : Prop where
  name : l'.name = l.name
  key : l'.key = l.key
  param : l'.param = l.param
  entry : Option.Rel (fun e e' => g'.entryAt? e' = g.entryAt? e) l.entry l'.entry

namespace Graph

/-- The nodes of one graph are found in the other, each at a place of its own, with the same design or as the same leaf. -/
structure Alike (φ : NodeId → NodeId) (g g' : Graph) : Prop where
  apart : ∀ m n, (g.node? m).isSome → (g.node? n).isSome → φ m = φ n → m = n
  design : ∀ n d, g.design? n = some d → g'.design? (φ n) = some (d.place φ)
  leaf : ∀ n l, g.leaf? n = some l → ∃ l', g'.leaf? (φ n) = some l' ∧ Leaf.Alike g g' l l'

/-- Entries, with the processes that write them, of two graphs: authored ones that hold the same, or outputs of processes of the same
node at the same place. -/
inductive Counterpart (φ : NodeId → NodeId) (g g' : Graph) : EntryId × Option ProcessId → EntryId × Option ProcessId → Prop where
  | authored {e e' : EntryId} (h : g'.entryAt? e' = g.entryAt? e) : Counterpart φ g g' (e, none) (e', none)
  | computed {j j' : ProcessId} {p p' : Process} {k : Nat} {x : String} {e e' : EntryId} (hp : g.processes[j]? = some p)
      (hp' : g'.processes[j']? = some p') (howner : p'.owner = φ p.owner) (he : p.outputs[k]? = some (x, e))
      (he' : p'.outputs[k]? = some (x, e')) : Counterpart φ g g' (e, some j) (e', some j')

/-- The channel of a name at a port, owned by the port's map. -/
def Home (g : Graph) (n : NodeId) (port : Port) (x : String) (c : ChannelId) : Prop :=
  g.chan n port x .empty = some c ∧ ∃ o l, g.mapId n port = some o ∧ g.store.wire? c = some (o, l)

/-- The channels are at home at the same name of the same port of the same node, and have matching slots. -/
structure Linked (φ : NodeId → NodeId) (g g' : Graph) (c c' : ChannelId) : Prop where
  home : ∃ n port x, g.Home n port x c ∧ g'.Home (φ n) port x c'
  slots : List.Forall₂ (Slot.Matches (Counterpart φ g g')) (g.store.slots c) (g'.store.slots c')

variable {φ : NodeId → NodeId} {hands hands' : List InstanceId} {g g' : Graph} {n m : NodeId} {port q : Port} {x y : String}
  {c : ChannelId}

theorem inflow_place (φ : NodeId → NodeId) (d : Design) : inflow (d.place φ) = (inflow d).map φ := by
  rw [inflow, inflow, Design.place]
  rcases d.source with _ | r <;> rfl

theorem Home.isSome_node? (h : g.Home n port x c) : (g.node? n).isSome := by
  obtain ⟨-, o, l, hm, -⟩ := h
  obtain ⟨w, hw, -⟩ := Option.map_eq_some_iff.1 hm
  obtain ⟨d, hd, -⟩ := exists_data_of_wiring? hw
  exact isSome_node?_of_data? (by rw [hd]; rfl)

/-- A channel is at home at one place only. -/
theorem SoundBut.home_unique (h : SoundBut (fun _ => False) hands g) (hc : g.Home n port x c) (hc' : g.Home m q y c) :
    n = m ∧ port = q ∧ x = y := by
  obtain ⟨hx, o, l, hm, hw⟩ := hc
  obtain ⟨hy, o', l', hm', hw'⟩ := hc'
  rw [hw] at hw'
  cases hw'
  obtain ⟨rfl, rfl⟩ := h.anchored.injective _ _ _ _ _ hm hm'
  obtain ⟨cell, hcell, hch⟩ := Option.bind_eq_some_iff.1 hx
  obtain ⟨cell', hcell', hch'⟩ := Option.bind_eq_some_iff.1 hy
  exact ⟨rfl, rfl, h.sole _ _ _ _ _ _ _ _ _ _ _ not_false hcell hcell' hch hch' hm hw⟩

/-- What a node in sync runs is told by its design and the registry. -/
theorem SoundBut.operation_eq (h : SoundBut (fun _ => False) hands g) (hin : g.InSync n) {d : Design} (hd : g.design? n = some d) :
    g.operation? n = d.compute.bind fun c => (g.registry.get? c.operator).map (c, ·) := by
  obtain ⟨e, he, hs⟩ := hin.exists_data
  have hop := (h.wired n e not_false he hs).operator_eq
  rw [design?_of_data? he] at hd
  cases hd
  rw [operation?, he, Option.bind_some, hop, operatorOf]
  show _ = e.compute.bind _
  rcases e.compute with _ | co
  · rfl
  · rw [Option.bind_some, Option.bind_some]
    rcases g.registry.get? co.operator with _ | op <;> rfl

theorem outputs_getElem?_type (h : SoundBut (fun _ => False) hands g) {j : ProcessId} {p : Process} (hp : g.processes[j]? = some p)
    {k : Nat} {e : EntryId} (he : p.outputs[k]? = some (x, e)) :
    g.store.typeAt? e = (p.operator.outputs[k]?).map (·.type) := by
  have htypes := congrArg (fun l : List (Option DataType) => l[k]?) (h.process j p hp not_false).types
  simp only [List.getElem?_map, he, Option.map_some] at htypes
  rcases hk : p.operator.outputs[k]? with _ | o
  · rw [hk] at htypes
    cases htypes
  · rw [hk] at htypes
    exact Option.some.inj htypes

namespace Alike

variable (ha : Alike φ g g') (h : SoundBut (fun _ => False) hands g) (h' : SoundBut (fun _ => False) hands' g')
  (hreg : g'.registry = g.registry)

section Processes

include ha h h' hreg

/-- A node and its counterpart, when in sync, run the same. -/
theorem operation (hin : g.InSync n) (hin' : g'.InSync (φ n)) : g'.operation? (φ n) = g.operation? n := by
  obtain ⟨d, hd⟩ := hin.exists_design
  rw [h.operation_eq hin hd, h'.operation_eq hin' (ha.design n d hd), hreg]
  rfl

/-- The processes of a node and of its counterpart run the same operator, with outputs of the same names. -/
theorem process {j j' : ProcessId} {p p' : Process} (hp : g.processes[j]? = some p) (hp' : g'.processes[j']? = some p')
    (ho : p'.owner = φ p.owner) : p'.operator = p.operator ∧ p'.outputs.map (·.1) = p.outputs.map (·.1) := by
  have hat := h.process j p hp not_false
  have hat' := h'.process j' p' hp' not_false
  obtain ⟨co, hop, hout⟩ := hat.operation
  obtain ⟨co', hop', hout'⟩ := hat'.operation
  have hin' := hat'.inSync
  rw [ho] at hin' hop'
  rw [ha.operation h h' hreg hat.inSync hin', hop] at hop'
  obtain ⟨rfl, he⟩ := Prod.mk.inj (Option.some.inj hop')
  rw [← he] at hout'
  exact ⟨he.symm, hout'.trans hout.symm⟩

/-- Counterparts have the same type. -/
theorem typeAt {a a' : EntryId × Option ProcessId} (hc : Counterpart φ g g' a a') : g'.store.typeAt? a'.1 = g.store.typeAt? a.1 := by
  cases hc with
  | authored he =>
    show (g'.entryAt? _).map _ = (g.entryAt? _).map _
    rw [he]
  | computed hp hp' ho he he' =>
    rw [outputs_getElem?_type h hp he, outputs_getElem?_type h' hp' he', (ha.process h h' hreg hp hp' ho).1]

/-- What the processes of a node and of its counterpart bring under a name matches. -/
theorem produced {id id' : InstanceId} {i i' : Instance} (hi : g.instances[id]? = some i) (hi' : g'.instances[id']? = some i')
    (ho : i'.owner = φ i.owner) (x : String) :
    List.Forall₂ (Feed.Matches (Linked φ g g') (Counterpart φ g g')) (g.produced x (g.processOf i.owner .empty))
      (g'.produced x (g'.processOf (φ i.owner) .empty)) := by
  have hf := h.faithful id i hi not_false
  have hf' := h'.faithful id' i' hi' not_false
  have hop := ha.operation h h' hreg hf.inSync (ho ▸ hf'.inSync)
  have hproc := hf.process
  have hproc' := hf'.process
  rw [(h.unbound id i hi).substitution] at hproc
  rw [(h'.unbound id' i' hi').substitution, ho] at hproc'
  rcases hco : g.operation? i.owner with _ | ⟨co, op⟩
  · have hnone : g'.operation? (φ i.owner) = none := hop.trans hco
    rw [processOf, processOf, hco, hnone]
    exact .nil
  · obtain ⟨j, p, hj, hp, hr⟩ := hf.runs co op hco
    obtain ⟨j', p', hj', hp', hr'⟩ := hf'.runs co op (by rw [ho]; exact hop.trans hco)
    have howner : p'.owner = φ p.owner := by rw [hr.owner, hr'.owner, ho]
    rw [← hproc, ← hproc', hj, hj', produced_of hp, produced_of hp', Process.slots, Process.slots, List.map_map, List.map_map]
    obtain ⟨-, hnames⟩ := ha.process h h' hreg hp hp' howner
    have hall : List.Forall₂ (fun o o' : String × EntryId => o'.1 = o.1 ∧ Counterpart φ g g' (o.2, some j) (o'.2, some j'))
        p.outputs p'.outputs := by
      refine forall₂_of_getElem? fun k => ?_
      have hname := congrArg (fun l : List String => l[k]?) hnames
      simp only [List.getElem?_map] at hname
      rcases hk : p.outputs[k]? with _ | ⟨y, e⟩ <;> rcases hk' : p'.outputs[k]? with _ | ⟨y', e'⟩ <;> rw [hk, hk'] at hname
      · exact .none
      · cases hname
      · cases hname
      · obtain rfl : y' = y := Option.some.inj hname
        exact .some ⟨rfl, .computed hp hp' howner hk hk'⟩
    exact named_matches (List.rel_map (fun _ _ hab => ⟨hab.1, .slot ⟨rfl, hab.2⟩⟩) hall) x

/-- Links are one to one, and what is linked has entries of the same types. -/
theorem correspond (htol : g'.store.tolerance = g.store.tolerance) :
    Store.Correspond (Linked φ g g') (Counterpart φ g g') g.store g'.store := by
  refine ⟨htol, fun a a' hc => ha.typeAt h h' hreg hc, fun c c' hl => hl.slots, fun c c' e e' hc he => ?_⟩
  obtain ⟨n, port, x, hc, hc'⟩ := hc.home
  obtain ⟨m, q, y, he, he'⟩ := he.home
  constructor
  · rintro rfl
    obtain ⟨rfl, rfl, rfl⟩ := h.home_unique hc he
    exact Option.some.inj (hc'.1.symm.trans he'.1)
  · rintro rfl
    obtain ⟨hn, rfl, rfl⟩ := h'.home_unique hc' he'
    obtain rfl := ha.apart n m hc.isSome_node? he.isSome_node? hn
    exact Option.some.inj (hc.1.symm.trans he.1)

end Processes

/-- Channels that show matching feeds are linked. -/
theorem shown (hcorr : Store.Correspond (Linked φ g g') (Counterpart φ g g') g.store g'.store) (hb : g.Built n .empty port)
    (hb' : g'.Built (φ n) .empty port)
    (hf : List.Forall₂ (Feed.Matches (Linked φ g g') (Counterpart φ g g')) (g.feeds n .empty x port) (g'.feeds (φ n) .empty x port)) :
    Option.Rel (Linked φ g g') (g.chan n port x .empty) (g'.chan (φ n) port x .empty) := by
  obtain ⟨m, hm, hs⟩ := hb.shown x
  obtain ⟨m', hm', hs'⟩ := hb'.shown x
  have hd := hcorr.draft hf
  rcases hx : g.chan n port x .empty with _ | c <;> rcases hx' : g'.chan (φ n) port x .empty with _ | c' <;> rw [hx] at hs <;> rw [hx'] at hs'
  · exact .none
  · rw [hs.eq_none_iff.1 rfl] at hd
    generalize hd' : g'.store.draft (g'.feeds (φ n) .empty x port) = e' at hd
    cases hd
    cases hs'.eq_none_iff.2 hd'
  · rw [hs'.eq_none_iff.1 rfl] at hd
    generalize hd' : g.store.draft (g.feeds n .empty x port) = e at hd
    cases hd
    cases hs.eq_none_iff.2 hd'
  · obtain ⟨e, o, he, hw, hl⟩ := hs.of_some
    obtain ⟨e', o', he', hw', hl'⟩ := hs'.of_some
    rw [he, he'] at hd
    cases hd with
    | some hd =>
      have hlend := hd.lender
      rcases hl with ⟨hl, -⟩ | ⟨hl, rfl, -⟩ <;> rcases hl' with ⟨hl', -⟩ | ⟨hl', rfl, -⟩ <;> rw [hl, hl'] at hlend <;> cases hlend
      · exact .some ‹_›
      · refine .some ⟨⟨n, port, x, ⟨hx, _, _, hm, hw⟩, ⟨hx', _, _, hm', hw'⟩⟩, ?_⟩
        rw [Store.slots_of_wire? hw, Store.slots_of_wire? hw']
        exact hd.slots

include ha

/-- What flows into a node and into its counterpart under a name matches. -/
theorem brought {r : NodeId} (hlive : (g.node? r).isSome)
    (hlinked : g.leaf? r = none → Option.Rel (Linked φ g g') (g.chan r .output x .empty) (g'.chan (φ r) .output x .empty)) :
    List.Forall₂ (Feed.Matches (Linked φ g g') (Counterpart φ g g')) (g.brought .empty x r) (g'.brought .empty x (φ r)) := by
  rw [Graph.brought, Graph.brought]
  rcases hl : g.leaf? r with _ | l
  · obtain ⟨d, hd⟩ := exists_data_of_leaf?_eq_none hlive hl
    obtain ⟨d', hd', -⟩ := Option.map_eq_some_iff.1 (ha.design r _ (design?_of_data? hd))
    rw [leaf?_eq_none_of_data? hd']
    have := hlinked hl
    generalize g.chan r .output x .empty = o at this
    generalize g'.chan (φ r) .output x .empty = o' at this
    cases this with
    | none => exact .nil
    | some hc => exact .cons (.channel hc) .nil
  · obtain ⟨l', hl', hlike⟩ := ha.leaf r l hl
    rw [hl']
    dsimp only
    rw [hlike.name, feed?_empty, feed?_empty, hlike.key]
    split
    · have := hlike.entry
      generalize l.entry = o at this
      generalize l'.entry = o' at this
      cases this with
      | none => exact .nil
      | some he => exact .cons (.slot ⟨rfl, .authored he⟩) .nil
    · exact .nil

include h h' hreg

/-- Where two graphs that are authored alike both have the instance of a node, the channels of its ports are linked. -/
theorem linked (htol : g'.store.tolerance = g.store.tolerance) {id id' : InstanceId} {i i' : Instance} (hi : g.instances[id]? = some i) (hi' : g'.instances[id']? = some i')
    (ho : i'.owner = φ i.owner) (port : Port) (x : String) :
    Option.Rel (Linked φ g g') (g.chan i.owner port x .empty) (g'.chan (φ i.owner) port x .empty) := by
  have hcorr := ha.correspond h h' hreg htol
  obtain ⟨k, hk⟩ : ∃ k, g.rank i.owner = k := ⟨_, rfl⟩
  induction k using Nat.strongRecOn generalizing id id' i i' port x with
  | ind k ih =>
    have hf := h.faithful id i hi not_false
    have hf' := h'.faithful id' i' hi' not_false
    obtain ⟨d, hd⟩ := hf.inSync.exists_design
    have hd' := ha.design i.owner d hd
    have hb := fun port => h.built hi not_false port
    have hb' := fun port => ho ▸ h'.built hi' not_false port
    have hinput : ∀ x, Option.Rel (Linked φ g g') (g.chan i.owner .input x .empty) (g'.chan (φ i.owner) .input x .empty) := by
      intro x
      refine shown hcorr (hb .input) (hb' .input) ?_
      rw [feeds_input _ _ hd, feeds_input _ _ hd', inflow_place]
      refine List.rel_flatMap (R := fun r r' => r ∈ inflow d ∧ r' = φ r)
        (List.forall₂_map_right_iff.2 (forall₂_self fun r hr => ⟨hr, rfl⟩)) ?_
      rintro r _ ⟨hr, rfl⟩
      have href := SoundBut.reference_of_inflow hd hr
      refine ha.brought (h.founded.live _ r href) fun hl => ?_
      obtain ⟨j, i₁, -, hi₁, rfl⟩ := h.child hi not_false hd hr hl
      obtain ⟨d₁, hd₁⟩ := (h.faithful j i₁ hi₁ not_false).inSync.exists_design
      obtain ⟨e, he, -⟩ := Option.map_eq_some_iff.1 (ha.design _ _ hd₁)
      obtain ⟨j', i₁', -, hi₁', ho₁⟩ := h'.child hi' not_false (ho ▸ hd') (by rw [inflow_place]; exact List.mem_map_of_mem hr)
        (leaf?_eq_none_of_data? he)
      exact ih _ (hk ▸ h.founded.ranked _ _ href) hi₁ hi₁' ho₁ .output x rfl
    have hextended : ∀ x, Option.Rel (Linked φ g g') (g.chan i.owner .extended x .empty) (g'.chan (φ i.owner) .extended x .empty) := by
      intro x
      refine shown hcorr (hb .extended) (hb' .extended) ?_
      rw [feeds_extended _ _ hd, feeds_extended _ _ hd']
      refine List.rel_append ?_ (ha.produced h h' hreg hi hi' ho x)
      have := hinput x
      generalize g.chan i.owner .input x .empty = o at this
      generalize g'.chan (φ i.owner) .input x .empty = o' at this
      cases this with
      | none => exact .nil
      | some hc => exact .cons (.channel hc) .nil
    cases port with
    | input => exact hinput x
    | extended => exact hextended x
    | output =>
      refine shown hcorr (hb .output) (hb' .output) ?_
      rw [feeds_output_plain h.plain hd, feeds_output_plain h'.plain hd']
      refine List.rel_filterMap (R := fun y y' => y' = y) ?_ (forall₂_self fun _ _ => rfl)
      rintro _ y rfl
      exact Option.Rel.map_map (hextended y) fun _ _ hc => .channel hc

end Alike

end Graph

end Dataflow
