import Dataflow.Proofs.Carried
import Dataflow.Proofs.Relayed

/-!
# Channels last as long as they are used

What refers to a channel finds it in the store, and while the channel is there nobody writes to it: what is merged into it later is merged
into a copy. Regular calls keep it so. Under a template it fails: a name may then be bound to a channel that a map of the node itself made
for another instance, and this map takes the channel for its own, writes to it and frees it.
-/

namespace Dataflow

namespace Graph

variable {g g' : Graph} {c : ChannelId} {call : Call}

/-- A cell that is in use holds the channel. -/
def Employed (g : Graph) (c : ChannelId) : Prop :=
  ∃ n port x k cell, g.cell? n port x k = some cell ∧ 0 < cell.uses ∧ cell.channel = some c

/-- Something in use refers to the channel: a cell holds it, a process reads it or an outlet publishes it. -/
def Relies (g : Graph) (c : ChannelId) : Prop :=
  g.Employed c ∨ (∃ (id : ProcessId) (p : Process), g.processes[id]? = some p ∧ some c ∈ p.inputs) ∨
    ∃ (id : OutletId) (o : Outlet) (x : String), g.outlets[id]? = some o ∧ o.channels[x]? = some c

/-! ## Without templates -/

theorem Tended.wire_of_employed (h : g.Tended) (hc : g.Employed c) : (g.store.wire? c).isSome := by
  obtain ⟨n, port, x, k, cell, hcell, -, hch⟩ := hc
  have hat := h.sound.cells n port x k cell not_false hcell
  obtain ⟨j, i, hi, rfl⟩ := hat.live
  have hchan : g.chan i.owner port x .empty = some c := by
    rw [chan, keyAt, Substitution.keyOf_empty, ← hat.key, hcell]
    exact hch
  exact h.sound.wire_of_chan hi not_false hchan

/-- What something in use refers to is in the store. -/
theorem Tended.wire_of_relies (h : g.Tended) (hc : g.Relies c) : (g.store.wire? c).isSome := by
  rcases hc with hc | ⟨id, p, hp, hr⟩ | ⟨id, o, x, ho, hx⟩
  · exact h.wire_of_employed hc
  · exact (h.sound.reads hp not_false hr).2.1
  · exact h.wire_of_outlet ho hx

/-- Bringing an outlet up to date makes channels, and alters none that were there. -/
theorem Consistent.lasts_resolve (h : g.Consistent) {k : OutletId} {o : Outlet} (ho : g.outlets[k]? = some o) :
    g.store.Lasts (g.resolve k).store := by
  by_cases hs : o.status = .ready
  · rw [resolve_of_ready ho hs]
    exact .of_channels rfl
  · obtain ⟨g₁, o₁, he, -, hp⟩ := h.poised ho hs
    have hsound : SoundBut (fun _ => False) _ g₁ := hp.tended.sound.aside g₁.outlets g₁.requests g₁.plans g₁.journal
    obtain ⟨g', journal, hr, -, -, hre⟩ := refresh_spec hp.current hsound (hp.keeps.registry ▸ h.named) hp.outlet o.owner
    have hran : g₁.store.Lasts g'.store := .of_channels hr.channels
    rw [he, hre]
    exact hp.concurs.lasts.trans hran

theorem carries_lasts : Carries fun g g' => g.store.Lasts g'.store where
  trans _ _ _ h h' := h.trans h'
  retained _ _ _ _ hr := hr.concurs.lasts
  ran g roots hg := by
    obtain ⟨hr, -, -⟩ := hg.current.runAll hg.tended.sound hg.named roots
    exact .of_channels hr.channels

/-- A regular call makes channels and frees channels, and alters none that stay. -/
theorem Maintained.lasts_step (h : g.Maintained) (hc : g.Regular call) : g.store.Lasts (g.step call).store := by
  refine carries_lasts.step (fun g k o _ hg ho => hg.lasts_resolve ho) h hc fun e f hup => ?_
  rcases h.update_cases hup with heq | ⟨hs, -⟩
  · rw [heq]
    exact .of_channels rfl
  · obtain ⟨_, _, _, _, heq⟩ := hs.rest
    rw [heq]
    exact .of_channels rfl

theorem Maintained.lasts_after (h : g.Maintained) {calls : List Call} (hc : g.Throughout Regular calls) :
    g.store.Lasts (g.after calls).store := by
  induction calls generalizing g with
  | nil => exact .of_channels rfl
  | cons c calls ih => exact (h.lasts_step hc.1).trans (ih (h.step hc.1).1 hc.2)

/-! ## Under templates -/

/-- A node `2` over a node `0` has it as its template too, and there is a request `2` of node `0`. -/
def lenderCalls : List Call :=
  [.createData false, .createPayload .int (.ints [1]), .createLeaf, .setName 1 "x", .setData 1 (some 0), .setParam 1 true, .appendChild 0 1,
    .createData false, .appendChild 2 0, .setProto 2 (some 0), .createRequest 0 []]

/-- A request of node `2` is made, pulled and released: the template is made for the channel that it made for itself, and frees it. -/
def visitCalls : List Call := [.createRequest 2 [], .pull 5, .releaseRequest 5]

theorem evaluated_visitCalls :
    (new Registry.empty {}).Throughout (RegularOrTemplate True) (lenderCalls ++ .pull 2 :: visitCalls) ∧
      ((new Registry.empty {}).after (lenderCalls ++ .pull 2 :: visitCalls)).cell? 0 .output "x" "" = some { uses := 1, channel := some 0 } ∧
      ((new Registry.empty {}).after (lenderCalls ++ .pull 2 :: visitCalls)).finalChannels 0 .empty = [("x", 0)] ∧
      ((new Registry.empty {}).after (lenderCalls ++ .pull 2 :: visitCalls)).store.channel? 0 = none := by
  decide +kernel

theorem employed_visitCalls : ((new Registry.empty {}).after (lenderCalls ++ .pull 2 :: visitCalls)).Employed 0 :=
  ⟨0, .output, "x", "", _, evaluated_visitCalls.2.1, Nat.one_pos, rfl⟩

/-- Whatever something in use refers to is in the store after all regular calls, exactly as long as there are no templates. -/
theorem no_dangling_channels_iff (templates : Prop) :
    (∀ descriptors registry log config calls, Registry.empty.registerAll descriptors = .ok (registry, log) →
      (new registry config).Throughout (RegularOrTemplate templates) calls →
      ∀ c, ((new registry config).after calls).Relies c → (((new registry config).after calls).store.channel? c).isSome) ↔ ¬ templates := by
  constructor
  · intro h ht
    obtain ⟨hcalls, -, -, hfreed⟩ := evaluated_visitCalls
    have hcalls := hcalls.mono fun _ _ hc => hc.imp_right fun hc => (⟨hc.1, ht⟩ : _ ∧ templates)
    have := h [] _ _ {} _ rfl hcalls 0 (.inl employed_visitCalls)
    rw [hfreed] at this
    cases this
  · intro ht descriptors registry log config calls hreg hcalls c hc
    have hregular : (new registry config).Throughout Regular calls := hcalls.mono fun _ _ hc => hc.resolve_right fun hc => ht hc.2
    obtain ⟨hend, -⟩ := (maintained_new registry config (Registry.wellNamed_empty.registerAll hreg)).after hregular
    rw [← Store.isSome_wire?]
    exact hend.consistent.tended.wire_of_relies hc

/-- A channel that the output of a node in use holds, and that its outlet publishes, has been freed. -/
theorem freed_while_used :
    (new Registry.empty {}).Throughout (RegularOrTemplate True) (lenderCalls ++ .pull 2 :: visitCalls) ∧
      ((new Registry.empty {}).after (lenderCalls ++ .pull 2 :: visitCalls)).finalChannels 0 .empty = [("x", 0)] ∧
      ((new Registry.empty {}).after (lenderCalls ++ .pull 2 :: visitCalls)).Employed 0 ∧
      ((new Registry.empty {}).after (lenderCalls ++ .pull 2 :: visitCalls)).store.channel? 0 = none :=
  ⟨evaluated_visitCalls.1, evaluated_visitCalls.2.2.1, employed_visitCalls, evaluated_visitCalls.2.2.2⟩

/-- A node `2` has a `y` under key `1` and a `z`, over a node that exposes another `z` as `y`; a node `5` over it has it as its template too.
The request `2` of node `2` is pulled. -/
def renamedBelowCalls : List Call :=
  [.createData false, .createPayload .int (.ints [1]), .createLeaf, .setName 1 "z", .setData 1 (some 0), .setParam 1 true, .appendChild 0 1,
    .setFilter 0 "keep(\x7by: z\x7d)",
    .createData false, .createPayload .int (.ints [2]), .createLeaf, .setName 3 "y", .setData 3 (some 1), .setKey 3 1, .setParam 3 true,
    .appendChild 2 3, .createPayload .int (.ints [3]), .createLeaf, .setName 4 "z", .setData 4 (some 2), .setParam 4 true, .appendChild 2 4,
    .appendChild 2 0, .createData false, .appendChild 5 2, .setProto 5 (some 2), .createRequest 2 [], .pull 2]

/-- Node `5` is pulled: its template is made for the channels that it made for itself. -/
def secondPullCalls : List Call := [.createRequest 5 [], .pull 6]

theorem evaluated_secondPullCalls :
    (new Registry.empty {}).Throughout (RegularOrTemplate True) (renamedBelowCalls ++ secondPullCalls) ∧
      ((new Registry.empty {}).after renamedBelowCalls).cell? 2 .output "y" "" = some { uses := 1, channel := some 0 } ∧
      ((new Registry.empty {}).after renamedBelowCalls).finalChannels 2 .empty = [("y", 0), ("z", 1)] ∧
      (((new Registry.empty {}).after renamedBelowCalls).store.channel? 0).map (·.slots.map (·.entry)) = some [0, 1] ∧
      (((new Registry.empty {}).after (renamedBelowCalls ++ secondPullCalls)).store.channel? 0).map (·.slots.map (·.entry)) = some [2, 1] := by
  decide +kernel

theorem employed_renamedBelowCalls : ((new Registry.empty {}).after renamedBelowCalls).Employed 0 :=
  ⟨2, .output, "y", "", _, evaluated_secondPullCalls.2.1, Nat.one_pos, rfl⟩

/-- A channel that a cell in use holds is as it was after all regular calls that leave it there, exactly as long as there are no
templates. -/
theorem employed_channels_immutable_iff (templates : Prop) :
    (∀ descriptors registry log config calls later, Registry.empty.registerAll descriptors = .ok (registry, log) →
      (new registry config).Throughout (RegularOrTemplate templates) (calls ++ later) →
      ∀ c ch ch', ((new registry config).after calls).Employed c → ((new registry config).after calls).store.channel? c = some ch →
        ((new registry config).after (calls ++ later)).store.channel? c = some ch' → ch'.owner = ch.owner ∧ ch'.slots = ch.slots) ↔
      ¬ templates := by
  constructor
  · intro h ht
    obtain ⟨hcalls, -, -, hbefore, hafter⟩ := evaluated_secondPullCalls
    have hcalls := hcalls.mono fun _ _ hc => hc.imp_right fun hc => (⟨hc.1, ht⟩ : _ ∧ templates)
    obtain ⟨ch, hch, hslots⟩ := Option.map_eq_some_iff.1 hbefore
    obtain ⟨ch', hch', hslots'⟩ := Option.map_eq_some_iff.1 hafter
    obtain ⟨-, hsame⟩ := h [] _ _ {} _ _ rfl hcalls 0 ch ch' employed_renamedBelowCalls hch hch'
    rw [hsame, hslots] at hslots'
    cases hslots'
  · intro ht descriptors registry log config calls later hreg hcalls c ch ch' _ hch hch'
    have hregular : (new registry config).Throughout Regular (calls ++ later) := hcalls.mono fun _ _ hc => hc.resolve_right fun hc => ht hc.2
    rw [throughout_append] at hregular
    obtain ⟨hend, -⟩ := (maintained_new registry config (Registry.wellNamed_empty.registerAll hreg)).after hregular.1
    have hlasts := hend.lasts_after hregular.2
    rw [after_append] at hch'
    have hw : ((new registry config).after calls).store.wire? c = some (ch.owner, ch.slots) := congrArg _ hch
    have hw' : (((new registry config).after calls).after later).store.wire? c = some (ch'.owner, ch'.slots) := congrArg _ hch'
    exact Prod.mk.inj (hlasts.wire_eq hw hw')

/-- The output of a node is in use and holds a channel; the pull of another node puts another entry on it. -/
theorem written_while_used :
    (new Registry.empty {}).Throughout (RegularOrTemplate True) (renamedBelowCalls ++ secondPullCalls) ∧
      ((new Registry.empty {}).after renamedBelowCalls).finalChannels 2 .empty = [("y", 0), ("z", 1)] ∧
      ((new Registry.empty {}).after renamedBelowCalls).Employed 0 ∧
      (((new Registry.empty {}).after renamedBelowCalls).store.channel? 0).map (·.slots.map (·.entry)) = some [0, 1] ∧
      (((new Registry.empty {}).after (renamedBelowCalls ++ secondPullCalls)).store.channel? 0).map (·.slots.map (·.entry)) = some [2, 1] :=
  ⟨evaluated_secondPullCalls.1, evaluated_secondPullCalls.2.2.1, employed_renamedBelowCalls, evaluated_secondPullCalls.2.2.2⟩

end Graph

end Dataflow
