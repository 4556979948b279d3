import Dataflow.Proofs.Counts
import Dataflow.Proofs.Heard

/-!
# Subscriptions mirror usage

As long as leaves are bound to entries that exist and substitutions to channels that exist, the two indexes of the store are exact: an
entry lists the channels that hold it, once for every slot, and a channel lists the processes and the outlets that have it, each once.
-/

namespace Dataflow

namespace Call

/-- The leaf and the entry that a call binds it to. -/
def binding : Call → Option (NodeId × EntryId)
  | .setData n (some e) => some (n, e)
  | _ => none

/-- The channels of the substitution that an instance is acquired under. -/
def substituted : Call → List ChannelId
  | .acquireInstance _ s => s.bindings.values
  | _ => []

end Call

namespace Graph

variable {exact : Prop} {a : Account} {g : Graph} {c : Call}

/-- The entry that a call binds a leaf to is there. -/
def BindsEntry (g : Graph) (c : Call) : Prop := ∀ b ∈ c.binding, (g.leaf? b.1).isSome → (g.entryAt? b.2).isSome

/-- The channels that a call substitutes are there. -/
def BindsChannels (g : Graph) (c : Call) : Prop := ∀ b ∈ c.substituted, (g.store.channel? b).isSome

/-- What a call binds is there: the entry of a leaf, and the channels of a substitution. -/
def Supplies (g : Graph) (c : Call) : Prop := g.BindsEntry c ∧ g.BindsChannels c

instance (g : Graph) (c : Call) : Decidable (g.BindsEntry c) := inferInstanceAs (Decidable (∀ b ∈ c.binding, _ → _))

instance (g : Graph) (c : Call) : Decidable (g.BindsChannels c) := inferInstanceAs (Decidable (∀ b ∈ c.substituted, _))

instance (g : Graph) (c : Call) : Decidable (g.Supplies c) := inferInstanceAs (Decidable (_ ∧ _))

/-- Every one of some calls is so when it is made. -/
def Throughout (P : Graph → Call → Prop) (g : Graph) : List Call → Prop
  | [] => True
  | c :: calls => P g c ∧ (g.step c).Throughout P calls

instance decidableThroughout (P : Graph → Call → Prop) [∀ g c, Decidable (P g c)] (g : Graph) : (calls : List Call) → Decidable (g.Throughout P calls)
  | [] => inferInstanceAs (Decidable True)
  | c :: calls =>
    have := decidableThroughout P (g.step c) calls
    inferInstanceAs (Decidable (_ ∧ _))

/-- Between calls that bind leaves to entries that are there: the graph is in order, and entries know the channels that hold them; and if
they substitute channels that are there, channels know who has them. -/
structure Attended (exact : Prop) (a : Account) (g : Graph) : Prop where
  orderly : Orderly a g
  stored : Stored True .createLeaf a.work g
  drawn : exact → Drawn .createLeaf a.work g
  heard : Heard exact g

/-- Between calls there are no jobs. -/
theorem Drawn.of_call {a a' : Account} {κ κ' : Call} (h : Drawn κ a.work g)
    (hb : ∀ n s x b, κ' = .acquireInstance n s → s.get? x = some b → b < g.store.channels.next) : Drawn κ' a'.work g :=
  ⟨h.cells, fun _ hJ => absurd hJ List.not_mem_nil, hb⟩

theorem heard_new (registry : Registry) (config : Config) (exact : Prop) : Heard exact (new registry config) := by
  have htuned : ∀ l c, ¬ (new registry config).Tuned l c := by
    rintro (p | id) c ⟨x, hx, -⟩
    · exact Option.some_ne_none _ (hx.symm.trans Std.ExtTreeMap.getElem?_empty)
    · exact Option.some_ne_none _ (hx.symm.trans Std.ExtTreeMap.getElem?_empty)
  have hlisten : ∀ c, (new registry config).store.listenersOf c = [] := fun c => by
    rw [Store.listenersOf, Store.channel?, show (new registry config).store.channels.get? c = none from Std.ExtTreeMap.getElem?_empty]
    rfl
  refine ⟨fun _ l c hc => absurd hc (htuned l c), fun c l hl => ?_, fun _ c _ l hl => absurd hl (htuned l c), fun c => ?_⟩
  · rw [hlisten] at hl
    cases hl
  · rw [hlisten]
    exact List.nodup_nil

theorem attended_new (registry : Registry) (config : Config) (exact : Prop) : Attended exact {} (new registry config) := by
  have hcell : ∀ n port x k, (new registry config).cell? n port x k = none := fun n port x k => by
    rw [cell?, wiring?_new]
    rfl
  refine ⟨orderly_new registry config, stored_new registry config True,
    fun _ => ⟨fun n port x k cell hc => ?_, fun _ hJ => absurd hJ List.not_mem_nil, fun _ _ _ _ hb => (by cases hb)⟩, heard_new registry config exact⟩
  rw [hcell] at hc
  cases hc

/-- What holds before a call whose bindings were handed out holds after it. -/
theorem Attended.moves (h : Attended exact a g) (hentry : ∀ n e, c = .setData n (some e) → e < g.store.entries.next)
    (hchannel : exact → ∀ n s x b, c = .acquireInstance n s → s.get? x = some b → b < g.store.channels.next) :
    ∃ a', Attended exact a' (g.step c) := by
  have hl := h.orderly.lend c.released.toList
  have hm := moves_step (κ := c) hl.authored (hl.posted.homed rfl) { a with hands := c.released.toList } fun id he => by
    subst he
    exact List.mem_singleton_self id
  have hlent : Stored True .createLeaf { a with hands := c.released.toList }.work g := h.stored.same rfl rfl rfl fun _ _ hx => hx
  have hstored : Stored True c { a with hands := c.released.toList }.work g := hlent.of_call fun _ => hentry
  have hdrawn : exact → Drawn c { a with hands := c.released.toList }.work g := fun hx => (h.drawn hx).of_call (hchannel hx)
  obtain ⟨h₁, h₂, h₃, h₄, h₅⟩ := hm.keeps (I := fun τ g => Tidy τ g ∧ Posted τ g ∧ Stored True c τ g ∧ (exact → Drawn c τ g) ∧ Heard exact g)
    (fun τ g τ' g' m ⟨h₁, h₂, h₃, h₄, h₅⟩ => ⟨tidy_move m h₁, posted_move m h₂, stored_move m h₁ h₃, fun hx => drawn_move m h₁ (h₄ hx),
      heard_move m h₁ h₂ h₄ h₅⟩)
    ⟨hl.tidy, hl.posted, hstored, hdrawn, h.heard⟩
  exact ⟨_, ⟨authored_step h.orderly.authored c, h₁, h₂⟩, h₃.of_call nofun, fun hx => (h₄ hx).of_call nofun, h₅⟩

/-- A call that binds only what is there keeps the indexes exact. -/
theorem Attended.step (h : Attended exact a g) (he : g.BindsEntry c) (hc : exact → g.BindsChannels c) : ∃ a', Attended exact a' (g.step c) := by
  by_cases hnoleaf : ∃ n e, c = .setData n (some e) ∧ g.leaf? n = none
  · obtain ⟨n, e, rfl, hn⟩ := hnoleaf
    -- the call is refused
    have hstep : g.step (.setData n (some e)) = g.settled := by
      have hleaf : g.settled.leaf? n = none := hn
      rw [Graph.step, perform, setData, updateLeaf, hleaf]
      rfl
    rw [hstep]
    have hm : Move .createLeaf a.work g a.work g.settled := .restate (restated_aside g {})
    exact ⟨a, ⟨{ h.orderly.authored with }, tidy_move hm h.orderly.tidy, posted_move hm h.orderly.posted⟩,
      stored_move hm h.orderly.tidy h.stored, fun hx => drawn_move hm h.orderly.tidy (h.drawn hx),
      heard_move hm h.orderly.tidy h.orderly.posted h.drawn h.heard⟩
  · refine h.moves (fun n e hκ => ?_) fun hx n s x b hκ hb => ?_
    · subst hκ
      rcases hl : g.leaf? n with _ | l
      · exact absurd ⟨n, e, rfl, hl⟩ hnoleaf
      · exact Store.lt_next_of_isSome (he (n, e) rfl (by rw [hl]; rfl))
    · subst hκ
      have hb := hc hx b (Table.mem_values.2 ⟨x, hb⟩)
      rw [← Store.isSome_wire?] at hb
      obtain ⟨w, hw⟩ := Option.isSome_iff_exists.1 hb
      exact Store.lt_next_of_wire? hw

/-- Calls that bind only what is there keep the indexes exact. -/
theorem Attended.after (h : Attended exact a g) {P : Graph → Call → Prop} (he : ∀ g c, P g c → g.BindsEntry c)
    (hc : exact → ∀ g c, P g c → g.BindsChannels c) {calls : List Call} (hP : g.Throughout P calls) :
    ∃ a', Attended exact a' (g.after calls) := by
  induction calls generalizing a g with
  | nil => exact ⟨a, h⟩
  | cons c calls ih =>
    obtain ⟨a', h'⟩ := h.step (he g c hP.1) fun hx => hc hx g c hP.1
    exact ih h' hP.2

/-- The indexes are exact: entries list the channels that hold them, once for every slot, and channels list the live processes that have
them among their inputs and the live outlets that have them among what they publish, each once. -/
structure Subscribed (g : Graph) : Prop where
  watchers : ∀ (e : EntryId) (c : ChannelId) (x : Entry) (ch : Channel), g.store.entryAt? e = some x → g.store.channel? c = some ch →
    (g.store.watchers e).count c = ch.slots.countP (·.entry = e)
  processes : ∀ (c : ChannelId) (ch : Channel), g.store.channel? c = some ch → ∀ p : ProcessId,
    .process p ∈ ch.listeners ↔ ∃ q : Process, g.processes[p]? = some q ∧ some c ∈ q.inputs
  outlets : ∀ (c : ChannelId) (ch : Channel), g.store.channel? c = some ch → ∀ id : OutletId,
    .outlet id ∈ ch.listeners ↔ ∃ o : Outlet, g.outlets[id]? = some o ∧ c ∈ o.channels.values
  once : ∀ (c : ChannelId) (ch : Channel), g.store.channel? c = some ch → ch.listeners.Nodup

theorem Attended.subscribed (h : Attended True a g) : g.Subscribed := by
  have hheard : ∀ {c : ChannelId}, (g.store.wire? c).isSome → ∀ l, l ∈ g.store.listenersOf c ↔ g.Tuned l c := fun {c} hc l =>
    ⟨h.heard.tuned c l, h.heard.heard trivial c hc l⟩
  have hlist : ∀ {c : ChannelId} {ch : Channel}, g.store.channel? c = some ch → g.store.listenersOf c = ch.listeners := by
    intro c ch hc
    rw [Store.listenersOf, hc]
    rfl
  have hlive : ∀ {c : ChannelId} {ch : Channel}, g.store.channel? c = some ch → (g.store.wire? c).isSome := by
    intro c ch hc
    rw [Store.isSome_wire?, hc]
    rfl
  refine ⟨fun e c x ch he hc => ?_, fun c ch hc p => ?_, fun c ch hc id => ?_, fun c ch hc => ?_⟩
  · have hw := (h.stored.mirrored trivial).watchers e (by rw [he]; rfl) c
    rwa [Store.slots, hc] at hw
  · exact hlist hc ▸ hheard (hlive hc) (.process p)
  · exact hlist hc ▸ hheard (hlive hc) (.outlet id)
  · exact hlist hc ▸ h.heard.once c

/-- After any calls of which leaves were bound to entries and substitutions to channels that were there, subscriptions mirror usage. -/
theorem subscriptions_mirror_usage (registry : Registry) (config : Config) (calls : List Call)
    (h : (new registry config).Throughout Supplies calls) : ((new registry config).after calls).Subscribed := by
  obtain ⟨a, ha⟩ := (attended_new registry config True).after (fun _ _ hc => hc.1) (fun _ _ _ hc => hc.2) h
  exact ha.subscribed

/-- A leaf with an entry feeds a node that computes; that one is acquired as it is and under the leaf's own channel, asked for and pulled. -/
def subscribingCalls : List Call :=
  [.createPayload .float (.floats [1]), .createLeaf, .setName 0 "x", .setParam 0 true, .setData 0 (some 0), .createData false,
    .setCompute 1 "y = keep(x)", .appendChild 1 0, .acquireInstance 1 .empty, .acquireInstance 1 (.ofList [("x", 0)]), .createRequest 1 [],
    .pull 6]

/-- Both processes and the outlet listen to the leaf's channel, the outlet alone to that of one computed value, and nobody to the other's;
and these are the subscriptions that mirror usage. -/
theorem subscriptions_mirror_usage_subscribing :
    ((new ⟨(∅ : NameMap Operator).insert "keep" keepOperator⟩ {}).after subscribingCalls).store.channels.items.toList.map
        (fun e => (e.1, e.2.listeners)) = [(0, [.process 2, .process 4, .outlet 5]), (1, [.outlet 5]), (2, [])] ∧
    (((new ⟨(∅ : NameMap Operator).insert "keep" keepOperator⟩ {}).after subscribingCalls).store.watchers 0,
      ((new ⟨(∅ : NameMap Operator).insert "keep" keepOperator⟩ {}).after subscribingCalls).store.watchers 1) = ([0], [1]) ∧
    (new ⟨(∅ : NameMap Operator).insert "keep" keepOperator⟩ {}).Throughout Supplies subscribingCalls ∧
    ((new ⟨(∅ : NameMap Operator).insert "keep" keepOperator⟩ {}).after subscribingCalls).Subscribed := by
  have hsupplied : (new ⟨(∅ : NameMap Operator).insert "keep" keepOperator⟩ {}).Throughout Supplies subscribingCalls := by decide +kernel
  exact ⟨by decide +kernel, by decide +kernel, hsupplied, subscriptions_mirror_usage _ _ _ hsupplied⟩

end Graph

end Dataflow
