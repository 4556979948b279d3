import Dataflow.Proofs.Calm
import Dataflow.Proofs.Outcome

/-!
# Current graphs: what processes have computed

A process that ran holds what its operator makes of what its inputs hold now, and what it reads has been run. Processes run in the order
of a schedule, each after those that it reads from, so running keeps a graph current.
-/

namespace Dataflow

/-! ## Reading -/

/-- Two readings give related entries, or the same weight. -/
inductive Reading.Rel (R : EntryId → EntryId → Prop) : Reading Float32 → Reading Float32 → Prop where
  | entry {e e' : EntryId} (h : R e e') : Rel R (.entry e) (.entry e')
  | weight (w : Float32) : Rel R (.weight w) (.weight w)

/-- The slots have the same key and related entries. -/
structure Slot.Rel (R : EntryId → EntryId → Prop) (x y : Slot Float32) : Prop where
  key : y.key = x.key
  entry : R x.entry y.entry

theorem forall₂_getElem? {α β : Type} {R : α → β → Prop} {l : List α} {l' : List β} (h : List.Forall₂ R l l') (i : Nat) :
    Option.Rel R l[i]? l'[i]? := by
  induction h generalizing i with
  | nil => exact .none
  | cons hab _ ih =>
    cases i with
    | zero => exact .some hab
    | succ i => exact ih i

theorem Option.Rel.map_map {α β γ δ : Type} {R : α → β → Prop} {S : γ → δ → Prop} {f : α → γ} {f' : β → δ} {o : Option α} {o' : Option β}
    (h : Option.Rel R o o') (hf : ∀ a b, R a b → S (f a) (f' b)) : Option.Rel S (o.map f) (o'.map f') := by
  cases h with
  | none => exact .none
  | some h => exact .some (hf _ _ h)

namespace Sequence

variable {R : EntryId → EntryId → Prop} {l l' : List (Slot Float32)}

theorem keys_eq (h : List.Forall₂ (Slot.Rel R) l l') : l'.map (·.key) = l.map (·.key) := by
  induction h with
  | nil => rfl
  | cons hab _ ih => rw [List.map_cons, List.map_cons, hab.key, ih]

theorem seek_eq (ε key : Float32) (h : List.Forall₂ (Slot.Rel R) l l') : seek ε key l' = seek ε key l := by
  have hk : ∀ k : List (Slot Float32), seek ε key k = (k.map (·.key)).findIdx fun a => KeyArith.le (KeyArith.sub key ε) a := fun k => by
    rw [seek, List.findIdx_map]
    rfl
  rw [hk, hk, keys_eq h]

theorem weightAt_eq (key : Float32) (h : List.Forall₂ (Slot.Rel R) l l') (i : Nat) : weightAt key l' i = weightAt key l i := by
  have ha := forall₂_getElem? h (i - 1)
  have hb := forall₂_getElem? h i
  rw [weightAt, weightAt]
  generalize l[i - 1]? = a at ha ⊢
  generalize l'[i - 1]? = a' at ha ⊢
  generalize l[i]? = b at hb ⊢
  generalize l'[i]? = b' at hb ⊢
  cases ha with
  | none => cases hb <;> rfl
  | some ha =>
    cases hb with
    | none => rfl
    | some hb =>
      dsimp only
      rw [ha.key, hb.key]

/-- Reading looks at keys alone. -/
theorem read_rel (ε key : Float32) (access : Access) (h : List.Forall₂ (Slot.Rel R) l l') :
    Option.Rel (Reading.Rel R) (read ε access key l) (read ε access key l') := by
  have hlen := h.length_eq
  have hat : ∀ i : Nat, Option.Rel (Reading.Rel R) ((l[i]?).map fun y => .entry y.entry) ((l'[i]?).map fun y => .entry y.entry) := fun i =>
    Option.Rel.map_map (forall₂_getElem? h i) fun _ _ hab => .entry hab.entry
  cases access with
  | first =>
    cases h with
    | nil => exact .none
    | cons hab _ => exact .some (.entry hab.entry)
  | floor =>
    simp only [read, seek_eq ε key h]
    exact hat _
  | ceiling =>
    simp only [read, seek_eq ε key h, ← hlen]
    exact hat _
  | weight =>
    simp only [read, seek_eq ε key h, weightAt_eq key h]
    cases h with
    | nil => exact .none
    | cons _ _ => exact .some (.weight _)

end Sequence

namespace Graph

variable {hands : List InstanceId} {g g' g'' : Graph} {id : ProcessId} {p p' : Process}

/-! ## Views -/

/-- The entries hold the same, and none is written by the process that looks. -/
def SameView (g g' : Graph) (p p' : Process) (e e' : EntryId) : Prop :=
  (g'.entryAt? e').map (·.payload) = (g.entryAt? e).map (·.payload) ∧ e ∉ p.outputs.map (·.2) ∧ e' ∉ p'.outputs.map (·.2)

/-- Two processes of one operator see the same where their inputs hold the same. -/
theorem viewsOf_eq (hop : p'.operator = p.operator) (htol : g'.store.tolerance = g.store.tolerance)
    (hin : List.Forall₂ (Option.Rel fun c c' => List.Forall₂ (Slot.Rel (g.SameView g' p p')) (g.store.slots c) (g'.store.slots c'))
      p.inputs p'.inputs) : g'.viewsOf p' = g.viewsOf p := by
  have hat : ∀ k : Nat, Option.Rel (fun c c' => List.Forall₂ (Slot.Rel (g.SameView g' p p')) (g.store.slots c) (g'.store.slots c'))
      (p.inputs[k]?).join (p'.inputs[k]?).join := by
    intro k
    have := forall₂_getElem? hin k
    generalize p.inputs[k]? = a at this
    generalize p'.inputs[k]? = b at this
    cases this with
    | none => exact .none
    | some h => exact h
  have hkey : ∀ arg, g'.keyOf p' arg = g.keyOf p arg := by
    intro arg
    have hfirst : ∀ k : Nat, (((p'.inputs[k]?).join).bind g'.store.first?).bind (·.payload.floatScalars.head?) =
        (((p.inputs[k]?).join).bind g.store.first?).bind (·.payload.floatScalars.head?) := by
      intro k
      have := hat k
      generalize (p.inputs[k]?).join = a at this
      generalize (p'.inputs[k]?).join = b at this
      cases this with
      | none => rfl
      | @some c c' h =>
        rw [Option.bind_some, Option.bind_some, Store.first?, Store.first?, Store.firstId?, Store.firstId?]
        generalize g.store.slots c = l at h
        generalize g'.store.slots c' = l' at h
        cases h with
        | nil => rfl
        | @cons y y' ys ys' hxy _ =>
          have he := hxy.entry.1
          rw [entryAt?, entryAt?] at he
          have key : ∀ o o' : Option Entry, o'.map (·.payload) = o.map (·.payload) →
              o'.bind (·.payload.floatScalars.head?) = o.bind (·.payload.floatScalars.head?) := by
            rintro (_ | e) (_ | e') he <;> simp_all
          exact key _ _ he
    rw [keyOf, keyOf]
    cases arg.key with
    | none => rfl
    | some k => exact congrArg (fun o : Option Float32 => o.getD 0) (hfirst k)
  rw [viewsOf, viewsOf, hop]
  refine List.map_congr_left fun arg _ => ?_
  rw [argView, argView, hkey]
  have := hat arg.param
  generalize (p.inputs[arg.param]?).join = a at this
  generalize (p'.inputs[arg.param]?).join = b at this
  cases this with
  | none => rfl
  | @some c c' h =>
    rw [Option.bind_some, Option.bind_some, Store.read, Store.read, htol]
    have hread := Sequence.read_rel g.store.tolerance (g.keyOf p arg) arg.access h
    generalize Sequence.read g.store.tolerance arg.access (g.keyOf p arg) (g.store.slots c) = r at hread
    generalize Sequence.read g.store.tolerance arg.access (g.keyOf p arg) (g'.store.slots c') = r' at hread
    cases hread with
    | none => rfl
    | some hr =>
      cases hr with
      | entry hv =>
        obtain ⟨hv, hn, hn'⟩ := hv
        simp only [List.contains_eq_mem, hn, hn', decide_false, Bool.false_eq_true, if_false]
        exact hv
      | weight w => rfl

/-! ## Currency -/

/-- What the outputs of a process hold is what its operator makes of what the process sees. -/
def Holds (g : Graph) (p : Process) : Prop :=
  ∃ olds, p.operator.Fits olds ∧ p.operator.outcome (g.viewsOf p) olds = .ok (g.outputPayloads p)

/-- What processes have computed is current, and so are the plans that are kept and the results of outlets that are ready. -/
structure Current (g : Graph) : Prop where
  settled : ∀ (id : ProcessId) (p : Process), g.processes[id]? = some p → p.state ≠ .unprocessed →
    ∀ j ∈ p.children, ∀ q : Process, g.processes[j]? = some q → q.state ≠ .unprocessed
  computed : ∀ (id : ProcessId) (p : Process), g.processes[id]? = some p → p.state = .processed → g.Holds p
  planned : g.Planned
  published : ∀ (id : OutletId) (o : Outlet), g.outlets[id]? = some o → o.status = .ready → o.result.outputs = g.published o.channels

/-- What a process sees is the same. -/
structure SameSight (g g' : Graph) (p : Process) : Prop where
  slots : ∀ c, some c ∈ p.inputs → g'.store.slots c = g.store.slots c
  seen : ∀ c, some c ∈ p.inputs → ∀ y ∈ g.store.slots c, y.entry ∉ p.outputs.map (·.2) ∧ g'.entryAt? y.entry = g.entryAt? y.entry

theorem forall₂_self {α : Type} {R : α → α → Prop} : ∀ {l : List α}, (∀ a ∈ l, R a a) → List.Forall₂ R l l
  | [], _ => .nil
  | a :: _, h => .cons (h a (List.mem_cons_self ..)) (forall₂_self fun b hb => h b (List.mem_cons_of_mem _ hb))

theorem SameSight.viewsOf (h : g.SameSight g' p) (htol : g'.store.tolerance = g.store.tolerance) : g'.viewsOf p = g.viewsOf p := by
  refine viewsOf_eq rfl htol (forall₂_self fun o ho => ?_)
  rcases o with _ | c
  · exact .none
  · refine .some ?_
    rw [h.slots c ho]
    refine forall₂_self fun y hy => ⟨rfl, ?_⟩
    obtain ⟨hn, he⟩ := h.seen c ho y hy
    exact ⟨by rw [he], hn, hn⟩

theorem SameSight.holds (h : g.SameSight g' p) (htol : g'.store.tolerance = g.store.tolerance)
    (hwrote : ∀ e ∈ p.outputs.map (·.2), g'.entryAt? e = g.entryAt? e) (hp : g.Holds p) : g'.Holds p := by
  obtain ⟨olds, hfit, ho⟩ := hp
  refine ⟨olds, hfit, ?_⟩
  rw [h.viewsOf htol, ho, outputPayloads, outputPayloads]
  congr 1
  exact List.filterMap_congr fun e he =>
    congrArg (fun o : Option Entry => o.map (·.payload)) (hwrote e.2 (List.mem_map.2 ⟨e, he, rfl⟩)).symm

/-- A process does not see what it writes. -/
theorem SoundBut.not_written (h : SoundBut (fun _ => False) hands g) (hp : g.processes[id]? = some p) {c : ChannelId}
    (hc : some c ∈ p.inputs) {y : Slot Float32} (hy : y ∈ g.store.slots c) : y.entry ∉ p.outputs.map (·.2) := by
  obtain ⟨-, -, hall⟩ := h.reads hp not_false hc
  obtain ⟨⟨-, hg⟩, hch⟩ := hall y hy
  rcases hcr : y.creator with _ | j <;> rw [hcr] at hg
  · exact hg id p hp
  · obtain ⟨q, hq, hm⟩ := hg
    have hpa := h.process id p hp not_false
    obtain ⟨hlt, -⟩ := hpa.children j (hch j hcr)
    exact fun hn => hpa.apart j q hq (Nat.ne_of_lt hlt) _ hn hm

/-- What the outputs of a process hold is of the classes of its operator. -/
theorem SoundBut.fits (h : SoundBut (fun _ => False) hands g) (hp : g.processes[id]? = some p) :
    p.operator.Fits (g.outputPayloads p) ∧ ∀ o ∈ p.outputs, (g.store.entryAt? o.2).isSome := by
  have htypes := (h.process id p hp not_false).types
  have hlive : ∀ o ∈ p.outputs, ∃ t, g.store.typeAt? o.2 = some t := by
    intro o ho
    have : g.store.typeAt? o.2 ∈ p.operator.outputs.map fun o => some o.type := htypes ▸ List.mem_map.2 ⟨o, ho, rfl⟩
    obtain ⟨d, -, hd⟩ := List.mem_map.1 this
    exact ⟨d.type, hd.symm⟩
  refine ⟨?_, fun o ho => ?_⟩
  · have key : ∀ outs : List (String × EntryId), (∀ o ∈ outs, ∃ t, g.store.typeAt? o.2 = some t) →
        ((outs.filterMap fun o => (g.entryAt? o.2).map (·.payload)).map (·.storage)).map some =
          (outs.map fun o => g.store.typeAt? o.2).map fun t => t.map (·.storage) := by
      intro outs
      induction outs with
      | nil => exact fun _ => rfl
      | cons o outs ih =>
        intro hall
        obtain ⟨t, ht⟩ := hall o (List.mem_cons_self ..)
        obtain ⟨e, he, rfl⟩ := Option.map_eq_some_iff.1 ht
        have hent : g.entryAt? o.2 = some e := he
        rw [List.filterMap_cons, hent, Option.map_some, List.map_cons, List.map_cons, List.map_cons, List.map_cons,
          ih fun o ho => hall o (List.mem_cons_of_mem _ ho), Store.typeAt?, he, Option.map_some, Option.map_some, e.storage_eq]
    have hinj : Function.Injective (List.map (some : Storage → Option Storage)) := List.map_injective_iff.2 (Option.some_injective _)
    refine hinj ((key p.outputs hlive).trans ?_)
    rw [htypes, List.map_map, List.map_map]
    rfl
  · obtain ⟨t, ht⟩ := hlive o ho
    obtain ⟨e, he, -⟩ := Option.map_eq_some_iff.1 ht
    rw [he]
    rfl

theorem published_congr {channels : NameMap ChannelId}
    (h : ∀ (x : String) (c : ChannelId), channels[x]? = some c → g'.store.slots c = g.store.slots c) :
    g'.published channels = g.published channels := by
  rw [Graph.published, Graph.published]
  refine Std.ExtTreeMap.ext_getElem? fun x => ?_
  rw [Std.ExtTreeMap.getElem?_filterMap', Std.ExtTreeMap.getElem?_filterMap']
  rcases hx : channels[x]? with _ | c
  · rfl
  · rw [Option.bind_some, Option.bind_some, Store.firstId?, Store.firstId?, h x c hx]

/-- A graph stays current when the processes that ran, what they see and what they wrote are as they were, and ready outlets show the
same. -/
theorem Current.carry (h : g.Current) (hs : SoundBut (fun _ => False) hands g) (hplans : g'.plans = g.plans)
    (hreg : g'.registry = g.registry) (htol : g'.store.tolerance = g.store.tolerance)
    (hproc : ∀ (id : ProcessId) (p : Process), g'.processes[id]? = some p → p.state = .unprocessed ∨
      ∃ u, g.processes[id]? = some { p with uses := u } ∧ g.SameSight g' p ∧ ∀ e ∈ p.outputs.map (·.2), g'.entryAt? e = g.entryAt? e)
    (hstate : ∀ (id : ProcessId) (p p' : Process), g.processes[id]? = some p → g'.processes[id]? = some p' → p'.state = p.state)
    (hout : ∀ (id : OutletId) (o' : Outlet), g'.outlets[id]? = some o' → o'.status = .ready →
      ∃ o : Outlet, g.outlets[id]? = some o ∧ o.status = .ready ∧ o'.result.outputs = o.result.outputs ∧ o'.channels = o.channels ∧
        ∀ (x : String) (c : ChannelId), o.channels[x]? = some c → g'.store.slots c = g.store.slots c) : g'.Current := by
  refine ⟨fun id p hp hst j hj q hq => ?_, fun id p hp hst => ?_, ?_, fun id o' ho' hst => ?_⟩
  · rcases hproc id p hp with hn | ⟨u, hu, -, -⟩
    · exact absurd hn hst
    · obtain ⟨-, hsome⟩ := (hs.process id _ hu not_false).children j hj
      obtain ⟨q', hq'⟩ := Option.isSome_iff_exists.1 hsome
      rw [hstate j q' q hq' hq]
      exact h.settled id _ hu hst j hj q' hq'
  · rcases hproc id p hp with hn | ⟨u, hu, hsight, hwrote⟩
    · rw [hn] at hst
      cases hst
    · exact hsight.holds htol hwrote (h.computed id { p with uses := u } hu hst)
  · rw [Planned, hplans, hreg]
    exact h.planned
  · obtain ⟨o, ho, hr, hres, hch, hsl⟩ := hout id o' ho' hst
    rw [hres, hch, h.published id o ho hr, published_congr hsl]

end Graph

end Dataflow
