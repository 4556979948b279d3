import Dataflow.Proofs.Covered
import Dataflow.Proofs.Posted

/-!
# Entries, their makers and their watchers

An entry is made from outside or for an output of a process, and is freed with its process. Whatever a call does, no channel watches an
entry more often than it shows it. If moreover leaves are bound to entries that exist, every channel that shows an entry watches it: then a
store is mirrored.
-/

namespace Dataflow

namespace Store

variable {s : Store}

theorem later_put (s : Store) (m : MapId) (cur : Option ChannelId) (f : Feed) : Later s (s.put m cur f).1 := by
  rcases cur with _ | cur <;> rcases f with c | x
  · exact .refl s
  · exact later_newChannel ..
  · rw [put]
    split
    · exact .refl s
    · split
      · exact (later_takeOver s m cur).trans (later_addSlots ..)
      · exact later_release ..
  · rw [put]
    split
    · exact (later_takeOver s m cur).trans (later_addSlot ..)
    · exact (later_release ..).trans (later_newChannel ..)

theorem next_pushEmpties (s : Store) (types : List DataType) : (s.pushEmpties types).entries.next = s.entries.next + types.length := by
  induction types generalizing s with
  | nil => rfl
  | cons t types ih => exact (ih _).trans ((Nat.succ_add ..).trans (Nat.add_succ ..).symm)

theorem entryAt?_dropProcess (s : Store) (id : ProcessId) (p : Process) (e : EntryId) :
    (s.dropProcess id p).entryAt? e = if e ∈ p.outputs.map (·.2) then none else s.entryAt? e := by
  rw [dropProcess, entryAt?_freeAll, entryAt?_of_entries_eq (unlistenAll_fields ..).1]

theorem next_dropProcess (s : Store) (id : ProcessId) (p : Process) : (s.dropProcess id p).entries.next = s.entries.next :=
  (freeAll_fields ..).2.2.2.trans (congrArg Arena.next (unlistenAll_fields ..).1)

end Store

theorem Wiring.covered_releases {s : Store} (h : s.Covered) (w : Wiring) (f : ChannelMap → List ChannelId) (ports : List Port) :
    (w.releases f ports s).Covered := by
  induction ports generalizing s with
  | nil => exact h
  | cons port ports ih => exact ih (Store.covered_releaseAll h _ _)

theorem Wiring.mirrored_releases {s : Store} (h : s.Mirrored) (w : Wiring) (f : ChannelMap → List ChannelId) (ports : List Port) :
    (w.releases f ports s).Mirrored := by
  induction ports generalizing s with
  | nil => exact h
  | cons port ports ih => exact ih (Store.mirrored_releaseAll h _ _)

theorem Wiring.releases_fields (w : Wiring) (f : ChannelMap → List ChannelId) (ports : List Port) (s : Store) :
    (∀ e, (w.releases f ports s).entryAt? e = s.entryAt? e) ∧ (w.releases f ports s).entries.next = s.entries.next := by
  induction ports generalizing s with
  | nil => exact ⟨fun _ => rfl, rfl⟩
  | cons port ports ih =>
    obtain ⟨h₁, h₂⟩ := ih (s.releaseAll (w.map port).id (f (w.map port)))
    exact ⟨fun e => (h₁ e).trans (Store.entryAt?_releaseAll ..), h₂.trans (Store.releaseAll_fields ..).2.2.1⟩

/-- The entries that a process writes. -/
def Process.writes (p : Process) : List EntryId := p.outputs.map (·.2)

namespace Graph

variable {κ : Call} {exact : Prop} {τ τ' : Work} {g g' : Graph} {n : NodeId} {e : EntryId}

/-- The entry is written by a live process. -/
def Written (g : Graph) (e : EntryId) : Prop := ∃ (p : ProcessId) (q : Process), g.processes[p]? = some q ∧ e ∈ q.writes

/-- Every entry was made from outside, or belongs to one live process; nobody watches an entry in vain; and in a store that is exact every
channel that shows an entry watches it. -/
structure Stored (exact : Prop) (κ : Call) (τ : Work) (g : Graph) : Prop where
  outputs : ∀ e, g.Written e → (g.store.entryAt? e).isSome
  apart : ∀ (p p' : ProcessId) (q q' : Process), g.processes[p]? = some q → g.processes[p']? = some q' → ∀ e ∈ q.writes, e ∈ q'.writes → p = p'
  made : ∀ e ∈ τ.made, (g.store.entryAt? e).isSome ∧ ¬ g.Written e
  known : ∀ e, (g.store.entryAt? e).isSome → e ∈ τ.made ∨ g.Written e
  covered : g.store.Covered
  mirrored : exact → g.store.Mirrored
  leaves : exact → ∀ n l e, g.leaf? n = some l → l.entry = some e → e < g.store.entries.next
  bound : exact → ∀ n e, κ = .setData n (some e) → e < g.store.entries.next

theorem Store.lt_next_of_isSome {s : Store} (h : (s.entryAt? e).isSome) : e < s.entries.next := by
  obtain ⟨x, hx⟩ := Option.isSome_iff_exists.1 h
  exact Store.lt_next_of_entryAt? hx

theorem written_congr (h : ∀ p : ProcessId, (g'.processes[p]?).map (·.outputs) = (g.processes[p]?).map (·.outputs)) :
    g'.Written e ↔ g.Written e := by
  have key : ∀ {g g' : Graph}, (∀ p : ProcessId, (g'.processes[p]?).map (·.outputs) = (g.processes[p]?).map (·.outputs)) →
      g'.Written e → g.Written e := by
    rintro g g' h ⟨p, q', hq', he⟩
    have hp := h p
    rw [hq', Option.map_some, eq_comm, Option.map_eq_some_iff] at hp
    obtain ⟨q, hq, ho⟩ := hp
    exact ⟨p, q, hq, by rwa [Process.writes, ho]⟩
  exact ⟨key h, key fun p => (h p).symm⟩

/-- Entries and processes stay what they are for each other, and the store keeps its order. -/
theorem Stored.congr (h : Stored exact κ τ g) (hm : τ'.made = τ.made)
    (hp : ∀ p : ProcessId, (g'.processes[p]?).map (·.outputs) = (g.processes[p]?).map (·.outputs))
    (he : ∀ e, (g'.store.entryAt? e).isSome = (g.store.entryAt? e).isSome) (hn : g.store.entries.next ≤ g'.store.entries.next)
    (hc : g'.store.Covered) (hmir : exact → g'.store.Mirrored)
    (hl : exact → ∀ n l e, g'.leaf? n = some l → l.entry = some e → e < g.store.entries.next) : Stored exact κ τ' g' where
  outputs e hw := (he e).trans (h.outputs e ((written_congr hp).1 hw))
  apart p p' q q' hq hq' e hx hx' := by
    have hof : ∀ {p : ProcessId} {q : Process}, g'.processes[p]? = some q → ∃ q₀, g.processes[p]? = some q₀ ∧ q₀.outputs = q.outputs :=
      fun {p q} hq => by
        have := hp p
        rw [hq, Option.map_some, eq_comm, Option.map_eq_some_iff] at this
        exact this
    obtain ⟨q₀, hq₀, ho⟩ := hof hq
    obtain ⟨q₁, hq₁, ho'⟩ := hof hq'
    exact h.apart p p' q₀ q₁ hq₀ hq₁ e (by rwa [Process.writes, ho]) (by rwa [Process.writes, ho'])
  made e hx := by
    obtain ⟨h₁, h₂⟩ := h.made e (hm ▸ hx)
    exact ⟨(he e).trans h₁, fun hw => h₂ ((written_congr hp).1 hw)⟩
  known e hx := by
    rw [he] at hx
    rw [hm, written_congr hp]
    exact h.known e hx
  covered := hc
  mirrored := hmir
  leaves hx n l e hln hle := Nat.lt_of_lt_of_le (hl hx n l e hln hle) hn
  bound hx n e hk := Nat.lt_of_lt_of_le (h.bound hx n e hk) hn

/-- Entries, processes and leaves stay as they are. -/
theorem Stored.same (h : Stored exact κ τ g) (hs : g'.store = g.store) (hp : g'.processes = g.processes) (hm : τ'.made = τ.made)
    (hl : ∀ n l, g'.leaf? n = some l → g.leaf? n = some l) : Stored exact κ τ' g' :=
  h.congr hm (fun p => by rw [hp]) (fun e => by rw [hs]) (Nat.le_of_eq (by rw [hs])) (hs ▸ h.covered) (fun hx => hs ▸ h.mirrored hx)
    fun hx n l e hln hle => h.leaves hx n l e (hl n l hln) hle

/-- A step of the store that concerns neither entries nor processes nor leaves. -/
theorem Stored.rewire (h : Stored exact κ τ g) (hp : g'.processes = g.processes) (hm : τ'.made = τ.made)
    (he : ∀ e, g'.store.entryAt? e = g.store.entryAt? e) (hn : g'.store.entries.next = g.store.entries.next)
    (hc : g'.store.Covered) (hmir : exact → g'.store.Mirrored) (hl : ∀ n, g'.leaf? n = g.leaf? n) : Stored exact κ τ' g' :=
  h.congr hm (fun p => by rw [hp]) (fun e => by rw [he]) (Nat.le_of_eq hn.symm) hc hmir
    fun hx n l e hln hle => h.leaves hx n l e (hl n ▸ hln) hle

/-! ## Merging -/

/-- What every step of the store that a merge may take keeps, merging feeds keeps. -/
theorem store_mergeFeeds {I : Store → Prop} {port : Port} {s : Substitution} {w : Wiring} (hw : g.wiring? n = some w)
    {fs : List (String × Feed)} (ht : ∀ x ∈ fs, x.1 ∈ g.table n port)
    (hput : ∀ st cur, ∀ x ∈ fs, I st → I (st.put (w.map port).id cur x.2).1) (h : I g.store) : I (g.mergeFeeds n port s fs).store := by
  induction fs generalizing g w with
  | nil => exact h
  | cons x fs ih =>
    have hx := ht x (List.mem_cons_self ..)
    have hstep : g.Recached (g.mergeFeed n port s x.1 x.2) ∧ I (g.mergeFeed n port s x.1 x.2).store := by
      rcases hc : g.cell? n port x.1 (g.keyAt n port x.1 s) with _ | c
      · obtain ⟨h₁, h₂, -⟩ := mergeFeed_spec hw hx (c := {}) (by rw [hc]; rfl) rfl x.2
        exact ⟨h₁, h₂ ▸ hput _ _ x (List.mem_cons_self ..) h⟩
      · by_cases hu : c.uses = 0
        · obtain ⟨h₁, h₂, -⟩ := mergeFeed_spec hw hx (c := c) (by rw [hc]; rfl) hu x.2
          exact ⟨h₁, h₂ ▸ hput _ _ x (List.mem_cons_self ..) h⟩
        · rw [mergeFeed_of_used hc hu]
          exact ⟨.refl g, h⟩
    obtain ⟨w', hsame, hw'⟩ := hstep.1.wiring hw
    refine ih hw' (fun x' hx' => ?_) (fun st cur x' hx' hi => ?_) hstep.2
    · rw [hstep.1.table]
      exact ht x' (List.mem_cons_of_mem _ hx')
    · rw [hsame.ids port]
      exact hput st cur x' (List.mem_cons_of_mem _ hx') hi

/-- The slots that are merged at a port hold entries that were made. -/
theorem Stored.born_of_offers (h : Stored exact κ τ g) (hx : exact) {J : Job} {port : Port} {fs : List (String × Feed)} (ho : g.Offers J port fs)
    {x : String} {y : Slot Float32} (hy : (x, .slot y) ∈ fs) : y.entry < g.store.entries.next := by
  cases ho with
  | exposed hr hl =>
    obtain ⟨e, -, he⟩ := List.mem_map.1 hy
    cases he
  | bound hr hl hc => cases List.mem_singleton.1 hy
  | leaf hr hl he =>
    cases List.mem_singleton.1 hy
    exact h.leaves hx _ _ _ hl he
  | extended =>
    rcases List.mem_append.1 hy with hy | hy
    · obtain ⟨e, -, he⟩ := List.mem_map.1 hy
      cases he
    · rcases hJ : J.process with _ | p
      · rw [hJ] at hy
        cases hy
      · rw [hJ, writes] at hy
        rcases hq : g.processes[p]? with _ | q
        · rw [hq] at hy
          cases hy
        · rw [hq] at hy
          obtain ⟨a, ha, he⟩ := List.mem_map.1 hy
          obtain ⟨b, hb, rfl⟩ := List.mem_map.1 ha
          cases he
          exact Store.lt_next_of_isSome (h.outputs b.2 ⟨p, q, hq, List.mem_map.2 ⟨b, hb, rfl⟩⟩)
  | output ht =>
    obtain ⟨e, -, he⟩ := List.mem_map.1 hy
    cases he

theorem Stored.merge (h : Stored exact κ τ g) (hd : Tidy τ g) {J : Job} {jobs : List Job} (hj : τ.jobs = J :: jobs) {port : Port}
    {fs : List (String × Feed)} (ho : g.Offers J port fs) : Stored exact κ τ (g.mergeFeeds J.node port J.sub fs) := by
  have hrec := hd.recached_merge hj ho
  have hJ := hd.staffed.jobs J (hj ▸ List.mem_cons_self ..)
  have hw := hd.staffed.wired hd.framed (by rw [hj]; exact List.cons_ne_nil _ _)
  obtain ⟨w, hwn, -⟩ := id hJ.inSync
  obtain ⟨hlater, hcov, hmir⟩ := store_mergeFeeds (I := fun st => g.store.Later st ∧ st.Covered ∧ (exact → st.Mirrored)) hwn
    (ho.mem_table hd.framed.designed hw hJ hd.staffed.names) (fun st cur x hx ⟨h₁, h₂, h₃⟩ =>
      ⟨h₁.trans (Store.later_put ..), Store.covered_put h₂ _ _ _, fun he => Store.mirrored_put (h₃ he) _ _ fun y hy => by
        rcases x with ⟨x, c | z⟩
        · exact (h₃ he).born c y hy
        · obtain rfl := List.mem_singleton.1 hy
          exact h₁.entries ▸ h.born_of_offers he ho hx⟩)
    ⟨.refl g.store, h.covered, h.mirrored⟩
  have hproc : (g.mergeFeeds J.node port J.sub fs).processes = g.processes := by
    obtain ⟨_, _, _, he⟩ := hrec.rest
    rw [he]
  exact h.rewire hproc rfl hlater.entryAt? hlater.entries hcov hmir hrec.rewired.leaf?

/-! ## Processes -/

theorem mem_writes_newProcess {s : Substitution} {c : Compute} {op : Operator} :
    e ∈ (g.newProcess n s c op).writes ↔ g.store.entries.next ≤ e ∧ e < g.store.entries.next + op.outputs.length := by
  rw [Process.writes, newProcess, newOutputs, map_mapIdx, List.mem_mapIdx]
  constructor
  · rintro ⟨i, hi, rfl⟩
    exact ⟨Nat.le_add_right .., Nat.add_lt_add_left hi _⟩
  · rintro ⟨h₁, h₂⟩
    exact ⟨e - g.store.entries.next, Nat.sub_lt_left_of_lt_add h₁ h₂, Nat.add_sub_cancel' h₁⟩

theorem Stored.recount (h : Stored exact κ τ g) (hm : τ'.made = τ.made) {id : ProcessId} {p : Process} (hp : g.processes[id]? = some p) {u : Nat} :
    Stored exact κ τ' { g with processes := g.processes.insert id { p with uses := u } } := by
  refine h.congr hm (fun a => ?_) (fun _ => rfl) (Nat.le_refl _) h.covered h.mirrored h.leaves
  rw [Table.get_insert]
  split
  · subst a
    rw [hp]
    rfl
  · rfl

/-- A process is made, with an entry for each of its outputs. -/
theorem Stored.withProcess (h : Stored exact κ τ g) (hk : Kept τ g) (hm : τ'.made = τ.made) (s : Substitution) (c : Compute) (op : Operator) :
    Stored exact κ τ' (g.withProcess n s c op) := by
  have hfields := Store.listenAll_fields g.store (.process (g.lastId + 1)) (boundOf (g.inputsOf n s c op))
  have hlisten := Store.covered_listenAll h.covered (.process (g.lastId + 1)) (boundOf (g.inputsOf n s c op))
  have hnext : (g.withProcess n s c op).store.entries.next = g.store.entries.next + op.outputs.length := by
    refine (Store.next_pushEmpties ..).trans ?_
    rw [hfields.1, List.length_map]
  have hentry : ∀ e, ((g.withProcess n s c op).store.entryAt? e).isSome ↔
      (g.store.entryAt? e).isSome ∨ e ∈ (g.newProcess n s c op).writes := fun e => by
    have : (g.withProcess n s c op).store.entryAt? e = _ := Store.entryAt?_pushEmpties ..
    rw [this, hfields.1, mem_writes_newProcess, Store.entryAt?_of_entries_eq hfields.1]
    split
    · rename_i hlt
      exact ⟨.inl, fun hx => hx.resolve_right fun hc => absurd hlt (Nat.not_lt.2 hc.1)⟩
    · rename_i hlt
      rw [Option.isSome_map, List.getElem?_map, Option.isSome_map, Option.isSome_iff_ne_none, ne_eq, List.getElem?_eq_none_iff, Nat.not_le]
      have hle := Nat.not_lt.1 hlt
      exact ⟨fun hx => .inr ⟨hle, Nat.add_comm .. ▸ (Nat.sub_lt_iff_lt_add hle).1 hx⟩,
        fun hx => hx.elim (fun hx => absurd (Store.lt_next_of_isSome hx) hlt) fun hx => Nat.sub_lt_left_of_lt_add hle hx.2⟩
  have hget := processes_withProcess g n s c op
  have hwritten : ∀ e, (g.withProcess n s c op).Written e → g.Written e ∨ e ∈ (g.newProcess n s c op).writes := fun e ⟨p, q, hq, he⟩ => by
    rw [hget] at hq
    split at hq
    · exact .inr (Option.some.inj hq ▸ he)
    · exact .inl ⟨p, q, hq, he⟩
  have hwritten' : ∀ e, g.Written e → (g.withProcess n s c op).Written e := fun e ⟨p, q, hq, he⟩ => by
    have hne : p ≠ g.lastId + 1 := fun hc => Nat.not_succ_le_self _ (hc ▸ hk.processId p q hq)
    exact ⟨p, q, by rw [hget, if_neg hne, hq], he⟩
  have hnew : ∀ e ∈ (g.newProcess n s c op).writes, ¬ (g.store.entryAt? e).isSome := fun e he hx =>
    absurd (Store.lt_next_of_isSome hx) (Nat.not_lt.2 (mem_writes_newProcess.1 he).1)
  refine ⟨fun e hw => ?_, fun p p' q q' hq hq' e hx hx' => ?_, fun e hx => ?_, fun e hx => ?_, Store.covered_pushEmpties hlisten _,
    fun hx => Store.mirrored_pushEmpties (Store.mirrored_listenAll (h.mirrored hx) _ _) _, fun hx m l e hl hle => ?_, fun hx m e he => ?_⟩
  · exact (hentry e).2 ((hwritten e hw).imp_left (h.outputs e))
  · rw [hget] at hq hq'
    split at hq <;> split at hq'
    · exact ‹p = _›.trans (Eq.symm ‹_›)
    · exact absurd (h.outputs e ⟨p', q', hq', hx'⟩) (hnew e (Option.some.inj hq ▸ hx))
    · exact absurd (h.outputs e ⟨p, q, hq, hx⟩) (hnew e (Option.some.inj hq' ▸ hx'))
    · exact h.apart p p' q q' hq hq' e hx hx'
  · obtain ⟨h₁, h₂⟩ := h.made e (hm ▸ hx)
    exact ⟨(hentry e).2 (.inl h₁), fun hw => (hwritten e hw).elim h₂ fun he => hnew e he h₁⟩
  · rw [hm]
    rcases (hentry e).1 hx with hx | hx
    · exact (h.known e hx).imp_right (hwritten' e)
    · refine .inr ⟨g.lastId + 1, _, ?_, hx⟩
      rw [hget, if_pos rfl]
  · rw [hnext]
    exact Nat.lt_of_lt_of_le (h.leaves hx m l e ((operated_withProcess g n s c op).relisted.rewired.leaf? m ▸ hl) hle) (Nat.le_add_right ..)
  · rw [hnext]
    exact Nat.lt_of_lt_of_le (h.bound hx m e he) (Nat.le_add_right ..)

/-- A process goes, and with it the entries of its outputs. -/
theorem Stored.destroyProcess (h : Stored exact κ τ g) (hm : τ'.made = τ.made) (id : ProcessId) : Stored exact κ τ' (g.destroyProcess id) := by
  rcases hp : g.processes[id]? with _ | p
  · rw [Graph.destroyProcess, hp]
    exact h.same rfl rfl hm fun _ _ hl => hl
  · have hget : ∀ a : ProcessId, (g.destroyProcess id).processes[a]? = if a = id then none else g.processes[a]? := fun a => by
      rw [processes_destroyProcess hp, Table.get_erase]
    have hstore : (g.destroyProcess id).store = g.store.dropProcess id p := by rw [destroyProcess_eq hp]; rfl
    have hleaf : ∀ m, (g.destroyProcess id).leaf? m = g.leaf? m := (derives_destroyProcess g id).derived.rewired.leaf?
    generalize g.destroyProcess id = g' at hget hstore hleaf ⊢
    have hnext : g'.store.entries.next = g.store.entries.next := by rw [hstore, Store.next_dropProcess]
    have hentry : ∀ e, g'.store.entryAt? e = if e ∈ p.writes then none else g.store.entryAt? e := fun e => by
      rw [hstore, Store.entryAt?_dropProcess]
      rfl
    have hwritten : ∀ e, g'.Written e → g.Written e ∧ e ∉ p.writes := by
      rintro e ⟨a, q, hq, he⟩
      rw [hget] at hq
      split at hq
      · cases hq
      · exact ⟨⟨a, q, hq, he⟩, fun hep => absurd (h.apart a id q p hq hp e he hep) ‹_›⟩
    refine ⟨fun e hw => ?_, fun a a' q q' hq hq' => ?_, fun e hx => ?_, fun e hx => ?_, hstore ▸ Store.covered_dropProcess h.covered id p,
      fun hx => hstore ▸ Store.mirrored_dropProcess (h.mirrored hx) id p, fun hx m l e hl hle => ?_, fun hx m e he => ?_⟩
    · obtain ⟨h₁, h₂⟩ := hwritten e hw
      rw [hentry, if_neg h₂]
      exact h.outputs e h₁
    · rw [hget] at hq hq'
      split at hq <;> split at hq'
      · cases hq
      · cases hq
      · cases hq'
      · exact h.apart a a' q q' hq hq'
    · obtain ⟨h₁, h₂⟩ := h.made e (hm ▸ hx)
      rw [hentry, if_neg fun hep => h₂ ⟨id, p, hp, hep⟩]
      exact ⟨h₁, fun hw => h₂ (hwritten e hw).1⟩
    · rw [hentry] at hx
      split at hx
      · cases hx
      · rename_i hep
        rw [hm]
        refine (h.known e hx).imp_right ?_
        rintro ⟨a, q, hq, he⟩
        refine ⟨a, q, ?_, he⟩
        rw [hget, if_neg fun hc => hep (by rw [hc, hp] at hq; exact Option.some.inj hq ▸ he)]
        exact hq
    · rw [hnext]
      exact h.leaves hx m l e (hleaf m ▸ hl) hle
    · rw [hnext]
      exact h.bound hx m e he

theorem Stored.giveBack (h : Stored exact κ τ g) (hm : τ'.made = τ.made) (q : Option ProcessId) : Stored exact κ τ' (g.giveBack q) := by
  rcases q with _ | id
  · exact h.same rfl rfl hm fun _ _ hl => hl
  · rw [Graph.giveBack, releaseProcess]
    rcases hp : g.processes[id]? with _ | p <;> dsimp only
    · exact h.same rfl rfl hm fun _ _ hl => hl
    · split
      · exact h.destroyProcess hm id
      · exact h.recount hm hp

theorem Stored.operate (h : Stored exact κ τ g) (hk : Kept τ g) (hm : τ'.made = τ.made) (n : NodeId) (s : Substitution) :
    Stored exact κ τ' (g.acquireProcess n s).1 := by
  rcases acquireProcess_cases g n s with he | ⟨id, p, -, hp, he⟩ | ⟨c, op, -, -, he⟩ <;> rw [he]
  · exact h.same rfl rfl hm fun _ _ hl => hl
  · exact h.recount hm hp
  · exact h.withProcess hk hm s c op

/-! ## Steps of the store alone -/

/-- Values, states and notes change. -/
theorem Stored.restate (h : Stored exact κ τ g) (hr : g.Restated g') : Stored exact κ τ g' := by
  have hwatch : ∀ e, g'.store.watchers e = g.store.watchers e := fun e => by
    have := congrArg (Option.map Prod.snd) (hr.entries e)
    simp only [Option.map_map] at this
    exact congrArg (·.getD []) this
  have hsome : ∀ e, (g'.store.entryAt? e).isSome = (g.store.entryAt? e).isSome := fun e => by
    have := congrArg Option.isSome (hr.entries e)
    rw [Option.isSome_map, Option.isSome_map] at this
    rwa [Store.entryAt?, Option.isSome_map, Store.entryAt?, Option.isSome_map]
  have hproc : ∀ p : ProcessId, (g'.processes[p]?).map (·.outputs) = (g.processes[p]?).map (·.outputs) := fun p => by
    have := congrArg (Option.map (·.outputs)) (hr.processes p)
    rwa [Option.map_map, Option.map_map] at this
  have hnext := hr.next
  obtain ⟨entries, _, _, _, _, _, rfl⟩ := hr.rest
  have hslots : ∀ c, Store.slots { g.store with entries } c = g.store.slots c := fun _ => rfl
  refine h.congr rfl hproc hsome (Nat.le_of_eq hnext.symm) (h.covered.of_le (fun e c => Nat.le_of_eq (by rw [hwatch])) hslots)
    (fun hx => ⟨fun e he c => ?_, fun c y hy => ?_⟩) fun hx n l e hl hle => h.leaves hx n l e hl hle
  · rw [hwatch]
    exact (h.mirrored hx).watchers e (hsome e ▸ he) c
  · exact hnext ▸ (h.mirrored hx).born c y hy

theorem Stored.releases (h : Stored exact κ τ g) (hm : τ'.made = τ.made) (w : Wiring) (f : ChannelMap → List ChannelId) (ports : List Port)
    (hs : g'.store = w.releases f ports g.store) (hp : g'.processes = g.processes) (hl : ∀ n, g'.leaf? n = g.leaf? n) : Stored exact κ τ' g' := by
  obtain ⟨he, hn⟩ := w.releases_fields f ports g.store
  exact h.rewire hp hm (hs ▸ he) (hs ▸ hn) (hs ▸ w.covered_releases h.covered f ports) (fun hx => hs ▸ w.mirrored_releases (h.mirrored hx) f ports) hl

/-- Slots, watchers and entries stay, whoever listens. -/
theorem Stored.relisten (h : Stored exact κ τ g) (hm : τ'.made = τ.made) (he : g'.store.entries = g.store.entries)
    (hw : ∀ c, g'.store.wire? c = g.store.wire? c) (hp : g'.processes = g.processes) (hl : ∀ n, g'.leaf? n = g.leaf? n) :
    Stored exact κ τ' g' :=
  h.rewire hp hm (fun _ => Store.entryAt?_of_entries_eq he _) (congrArg Arena.next he) (Store.covered_of_wires h.covered he hw)
    (fun hx => Store.mirrored_of_eq (h.mirrored hx) he fun c => Store.slots_of_wire?_eq (hw c)) hl

theorem Stored.unsubscribe (h : Stored exact κ τ g) (id : OutletId) : Stored exact κ τ (g.unsubscribe id) := by
  rw [Graph.unsubscribe]
  split
  · exact h
  · rename_i o ho
    have hs : o.channels.values.foldl (fun s c => s.unlisten c (.outlet id)) g.store =
        g.store.unlistenAll (.outlet id) (o.channels.values.map some) := by
      rw [Store.unlistenAll, List.foldl_map]
    rw [hs]
    exact h.relisten rfl (Store.unlistenAll_fields ..).1 (fun _ => Store.wire?_unlistenAll ..) rfl fun _ => rfl

/-- An entry is made from outside. -/
theorem Stored.addEntry (h : Stored exact κ τ g) (x : Entry) :
    Stored exact κ { τ with made := g.store.entries.next :: τ.made } (g.createEntry x).1 := by
  have hentry : ∀ e, (g.createEntry x).1.store.entryAt? e = if e = g.store.entries.next then some x else g.store.entryAt? e :=
    fun e => Store.entryAt?_pushEntry ..
  have hold : ∀ e, (g.store.entryAt? e).isSome → e ≠ g.store.entries.next := fun e he hc =>
    absurd (Store.lt_next_of_isSome he) (hc ▸ Nat.lt_irrefl _)
  have hto : ∀ e, (g.store.entryAt? e).isSome → ((g.createEntry x).1.store.entryAt? e).isSome := fun e he => by
    rw [hentry, if_neg (hold e he)]
    exact he
  refine ⟨fun e hw => hto e (h.outputs e hw), h.apart, fun e he => ?_, fun e he => ?_, Store.covered_pushEntry h.covered x,
    fun hx => Store.mirrored_pushEntry (h.mirrored hx) x, fun hx m l e hl hle => Nat.lt_succ_of_lt (h.leaves hx m l e hl hle),
    fun hx m e he => Nat.lt_succ_of_lt (h.bound hx m e he)⟩
  · rcases List.mem_cons.1 he with rfl | he
    · exact ⟨by rw [hentry, if_pos rfl]; rfl, fun hw => hold _ (h.outputs _ hw) rfl⟩
    · exact ⟨hto e (h.made e he).1, (h.made e he).2⟩
  · rw [hentry] at he
    split at he
    · rename_i hc
      exact .inl (hc ▸ List.mem_cons_self ..)
    · exact (h.known e he).imp_left (List.mem_cons_of_mem _)

/-- A leaf is bound to another entry by the call that says so, and to no other. -/
theorem Stored.edit (h : Stored exact κ τ g) (ht : Touched κ g g' n) (hm : τ'.made = τ.made) : Stored exact κ τ' g' := by
  have hleaf := ht.leaf
  have hleafAt := ht.leafAt
  obtain ⟨_, _, rfl⟩ := ht.rest
  refine h.congr hm (fun _ => rfl) (fun _ => rfl) (Nat.le_refl _) h.covered h.mirrored fun hx m l e hl hle => ?_
  by_cases hmn : m = n
  · subst hmn
    rw [hleafAt] at hl
    obtain ⟨l', hl', rfl⟩ := Option.map_eq_some_iff.1 hl
    cases κ
    case setData m' entry =>
      exact h.bound hx m' e (congrArg (Call.setData m') hle)
    all_goals exact h.leaves hx m l' e hl' hle
  · rw [hleaf m hmn] at hl
    exact h.leaves hx m l e hl hle

/-- A node is made that is bound to no entry. -/
theorem Stored.push (h : Stored exact κ τ g) (hm : τ'.made = τ.made) {x : Node} (hnodes : g'.nodes = g.nodes.push x)
    (hx : ∀ l, x.leaf? = some l → l.entry = none) (hp : g'.processes = g.processes) (he : g'.store.entries = g.store.entries)
    (hc : g'.store.channels = g.store.channels) : Stored exact κ τ' g' := by
  have hs : ∀ c, g'.store.wire? c = g.store.wire? c := Store.wire?_of_channels_eq hc
  refine h.congr hm (fun p => by rw [hp]) (fun e => by rw [Store.entryAt?_of_entries_eq he]) (Nat.le_of_eq (by rw [he]))
    (Store.covered_of_wires h.covered he hs) (fun hx => Store.mirrored_of_eq (h.mirrored hx) he fun c => Store.slots_of_wire?_eq (hs c))
    fun hex m l e hl hle => ?_
  rw [leaf?, node?_push hnodes] at hl
  split at hl
  · rw [hx l hl] at hle
    cases hle
  · exact h.leaves hex m l e hl hle

theorem leaf?_enlist (g : Graph) (id : InstanceId) (i : Instance) (m : NodeId) : (g.enlist id i).leaf? m = g.leaf? m := by
  have hremember : (g.enlist id i).leaf? m = (g.markUsed i.owner i.substitution).leaf? m := leaf?_modifyWiring ..
  exact hremember.trans (leaf?_modifyWiring ..)

theorem stored_move (m : Move κ τ g τ' g') (hd : Tidy τ g) (h : Stored exact κ τ g) : Stored exact κ τ' g' := by
  have hsame : ∀ {g'' : Graph} {τ'' : Work}, g''.store = g.store → g''.processes = g.processes → τ''.made = τ.made →
      (∀ n l, g''.leaf? n = some l → g.leaf? n = some l) → Stored exact κ τ'' g'' := fun hs hp hm hl => h.same hs hp hm hl
  cases m with
  | restate hr => exact h.restate hr
  | reparent hn =>
    have hleaf := hn.leaf
    obtain ⟨_, rfl⟩ := hn.rest
    exact hsame rfl rfl rfl fun n l hl => hleaf n ▸ hl
  | sync n hτ ha =>
    have hs := (synchronize_spec ha (hd.framed.wired_of_settled hτ.stale) n).1
    have hleaf := hs.rewired.leaf?
    obtain ⟨_, _, he⟩ := hs.rest
    rw [he] at hleaf ⊢
    exact hsame rfl rfl rfl fun n l hl => hleaf n ▸ hl
  | reuse hτ hdn hs hk hi => exact hsame rfl rfl rfl fun _ _ hl => hl
  | start hτ ha hdn hs hk hnest => exact hsame rfl rfl rfl fun _ _ hl => hl
  | merge hj ho => exact h.merge hd hj ho
  | operate hj => exact h.operate hd.kept (by rfl) _ _
  | view hj => exact hsame rfl rfl rfl fun _ _ hl => hl
  | finish children proto hj ha hh hb =>
    exact hsame rfl rfl rfl fun m l hl => (leaf?_enlist ..).symm.trans hl
  | lessen hτ hi hu => exact hsame rfl rfl rfl fun _ _ hl => hl
  | dismantle hτ hi hu =>
    rename_i id i
    obtain ⟨w, hw⟩ := hd.wiring_instance hi
    rw [dismantle_eq hw]
    exact h.releases (by rfl) w (·.lastUsed i.substitution) [.output, .extended, .input] rfl rfl fun _ => leaf?_modifyWiring ..
  | miss hi => exact hsame rfl rfl rfl fun _ _ hl => hl
  | giveBack p hτ => exact h.giveBack (by rfl) p
  | unwire hτ ht hw hup => exact hsame rfl rfl rfl fun m l hl => (leaf?_modifyWiring ..).symm.trans hl
  | destroy hτ ht => exact h.destroyProcess (by rfl) _
  | discard hτ ht hi => exact hsame rfl rfl rfl fun _ _ hl => hl
  | pass hτ ht hi => exact hsame rfl rfl rfl fun _ _ hl => hl
  | empty hτ ht =>
    obtain ⟨f, hf, -, -⟩ := hd.framed.torn _ ht
    obtain ⟨w, hw, -⟩ := Option.map_eq_some_iff.1 hf
    rw [clearPorts_eq hw]
    exact h.releases (by rfl) w ChannelMap.channels [.input, .extended, .output] rfl rfl fun _ => leaf?_modifyWiring ..
  | hush ht hc hdn hs hid => exact (h.unsubscribe _).same rfl rfl rfl fun _ _ hl => hl
  | told hst ht hs => exact hsame rfl rfl rfl fun _ _ hl => hl
  | edit hτ hj ht => exact h.edit ht rfl
  | addLeaf hτ => exact h.push rfl rfl (fun l hl => Option.some.inj hl ▸ rfl) rfl rfl rfl
  | addData b hτ => exact h.push rfl rfl nofun rfl rfl rfl
  | addEntry e => exact h.addEntry e
  | openOutlet hτ hc hdn hk => exact hsame rfl rfl rfl fun m l hl => (leaf?_modifyData ..).symm.trans hl
  | enroll ho hb => exact hsame rfl rfl rfl fun _ _ hl => hl
  | pin hc hb => exact hsame rfl rfl rfl fun _ _ hl => hl
  | unsubscribe id => exact h.unsubscribe id
  | giveUp ho hh => exact hsame rfl rfl rfl fun _ _ hl => hl
  | attach ho hn hc hcl =>
    exact h.relisten rfl (Store.listenAll_fields ..).1 (fun _ => Store.wire?_listenAll ..) rfl fun _ => rfl
  | withdraw hτ hr => exact hsame rfl rfl rfl fun _ _ hl => hl
  | unasked hr => exact hsame rfl rfl rfl fun _ _ hl => hl
  | keep hb ho => exact hsame rfl rfl rfl fun _ _ hl => hl
  | close hb hτ ho he hp hc => exact hsame rfl rfl rfl fun _ _ hl => hl
  | forget hc => exact hsame rfl rfl rfl fun m l hl => (leaf?_modifyData ..).symm.trans hl
  | uproot hτ hj hc hrefs hs hidle =>
    refine hsame rfl rfl rfl fun m l hl => ?_
    rw [leaf?, node?, Graph.cutOff, Arena.get?_erase] at hl
    split at hl
    · cases hl
    · exact hl
  | disclaim hsub => exact hsame rfl rfl rfl fun _ _ hl => hl

/-- Between calls it does not matter which call was last, if the next one binds no leaf to an entry that was not made. -/
theorem Stored.of_call {κ' : Call} (h : Stored exact κ τ g) (hb : exact → ∀ n e, κ' = .setData n (some e) → e < g.store.entries.next) :
    Stored exact κ' τ g := ⟨h.outputs, h.apart, h.made, h.known, h.covered, h.mirrored, h.leaves, hb⟩

theorem stored_new (registry : Registry) (config : Config) (exact : Prop) : Stored exact .createLeaf {} (new registry config) := by
  have hget : ∀ e, (new registry config).store.entries.get? e = none := fun e => Std.ExtTreeMap.getElem?_empty
  have hentry : ∀ e, (new registry config).store.entryAt? e = none := fun e => by
    rw [Store.entryAt?, hget]
    rfl
  have hwatch : ∀ e, (new registry config).store.watchers e = [] := fun e => by
    rw [Store.watchers, hget]
    rfl
  have hslots : ∀ c, (new registry config).store.slots c = [] := fun c => by
    rw [Store.slots, Store.channel?, show (new registry config).store.channels.get? c = none from Std.ExtTreeMap.getElem?_empty]
    rfl
  have hproc : ∀ (id : ProcessId) p, (new registry config).processes[id]? ≠ some p := fun id p hp =>
    Option.some_ne_none _ (hp.symm.trans Std.ExtTreeMap.getElem?_empty)
  refine ⟨?_, fun p p' q q' hq => absurd hq (hproc p q), fun e he => absurd he List.not_mem_nil, fun e he => ?_, fun e c => ?_,
    fun _ => ⟨fun e he => ?_, fun c y hy => ?_⟩, fun _ n l e hl => ?_, fun _ _ _ hb => by cases hb⟩
  · rintro e ⟨p, q, hq, -⟩
    exact absurd hq (hproc p q)
  · rw [hentry] at he
    cases he
  · rw [hwatch]
    exact Nat.zero_le _
  · rw [hentry] at he
    cases he
  · rw [hslots] at hy
    cases hy
  · rw [leaf?, node?, show (new registry config).nodes.get? n = none from Std.ExtTreeMap.getElem?_empty] at hl
    cases hl

end Graph

end Dataflow
