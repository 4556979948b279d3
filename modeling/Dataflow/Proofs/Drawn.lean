import Dataflow.Proofs.Aging
import Dataflow.Proofs.Shelved

/-!
# Channels that are named

Channels come and go, and what names them may name them for longer: a cell, the substitution of an instance that is being built, or the
inputs of a process. But whatever is named anywhere has an id that was handed out, so a channel that is new was not known to anyone; and
while channels come and go, who listens to those that stay does not change.
-/

namespace Dataflow

namespace Store

variable {s s' s'' : Store} {c : ChannelId} {l : Listener}

theorem hears_releaseAll (s : Store) (m : MapId) (cs : List ChannelId) : s.Hears (s.releaseAll m cs) := by
  induction cs generalizing s with
  | nil => exact .refl s
  | cons c cs ih => exact (hears_release s c m).trans (ih _)

/-- The channel that a map has after a merge is the one that it had, the one that is merged, or new. -/
theorem lt_next_put (s : Store) (m : MapId) {cur : Option ChannelId} {f : Feed} (hcur : ∀ c ∈ cur, c < s.channels.next)
    (hf : ∀ c, f = .channel c → c < s.channels.next) : (s.put m cur f).2 < (s.put m cur f).1.channels.next := by
  have htake : ∀ c, c < s.channels.next → (s.takeOver m c).2 < (s.takeOver m c).1.channels.next := by
    intro c hc
    rw [takeOver]
    split
    · exact hc
    · rw [next_newChannel]
      exact Nat.lt_succ_self _
  have hnew : ∀ (t : Store) (l : List (Slot Float32)), (t.newChannel m l).2 < (t.newChannel m l).1.channels.next := by
    intro t l
    rw [next_newChannel]
    exact Nat.lt_succ_self _
  rcases cur with _ | cur <;> rcases f with c | x
  · exact hf c rfl
  · exact hnew s [x]
  · have hc := hcur cur rfl
    rw [put]
    split
    · exact hc
    · split
      · dsimp only
        rw [next_addSlots]
        exact htake cur hc
      · exact Nat.lt_of_lt_of_le (hf c rfl) (hears_release s cur m).next
  · have hc := hcur cur rfl
    rw [put]
    split
    · dsimp only
      rw [(addSlot_fields ..).2.2.2]
      exact htake cur hc
    · exact hnew _ [x]

/-- Whoever listens to a channel once listens to it once after others came. -/
theorem nodup_listenAll (h : ∀ c, (s.listenersOf c).Nodup) (l : Listener) (cs : List ChannelId) (c : ChannelId) :
    ((s.listenAll l cs).listenersOf c).Nodup := by
  induction cs generalizing s with
  | nil => exact h c
  | cons a cs ih =>
    refine ih fun b => ?_
    have hb := h b
    rw [listenersOf] at hb ⊢
    rw [channel?_listen]
    split
    · rcases hch : s.channel? b with _ | ch
      · exact List.nodup_nil
      · rw [hch] at hb
        simp only [Option.map_some, Option.getD_some] at hb ⊢
        split
        · exact hb
        · rename_i hmem
          simp only [List.contains_eq_mem, decide_eq_true_eq] at hmem
          rw [List.nodup_append]
          refine ⟨hb, List.nodup_singleton l, fun x hx y hy hxy => hmem ?_⟩
          rwa [← List.mem_singleton.1 hy, ← hxy]
    · exact hb

theorem nodup_unlistenAll (h : ∀ c, (s.listenersOf c).Nodup) (l : Listener) (cs : List (Option ChannelId)) (c : ChannelId) :
    ((s.unlistenAll l cs).listenersOf c).Nodup := by
  induction cs generalizing s with
  | nil => exact h c
  | cons a cs ih =>
    rcases a with _ | a
    · exact ih h
    · refine ih (s := s.unlisten a l) fun b => ?_
      have hb := h b
      rw [listenersOf] at hb ⊢
      rw [channel?_unlisten]
      split
      · rcases hch : s.channel? b with _ | ch
        · exact List.nodup_nil
        · rw [hch] at hb
          exact hb.filter _
      · exact hb

end Store

theorem Wiring.hears_releases (w : Wiring) (f : ChannelMap → List ChannelId) (ports : List Port) (s : Store) :
    s.Hears (w.releases f ports s) := by
  induction ports generalizing s with
  | nil => exact .refl s
  | cons port ports ih => exact (Store.hears_releaseAll s _ _).trans (ih _)

namespace Graph

variable {κ : Call} {τ τ' : Work} {g g' : Graph} {n : NodeId} {J : Job}

/-! ## Channels that are named -/

/-- All channels that cells, jobs and the call name have ids that were handed out. -/
structure Drawn (κ : Call) (τ : Work) (g : Graph) : Prop where
  cells : ∀ n port x k cell, g.cell? n port x k = some cell → ∀ c ∈ cell.channel, c < g.store.channels.next
  jobs : ∀ J ∈ τ.jobs, (∀ x c, J.sub.get? x = some c → c < g.store.channels.next) ∧ ∀ e ∈ J.shown, e.2 < g.store.channels.next
  bound : ∀ n s x c, κ = .acquireInstance n s → s.get? x = some c → c < g.store.channels.next

theorem Drawn.chan (h : Drawn κ τ g) {port : Port} {x : String} {s : Substitution} {c : ChannelId} (hc : g.chan n port x s = some c) :
    c < g.store.channels.next := by
  obtain ⟨cell, hcell, hch⟩ := Option.bind_eq_some_iff.1 hc
  exact h.cells n port x _ cell hcell c hch

/-- What is granted was handed out. -/
theorem Drawn.of_grants (h : Drawn κ τ g) {c : ChannelId} (hc : τ.Grants κ c) : c < g.store.channels.next := by
  rcases hc with ⟨n, s, x, hκ, hx⟩ | ⟨J, hJ, x, hx | hx⟩
  · exact h.bound n s x c hκ hx
  · exact (h.jobs J (List.mem_of_mem_head? hJ)).1 x c hx
  · exact (h.jobs J (List.mem_of_mem_head? hJ)).2 (x, c) hx

/-- Cells have no channels that none had before. -/
theorem Drawn.mono (h : Drawn κ τ g) (hn : g.store.channels.next ≤ g'.store.channels.next)
    (hc : ∀ n port x k cell, g'.cell? n port x k = some cell → ∀ c ∈ cell.channel,
      ∃ cell', g.cell? n port x k = some cell' ∧ c ∈ cell'.channel)
    (hj : ∀ J ∈ τ'.jobs, ∃ K ∈ τ.jobs, K.sub = J.sub ∧ K.shown = J.shown) : Drawn κ τ' g' := by
  refine ⟨fun n port x k cell hcell c hch => ?_, fun J hJ => ?_, fun n s x c hκ hx => Nat.lt_of_lt_of_le (h.bound n s x c hκ hx) hn⟩
  · obtain ⟨cell', hcell', hch'⟩ := hc n port x k cell hcell c hch
    exact Nat.lt_of_lt_of_le (h.cells n port x k cell' hcell' c hch') hn
  · obtain ⟨K, hK, hsub, hshown⟩ := hj J hJ
    obtain ⟨h₁, h₂⟩ := h.jobs K hK
    exact ⟨fun x c hx => Nat.lt_of_lt_of_le (h₁ x c (hsub ▸ hx)) hn, fun e he => Nat.lt_of_lt_of_le (h₂ e (hshown ▸ he)) hn⟩

/-- Cells stay. -/
theorem Drawn.same (h : Drawn κ τ g) (hn : g'.store.channels.next = g.store.channels.next)
    (hc : ∀ n port x k, g'.cell? n port x k = g.cell? n port x k) (hj : ∀ J ∈ τ'.jobs, ∃ K ∈ τ.jobs, K.sub = J.sub ∧ K.shown = J.shown) :
    Drawn κ τ' g' :=
  h.mono (Nat.le_of_eq hn.symm) (fun n port x k cell hcell _ hch => ⟨cell, (hc n port x k).symm.trans hcell, hch⟩) hj

theorem jobs_kept (h : τ'.jobs = τ.jobs) : ∀ J ∈ τ'.jobs, ∃ K ∈ τ.jobs, K.sub = J.sub ∧ K.shown = J.shown :=
  fun J hJ => ⟨J, h ▸ hJ, rfl, rfl⟩

/-- The wiring of every node stays. -/
theorem Drawn.of_wiring (h : Drawn κ τ g) (hn : g'.store.channels.next = g.store.channels.next) (hw : ∀ n, g'.wiring? n = g.wiring? n)
    (hj : ∀ J ∈ τ'.jobs, ∃ K ∈ τ.jobs, K.sub = J.sub ∧ K.shown = J.shown) : Drawn κ τ' g' :=
  h.same hn (fun n port x k => by rw [cell?, hw, cell?]) hj

/-- Changing the wiring of a node but not its maps changes no cell. -/
theorem cell?_modifyWiring_of_map (g : Graph) (n : NodeId) {f : Wiring → Wiring} (hf : ∀ w port, (f w).map port = w.map port) (m : NodeId)
    (port : Port) (x k : String) : (g.modifyWiring n f).cell? m port x k = g.cell? m port x k := by
  rw [cell?, wiring?_modifyWiring, cell?]
  split
  · rcases g.wiring? m with _ | w
    · rfl
    · simp only [Option.map_some, Option.bind_some, hf]
  · rfl

theorem mem_of_mem_feeds {l : List (String × ChannelId)} {x : String} {c : ChannelId}
    (h : (x, Feed.channel c) ∈ l.map fun e => (e.1, Feed.channel e.2)) : (x, c) ∈ l := by
  obtain ⟨e, he, heq⟩ := List.mem_map.1 h
  cases heq
  exact he

/-- The channels that are merged were handed out. -/
theorem Drawn.of_offers (h : Drawn κ τ g) (hJ : J ∈ τ.jobs) {port : Port} {fs : List (String × Feed)} (ho : g.Offers J port fs)
    {x : String} {c : ChannelId} (hc : (x, .channel c) ∈ fs) : c < g.store.channels.next := by
  have hfinal : ∀ {r : NodeId} {s : Substitution} {y : String}, (y, c) ∈ g.finalChannels r s → c < g.store.channels.next := fun hy =>
    h.chan (mem_finalChannels.1 hy)
  cases ho with
  | exposed hr hl => exact hfinal (mem_of_mem_feeds hc)
  | bound hr hl hsub =>
    cases List.mem_singleton.1 hc
    exact (h.jobs J hJ).1 _ _ hsub
  | leaf hr hl he => cases List.mem_singleton.1 hc
  | extended =>
    rcases List.mem_append.1 hc with hc | hc
    · exact h.chan (mem_resolve_of.1 (mem_of_mem_feeds hc))
    · rcases hp : J.process with _ | p
      · rw [hp] at hc
        cases hc
      · rw [hp] at hc
        obtain ⟨a, -, he⟩ := List.mem_map.1 hc
        cases he
  | output ht =>
    obtain ⟨y, -, hy⟩ := mem_selectChannels (mem_of_mem_feeds hc)
    rcases List.mem_append.1 (mem_of_get_tableOf hy) with hm | hm
    · exact (h.jobs J hJ).2 _ hm
    · rcases ht with rfl | ⟨p, s, -, rfl⟩
      · cases hm
      · exact hfinal hm

theorem Drawn.mergeFeed (h : Drawn κ τ g) {w : Wiring} (hw : g.wiring? n = some w) {port : Port} {x : String} (hx : x ∈ g.table n port)
    {s : Substitution} {f : Feed} (hf : ∀ c, f = .channel c → c < g.store.channels.next) :
    Drawn κ τ (g.mergeFeed n port s x f) ∧ g.Recached (g.mergeFeed n port s x f) ∧
      g.store.channels.next ≤ (g.mergeFeed n port s x f).store.channels.next := by
  have key : ∀ c : Cell, (g.cell? n port x (g.keyAt n port x s)).getD {} = c → c.uses = 0 → (∀ a ∈ c.channel, a < g.store.channels.next) →
      Drawn κ τ (g.mergeFeed n port s x f) ∧ g.Recached (g.mergeFeed n port s x f) ∧
        g.store.channels.next ≤ (g.mergeFeed n port s x f).store.channels.next := by
    intro c hc hu hlt
    obtain ⟨hrec, hstore, -, hcell⟩ := mergeFeed_spec hw hx hc hu f
    have hnext := (Store.hears_put g.store (w.map port).id c.channel f).next
    have hput := g.store.lt_next_put (w.map port).id hlt hf
    rw [← hstore] at hnext hput
    refine ⟨⟨fun m q y k cell hm a ha => ?_, fun J hJ => ?_, fun m t y a hκ hy => Nat.lt_of_lt_of_le (h.bound m t y a hκ hy) hnext⟩, hrec, hnext⟩
    · rw [hcell] at hm
      split at hm
      · obtain rfl := Option.some.inj hm
        obtain rfl := Option.some.inj ha
        exact hput
      · exact Nat.lt_of_lt_of_le (h.cells m q y k cell hm a ha) hnext
    · obtain ⟨h₁, h₂⟩ := h.jobs J hJ
      exact ⟨fun y a hy => Nat.lt_of_lt_of_le (h₁ y a hy) hnext, fun e he => Nat.lt_of_lt_of_le (h₂ e he) hnext⟩
  rcases hc : g.cell? n port x (g.keyAt n port x s) with _ | c
  · exact key {} (by rw [hc]; rfl) rfl nofun
  · by_cases hu : c.uses = 0
    · exact key c (by rw [hc]; rfl) hu (h.cells n port x _ c hc)
    · rw [mergeFeed_of_used hc hu]
      exact ⟨h, .refl g, Nat.le_refl _⟩

theorem Drawn.mergeFeeds (h : Drawn κ τ g) {w : Wiring} (hw : g.wiring? n = some w) {port : Port} {s : Substitution}
    {fs : List (String × Feed)} (ht : ∀ x ∈ fs, x.1 ∈ g.table n port)
    (hf : ∀ x c, (x, Feed.channel c) ∈ fs → c < g.store.channels.next) : Drawn κ τ (g.mergeFeeds n port s fs) := by
  induction fs generalizing g w with
  | nil => exact h
  | cons x fs ih =>
    obtain ⟨h₁, hrec, hnext⟩ := h.mergeFeed hw (ht x List.mem_cons_self) (s := s) (f := x.2) fun c hc =>
      hf x.1 c (hc ▸ List.mem_cons_self)
    obtain ⟨w', -, hw'⟩ := hrec.wiring hw
    refine ih h₁ hw' (fun y hy => ?_) fun y c hc => Nat.lt_of_lt_of_le (hf y c (List.mem_cons_of_mem _ hc)) hnext
    rw [hrec.table]
    exact ht y (List.mem_cons_of_mem _ hy)

theorem Drawn.destroyProcess (h : Drawn κ τ g) (hj : τ'.jobs = τ.jobs) (id : ProcessId) : Drawn κ τ' (g.destroyProcess id) := by
  rcases hp : g.processes[id]? with _ | p
  · rw [Graph.destroyProcess, hp]
    exact h.same rfl (fun _ _ _ _ => rfl) (jobs_kept hj)
  · have hnext : (g.store.dropProcess id p).channels.next = g.store.channels.next := by
      rw [Store.dropProcess, (Store.freeAll_fields ..).1, (Store.unlistenAll_fields ..).2.1]
    rw [destroyProcess_eq hp]
    refine h.same hnext (fun m port x k => ?_) (jobs_kept hj)
    exact cell?_modifyWiring_of_map _ p.owner (fun w port => by split <;> cases port <;> rfl) m port x k

theorem Drawn.giveBack (h : Drawn κ τ g) (hj : τ'.jobs = τ.jobs) (p : Option ProcessId) : Drawn κ τ' (g.giveBack p) := by
  have hsame : Drawn κ τ' g := h.same rfl (fun _ _ _ _ => rfl) (jobs_kept hj)
  rcases p with _ | id
  · exact hsame
  · rw [Graph.giveBack, releaseProcess]
    split
    · exact hsame
    · split
      · exact h.destroyProcess hj id
      · exact h.same rfl (fun _ _ _ _ => rfl) (jobs_kept hj)

theorem Drawn.operate (h : Drawn κ τ g) (hj : ∀ J ∈ τ'.jobs, ∃ K ∈ τ.jobs, K.sub = J.sub ∧ K.shown = J.shown) (n : NodeId) (s : Substitution) :
    Drawn κ τ' (g.acquireProcess n s).1 := by
  rcases acquireProcess_cases g n s with he | ⟨id, p, -, -, he⟩ | ⟨c, op, -, -, he⟩ <;> rw [he]
  · exact h.same rfl (fun _ _ _ _ => rfl) hj
  · exact h.same rfl (fun _ _ _ _ => rfl) hj
  · have hop := operated_withProcess g n s c op
    exact h.same hop.next hop.relisted.cell? hj

theorem next_unsubscribe (g : Graph) (id : OutletId) : (g.unsubscribe id).store.channels.next = g.store.channels.next := by
  rw [unsubscribe]
  split
  · rfl
  · rename_i o ho
    have hs : o.channels.values.foldl (fun s c => s.unlisten c (.outlet id)) g.store =
        g.store.unlistenAll (.outlet id) (o.channels.values.map some) := by
      rw [Store.unlistenAll, List.foldl_map]
    rw [hs]
    exact (Store.unlistenAll_fields ..).2.1

theorem drawn_move (m : Move κ τ g τ' g') (hd : Tidy τ g) (h : Drawn κ τ g) : Drawn κ τ' g' := by
  have hsame : ∀ {g'' : Graph} {τ'' : Work}, g''.nodes = g.nodes → g''.store.channels.next = g.store.channels.next →
      τ''.jobs = τ.jobs → Drawn κ τ'' g'' := fun hn hs hj =>
    h.of_wiring hs (fun n => by rw [wiring?, data?, node?, hn, wiring?, data?, node?]) (jobs_kept hj)
  have hwiring : ∀ {g'' : Graph} {τ'' : Work}, (∀ n, g''.wiring? n = g.wiring? n) → g''.store = g.store → τ''.jobs = τ.jobs →
      Drawn κ τ'' g'' := fun hn hs hj => h.of_wiring (by rw [hs]) hn (jobs_kept hj)
  have hpush : ∀ {x : Node} {g'' : Graph} {τ'' : Work}, g''.nodes = g.nodes.push x →
      (∀ d, x.data? = some d → ∀ port, (d.wiring.map port).entries = ∅) → g''.store.channels.next = g.store.channels.next →
      τ''.jobs = τ.jobs → Drawn κ τ'' g'' := by
    intro x g'' τ'' hn hx hs hj
    refine h.mono (Nat.le_of_eq hs.symm) (fun m port y k cell hcell c hc => ?_) (jobs_kept hj)
    by_cases hm : m = g.nodes.next
    · rw [cell?, wiring?, data?, node?_push hn, if_pos hm] at hcell
      obtain ⟨w, hw, hat⟩ := Option.bind_eq_some_iff.1 hcell
      obtain ⟨d, hdata, rfl⟩ := Option.map_eq_some_iff.1 hw
      rw [ChannelMap.at?_of_empty (hx d hdata port)] at hat
      cases hat
    · rw [cell?, wiring?, data?, node?_push hn, if_neg hm] at hcell
      exact ⟨cell, hcell, hc⟩
  cases m with
  | restate hr =>
    obtain ⟨_, _, _, _, _, _, rfl⟩ := hr.rest
    exact hsame rfl rfl rfl
  | reparent hn =>
    have hdn := hn.data
    obtain ⟨_, rfl⟩ := hn.rest
    exact hwiring (fun n => by rw [wiring?, hdn, wiring?]) rfl rfl
  | sync n hτ ha =>
    have hs := (synchronize_spec ha (hd.framed.wired_of_settled hτ.stale) n).1
    obtain ⟨_, _, he⟩ := hs.rest
    refine h.mono (Nat.le_of_eq (by rw [he])) (fun m port x k cell hcell c hc => ?_) (jobs_kept rfl)
    rcases hs.wiring m with hm | ⟨w, t, hw, ho, hm⟩
    · rw [cell?, hm] at hcell
      exact ⟨cell, hcell, hc⟩
    · have hnone : (g.synchronize n).cell? m port x k = none := by
        rw [cell?_of_wiring? hm]
        cases port <;> exact ChannelMap.at?_ofTable ..
      rw [hnone] at hcell
      cases hcell
  | reuse hτ hdn hs hk hi => exact hsame rfl rfl rfl
  | start hτ ha hdn hs hk hnest hgrant =>
    refine ⟨h.cells, fun J hJ => ?_, h.bound⟩
    rcases List.mem_cons.1 hJ with rfl | hJ
    · refine ⟨fun x c hx => ?_, fun _ hb => by cases hb⟩
      rw [Substitution.get?_restrict] at hx
      split at hx
      · exact h.of_grants (hgrant x c hx)
      · cases hx
    · exact h.jobs J hJ
  | merge hj ho =>
    rename_i J jobs port fs
    have hmem : J ∈ τ.jobs := hj ▸ List.mem_cons_self
    have hJ := hd.staffed.jobs J hmem
    obtain ⟨w, hw, -⟩ := id hJ.inSync
    exact h.mergeFeeds hw (ho.mem_table hd.framed.designed (hd.staffed.wired hd.framed (List.ne_nil_of_mem hmem)) hJ hd.staffed.names)
      fun x c hc => h.of_offers hmem ho hc
  | operate hj =>
    refine h.operate (fun K hK => ?_) _ _
    rw [hj]
    rcases List.mem_cons.1 hK with rfl | hK
    · exact ⟨_, List.mem_cons_self, rfl, rfl⟩
    · exact ⟨K, List.mem_cons_of_mem _ hK, rfl, rfl⟩
  | view hj =>
    rename_i J jobs
    refine ⟨h.cells, fun K hK => ?_, h.bound⟩
    rcases List.mem_cons.1 hK with rfl | hK
    · have hsub := (h.jobs J (hj ▸ List.mem_cons_self)).1
      have hshown : ∀ e ∈ ((g.wiring? J.node).map (·.extended.resolve J.sub)).getD [], g.chan J.node .extended e.1 J.sub = some e.2 :=
        fun e he => mem_resolve_of.1 he
      exact ⟨hsub, fun e he => h.chan (hshown e he)⟩
    · exact h.jobs K (hj ▸ List.mem_cons_of_mem _ hK)
  | finish children proto hj ha hh hb =>
    refine h.mono (Nat.le_refl _) (fun m port x k cell hcell c hc => ?_) fun K hK => ⟨K, hj ▸ List.mem_cons_of_mem _ hK, rfl, rfl⟩
    rw [cell?_enlist] at hcell
    split at hcell
    · obtain ⟨cell', hcell', rfl⟩ := Option.map_eq_some_iff.1 hcell
      exact ⟨cell', hcell', hc⟩
    · exact ⟨cell, hcell, hc⟩
  | lessen hτ hi hu => exact hsame rfl rfl rfl
  | dismantle hτ hi hu =>
    rename_i id i
    obtain ⟨w, hw⟩ := hd.wiring_instance hi
    have hcells := cell?_dismantle_eq hw id
    have hstore : (g.dismantle id i).store = w.releases (·.lastUsed i.substitution) [.output, .extended, .input] g.store := by
      rw [dismantle_eq hw]
      rfl
    refine h.mono (hstore ▸ (w.hears_releases _ _ _).next) (fun m port x k cell hcell c hc => ?_) (jobs_kept rfl)
    rw [hcells] at hcell
    split at hcell
    · obtain ⟨cell', hcell', -, rfl⟩ := ChannelMap.of_dropUse hcell
      exact ⟨cell', hcell', hc⟩
    · exact ⟨cell, hcell, hc⟩
  | miss hi => exact hsame rfl rfl rfl
  | giveBack p hτ => exact h.giveBack (by rfl) p
  | unwire hτ ht hw hup =>
    exact h.same rfl (cell?_modifyWiring_of_map g _ fun _ port => by cases port <;> rfl) (jobs_kept rfl)
  | destroy hτ ht => exact h.destroyProcess (by rfl) _
  | discard hτ ht hi => exact hsame rfl rfl rfl
  | pass hτ ht hi => exact hsame rfl rfl rfl
  | empty hτ ht =>
    obtain ⟨f, hf, -, -⟩ := hd.framed.torn _ ht
    obtain ⟨w, hw, -⟩ := Option.map_eq_some_iff.1 hf
    rw [clearPorts_eq hw]
    refine h.mono (w.hears_releases _ _ _).next (fun m port x k cell hcell c hc => ?_) (jobs_kept rfl)
    rw [cell?, wiring?_modifyWiring] at hcell
    split at hcell
    · obtain ⟨w', hw', hat⟩ := Option.bind_eq_some_iff.1 hcell
      obtain ⟨w'', -, rfl⟩ := Option.map_eq_some_iff.1 hw'
      rw [ChannelMap.at?_of_empty (by cases port <;> rfl)] at hat
      cases hat
    · exact ⟨cell, hcell, hc⟩
  | hush ht hc hdn hs hid =>
    rename_i n d id
    rcases ho : g.outlets[id]? with _ | o
    · rw [hush_none ho]
      exact h
    · rw [hush_eq ho]
      exact hsame rfl (Store.unlistenAll_fields ..).2.1 rfl
  | told hst ht hs => exact hsame rfl rfl rfl
  | edit hτ hj ht =>
    have hw := ht.wiring?
    obtain ⟨_, _, rfl⟩ := ht.rest
    exact hwiring hw rfl rfl
  | addLeaf hτ => exact hpush rfl (fun _ hd => by cases hd) rfl rfl
  | addData b hτ =>
    refine hpush rfl (fun d hd port => ?_) rfl rfl
    obtain rfl := Option.some.inj hd
    cases port <;> rfl
  | addEntry e => exact hsame rfl rfl rfl
  | openOutlet hτ hc hdn hk => exact hwiring (wiring?_openOutlet g _ _) rfl rfl
  | enroll ho hb => exact hsame rfl rfl rfl
  | pin hc hb => exact hsame rfl rfl rfl
  | unsubscribe id => exact hsame (sameNodes_unsubscribe g id).nodes (next_unsubscribe g id) rfl
  | giveUp ho hh => exact hsame rfl rfl rfl
  | attach ho hn hc hcl hex => exact hsame rfl (Store.listenAll_fields ..).2.1 rfl
  | withdraw hτ hr => exact hsame rfl rfl rfl
  | unasked hr => exact hsame rfl rfl rfl
  | keep hb ho => exact hsame rfl rfl rfl
  | close hb hτ ho he hp hc => exact hsame rfl rfl rfl
  | forget hc => exact hwiring (wiring?_modifyData g _ fun _ => rfl) rfl rfl
  | uproot hτ hj hc hrefs hs hidle =>
    refine h.mono (Nat.le_refl _) (fun m port x k cell hcell c hc => ⟨cell, ?_, hc⟩) (jobs_kept rfl)
    rw [cell?, wiring?, data?, node?, Graph.cutOff, Arena.get?_erase] at hcell
    split at hcell
    · cases hcell
    · exact hcell
  | disclaim hsub => exact hsame rfl rfl rfl

end Graph

end Dataflow
