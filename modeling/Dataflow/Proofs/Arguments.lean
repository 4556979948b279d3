import Dataflow.Proofs.Overwriting
import Dataflow.Proofs.Stale

/-!
# What kernels are given

Before a kernel is asked, the first entry of every channel that is bound to a parameter is checked: it has to be there, to hold something,
and to be of the parameter's type. An argument that reads the first entry reads what was checked. One that reads at a key may read another
entry of the channel, and those are not checked: a channel of several slots takes up entries of any type. So a kernel is given what its
operator declares as far as the entries that it reads at keys are what the first one is, and none of them is written by the process itself.
-/

namespace Dataflow

namespace Sequence

/-- Reading a sequence that has slots gives a weight, or the entry of one of them. -/
theorem read_cases (ε key : Float32) (access : Access) {slots : List (Slot Float32)} (h : slots ≠ []) :
    (access = .weight ∧ ∃ w, read ε access key slots = some (.weight w)) ∨
      (access ≠ .weight ∧ ∃ y ∈ slots, read ε access key slots = some (.entry y.entry)) := by
  have hlen := List.length_pos_iff.2 h
  have hseek : seek ε key slots ≤ slots.length := List.findIdx_le_length
  have hat : ∀ i, i < slots.length → ∃ y ∈ slots, (slots[i]?).map (fun y => Reading.entry (K := Float32) y.entry) = some (.entry y.entry) := by
    intro i hi
    exact ⟨slots[i], List.getElem_mem hi, by rw [List.getElem?_eq_getElem hi]; rfl⟩
  cases access with
  | first =>
    obtain ⟨y, l, rfl⟩ := List.exists_cons_of_ne_nil h
    exact .inr ⟨nofun, y, List.mem_cons_self, rfl⟩
  | floor => exact .inr ⟨nofun, hat _ (by omega)⟩
  | ceiling => exact .inr ⟨nofun, hat _ (by omega)⟩
  | weight =>
    refine .inl ⟨rfl, weightAt key slots (seek ε key slots), ?_⟩
    simp [read, h]

end Sequence

namespace Payload

theorem isEmpty_of_size {p : Payload} (h : 0 < p.size) (ht : p.storage ≠ .texture) : p.isEmpty = false := by
  cases p with
  | texture t => exact absurd rfl ht
  | floats l | ints l | bools l => exact List.isEmpty_eq_false_iff.2 (List.length_pos_iff.1 h)

/-- A window that lies within the scalars holds some of them. -/
theorem isEmpty_window {start size : Nat} {p : Payload} (hs : 0 < size) (h : start + size ≤ p.size) (ht : p.storage ≠ .texture) :
    (p.window start size).isEmpty = false := by
  have hsize : 0 < (p.window start size).size := by
    rw [size_window h ht]
    exact hs
  have hstorage : (p.window start size).storage ≠ .texture := by
    rw [storage_window]
    exact ht
  exact isEmpty_of_size hsize hstorage

end Payload

/-- What has several tuples is there, is no texture, and has all scalars of these tuples. -/
theorem View.room_of_several {size : Nat} {v : View} (hs : 0 < size) (hn : 1 < v.tupleCount size) :
    ∃ x, v = some x ∧ x.storage ≠ .texture ∧ v.tupleCount size * size ≤ x.size := by
  rcases v with _ | x
  · exact absurd hn (by simp [View.tupleCount])
  · have ht : x.storage ≠ .texture := by
      intro ht
      cases x with
      | texture t => exact absurd hn (by simp [View.tupleCount, Payload.tupleCount])
      | _ => cases ht
    have hcount : View.tupleCount size (some x) = x.size / size := by
      have hmax : max size 1 = size := by omega
      cases x with
      | texture t => exact absurd rfl ht
      | _ => simp [View.tupleCount, Payload.tupleCount, hmax]
    exact ⟨x, rfl, ht, hcount ▸ Nat.div_mul_le_self ..⟩

namespace Iteration

variable {views : List View} {sizes : List Nat} {array : List Bool}

/-- What advances has at least as many tuples as there are iterations. -/
theorem count_le {a : Nat} {view : View} {size : Nat} (hv : views[a]? = some view) (hs : sizes[a]? = some size)
    (hadv : (ofArgs views sizes array).advancing[a]? = some true) : (ofArgs views sizes array).count ≤ view.tupleCount size := by
  have hcount : (views.zipWith (fun view size => view.tupleCount size) sizes)[a]? = some (view.tupleCount size) := by
    rw [List.getElem?_zipWith, hv, hs]
  have hleast : ∀ l : List Nat, view.tupleCount size ∈ l → l.min?.getD 1 ≤ view.tupleCount size := by
    intro l hl
    rcases hmin : l.min? with _ | m
    · rw [List.min?_eq_none_iff.1 hmin] at hl
      cases hl
    · exact (List.min?_eq_some_iff.1 hmin).2 _ hl
  refine hleast _ (List.mem_map.2 ⟨(view.tupleCount size, true), List.mem_filter.2 ⟨?_, rfl⟩, rfl⟩)
  exact List.mem_of_getElem? (List.getElem?_zip_eq_some.2 ⟨hcount, hadv⟩)

/-- What advances has several tuples. -/
theorem one_lt_of_advancing {counts : List Nat} {a n : Nat} (hn : counts[a]? = some n)
    (hadv : (counts.zipWith (fun count whole => !whole && 1 < count) array)[a]? = some true) : 1 < n := by
  rw [List.getElem?_zipWith, hn] at hadv
  rcases hw : array[a]? with _ | whole <;> rw [hw] at hadv
  · cases hadv
  · simp only [Option.some.injEq, Bool.and_eq_true, decide_eq_true_eq] at hadv
    exact hadv.2

theorem count_pos (views : List View) (sizes : List Nat) (array : List Bool) : 0 < (ofArgs views sizes array).count := by
  have hleast : ∀ l : List Nat, (∀ n ∈ l, 1 < n) → 0 < l.min?.getD 1 := by
    intro l hl
    rcases hmin : l.min? with _ | m
    · exact Nat.one_pos
    · exact Nat.lt_of_succ_lt (hl m (List.min?_mem hmin))
  refine hleast _ fun n hn => ?_
  obtain ⟨⟨m, b⟩, hm, rfl⟩ := List.mem_map.1 hn
  obtain ⟨hm, rfl⟩ := List.mem_filter.1 hm
  obtain ⟨k, hk⟩ := List.getElem?_of_mem hm
  obtain ⟨hcount, hadv⟩ := List.getElem?_zip_eq_some.1 hk
  exact one_lt_of_advancing hcount hadv

end Iteration

namespace IterationPlan

/-- The calls of a run are given the views of its iterations, one after the other. -/
theorem args_run (plan : IterationPlan) (core : Core) (args : List View) (count : Nat) (outs : List Payload) :
    (plan.run core args count outs).2.map (·.args) = (List.range count).map (plan.views args) := by
  have key : ∀ (is : List Nat) (outs : List Payload), (plan.runFrom core args is outs).2.map (·.args) = is.map (plan.views args) := by
    intro is
    induction is with
    | nil => exact fun _ => rfl
    | cons i is ih =>
      intro outs
      exact congrArg (plan.views args i :: ·) (ih _)
  exact key _ outs

end IterationPlan

namespace Graph

variable {g : Graph} {id : ProcessId} {p : Process} {arg : ArgDecl}

/-- The channel that is bound to the parameter of an argument. -/
def boundTo (p : Process) (arg : ArgDecl) : Option ChannelId := (p.inputs[arg.param]?).join

/-- The entry that an argument reads: the first of its channel, or the one at or before a key, or at or after it. A weight is computed from
keys, and reads none. -/
def entryRead (g : Graph) (p : Process) (arg : ArgDecl) : Option EntryId :=
  match (boundTo p arg).bind fun c => g.store.read c arg.access (g.keyOf p arg) with
  | some (.entry e) => some e
  | _ => none

/-- An entry that is there, holds something of the class that the operator declares for an argument, and is not written by the process. -/
def Presentable (g : Graph) (p : Process) (arg : ArgDecl) (e : EntryId) : Prop :=
  e ∉ p.writes ∧ ∃ x, g.entryAt? e = some x ∧ x.isEmpty = false ∧ x.type.storage = (p.operator.argType arg).storage

/-- What a kernel is given for an argument is as its operator declares: nothing, where a parameter that is optional is unbound, or something
of the declared class that is not empty. -/
def Validated (p : Process) (arg : ArgDecl) : View → Prop
  | none => boundTo p arg = none ∧ ∀ param, p.operator.params[arg.param]? = some param → param.optional = true
  | some v => v.isEmpty = false ∧ v.storage = (p.operator.argType arg).storage

/-- The inputs of a process without a flaw have none, one by one. -/
theorem inputFlaw_eq_none (hf : g.processFlaw p = none) {k : Nat} {param : ParamDecl} {channel : Option ChannelId}
    (hk : p.operator.params[k]? = some param) (hc : p.inputs[k]? = some channel) : g.inputFlaw p.operator.name param channel = none := by
  unfold processFlaw at hf
  rw [List.findSome?_eq_none_iff] at hf
  exact hf (param, channel) (List.mem_of_getElem? (List.getElem?_zip_eq_some.2 ⟨hk, hc⟩))

/-- A parameter that is unbound is optional. -/
theorem optional_of_unbound (hfit : p.Fitted) (hf : g.processFlaw p = none) (hb : boundTo p arg = none) {param : ParamDecl}
    (hk : p.operator.params[arg.param]? = some param) : param.optional = true := by
  have hlt : arg.param < p.inputs.length := by
    rw [hfit.inputs]
    exact (List.getElem?_eq_some_iff.1 hk).1
  have hc : p.inputs[arg.param]? = some none := by
    unfold boundTo at hb
    rw [List.getElem?_eq_getElem hlt] at hb ⊢
    exact congrArg some hb
  have hflaw := inputFlaw_eq_none hf hk hc
  unfold inputFlaw at hflaw
  simp only [Option.bind_none, Option.isNone_none, Bool.and_true] at hflaw
  by_contra hopt
  rw [if_neg hopt] at hflaw
  cases hflaw

/-- The first entry of a channel that is bound holds something of the parameter's type. -/
theorem first_of_bound (hfit : p.Fitted) (hf : g.processFlaw p = none) {c : ChannelId} (hb : boundTo p arg = some c) :
    ∃ param x, p.operator.params[arg.param]? = some param ∧ g.store.first? c = some x ∧ x.isEmpty = false ∧ x.type = param.type := by
  have hc : p.inputs[arg.param]? = some (some c) := Option.join_eq_some_iff.1 hb
  have hlt : arg.param < p.operator.params.length := by
    rw [← hfit.inputs]
    exact (List.getElem?_eq_some_iff.1 hc).1
  have hflaw := inputFlaw_eq_none hf (List.getElem?_eq_getElem hlt) hc
  unfold inputFlaw at hflaw
  rw [Option.bind_some] at hflaw
  rcases hx : g.store.first? c with _ | x
  · rw [hx] at hflaw
    simp at hflaw
  · rw [hx] at hflaw
    dsimp only at hflaw
    split at hflaw
    · cases hflaw
    · rename_i hempty
      split at hflaw
      · cases hflaw
      · rename_i htype
        exact ⟨_, x, List.getElem?_eq_getElem hlt, rfl, by simpa using hempty, not_not.1 htype⟩

/-- What is given for an argument is as declared just when the entry that it reads, if it reads one, may be shown. -/
theorem validated_iff (hfit : p.Fitted) (hf : g.processFlaw p = none) (arg : ArgDecl) :
    Validated p arg (g.argView p arg) ↔ ∀ e, g.entryRead p arg = some e → g.Presentable p arg e := by
  rcases hb : boundTo p arg with _ | c
  · have hview : g.argView p arg = none := by
      unfold argView
      rw [show (p.inputs[arg.param]?).join = none from hb]
      rfl
    have hread : g.entryRead p arg = none := by
      unfold entryRead
      rw [hb]
      rfl
    rw [hview, hread]
    exact ⟨fun _ _ he => (by cases he), fun _ => ⟨hb, fun _ => optional_of_unbound hfit hf hb⟩⟩
  · obtain ⟨param, x, hparam, hx, -, -⟩ := first_of_bound hfit hf hb
    have hslots : g.store.slots c ≠ [] := by
      intro hnil
      rw [Store.first?, Store.firstId?, hnil] at hx
      cases hx
    rcases Sequence.read_cases g.store.tolerance (g.keyOf p arg) arg.access hslots with ⟨ha, w, hw⟩ | ⟨-, y, -, hy⟩
    · have hview : g.argView p arg = some (.floats [w]) := by
        unfold argView
        rw [show (p.inputs[arg.param]?).join = some c from hb, Option.bind_some, Store.read, hw]
      have hentry : g.entryRead p arg = none := by
        unfold entryRead
        rw [hb, Option.bind_some, Store.read, hw]
      rw [hview, hentry]
      -- a weight is a float
      refine ⟨fun _ _ he => (by cases he), fun _ => ⟨rfl, ?_⟩⟩
      rw [Operator.argType, ha]
      rfl
    · have hview : g.argView p arg =
          if (p.outputs.map (·.2)).contains y.entry then none else (g.entryAt? y.entry).map (·.payload) := by
        unfold argView
        rw [show (p.inputs[arg.param]?).join = some c from hb, Option.bind_some, Store.read, hy]
      have hentry : g.entryRead p arg = some y.entry := by
        unfold entryRead
        rw [hb, Option.bind_some, Store.read, hy]
      rw [hview, hentry]
      simp only [Option.some.injEq, forall_eq']
      rw [List.contains_eq_mem]
      unfold Presentable
      change Validated p arg (if decide (y.entry ∈ p.writes) = true then _ else _) ↔ _
      by_cases hown : y.entry ∈ p.writes
      · simp [hown, Validated, hb]
      · rcases he : g.entryAt? y.entry with _ | e
        · simp [hown, Validated, hb]
        · simp [hown, Validated, Entry.isEmpty, e.storage_eq]

/-- An argument that reads the first entry of its channel reads what was checked, and so does any argument of a channel with one slot. -/
theorem presentable_of_checked (hfit : p.Fitted) (hf : g.processFlaw p = none) {c : ChannelId} (hb : boundTo p arg = some c)
    (ha : arg.access = .first ∨ (g.store.slots c).length = 1) {e : EntryId} (he : g.entryRead p arg = some e) (hown : e ∉ p.writes) :
    g.Presentable p arg e := by
  obtain ⟨param, x, hparam, hx, hempty, htype⟩ := first_of_bound hfit hf hb
  obtain ⟨e', hid, hx⟩ := Option.bind_eq_some_iff.1 hx
  obtain ⟨y, hy, rfl⟩ := Option.map_eq_some_iff.1 hid
  have hslots : g.store.slots c ≠ [] := by
    intro hnil
    rw [hnil] at hy
    cases hy
  unfold entryRead at he
  rw [hb, Option.bind_some, Store.read] at he
  obtain ⟨hweight, w, hw⟩ | ⟨hweight, z, hz, hread⟩ := Sequence.read_cases g.store.tolerance (g.keyOf p arg) arg.access hslots
  · rw [hw] at he
    cases he
  · have hfirst : z.entry = y.entry := by
      rcases ha with ha | ha
      · rw [ha, Sequence.read, hy, Option.map_some, Option.some.injEq, Reading.entry.injEq] at hread
        exact hread.symm
      · obtain ⟨s, hs⟩ := List.length_eq_one_iff.1 ha
        rw [hs] at hy hz
        cases hy
        rw [List.mem_singleton.1 hz]
    rw [hread] at he
    cases he
    rw [hfirst] at hown ⊢
    refine ⟨hown, x, hx, hempty, ?_⟩
    have harg : p.operator.argType arg = param.type := by
      unfold Operator.argType
      rw [hparam]
      cases hacc : arg.access with
      | weight => exact absurd hacc hweight
      | _ => rfl
    rw [harg, htype]

/-- What a kernel is given, call by call: all views at once, or those of every iteration of the operator's plan. -/
def given (op : Operator) (views : List View) : List (List View) :=
  match op.kernel with
  | .evaluate _ => [views]
  | .core _ => (List.range (op.iteration views).count).map
      ((IterationPlan.ofSizes op.argSizes (op.iteration views).advancing op.outputSizes).views views)

/-- The calls that a run of a kernel notes are given just that, if the plan that is kept is the operator's. -/
theorem invocations_runKernel (views : List View) (hv : g.journal.violation = none)
    (hplan : (g.planFor p.operator (p.operator.iteration views).advancing).2 =
      .ofSizes p.operator.argSizes (p.operator.iteration views).advancing p.operator.outputSizes) :
    ∃ made : List Invocation,
      (g.runKernel p views (p.operator.iteration views)).1.journal.invocations = g.journal.invocations ++ made ∧
      made.map (·.call.args) = given p.operator views := by
  have hinvoke : ∀ is, (g.journal.invoke is).invocations = g.journal.invocations ++ is := by
    intro is
    rw [Journal.invoke, hv]
    rfl
  have hjournal : (g.planFor p.operator (p.operator.iteration views).advancing).1.journal = g.journal := by
    obtain ⟨_, he⟩ := planFor_rest g p.operator (p.operator.iteration views).advancing
    rw [he]
  unfold runKernel given
  dsimp only
  rcases p.operator.kernel with core | evaluate <;> dsimp only
  · rw [hjournal, hplan, hinvoke]
    refine ⟨_, rfl, ?_⟩
    rw [List.map_map]
    exact IterationPlan.args_run ..
  · rcases evaluate (p.operator.iteration views) views (g.outputPayloads p) with reason | news
    · exact ⟨_, hinvoke _, rfl⟩
    · exact ⟨_, hinvoke _, rfl⟩

/-- A window of an argument that advances is as declared just when the argument is. -/
theorem validated_window {v : View} {size i : Nat} (hs : 0 < size) (hn : 1 < v.tupleCount size) (hi : i < v.tupleCount size) :
    Validated p arg (v.window (size * i) size) ↔ Validated p arg v := by
  obtain ⟨x, rfl, htexture, hroom⟩ := View.room_of_several hs hn
  have hfit : size * i + size ≤ x.size := by
    calc size * i + size = (i + 1) * size := by rw [Nat.succ_mul, Nat.mul_comm]
      _ ≤ View.tupleCount size (some x) * size := Nat.mul_le_mul_right _ hi
      _ ≤ x.size := hroom
  show (_ ∧ _) ↔ (_ ∧ _)
  rw [Payload.storage_window, Payload.isEmpty_window hs hfit htexture, Payload.isEmpty_of_size (by omega) htexture]

/-- The number of tuples that an argument holds. -/
def tuples (g : Graph) (p : Process) (arg : ArgDecl) : Nat := (g.argView p arg).tupleCount (p.operator.argType arg).tupleSize

/-- Whether an argument is iterated over: it is not flagged as an array and holds more than one tuple. -/
def iterates (g : Graph) (p : Process) (arg : ArgDecl) : Bool := !arg.array && decide (1 < g.tuples p arg)

theorem one_lt_of_iterates (h : g.iterates p arg = true) : 1 < g.tuples p arg := by
  rw [iterates, Bool.and_eq_true, decide_eq_true_eq] at h
  exact h.2

section Argument

variable {a : Nat} (ha : p.operator.args[a]? = some arg)

include ha

theorem getElem?_viewsOf (g : Graph) : (g.viewsOf p)[a]? = some (g.argView p arg) := by
  rw [viewsOf, List.getElem?_map, ha]
  rfl

theorem getElem?_argSizes : p.operator.argSizes[a]? = some (p.operator.argType arg).tupleSize := by
  rw [Operator.argSizes, List.getElem?_map, ha]
  rfl

theorem getElem?_tupleCounts (g : Graph) :
    ((g.viewsOf p).zipWith (fun view size => view.tupleCount size) p.operator.argSizes)[a]? = some (g.tuples p arg) := by
  rw [List.getElem?_zipWith, getElem?_viewsOf ha, getElem?_argSizes ha]
  rfl

theorem getElem?_advancing (g : Graph) : (p.operator.iteration (g.viewsOf p)).advancing[a]? = some (g.iterates p arg) := by
  show (List.zipWith _ _ _)[a]? = _
  rw [List.getElem?_zipWith, getElem?_tupleCounts ha, List.getElem?_map, ha]
  rfl

/-- The view of an argument in an iteration: a tuple of it if it is iterated over, and all of it otherwise. -/
theorem getElem?_views (g : Graph) (i : Nat) :
    ((IterationPlan.ofSizes p.operator.argSizes (p.operator.iteration (g.viewsOf p)).advancing p.operator.outputSizes).views (g.viewsOf p) i)[a]? =
      some (if g.iterates p arg then (g.argView p arg).window ((p.operator.argType arg).tupleSize * i) (p.operator.argType arg).tupleSize
        else g.argView p arg) := by
  have hstride : (IterationPlan.ofSizes p.operator.argSizes (p.operator.iteration (g.viewsOf p)).advancing p.operator.outputSizes).stride a =
      if g.iterates p arg then (p.operator.argType arg).tupleSize else 0 := by
    show ((List.zipWith _ _ _)[a]?).getD 0 = _
    rw [List.getElem?_zipWith, getElem?_argSizes ha, getElem?_advancing ha]
    rfl
  rw [IterationPlan.views, List.getElem?_mapIdx, getElem?_viewsOf ha, Option.map_some, Option.some_inj, IterationPlan.offset, hstride]
  rcases g.iterates p arg with _ | _
  · rfl
  · exact if_neg (Nat.ne_of_gt (p.operator.argType arg).tupleSize_pos)

/-- An argument that is iterated over holds a tuple for every iteration. -/
theorem count_le_tuples (hadv : g.iterates p arg = true) : (p.operator.iteration (g.viewsOf p)).count ≤ g.tuples p arg :=
  Iteration.count_le (getElem?_viewsOf ha g) (getElem?_argSizes ha) ((getElem?_advancing ha g).trans (congrArg some hadv))

end Argument

/-- The view that an iteration is given of an argument: a window of it, if it advances. -/
theorem validated_view_iff {i a : Nat} (hi : i < (p.operator.iteration (g.viewsOf p)).count) (ha : p.operator.args[a]? = some arg) {v : View}
    (hv : ((IterationPlan.ofSizes p.operator.argSizes (p.operator.iteration (g.viewsOf p)).advancing p.operator.outputSizes).views
      (g.viewsOf p) i)[a]? = some v) : Validated p arg v ↔ Validated p arg (g.argView p arg) := by
  rw [getElem?_views ha, Option.some_inj] at hv
  subst hv
  rcases hadv : g.iterates p arg with _ | _
  · exact Iff.rfl
  · exact validated_window (p.operator.argType arg).tupleSize_pos (one_lt_of_iterates hadv) (Nat.lt_of_lt_of_le hi (count_le_tuples ha hadv))

/-- What an iteration is given is as declared just when the views are. -/
theorem validated_views {i : Nat} (hi : i < (p.operator.iteration (g.viewsOf p)).count) :
    List.Forall₂ (Validated p) p.operator.args
        ((IterationPlan.ofSizes p.operator.argSizes (p.operator.iteration (g.viewsOf p)).advancing p.operator.outputSizes).views (g.viewsOf p) i) ↔
      ∀ arg ∈ p.operator.args, Validated p arg (g.argView p arg) := by
  have hlen : ((IterationPlan.ofSizes p.operator.argSizes (p.operator.iteration (g.viewsOf p)).advancing p.operator.outputSizes).views
      (g.viewsOf p) i).length = p.operator.args.length := by
    rw [IterationPlan.views, List.length_mapIdx, viewsOf, List.length_map]
  rw [List.forall₂_iff_get]
  constructor
  · rintro ⟨-, hall⟩ arg harg
    obtain ⟨a, ha⟩ := List.getElem?_of_mem harg
    obtain ⟨hlt, hget⟩ := List.getElem?_eq_some_iff.1 ha
    have := hall a hlt (hlen ▸ hlt)
    rw [List.get_eq_getElem, List.get_eq_getElem, hget] at this
    exact (validated_view_iff hi ha (List.getElem?_eq_getElem _)).1 this
  · intro hall
    refine ⟨hlen.symm, fun a ha ha' => ?_⟩
    rw [List.get_eq_getElem, List.get_eq_getElem]
    exact (validated_view_iff hi (List.getElem?_eq_getElem ha) (List.getElem?_eq_getElem ha')).2 (hall _ (List.getElem_mem ha))

/-- In every graph that calls lead to, when the inputs of a process have no flaw, all that its kernel is given is as its operator declares
just when what the arguments read at their keys is there, not empty, of the declared class, and not written by the process itself. What
reads the first entry of a channel, or from a channel with one slot, reads what was checked. -/
theorem kernel_arguments_validated_iff (h : g.Reachable) (hp : g.processes[id]? = some p) (hf : g.processFlaw p = none) :
    ((∀ views ∈ given p.operator (g.viewsOf p), List.Forall₂ (Validated p) p.operator.args views) ↔
      ∀ arg ∈ p.operator.args, ∀ e, g.entryRead p arg = some e → g.Presentable p arg e) ∧
    ∀ arg ∈ p.operator.args, ∀ c, boundTo p arg = some c → arg.access = .first ∨ (g.store.slots c).length = 1 →
      ∀ e, g.entryRead p arg = some e → e ∉ p.writes → g.Presentable p arg e := by
  have hfit := h.fitted id p hp
  refine ⟨?_, fun arg _ c hb ha e he hown => presentable_of_checked hfit hf hb ha he hown⟩
  have hall : (∀ arg ∈ p.operator.args, Validated p arg (g.argView p arg)) ↔
      ∀ arg ∈ p.operator.args, ∀ e, g.entryRead p arg = some e → g.Presentable p arg e :=
    forall₂_congr fun arg _ => validated_iff hfit hf arg
  rw [← hall]
  unfold given
  rcases p.operator.kernel with core | evaluate <;> dsimp only
  · rw [List.forall_mem_map]
    constructor
    · intro hviews
      have hpos : 0 < (p.operator.iteration (g.viewsOf p)).count := Iteration.count_pos ..
      exact (validated_views hpos).1 (hviews 0 (List.mem_range.2 hpos))
    · intro hvalid i hi
      exact (validated_views (List.mem_range.1 hi)).2 hvalid
  · rw [List.forall_mem_singleton, viewsOf, List.forall₂_map_right_iff]
    exact ⟨fun hv arg harg => (List.forall₂_same.1 hv) arg harg, fun hv => List.forall₂_same.2 hv⟩

/-- The operator that copies numbers is given two of them, which it reads as the first entry of a channel. -/
theorem kernel_arguments_validated_iff_cautious :
    (cautiousGraph [3, 4]).Reachable ∧ ∃ p, (cautiousGraph [3, 4]).processes[4]? = some p ∧ (cautiousGraph [3, 4]).processFlaw p = none ∧
      given p.operator ((cautiousGraph [3, 4]).viewsOf p) = [[some (.ints [3, 4])]] ∧
      ∀ views ∈ given p.operator ((cautiousGraph [3, 4]).viewsOf p), List.Forall₂ (Validated p) p.operator.args views := by
  have h : (cautiousGraph [3, 4]).Reachable := ⟨_, _, _, rfl⟩
  have hchecked : ((cautiousGraph [3, 4]).processes[4]?).map
      (fun p => ((cautiousGraph [3, 4]).processFlaw p, given p.operator ((cautiousGraph [3, 4]).viewsOf p))) =
      some (none, [[some (.ints [3, 4])]]) := by decide +kernel
  have hread : ((cautiousGraph [3, 4]).processes[4]?).map (fun p => (p.operator.args.map ((cautiousGraph [3, 4]).entryRead p),
      p.operator.args.map (boundTo p), p.operator.args.map (·.access), p.writes)) = some ([some 0], [some 0], [.first], [1]) := by decide +kernel
  obtain ⟨p, hp, hq⟩ := Option.map_eq_some_iff.1 hchecked
  rw [hp, Option.map_some, Option.some_inj] at hread
  simp only [Prod.mk.injEq] at hq hread
  obtain ⟨hf, hgiven⟩ := hq
  obtain ⟨hread, hbound, haccess, hw⟩ := hread
  have hiff := kernel_arguments_validated_iff h hp hf
  refine ⟨h, p, hp, hf, hgiven, hiff.1.2 fun arg harg e he => ?_⟩
  have hmem : ∀ {β : Type} (f : ArgDecl → β) (b : β), p.operator.args.map f = [b] → f arg = b := by
    intro β f b hb
    exact List.mem_singleton.1 (hb ▸ List.mem_map_of_mem harg)
  have h0 : e = 0 := Option.some.inj (he.symm.trans (hmem _ _ hread))
  subst h0
  exact hiff.2 arg harg 0 (hmem _ _ hbound) (.inl (hmem _ _ haccess)) 0 he (by simp [hw])

end Graph

end Dataflow
