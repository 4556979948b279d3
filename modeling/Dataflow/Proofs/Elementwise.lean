import Dataflow.Proofs.Arguments
import Dataflow.Proofs.Plans

/-!
# A core runs once per tuple

The loop of a core goes by strides that may have been kept from earlier, and by windows that it cuts from its arguments and its outputs. What
it does can be said without either. In every round the core is given one tuple of each argument that is iterated over and all of the others,
and one tuple of each output; and what it gives is written over these tuples, and nowhere else. So the rounds are independent of each other:
round by round, what an output holds afterwards is what the core made of the tuples that were there.
-/

namespace Dataflow

theorem DataType.storage_ne_texture {t : DataType} (h : t ≠ .texture) : t.storage ≠ .texture := by
  revert h
  cases t <;> decide

namespace Payload

/-- The tuple of a payload at a position: `size` scalars, from the one at `i * size` on. A texture is whole. -/
def tuple (size i : Nat) : Payload → Payload
  | .floats l => .floats ((l.drop (i * size)).take size)
  | .ints l => .ints ((l.drop (i * size)).take size)
  | .bools l => .bools ((l.drop (i * size)).take size)
  | .texture t => .texture t

variable {size i j : Nat} {new old p : Payload}

/-- A window of one tuple that lies within the scalars is that tuple. -/
theorem window_eq_tuple (h : (i + 1) * size ≤ p.size) : p.window (i * size) size = p.tuple size i := by
  have hcut : ∀ {α : Type} (l : List α), (i + 1) * size ≤ l.length → Dataflow.window (i * size) size l = (l.drop (i * size)).take size :=
    fun l hl => if_pos (Nat.succ_mul i size ▸ hl)
  cases p with
  | texture t => rfl
  | floats l | ints l | bools l => simp only [window, tuple, hcut l h]

theorem getElem?_splice {α : Type} {start size x : Nat} (l l' : List α) (hx : x < start ∨ start + size ≤ x) :
    (writeAt.splice start size l l')[x]? = l'[x]? := by
  unfold writeAt.splice
  split
  · rename_i h
    have hfront : (l'.take start).length = start := by
      rw [List.length_take]
      omega
    have hmid : (overwrite l ((l'.drop start).take size)).length = size := by
      rw [length_overwrite, List.length_take, List.length_drop]
      omega
    rcases hx with hx | hx
    · rw [List.append_assoc, List.getElem?_append_left (by omega), List.getElem?_take, if_pos hx]
    · rw [List.getElem?_append_right (by rw [List.length_append]; omega), List.getElem?_drop, List.length_append, hfront, hmid,
        Nat.add_sub_cancel' hx]
  · rfl

/-- What is written over a tuple is there. -/
theorem tuple_writeAt_self (h : (i + 1) * size ≤ old.size) : (writeAt (i * size) size new old).tuple size i = new.write (old.tuple size i) := by
  have hlist : ∀ {α : Type} (l l' : List α), i * size + size ≤ l'.length →
      ((writeAt.splice (i * size) size l l').drop (i * size)).take size = overwrite l ((l'.drop (i * size)).take size) := by
    intro α l l' h
    have hmid : (overwrite l ((l'.drop (i * size)).take size)).length = size := by
      rw [length_overwrite, List.length_take, List.length_drop]
      omega
    rw [writeAt.splice, if_pos h, List.append_assoc, List.drop_left' (by rw [List.length_take]; omega), List.take_left' hmid]
  rw [Nat.succ_mul] at h
  cases new <;> cases old <;> first | rfl | simp only [writeAt, tuple, write, hlist _ _ h]

/-- What is written over a tuple leaves the others. -/
theorem tuple_writeAt_of_ne (h : i ≠ j) (ht : old.storage ≠ .texture) : (writeAt (i * size) size new old).tuple size j = old.tuple size j := by
  have hlist : ∀ {α : Type} (l l' : List α),
      ((writeAt.splice (i * size) size l l').drop (j * size)).take size = (l'.drop (j * size)).take size := by
    intro α l l'
    refine List.ext_getElem? fun k => ?_
    rw [List.getElem?_take, List.getElem?_take]
    split
    · rename_i hk
      rw [List.getElem?_drop, List.getElem?_drop, getElem?_splice]
      rcases Nat.lt_or_gt_of_ne h with hij | hij
      · have hle := Nat.mul_le_mul_right size (Nat.succ_le_of_lt hij)
        rw [Nat.succ_mul] at hle
        omega
      · have hle := Nat.mul_le_mul_right size (Nat.succ_le_of_lt hij)
        rw [Nat.succ_mul] at hle
        omega
    · rfl
  cases old with
  | texture t => exact absurd rfl ht
  | floats l | ints l | bools l => cases new <;> first | rfl | simp only [writeAt, tuple, hlist]

/-- What is of the same shape replaces what it is written over. -/
theorem write_of_shape (h : new.shape = old.shape) : new.write old = new := by
  obtain ⟨hc, hn⟩ := Prod.mk.inj h
  cases new <;> cases old <;> cases hc <;> first | rfl | simp only [size] at hn; simp only [write, overwrite_of_le (Nat.le_of_eq hn.symm), ← hn, List.take_length]

/-- Every scalar of some tuples is in exactly one of them. -/
theorem existsUnique_tuple {count x : Nat} (h : x < count * size) : ∃! i, i < count ∧ i * size ≤ x ∧ x < (i + 1) * size := by
  have hpos : 0 < size := Nat.pos_of_mul_pos_left (Nat.lt_of_le_of_lt (Nat.zero_le x) h)
  refine ⟨x / size, ⟨Nat.div_lt_of_lt_mul (Nat.mul_comm .. ▸ h), Nat.div_mul_le_self .., ?_⟩, ?_⟩
  · rw [Nat.mul_comm]
    exact Nat.lt_mul_div_succ x hpos
  · rintro i ⟨-, hle, hlt⟩
    exact (Nat.div_eq_of_lt_le hle hlt).symm

end Payload

/-- Of an output of a loop, every call was given its own tuple of what was there before, and what is there afterwards has in the same place what
the core gave for the output in this call. -/
def Tuplewise (core : Core) (calls : List KernelCall) (k size : Nat) (old new : Payload) : Prop :=
  ∀ (i : Nat) (call : KernelCall), calls[i]? = some call → call.outs[k]? = some (old.tuple size i) ∧
    new.tuple size i = ((core call.args call.outs)[k]?).elim (old.tuple size i) (·.write (old.tuple size i))

namespace IterationPlan

variable {k size : Nat} {out : Payload} {outs : List Payload} {strides : List Nat}

/-- What an iteration computed for an output, if it computed anything, is written into its window. -/
theorem getElem?_writeWindows (i : Nat) (news : List Payload) (hs : strides[k]? = some size) (ho : outs[k]? = some out) :
    (writeWindows i strides news outs)[k]? = some ((news[k]?).elim out fun new => new.writeAt (i * size) size out) := by
  induction k generalizing strides news outs with
  | zero =>
    rcases strides with _ | ⟨_, strides⟩ <;> cases hs
    rcases outs with _ | ⟨_, outs⟩ <;> cases ho
    rcases news with _ | ⟨new, news⟩ <;> rfl
  | succ k ih =>
    rcases strides with _ | ⟨_, strides⟩
    · cases hs
    rcases outs with _ | ⟨_, outs⟩
    · cases ho
    rcases news with _ | ⟨new, news⟩
    · exact ho
    · exact ih _ hs ho

theorem length_calls (plan : IterationPlan) (core : Core) (args : List View) (is : List Nat) (outs : List Payload) :
    (plan.runFrom core args is outs).2.length = is.length := by
  induction is generalizing outs with
  | nil => rfl
  | cons i is ih => exact congrArg (· + 1) (ih _)

/-- A loop through different iterations gives each its own tuple of an output, as it was before the loop, and leaves there what the core gave for
it; the other tuples stay. -/
theorem runFrom_tuples (plan : IterationPlan) (core : Core) (args : List View) (hs : plan.outStrides[k]? = some size)
    (ht : out.storage ≠ .texture) {is : List Nat} (hn : is.Nodup) (hfit : ∀ i ∈ is, (i + 1) * size ≤ out.size) (ho : outs[k]? = some out) :
    ∃ out', (plan.runFrom core args is outs).1[k]? = some out' ∧ out'.shape = out.shape ∧ (∀ j, j ∉ is → out'.tuple size j = out.tuple size j) ∧
      ∀ (n i : Nat) (call : KernelCall), is[n]? = some i → (plan.runFrom core args is outs).2[n]? = some call →
        call.outs[k]? = some (out.tuple size i) ∧
        out'.tuple size i = ((core call.args call.outs)[k]?).elim (out.tuple size i) (·.write (out.tuple size i)) := by
  induction is generalizing outs out with
  | nil => exact ⟨out, ho, rfl, fun _ _ => rfl, nofun⟩
  | cons i is ih =>
    obtain ⟨hi, hn⟩ := List.nodup_cons.1 hn
    have hbound := hfit i List.mem_cons_self
    have hwindow : (plan.windows outs i)[k]? = some (out.tuple size i) := by
      rw [windows, List.getElem?_zipWith, ho, hs]
      exact congrArg some (Payload.window_eq_tuple hbound)
    -- the output after this iteration
    generalize hnew : (core (plan.views args i) (plan.windows outs i))[k]? = new
    have hstep := getElem?_writeWindows i (core (plan.views args i) (plan.windows outs i)) hs ho
    rw [hnew] at hstep
    have hshape : (new.elim out fun new => new.writeAt (i * size) size out).shape = out.shape := by
      rcases new with _ | new
      · rfl
      · exact Prod.ext (Payload.storage_writeAt ..) (Payload.size_writeAt ..)
    have hself : (new.elim out fun new => new.writeAt (i * size) size out).tuple size i = new.elim (out.tuple size i) (·.write (out.tuple size i)) := by
      rcases new with _ | new
      · rfl
      · exact Payload.tuple_writeAt_self hbound
    have hother : ∀ j, j ≠ i → (new.elim out fun new => new.writeAt (i * size) size out).tuple size j = out.tuple size j := by
      intro j hj
      rcases new with _ | new
      · rfl
      · exact Payload.tuple_writeAt_of_ne (Ne.symm hj) ht
    generalize (new.elim out fun new => new.writeAt (i * size) size out) = mid at hstep hshape hself hother
    obtain ⟨hstorage, hsize⟩ := Prod.mk.inj hshape
    obtain ⟨out', hout', hshape', hrest, hcalls⟩ := ih (hstorage ▸ ht : mid.storage ≠ .texture) hn
      (fun j hj => hsize ▸ hfit j (List.mem_cons_of_mem _ hj)) hstep
    refine ⟨out', hout', hshape'.trans hshape, fun j hj => ?_, fun n j call hj hcall => ?_⟩
    · rw [List.mem_cons, not_or] at hj
      exact (hrest j hj.2).trans (hother j hj.1)
    · cases n with
      | zero =>
        -- the rest of the loop leaves the tuple of this iteration
        cases hj
        cases hcall
        refine ⟨hwindow, ?_⟩
        calc out'.tuple size i = new.elim (out.tuple size i) (·.write (out.tuple size i)) := (hrest i hi).trans hself
          _ = _ := by rw [← hnew]
      | succ n =>
        have hne : j ≠ i := fun he => hi (he ▸ List.mem_of_getElem? hj)
        have hlater := hcalls n j call hj hcall
        rwa [hother j hne] at hlater

end IterationPlan

namespace Graph

variable {c : Call} {g g' : Graph} {id : ProcessId} {p : Process} {arg : ArgDecl} {core : Core}

/-! ## The rounds of a core, and what it sees in each -/

/-- How often a core runs: as often as there are tuples in each of the arguments that are iterated over, and once if there are none. -/
def rounds (g : Graph) (p : Process) : Nat := ((p.operator.args.filter (g.iterates p)).map (g.tuples p)).min?.getD 1

/-- What a core sees of an argument in a round: a tuple of it if it is iterated over, and all of it otherwise. -/
def seen (g : Graph) (p : Process) (i : Nat) (arg : ArgDecl) : View :=
  if g.iterates p arg then (g.argView p arg).map (Payload.tuple (p.operator.argType arg).tupleSize i) else g.argView p arg

theorem count_iteration (g : Graph) (p : Process) : (p.operator.iteration (g.viewsOf p)).count = g.rounds p := by
  have hcounts : (g.viewsOf p).zipWith (fun view size => view.tupleCount size) p.operator.argSizes = p.operator.args.map (g.tuples p) := by
    rw [viewsOf, Operator.argSizes, List.zipWith_map, List.zipWith_self]
    rfl
  have hadvancing : (p.operator.args.map (g.tuples p)).zipWith (fun count whole => !whole && decide (1 < count)) (p.operator.args.map (·.array)) =
      p.operator.args.map (g.iterates p) := by
    rw [List.zipWith_map, List.zipWith_self]
    rfl
  have hcount : (p.operator.iteration (g.viewsOf p)).count =
      ((((p.operator.args.map (g.tuples p)).zip (p.operator.args.map (g.iterates p))).filter (·.2)).map (·.1)).min?.getD 1 := by
    rw [← hadvancing, ← hcounts]
    rfl
  rw [hcount, List.zip_map', List.filter_map, List.map_map]
  rfl

/-- An argument that is iterated over has a tuple for every round. -/
theorem room_of_iterates (harg : arg ∈ p.operator.args) (hadv : g.iterates p arg = true) :
    ∃ x, g.argView p arg = some x ∧ x.storage ≠ .texture ∧ g.rounds p * (p.operator.argType arg).tupleSize ≤ x.size := by
  obtain ⟨x, hx, ht, hroom⟩ := View.room_of_several (p.operator.argType arg).tupleSize_pos (one_lt_of_iterates hadv)
  obtain ⟨a, ha⟩ := List.getElem?_of_mem harg
  have hle : g.rounds p ≤ g.tuples p arg := count_iteration g p ▸ count_le_tuples ha hadv
  exact ⟨x, hx, ht, (Nat.mul_le_mul_right _ hle).trans hroom⟩

/-- The plan that the operator and the arguments of a process give. -/
def ownPlan (g : Graph) (p : Process) : IterationPlan :=
  .ofSizes p.operator.argSizes (p.operator.iteration (g.viewsOf p)).advancing p.operator.outputSizes

/-- The views of a round are what the core sees of the arguments. -/
theorem views_ownPlan {i : Nat} (hi : i < g.rounds p) : (g.ownPlan p).views (g.viewsOf p) i = p.operator.args.map (g.seen p i) := by
  unfold ownPlan
  refine List.ext_getElem? fun a => ?_
  rcases ha : p.operator.args[a]? with _ | arg
  · have hlen := List.getElem?_eq_none_iff.1 ha
    rw [List.getElem?_map, ha, List.getElem?_eq_none]
    · rfl
    · rwa [IterationPlan.views, List.length_mapIdx, viewsOf, List.length_map]
  · rw [getElem?_views ha, List.getElem?_map, ha, Option.map_some, Option.some_inj, seen]
    split
    · rename_i hadv
      obtain ⟨x, hx, -, hroom⟩ := room_of_iterates (List.mem_of_getElem? ha) hadv
      rw [hx, Nat.mul_comm]
      exact congrArg some (Payload.window_eq_tuple (Nat.le_trans (Nat.mul_le_mul_right _ hi) hroom))
    · rfl

/-! ## The run of a core -/

/-- The two checks before a kernel is asked hold when the inputs have no flaw. -/
theorem violation_prepare (hfit : p.Fitted) (hf : g.processFlaw p = none) (hv : g.journal.violation = none) :
    (g.prepare p).journal.violation = none := by
  unfold prepare
  dsimp only
  generalize hfits : (((g.viewsOf p).zip p.operator.argSizes).zip (p.operator.iteration (g.viewsOf p)).advancing).all _ = fits
  generalize hbound : (p.operator.params.zip p.inputs).all _ = bound
  obtain rfl : fits = true := by
    refine hfits.symm.trans (List.all_eq_true.2 ?_)
    rintro ⟨⟨view, size⟩, advances⟩ hmem
    obtain ⟨a, ha⟩ := List.getElem?_of_mem hmem
    obtain ⟨hvs, hadv⟩ := List.getElem?_zip_eq_some.1 ha
    obtain ⟨hview, hsize⟩ := List.getElem?_zip_eq_some.1 hvs
    rcases advances with _ | _
    · rfl
    · exact decide_eq_true (Iteration.count_le hview hsize hadv)
  obtain rfl : bound = true := by
    refine hbound.symm.trans (List.all_eq_true.2 ?_)
    rintro ⟨param, channel⟩ hmem
    obtain ⟨k, hk⟩ := List.getElem?_of_mem hmem
    obtain ⟨hparam, hchannel⟩ := List.getElem?_zip_eq_some.1 hk
    rcases channel with _ | c
    · have hunbound : boundTo p ⟨k, .first, none, false⟩ = none := by
        rw [boundTo, hchannel]
        rfl
      exact Bool.or_eq_true_iff.2 (.inl (optional_of_unbound hfit hf hunbound hparam))
    · exact Bool.or_true _
  have hchecks : ∀ j : Journal, j.Silent ((j.check .broadcastSound true p.operator.name).check .inputValidated true p.operator.name) := fun j =>
    (Journal.silent_check j _ rfl _).trans (Journal.silent_check _ _ rfl _)
  split
  · exact ((Journal.silent_notice ..).trans (hchecks _)).violation hv
  · exact (hchecks _).violation hv

/-- The outputs after the loop of a process's core, and the calls that it made. -/
def loop (g : Graph) (p : Process) (core : Core) : List Payload × List KernelCall :=
  (g.ownPlan p).run core (g.viewsOf p) (g.rounds p) ((g.prepare p).outputPayloads p)

/-- A core is not refused; what it computed in the loop is written over the outputs, and its calls are noted. -/
theorem applyOperator_core (hk : p.operator.kernel = .core core)
    (hplan : ((g.prepare p).planFor p.operator (p.operator.iteration (g.viewsOf p)).advancing).2 = g.ownPlan p) :
    (g.applyOperator p).2 = none ∧ (g.applyOperator p).1.store = ((g.prepare p).writeOutputs p (g.loop p core).1).store ∧
      (g.applyOperator p).1.journal = (g.prepare p).journal.invoke ((g.loop p core).2.map fun call => ⟨p.operator.name, call, false⟩) := by
  obtain ⟨plans, hrest⟩ := planFor_rest (g.prepare p) p.operator (p.operator.iteration (g.viewsOf p)).advancing
  rw [applyOperator_eq, runKernel]
  simp only [hk, hplan, hrest, writeOutputs, count_iteration]
  exact ⟨trivial, rfl, rfl⟩

theorem length_loop (g : Graph) (p : Process) (core : Core) : (g.loop p core).2.length = g.rounds p :=
  (IterationPlan.length_calls ..).trans List.length_range

theorem args_loop {i : Nat} {call : KernelCall} (hcall : (g.loop p core).2[i]? = some call) : call.args = p.operator.args.map (g.seen p i) := by
  have hi : i < g.rounds p := length_loop g p core ▸ (List.getElem?_eq_some_iff.1 hcall).1
  have hargs := congrArg (·[i]?) (IterationPlan.args_run (g.ownPlan p) core (g.viewsOf p) (g.rounds p) ((g.prepare p).outputPayloads p))
  rw [List.getElem?_map, show (IterationPlan.run ..).2[i]? = some call from hcall, List.getElem?_map, List.getElem?_range hi] at hargs
  exact (Option.some.inj hargs).trans (views_ownPlan hi)

theorem getElem?_outputPayloads (hlive : ∀ o ∈ p.outputs, (g.entryAt? o.2).isSome) (k : Nat) :
    (g.outputPayloads p)[k]? = (p.outputs[k]?).bind fun o => (g.entryAt? o.2).map (·.payload) := by
  show (p.outputs.filterMap fun o => (g.entryAt? o.2).map (·.payload))[k]? = _
  generalize p.outputs = outs at hlive
  induction outs generalizing k with
  | nil => rfl
  | cons o outs ih =>
    obtain ⟨e, he⟩ := Option.isSome_iff_exists.1 (hlive o List.mem_cons_self)
    rw [List.filterMap_cons, he]
    cases k with
    | zero => exact (congrArg (Option.map Entry.payload) he).symm
    | succ k => exact ih k fun o ho => hlive o (List.mem_cons_of_mem _ ho)

/-- An output of a process holds as many tuples as there were rounds; each round was given its own, resized but otherwise as it was before the
loop, and left there what the core gave for it. -/
theorem exists_output_loop (core : Core) (ha : g.Arranged) (hfit : p.Fitted) (hp : g.processes[id]? = some p) {k : Nat} {o : String × EntryId} {decl : OutputDecl}
    (ho : p.outputs[k]? = some o) (hdecl : p.operator.outputs[k]? = some decl) (hcustom : decl.custom = false)
    (ht : decl.type.storage ≠ .texture) :
    ∃ old new, g.entryAt? o.2 = some old ∧ ((g.prepare p).writeOutputs p (g.loop p core).1).entryAt? o.2 = some new ∧
      new.payload.storage = decl.type.storage ∧ new.payload.size = g.rounds p * decl.type.tupleSize ∧
      Tuplewise core (g.loop p core).2 k decl.type.tupleSize (old.payload.resize (g.rounds p * decl.type.tupleSize)) new.payload := by
  have hprepared : ∀ (j : Nat) (o : String × EntryId), p.outputs[j]? = some o →
      ∃ e n, g.entryAt? o.2 = some e ∧ (g.room p)[j]? = some n ∧ (g.prepare p).entryAt? o.2 = some (e.resize n) := by
    intro j o ho
    obtain ⟨_, _, -, he, -⟩ := ha.output hp ho
    exact entryAt?_prepare hfit ho (Option.isSome_iff_exists.2 ⟨_, he⟩)
  have hlive : ∀ o ∈ p.outputs, ((g.prepare p).entryAt? o.2).isSome := by
    intro o ho
    obtain ⟨j, hj⟩ := List.getElem?_of_mem ho
    obtain ⟨_, _, -, -, he⟩ := hprepared j o hj
    exact Option.isSome_iff_exists.2 ⟨_, he⟩
  obtain ⟨old, n, hold, hn, hold'⟩ := hprepared k o ho
  -- the output was resized to as many tuples as there are rounds
  rw [room, Operator.lengths, List.getElem?_mapIdx, hdecl, Option.map_some, Option.some_inj, OutputDecl.length, hcustom, count_iteration] at hn
  change g.rounds p * decl.type.tupleSize = n at hn
  subst hn
  have hout : ((g.prepare p).outputPayloads p)[k]? = some (old.payload.resize (g.rounds p * decl.type.tupleSize)) := by
    rw [getElem?_outputPayloads hlive, ho, Option.bind_some, hold']
    rfl
  have hstorage : (old.payload.resize (g.rounds p * decl.type.tupleSize)).storage = decl.type.storage := by
    obtain ⟨decl', e, hdecl', he, hty⟩ := ha.output hp ho
    obtain rfl : decl = decl' := Option.some.inj (hdecl.symm.trans hdecl')
    obtain rfl : old = e := Option.some.inj (hold.symm.trans he)
    rw [Payload.storage_resize, old.storage_eq, hty]
  have hsize : (old.payload.resize (g.rounds p * decl.type.tupleSize)).size = g.rounds p * decl.type.tupleSize := by
    rw [Payload.storage_resize] at hstorage
    exact Payload.size_resize _ _ (hstorage ▸ ht)
  have hstride : (g.ownPlan p).outStrides[k]? = some decl.type.tupleSize := by
    show p.operator.outputSizes[k]? = _
    rw [Operator.outputSizes, List.getElem?_map, hdecl]
    rfl
  obtain ⟨out, hloop, hshape, -, hcalls⟩ := (g.ownPlan p).runFrom_tuples core (g.viewsOf p) hstride (hstorage ▸ ht)
    (List.nodup_range (n := g.rounds p)) (fun i hi => (Nat.mul_le_mul_right _ (List.mem_range.1 hi)).trans_eq hsize.symm) hout
  have hpayload : ((old.resize (g.rounds p * decl.type.tupleSize)).write out).payload = out := Payload.write_of_shape hshape
  refine ⟨old, (old.resize (g.rounds p * decl.type.tupleSize)).write out, hold, ?_, ?_, ?_, ?_⟩
  · have hnew := Store.entryAt?_modifyAll_zip (f := fun new (e : Entry) => e.write new) hfit.distinct ho hloop (g.prepare p).store
    exact hnew.trans (congrArg (Option.map fun e : Entry => e.write out) hold')
  · rw [hpayload]
    exact (congrArg Prod.fst hshape).trans hstorage
  · rw [hpayload]
    exact (congrArg Prod.snd hshape).trans hsize
  · intro i call hcall
    have hi : i < g.rounds p := length_loop g p core ▸ (List.getElem?_eq_some_iff.1 hcall).1
    rw [hpayload]
    exact hcalls i i call (List.getElem?_range hi) hcall

/-- A run of a core, said tuple by tuple. It is not refused, and its calls are noted. There are as many as there are rounds, for which every
argument that is iterated over has its tuples; and the core sees, in each round, one tuple of these arguments and all of the others. Of every
output that is not sized by the operator, which has one tuple for each round, it sees the round's tuple as it was before the run,
resized; the same tuple holds afterwards what the core gave in this round; and every scalar is in the tuple of one round. -/
structure Elementwise (g : Graph) (p : Process) (core : Core) (calls : List KernelCall) : Prop where
  done : (g.applyOperator p).2 = none
  noted : g.journal.violation = none →
    (g.applyOperator p).1.journal.invocations = g.journal.invocations ++ calls.map fun call => ⟨p.operator.name, call, false⟩
  rounds : calls.length = g.rounds p
  room : ∀ arg ∈ p.operator.args, g.iterates p arg = true →
    ∃ x, g.argView p arg = some x ∧ x.storage ≠ .texture ∧ g.rounds p * (p.operator.argType arg).tupleSize ≤ x.size
  args : ∀ (i : Nat) (call : KernelCall), calls[i]? = some call → call.args = p.operator.args.map (g.seen p i)
  outs : ∀ (k : Nat) (o : String × EntryId) (decl : OutputDecl), p.outputs[k]? = some o → p.operator.outputs[k]? = some decl →
    decl.custom = false → ∃ old new, g.entryAt? o.2 = some old ∧ (g.applyOperator p).1.entryAt? o.2 = some new ∧
      new.payload.storage = decl.type.storage ∧ new.payload.size = g.rounds p * decl.type.tupleSize ∧
      Tuplewise core calls k decl.type.tupleSize (old.payload.resize (g.rounds p * decl.type.tupleSize)) new.payload ∧
      ∀ x < new.payload.size, ∃! i, i < g.rounds p ∧ i * decl.type.tupleSize ≤ x ∧ x < (i + 1) * decl.type.tupleSize

/-- Whenever a process of a core has its turn in a call and its inputs have no flaw, the core runs tuple by tuple, whatever plans were kept
before; and the run of a process that has to run is this run. -/
theorem broadcast_elementwise {descriptors : List (String × Descriptor)} {registry : Registry} {log : List Notice}
    (hreg : Registry.empty.registerAll descriptors = .ok (registry, log)) (config : Config) (calls : List Call)
    (ht : ((new registry config).after calls).Turn c g' id) (hp : g'.processes[id]? = some p) (hf : g'.processFlaw p = none)
    (hk : p.operator.kernel = .core core) :
    (∃ kernelCalls, g'.Elementwise p core kernelCalls) ∧
      (p.state = .unprocessed → g'.runProcess id = (g'.applyOperator p).1.setState id .processed) := by
  have h : ((new registry config).after calls).Reachable := ⟨_, _, _, rfl⟩
  obtain ⟨harranged, hfit, hcatalogued, hregistry⟩ : g'.Arranged ∧ p.Fitted ∧ g'.Catalogued ∧ g'.registry = registry := by
    cases ht with
    | mk hrun hschedule =>
      exact ⟨h.arranged_runs hrun _, h.fitted_runs hrun _ id p hp, h.catalogued_runs hrun _,
        (h.registry_runs hrun _).trans (registry_after registry config calls)⟩
  -- a core may not have texture outputs
  have hnumeric : ∀ decl ∈ p.operator.outputs, decl.type ≠ .texture := by
    obtain ⟨name, hop⟩ := hcatalogued.registered id p hp
    rw [hregistry] at hop
    exact Registry.forall_registerAll (P := fun _ op => ∀ core, op.kernel = .core core → ∀ decl ∈ op.outputs, decl.type ≠ .texture)
      (fun hop _ hk => Operator.type_ne_texture_of_ofDescriptor hop hk)
      (fun x op hx => absurd (hx.symm.trans (Registry.get?_empty x)) (Option.some_ne_none op)) hreg name p.operator hop core hk
  have hthins : g'.Thins (g'.prepare p) := .restate (restated_prepare g' p)
  have hnamed : (g'.prepare p).registry.WellNamed := by
    rw [hthins.registry, hregistry]
    exact Registry.wellNamed_empty.registerAll hreg
  have hplan := (hcatalogued.thins hthins).planFor hnamed (processes_prepare g' p ▸ hp) (p.operator.iteration (g'.viewsOf p)).advancing
  obtain ⟨hdone, hstore, hjournal⟩ := applyOperator_core hk hplan
  refine ⟨⟨(g'.loop p core).2, hdone, fun hv => ?_, length_loop g' p core, fun arg => room_of_iterates, fun i call => args_loop,
    fun k o decl ho hdecl hcustom => ?_⟩, fun hs => ?_⟩
  · rw [hjournal, Journal.invoke, violation_prepare hfit hf hv, ← invocations_prepare g' p]
    rfl
  · obtain ⟨old, new, hold, hnew, hclass, hsize, hcalls⟩ := exists_output_loop core harranged hfit hp ho hdecl hcustom
      (DataType.storage_ne_texture (hnumeric decl (List.mem_of_getElem? hdecl)))
    have hafter : (g'.applyOperator p).1.entryAt? o.2 = some new := by
      rw [entryAt?, hstore]
      exact hnew
    exact ⟨old, new, hold, hafter, hclass, hsize, hcalls, fun x hx => Payload.existsUnique_tuple (hsize ▸ hx)⟩
  · rw [runProcess, hp]
    dsimp only
    rw [if_neg (not_not_intro hs), hf]
    rcases ha : g'.applyOperator p with ⟨g₁, _ | reason⟩
    · rfl
    · rw [ha] at hdone
      cases hdone

/-- An operator that adds a number to quadruples of numbers, as declared. -/
def shifting : Descriptor where
  outputs := [{ type := "int4", name := "y" }]
  params := [{ type := "int4", source := "x" }, { type := "int", source := "k" }]
  core := some fun views _ => [.ints ((views.headD none).ints.map (· + (views.getLastD none).ints.headD 0))]

/-- The operator that adds a number to quadruples of numbers. -/
def shifter : Operator where
  name := "shift"
  outputs := [⟨.int4, "y", false⟩]
  params := [⟨.int4, "x", false, false⟩, ⟨.int, "k", false, false⟩]
  args := [⟨0, .first, none, false⟩, ⟨1, .first, none, false⟩]
  alloc := none
  kernel := .core fun views _ => [.ints ((views.headD none).ints.map (· + (views.getLastD none).ints.headD 0))]

/-- The operator under its name. -/
def shifters : Registry := ⟨(∅ : NameMap Operator).insert "shift" shifter⟩

/-- A number was added to three quadruples; then there are two, and a scalar more. -/
def shiftedCalls : List Call :=
  [.createData false, .createLeaf, .createLeaf, .createPayload .int4 (.ints [0, 0, 0, 0, 0, 0, 0, 0, 0, 0, 0, 0]), .createPayload .int (.ints [10]),
    .setName 1 "x", .setName 2 "k", .setData 1 (some 0), .setData 2 (some 1), .appendChild 0 1, .appendChild 0 2, .setCompute 0 "y = shift(x, k)",
    .createRequest 0 ["y"], .pull 2, .setPayload 0 (.ints [1, 2, 3, 4, 5, 6, 7, 8, 9])]

/-- The plan of the first pull is kept. The second has the process run, with as many rounds as there are quadruples now; each is given one of
them, and the number. -/
theorem broadcast_elementwise_shifted :
    Registry.empty.registerAll [("shift", shifting)] = .ok (shifters, []) ∧
      ∃ g' p core calls, ((new shifters {}).after shiftedCalls).Turn (.pull 2) g' 4 ∧ g'.plans.isEmpty = false ∧ g'.processes[4]? = some p ∧
        g'.processFlaw p = none ∧ p.operator.kernel = .core core ∧ g'.Elementwise p core calls ∧
        calls.map (·.args) = [[some (.ints [1, 2, 3, 4]), some (.ints [10])], [some (.ints [5, 6, 7, 8]), some (.ints [10])]] ∧
        ((g'.applyOperator p).1.entryAt? 2).map (·.payload) = some (.ints [11, 12, 13, 14, 15, 16, 17, 18]) := by
  have hreg : Registry.empty.registerAll [("shift", shifting)] = .ok (shifters, []) := rfl
  have hall : (((new shifters {}).after shiftedCalls).settled.running (.pull 2)).map (fun x => (x.2, (x.1.scheduleOf x.2).toOption,
      x.1.plans.isEmpty, x.1.journal.violation)) = some ([4], some [4], false, none) := by decide +kernel
  have hinvocations : (((new shifters {}).after shiftedCalls).settled.running (.pull 2)).map (·.1.journal.invocations) = some [] := by
    decide +kernel
  have hflaw : (((new shifters {}).after shiftedCalls).settled.running (.pull 2)).map (fun x => (x.1.processes[4]?).map x.1.processFlaw) =
      some (some none) := by decide +kernel
  have hargs : (((new shifters {}).after shiftedCalls).settled.running (.pull 2)).map (fun x => (x.1.processes[4]?).map fun p =>
      (x.1.applyOperator p).1.journal.invocations.map (·.call.args)) =
      some (some [[some (.ints [1, 2, 3, 4]), some (.ints [10])], [some (.ints [5, 6, 7, 8]), some (.ints [10])]]) := by decide +kernel
  have hentry : (((new shifters {}).after shiftedCalls).settled.running (.pull 2)).map (fun x => (x.1.processes[4]?).map fun p =>
      ((x.1.applyOperator p).1.entryAt? 2).map (·.payload)) = some (some (some (.ints [11, 12, 13, 14, 15, 16, 17, 18]))) := by decide +kernel
  have hkernel : (((new shifters {}).after shiftedCalls).settled.running (.pull 2)).map (fun x => (x.1.processes[4]?).map fun p =>
      p.operator.kernel.casesOn (motive := fun _ => Bool) (fun _ => true) fun _ => false) = some (some true) := by decide +kernel
  obtain ⟨⟨g', roots⟩, hrun, hx⟩ := Option.map_eq_some_iff.1 hall
  simp only [hrun, Option.map_some, Option.some_inj, Prod.mk.injEq] at hx hinvocations hflaw hargs hentry hkernel
  obtain ⟨rfl, horder, hplans, hviolation⟩ := hx
  obtain ⟨p, hp, hf⟩ := Option.map_eq_some_iff.1 hflaw
  rw [hp, Option.map_some, Option.some_inj] at hargs hentry hkernel
  obtain ⟨core, hk⟩ : ∃ core, p.operator.kernel = .core core := by
    rcases hk : p.operator.kernel with core | evaluate
    · exact ⟨core, rfl⟩
    · rw [hk] at hkernel
      cases hkernel
  have hschedule : g'.scheduleOf [4] = .ok ([] ++ 4 :: []) := by
    rcases ho : g'.scheduleOf [4] with e | order
    · rw [ho] at horder
      cases horder
    · rw [ho] at horder
      exact congrArg Except.ok (Option.some.inj horder)
  have hturn : ((new shifters {}).after shiftedCalls).Turn (.pull 2) g' 4 := .mk hrun hschedule
  obtain ⟨calls, he⟩ := (broadcast_elementwise hreg {} shiftedCalls hturn hp hf hk).1
  rw [he.noted hviolation, hinvocations, List.nil_append, List.map_map] at hargs
  exact ⟨hreg, g', p, core, calls, hturn, hplans, hp, hf, hk, he, hargs, hentry⟩

end Graph

end Dataflow
