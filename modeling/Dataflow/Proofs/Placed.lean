import Dataflow.Proofs.Declared
import Dataflow.Proofs.Elementwise

/-!
# What a run looks up by position is there

The run of a process finds by position what its operator says in terms of names: the channel and the key of an argument among the inputs, an
output among those that the process writes, the stride of an argument in a plan. None of these look-ups is guarded. They find something
because the operator was checked when it was declared, so that every name stands for a parameter that it has; because the process was made
after it, with an input for every parameter and an entry for every output; and because a plan that was kept was made for the same
operator.
-/

namespace Dataflow

namespace Graph

variable {g : Graph} {id : ProcessId} {p : Process} {name : String} {d : Descriptor}

/-- What a run of a process looks up by position is there: the parameter of every argument, and the input bound to it; the input that holds the
key of an argument; for every output, an entry of its type, and what that holds; and the stride of an argument, in the plan of the run. -/
structure Placed (g : Graph) (p : Process) : Prop where
  param : ∀ arg ∈ p.operator.args, arg.param < p.operator.params.length
  input : ∀ arg ∈ p.operator.args, arg.param < p.inputs.length
  key : ∀ arg ∈ p.operator.args, ∀ k, arg.key = some k → k < p.inputs.length
  output : ∀ (i : Nat) (decl : OutputDecl), p.operator.outputs[i]? = some decl →
    ∃ (o : String × EntryId) (e : Entry), p.outputs[i]? = some o ∧ g.entryAt? o.2 = some e ∧ e.type = decl.type ∧ (g.outputPayloads p)[i]? = some e.payload
  stride : ∀ (a : Nat) (arg : ArgDecl), p.operator.args[a]? = some arg →
    ((g.prepare p).planFor p.operator (p.operator.iteration (g.viewsOf p)).advancing).2.argStrides[a]? =
      some (if g.iterates p arg then (p.operator.argType arg).tupleSize else 0)

/-- The own plan of a process has a stride for each of its arguments. -/
theorem getElem?_argStrides (g : Graph) {a : Nat} {arg : ArgDecl} (ha : p.operator.args[a]? = some arg) :
    (g.ownPlan p).argStrides[a]? = some (if g.iterates p arg then (p.operator.argType arg).tupleSize else 0) := by
  show (List.zipWith _ _ _)[a]? = _
  rw [List.getElem?_zipWith, getElem?_argSizes ha, getElem?_advancing ha]

/-- A process of a declared operator looks up what is there, where the processes are arranged and the plans are those of a registry. -/
theorem placed_of_declared (ha : g.Arranged) (hfit : p.Fitted) (hc : g.Catalogued) (hreg : g.registry.WellNamed) (hp : g.processes[id]? = some p)
    (hop : p.operator.Declared name d) : g.Placed p := by
  have hlive : ∀ o ∈ p.outputs, (g.entryAt? o.2).isSome := by
    intro o ho
    obtain ⟨k, hk⟩ := List.getElem?_of_mem ho
    obtain ⟨_, e, -, he, -⟩ := ha.output hp hk
    exact Option.isSome_iff_exists.2 ⟨e, he⟩
  refine ⟨fun arg harg => (hop.arg_lt harg).1, fun arg harg => ?_, fun arg harg k hk => ?_, fun i decl hdecl => ?_, fun a arg harg => ?_⟩
  · rw [hfit.inputs]
    exact (hop.arg_lt harg).1
  · rw [hfit.inputs]
    exact (hop.arg_lt harg).2 k hk
  · have hi : i < p.outputs.length := hfit.outputs ▸ (List.getElem?_eq_some_iff.1 hdecl).1
    have ho : p.outputs[i]? = some p.outputs[i] := List.getElem?_eq_getElem hi
    obtain ⟨decl', e, hdecl', he, ht⟩ := ha.output hp ho
    obtain rfl : decl = decl' := Option.some.inj (hdecl.symm.trans hdecl')
    refine ⟨_, e, ho, he, ht, ?_⟩
    rw [getElem?_outputPayloads hlive, ho, Option.bind_some, he]
    rfl
  · -- a plan that was kept is the one that the process would make
    have hthins : g.Thins (g.prepare p) := .restate (restated_prepare g p)
    have hplan := (hc.thins hthins).planFor (hthins.registry ▸ hreg) (processes_prepare g p ▸ hp) (p.operator.iteration (g.viewsOf p)).advancing
    rw [hplan]
    exact getElem?_argStrides g harg

theorem Reachable.catalogued (h : g.Reachable) : g.Catalogued :=
  h.held catalogued_new fun _ _ _ _ _ m hd _ hs hc => catalogued_move m hd hs hc

/-- A descriptor makes an operator exactly when it is valid, and is refused for the first of its flaws otherwise. The operator is what was declared;
and in every graph with a registry of declared operators, whatever it has been through, the processes of the operator look up what is there.
So they do in the middle of a call, when some process has its turn. -/
theorem ofDescriptor_exact (name : String) (d : Descriptor) :
    ((∃ op, Operator.ofDescriptor name d = .ok op) ↔ d.Valid) ∧
    (∀ e, Operator.ofDescriptor name d = .error e ↔ (d.flaws name).head? = some e) ∧
    ∀ op, Operator.ofDescriptor name d = .ok op → op.Declared name d ∧
      ∀ descriptors registry log, Registry.empty.registerAll descriptors = .ok (registry, log) → ∀ config calls g',
        (g' = (new registry config).after calls ∨ ∃ c id, ((new registry config).after calls).Turn c g' id) →
        ∀ (id : ProcessId) (p : Process), g'.processes[id]? = some p → p.operator = op → g'.Placed p := by
  have hreports := Operator.reports_ofDescriptor name d
  refine ⟨hreports.ok_iff.trans Descriptor.flaws_eq_nil_iff, hreports.error_iff, fun op hop => ?_⟩
  have hdeclared := Operator.declared_of_ofDescriptor hop
  refine ⟨hdeclared, ?_⟩
  rintro descriptors registry log hreg config calls g' hg' id p hp rfl
  have h : ((new registry config).after calls).Reachable := ⟨_, _, _, rfl⟩
  obtain ⟨ha, hfit, hc, hr⟩ : g'.Arranged ∧ p.Fitted ∧ g'.Catalogued ∧ g'.registry = registry := by
    rcases hg' with rfl | ⟨c, _, ht⟩
    · exact ⟨(processes_arranged h).1.1, h.fitted id p hp, h.catalogued, registry_after registry config calls⟩
    · cases ht with
      | mk hrun hschedule =>
        exact ⟨h.arranged_runs hrun _, h.fitted_runs hrun _ id p hp, h.catalogued_runs hrun _,
          (h.registry_runs hrun _).trans (registry_after registry config calls)⟩
  have hnamed : g'.registry.WellNamed := by
    rw [hr]
    exact Registry.wellNamed_empty.registerAll hreg
  exact placed_of_declared ha hfit hc hnamed hp hdeclared

/-- An operator that adds the numbers that a sequence holds at a key to those that it holds first, as declared. Two of its parameters have one
source, and there are blanks around a type. -/
def lifting : Descriptor where
  outputs := [{ type := " int ", name := "y" }]
  params := [{ type := "int", source := "x" }, { type := "float", source := "k" }, { type := "int", source := "x" }]
  mapping := some [{ source := "x", access := .floor, key := some "k" }, { source := "x" }]
  core := some fun views _ => [.ints ((views.headD none).ints.zipWith (· + ·) (views.getLastD none).ints)]

/-- The operator that adds the numbers that a sequence holds at a key to those that it holds first. -/
def lifter : Operator where
  name := "lift"
  outputs := [⟨.int, "y", false⟩]
  params := [⟨.int, "x", false, false⟩, ⟨.float, "k", false, false⟩, ⟨.int, "x", false, false⟩]
  args := [⟨0, .floor, some 1, false⟩, ⟨0, .first, none, false⟩]
  alloc := none
  kernel := .core fun views _ => [.ints ((views.headD none).ints.zipWith (· + ·) (views.getLastD none).ints)]

/-- The operator under its name. -/
def lifters : Registry := ⟨(∅ : NameMap Operator).insert "lift" lifter⟩

/-- An argument lacks its key, the next one its parameter, and the operator its kernel. -/
def unlifting : Descriptor := { lifting with mapping := some [{ source := "x", access := .floor }, { source := "z" }], core := none }

/-- The operator has been asked for. -/
def liftedCalls : List Call :=
  [.createData false, .createLeaf, .createLeaf, .createPayload .int (.ints [1, 2, 3]), .createPayload .float (.floats [0]),
    .setName 1 "x", .setName 2 "k", .setData 1 (some 0), .setData 2 (some 1), .appendChild 0 1, .appendChild 0 2, .setCompute 0 "y = lift(x, k)",
    .createRequest 0 ["y"]]

/-- The operator is made, and both of its arguments read the first of the parameters with their source; what it looks up in its turn is there.
The other descriptor is refused for the first of its flaws. -/
theorem ofDescriptor_exact_lifting :
    lifting.Valid ∧ lifter.Declared "lift" lifting ∧
      Operator.ofDescriptor "lift" unlifting = .error (.invalidOperator "lift" (.missingKey "x")) ∧
      Registry.empty.registerAll [("lift", lifting)] = .ok (lifters, []) ∧
      ∃ g' p, ((new lifters {}).after liftedCalls).Turn (.pull 2) g' 4 ∧ g'.processes[4]? = some p ∧ p.operator = lifter ∧ g'.Placed p := by
  have hop : Operator.ofDescriptor "lift" lifting = .ok lifter := rfl
  have hreg : Registry.empty.registerAll [("lift", lifting)] = .ok (lifters, []) := rfl
  have hflaws : (unlifting.flaws "lift").head? = some (.invalidOperator "lift" (.missingKey "x")) := by decide +kernel
  obtain ⟨hvalid, -, hmade⟩ := ofDescriptor_exact "lift" lifting
  obtain ⟨hdeclared, hplaced⟩ := hmade lifter hop
  refine ⟨hvalid.1 ⟨lifter, hop⟩, hdeclared, ((ofDescriptor_exact "lift" unlifting).2.1 _).2 hflaws, hreg, ?_⟩
  have hall : (((new lifters {}).after liftedCalls).settled.running (.pull 2)).map
      (fun x => (x.2, x.1.scheduleOf x.2, x.1.processes[4]?.isSome)) = some ([4], .ok [4], true) := by decide +kernel
  obtain ⟨⟨g', roots⟩, hrun, hx⟩ := Option.map_eq_some_iff.1 hall
  simp only [Prod.mk.injEq] at hx
  obtain ⟨rfl, hschedule, hsome⟩ := hx
  obtain ⟨p, hp⟩ := Option.isSome_iff_exists.1 hsome
  have hturn : ((new lifters {}).after liftedCalls).Turn (.pull 2) g' 4 :=
    .mk hrun (show g'.scheduleOf [4] = .ok ([] ++ 4 :: []) from hschedule)
  -- there is no other operator
  have hlifter : p.operator = lifter := by
    have h : ((new lifters {}).after liftedCalls).Reachable := ⟨_, _, _, rfl⟩
    obtain ⟨name, hname⟩ := (h.catalogued_runs hrun []).registered 4 p hp
    rw [h.registry_runs hrun [], registry_after] at hname
    unfold Registry.get? lifters at hname
    dsimp only at hname
    rw [Std.ExtTreeMap.getElem?_insert, Std.ExtTreeMap.getElem?_empty] at hname
    split at hname
    · exact (Option.some.inj hname).symm
    · cases hname
  exact ⟨g', p, hturn, hp, hlifter, hplaced _ _ _ hreg {} liftedCalls g' (.inr ⟨_, _, hturn⟩) 4 p hp hlifter⟩

end Graph

end Dataflow
