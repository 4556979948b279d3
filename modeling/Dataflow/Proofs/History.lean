import Dataflow.Graph.Call

/-!
# Histories: the graphs that calls lead to

A history is a list of calls. Every call starts with an empty journal, and leaves in it what it reports. A graph is reachable when
some history of a new graph leads to it.
-/

namespace Dataflow

namespace Graph

/-- The graph after a call. -/
def step (g : Graph) (c : Call) : Graph := (g.settled.perform c).1

/-- The graph after some calls in turn. -/
def after (g : Graph) (calls : List Call) : Graph := calls.foldl step g

/-- Some history of a new graph leads here. -/
def Reachable (g : Graph) : Prop := ∃ registry config calls, g = (new registry config).after calls

theorem after_nil (g : Graph) : g.after [] = g := rfl

theorem after_cons (g : Graph) (c : Call) (calls : List Call) : g.after (c :: calls) = (g.step c).after calls := rfl

theorem after_append (g : Graph) (calls calls' : List Call) : g.after (calls ++ calls') = (g.after calls).after calls' :=
  List.foldl_append

/-- What holds of a graph and is kept by the calls of a kind holds after any of them. -/
theorem after_induction {P : Graph → Prop} {ok : Call → Prop} (hstep : ∀ g c, ok c → P g → P (g.step c)) {g : Graph} (h : P g)
    {calls : List Call} (hok : ∀ c ∈ calls, ok c) : P (g.after calls) := by
  induction calls generalizing g with
  | nil => exact h
  | cons c calls ih =>
    exact ih (hstep g c (hok c (List.mem_cons_self ..)) h) fun c' h' => hok c' (List.mem_cons_of_mem _ h')

/-- What holds of new graphs and is kept by every call holds of every reachable graph. -/
theorem Reachable.induction {P : Graph → Prop} (hnew : ∀ registry config, P (new registry config))
    (hstep : ∀ g c, P g → P (g.step c)) {g : Graph} (h : g.Reachable) : P g := by
  obtain ⟨registry, config, calls, rfl⟩ := h
  exact @after_induction P (fun _ => True) (fun g c _ => hstep g c) _ (hnew registry config) calls fun _ _ => trivial

theorem Reachable.after {g : Graph} (h : g.Reachable) (calls : List Call) : (g.after calls).Reachable := by
  obtain ⟨registry, config, calls', rfl⟩ := h
  exact ⟨registry, config, calls' ++ calls, (after_append _ _ _).symm⟩

end Graph

end Dataflow
