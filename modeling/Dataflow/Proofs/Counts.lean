import Dataflow.Proofs.Uses

/-!
# Exact counts

As long as a caller gives back only what it acquired, the counts are exact: an instance that is live counts as many uses as there are live
instances made of it, outlets that hold it, and acquisitions that were not released; a process that is live counts the live instances that
it works for.
-/

namespace Dataflow

namespace Account

/-- The account after some calls of a graph in turn. -/
def after (a : Account) (g : Graph) : List Call → Account
  | [] => a
  | c :: calls => (a.book c (g.settled.perform c).2).after (g.step c) calls

/-- Every release gives back what was acquired before and was not given back since. -/
def Matched (a : Account) (g : Graph) : List Call → Prop
  | [] => True
  | c :: calls => (∀ id ∈ c.released, id ∈ a.hands) ∧ (a.book c (g.settled.perform c).2).Matched (g.step c) calls

instance decidableMatched (a : Account) (g : Graph) : (calls : List Call) → Decidable (a.Matched g calls)
  | [] => inferInstanceAs (Decidable True)
  | c :: calls =>
    have := decidableMatched (a.book c (g.settled.perform c).2) (g.step c) calls
    inferInstanceAs (Decidable (_ ∧ _))

end Account

namespace Graph

variable {a : Account} {g : Graph} {owed : Multiset InstanceId}

/-- The counts are those of the users, given the uses that the caller has in hand. -/
structure ExactCounts (hands : List InstanceId) (g : Graph) : Prop where
  uses : ∀ (id : InstanceId) (i : Instance), g.instances[id]? = some i → i.uses = g.useCount id + g.held.count id + hands.count id
  runs : ∀ (id : ProcessId) (p : Process), g.processes[id]? = some p → p.uses = g.runCount id

/-- A call keeps the balance, if what it releases was acquired. -/
theorem Balanced.step (h : Balanced owed a.work g) (ho : Orderly a g) {c : Call} (hc : ∀ id ∈ c.released, id ∈ a.hands) :
    Balanced owed (a.book c (g.settled.perform c).2).work (g.step c) := by
  have hm := moves_step ho.authored (ho.posted.homed rfl) a fun id he => hc id (Call.released_eq_some.2 he)
  refine (hm.keeps (I := fun τ g => Tidy τ g ∧ Posted τ g ∧ Balanced owed τ g) (fun τ g τ' g' m hi => ?_) ⟨ho.tidy, ho.posted, h⟩).2.2
  obtain ⟨h₁, h₂, h₃⟩ := hi
  exact ⟨tidy_move m h₁, posted_move m h₂, balanced_move m h₁ h₂ h₃⟩

/-- Calls keep order and balance, if what they release was acquired. -/
theorem balanced_after (h : Balanced owed a.work g) (ho : Orderly a g) (calls : List Call) (hc : a.Matched g calls) :
    Orderly (a.after g calls) (g.after calls) ∧ Balanced owed (a.after g calls).work (g.after calls) := by
  induction calls generalizing a g with
  | nil => exact ⟨ho, h⟩
  | cons c calls ih =>
    exact ih (h.step ho hc.1) (ho.step fun id he => hc.1 id (Call.released_eq_some.2 he)) hc.2

theorem balanced_new (registry : Registry) (config : Config) : Balanced 0 {} (new registry config) := by
  have hi : ∀ (id : InstanceId) i, (new registry config).instances[id]? ≠ some i := fun id i hi =>
    Option.some_ne_none _ (hi.symm.trans Std.ExtTreeMap.getElem?_empty)
  have hp : ∀ (id : ProcessId) p, (new registry config).processes[id]? ≠ some p := fun id p hp =>
    Option.some_ne_none _ (hp.symm.trans Std.ExtTreeMap.getElem?_empty)
  have ho : ∀ (id : OutletId) o, (new registry config).outlets[id]? ≠ some o := fun id o ho =>
    Option.some_ne_none _ (ho.symm.trans Std.ExtTreeMap.getElem?_empty)
  exact ⟨⟨fun id i h => absurd h (hi id i), ⟨fun _ => 0, fun id i h => absurd h (hi id i)⟩, fun id o h => absurd h (ho id o),
    fun c hc => absurd hc List.not_mem_nil, fun j hj => absurd hj (Multiset.notMem_zero j), fun j hj => absurd hj (Multiset.notMem_zero j),
    fun id i h => absurd h (hi id i), fun p hp => absurd hp (Multiset.notMem_zero p)⟩, fun id i h => absurd h (hi id i),
    fun id p h => absurd h (hp id p)⟩

/-- The counts are exact after any calls of which every release gives back what was acquired before: whatever was built, reused, reset,
edited or removed in between. -/
theorem reference_counts_exact (registry : Registry) (config : Config) (calls : List Call)
    (h : ({} : Account).Matched (new registry config) calls) :
    ExactCounts (({} : Account).after (new registry config) calls).hands ((new registry config).after calls) := by
  obtain ⟨-, hb⟩ := balanced_after (balanced_new registry config) (orderly_new registry config) calls h
  refine ⟨fun id i hi => ?_, fun id p hp => (hb.runs id p hp).2.trans (Nat.add_zero _)⟩
  have huses := (hb.uses id i hi).2
  rwa [Multiset.count_zero, Nat.add_zero, Account.work, Multiset.coe_count] at huses

/-- An operator with one output, which is as it was. -/
def keepOperator : Operator where
  name := "keep"
  outputs := [⟨.float, "y", false⟩]
  params := [⟨.float, "x", true, false⟩]
  args := [⟨0, .first, none, false⟩]
  alloc := none
  kernel := .core fun _ outs => outs

/-- A node that computes is a child of two others, of which one is a child of the other; all are acquired, the topmost is asked for, and
the lowest is acquired once more and released twice. -/
def sharingCalls : List Call :=
  [.createData false, .setCompute 0 "y = keep(x)", .createData false, .appendChild 1 0, .createData false, .appendChild 2 0, .appendChild 2 1,
    .acquireInstance 1 .empty, .acquireInstance 2 .empty, .acquireInstance 0 .empty, .createRequest 2 [], .pull 6, .releaseInstance 2,
    .acquireInstance 0 .empty, .releaseInstance 2]

/-- After these calls the lowest instance has two uses, and no acquisition of it is left; the topmost is held and in hand. -/
theorem reference_counts_exact_sharing :
    ((new ⟨(∅ : NameMap Operator).insert "keep" keepOperator⟩ {}).after sharingCalls).instances.toList.map (fun e => (e.1, e.2.uses)) =
      [(1, 2), (2, 2), (4, 2)] ∧
    ((new ⟨(∅ : NameMap Operator).insert "keep" keepOperator⟩ {}).after sharingCalls).processes.toList.map (fun e => (e.1, e.2.uses)) = [(3, 1)] ∧
    ((new ⟨(∅ : NameMap Operator).insert "keep" keepOperator⟩ {}).after sharingCalls).held = [4] ∧
    ExactCounts [4, 1] ((new ⟨(∅ : NameMap Operator).insert "keep" keepOperator⟩ {}).after sharingCalls) := by
  have hhands : (({} : Account).after (new ⟨(∅ : NameMap Operator).insert "keep" keepOperator⟩ {}) sharingCalls).hands = [4, 1] := by
    decide +kernel
  refine ⟨by decide +kernel, by decide +kernel, by decide +kernel, hhands ▸ reference_counts_exact _ _ sharingCalls (by decide +kernel)⟩

end Graph

end Dataflow
