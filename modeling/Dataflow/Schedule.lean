import Dataflow.Arena
import Dataflow.Error
import Dataflow.Reach

/-!
# Schedules: an order in which everything follows what it depends on

A schedule of some roots lists them and all they depend on, directly or not, each once and each after its dependencies. What
depends on nothing comes first, in ascending order of ids; the rest follows as its last dependency is listed, first come first
served, and in ascending order among those that come together. There is a schedule unless something depends on itself.
-/

namespace Dataflow

namespace Schedule

/-- What an id depends on; nothing, when the table does not mention it. -/
def depsOf (deps : IdMap (List Nat)) (i : Nat) : List Nat := (deps[i]?).getD []

/-- The ids that are listed as `i` is, the last of their dependencies. -/
def released (deps : IdMap (List Nat)) (ids order : List Nat) (i : Nat) : List Nat :=
  ids.filter fun j => (depsOf deps j).contains i && (depsOf deps j).all (order.contains ·)

/-- The order, continued by the ids that wait in `queue` and those that they release, for at most `n` ids. -/
def extend (deps : IdMap (List Nat)) (ids : List Nat) : Nat → List Nat → List Nat → List Nat
  | 0, order, _ => order
  | _, order, [] => order
  | n + 1, order, i :: queue =>
    let order := order ++ [i]
    extend deps ids n order (queue ++ released deps ids order i)

/-- The roots and all they depend on, in ascending order. -/
def involved (deps : IdMap (List Nat)) (roots : List Nat) : List Nat :=
  (reachable (roots.length + deps.values.flatten.length) (depsOf deps) roots).mergeSort (· ≤ ·)

/-- The schedule of `roots`, or the error that something depends on itself. -/
def compile (deps : IdMap (List Nat)) (roots : List Nat) : Except Error (List Nat) :=
  let ids := involved deps roots
  let order := extend deps ids ids.length [] (ids.filter fun i => (depsOf deps i).isEmpty)
  if order.length = ids.length then .ok order else .error .cyclicSchedule

end Schedule

end Dataflow
