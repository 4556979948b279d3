/-!
# Reachability

What can be reached from some ids by following links. The search goes depth first: it follows the links that lead out of an id
before it comes to anything else that waits, and of several links the last one first.
-/

namespace Dataflow

/-- The ids of `seen`, then those reached from `todo` by following `next`, each once and in the order of the search, but no more
than `n` of them. -/
def visit (next : Nat → List Nat) : Nat → List Nat → List Nat → List Nat
  | 0, seen, _ => seen
  | n + 1, seen, todo =>
    match todo.dropWhile (seen.contains ·) with
    | [] => seen
    | i :: rest => visit next n (seen ++ [i]) ((next i).reverse ++ rest)

/-- The ids reached from `start`, of which there are at most `n`. -/
def reachable (n : Nat) (next : Nat → List Nat) (start : List Nat) : List Nat := visit next n [] start

end Dataflow
