import Dataflow.Data.Payload

/-!
# Broadcasting: running a core once per tuple

Arguments that hold several tuples advance tuple by tuple; all others are passed whole every time. The number of iterations is
the least number of tuples among the advancing arguments, or one when none advances. An iteration plan fixes the strides of
one pattern of advancing arguments, and running it gives every iteration its own window of each output.
-/

namespace Dataflow

/-- What a kernel sees of one argument: a payload, or nothing when an optional parameter is unbound. -/
abbrev View := Option Payload

namespace View

/-- The float scalars of a view; there are none in a view of another class. -/
def floats (v : View) : List Float32 := (v.map Payload.floatScalars).getD []

/-- The integer scalars of a view; there are none in a view of another class. -/
def ints (v : View) : List Int32 := (v.map Payload.intScalars).getD []

/-- The number of scalars of a view. -/
def size (v : View) : Nat := (v.map Payload.size).getD 0

/-- The number of whole tuples of a view; an absent one has none. -/
def tupleCount (tupleSize : Nat) (v : View) : Nat := (v.map (Payload.tupleCount tupleSize)).getD 0

/-- The window of `size` scalars from `start` on. -/
def window (start size : Nat) (v : View) : View := v.map (Payload.window start size)

end View

/-- How a kernel's arguments are iterated over: how often, which arguments advance, and whether the advancing ones disagreed
about their number of tuples. -/
structure Iteration where
  count : Nat
  advancing : List Bool
  truncated : Bool
  deriving DecidableEq, Repr

/-- A kernel for one tuple: new contents of the output windows from the views of the arguments. -/
abbrev Core := List View → List Payload → List Payload

/-- A kernel for whole arrays: new contents of the outputs, or the reason why it refuses. -/
abbrev Evaluation := Iteration → List View → List Payload → Except String (List Payload)

/-- One run of a kernel: the views it was given, the contents of its outputs before the run, and how the arguments were iterated
over when the kernel was given them whole. -/
structure KernelCall where
  args : List View
  outs : List Payload
  iteration : Option Iteration
  deriving DecidableEq

namespace Iteration

/-- The iteration over views of the given tuple sizes: an argument that is not flagged as an array and holds more than one tuple
advances, and the shortest of those sets the count. -/
def ofArgs (args : List View) (tupleSizes : List Nat) (array : List Bool) : Iteration :=
  let counts := args.zipWith (fun view size => view.tupleCount size) tupleSizes
  let advancing := counts.zipWith (fun count whole => !whole && 1 < count) array
  let lengths := ((counts.zip advancing).filter (·.2)).map (·.1)
  let count := lengths.min?.getD 1
  ⟨count, advancing, lengths.any (· ≠ count)⟩

/-- The pattern of an iteration: `i` for an argument that advances, `a` for one that is passed whole. -/
def pattern (advancing : List Bool) : String := String.ofList (advancing.map fun b => if b then 'i' else 'a')

end Iteration

/-- The strides of a loop: an argument advances by its stride, and one of stride zero is passed whole. -/
structure IterationPlan where
  pattern : String
  argStrides : List Nat
  outStrides : List Nat
  deriving DecidableEq, Repr

namespace IterationPlan

/-- The plan for arguments of these tuple sizes, some of which advance, and outputs of these tuple sizes. -/
def ofSizes (tupleSizes : List Nat) (advancing : List Bool) (outSizes : List Nat) : IterationPlan where
  pattern := Iteration.pattern advancing
  argStrides := tupleSizes.zipWith (fun size b => if b then size else 0) advancing
  outStrides := outSizes

/-- The stride of an argument. -/
def stride (plan : IterationPlan) (arg : Nat) : Nat := (plan.argStrides[arg]?).getD 0

/-- The first scalar of an argument that iteration `i` reads. -/
def offset (plan : IterationPlan) (arg i : Nat) : Nat := plan.stride arg * i

/-- The views of iteration `i`: one tuple of every argument with a stride, all others whole. -/
def views (plan : IterationPlan) (args : List View) (i : Nat) : List View :=
  args.mapIdx fun a view => if plan.stride a = 0 then view else view.window (plan.offset a i) (plan.stride a)

/-- The windows of the outputs that iteration `i` writes. -/
def windows (plan : IterationPlan) (outs : List Payload) (i : Nat) : List Payload :=
  outs.zipWith (fun out stride => out.window (i * stride) stride) plan.outStrides

/-- The outputs with what iteration `i` computed written into its windows. -/
def writeWindows (i : Nat) : List Nat → List Payload → List Payload → List Payload
  | stride :: strides, new :: news, out :: outs =>
    new.writeAt (i * stride) stride out :: writeWindows i strides news outs
  | _, _, outs => outs

/-- One iteration: the outputs after it, and the call that it made. -/
def step (plan : IterationPlan) (core : Core) (args : List View) (outs : List Payload) (i : Nat) :
    List Payload × KernelCall :=
  let views := plan.views args i
  let windows := plan.windows outs i
  (writeWindows i plan.outStrides (core views windows) outs, ⟨views, windows, none⟩)

/-- The outputs after the iterations `is` in turn, and the calls that they made. -/
def runFrom (plan : IterationPlan) (core : Core) (args : List View) :
    List Nat → List Payload → List Payload × List KernelCall
  | [], outs => (outs, [])
  | i :: is, outs =>
    let (outs, call) := plan.step core args outs i
    let (outs, calls) := runFrom plan core args is outs
    (outs, call :: calls)

/-- The outputs after `count` iterations, and the calls that they made. -/
def run (plan : IterationPlan) (core : Core) (args : List View) (count : Nat) (outs : List Payload) :
    List Payload × List KernelCall :=
  plan.runFrom core args (List.range count) outs

end IterationPlan

end Dataflow
