import Dataflow.Operators.Builtin
import Dataflow.Proofs.Stale

/-!
# Bones and the paths down to them

Forward kinematics goes through the bones in order and keeps what it has computed: the transform of a bone relative to the root is its
parent's, which has to be there already, times its own. So it stops at the first bone that does not come after its parent, and when there is
none, what it keeps for every bone is the product of the bones' own matrices, from left to right, along the path from a root down to the bone.
This holds of any product, and whatever else the table of parents holds: it may be shorter or longer than there are bones, and every negative
parent marks a root.
-/

namespace Dataflow

namespace Mat4

variable {ms : List Mat4} {i : Nat} {m : Mat4}

theorem length_toList (m : Mat4) : m.toList.length = 16 := rfl

/-- A matrix that a list of scalars holds whole is read as these scalars. -/
theorem toList_ofListAt {l : List Float32} (h : (i + 1) * 16 ≤ l.length) : (ofListAt l i).toList = (l.drop (i * 16)).take 16 := by
  have hlen : ((l.drop (i * 16)).take 16).length = 16 := by
    rw [List.length_take, List.length_drop]
    omega
  unfold ofListAt
  generalize (l.drop (i * 16)).take 16 = scalars at hlen
  match scalars, hlen with
  | [_, _, _, _, _, _, _, _, _, _, _, _, _, _, _, _], _ => rfl

theorem length_flatMap_toList (ms : List Mat4) : (ms.flatMap toList).length = ms.length * 16 := by
  induction ms with
  | nil => rfl
  | cons m ms ih =>
    rw [List.flatMap_cons, List.length_append, ih, length_toList, List.length_cons]
    omega

/-- Of matrices one after the other, every matrix is in its place. -/
theorem take_drop_flatMap_toList (h : ms[i]? = some m) : ((ms.flatMap toList).drop (i * 16)).take 16 = m.toList := by
  induction ms generalizing i with
  | nil => cases h
  | cons m' ms ih =>
    rw [List.flatMap_cons]
    cases i with
    | zero =>
      cases h
      rw [Nat.zero_mul, List.drop_zero, List.take_left' (length_toList m)]
    | succ i =>
      have hdrop : (i + 1) * 16 = m'.toList.length + i * 16 := by
        rw [length_toList]
        omega
      rw [hdrop, List.drop_length_add_append, ih h]

end Mat4

namespace Operators

section Paths

variable {M : Type} {product : M → M → M} {parents : List Int32} {own : Nat → M} {globals : List M} {bone : Nat}

/-- A path from a root of a table of parents down to a bone. A bone is a root when it has no place in the table, or a negative parent there. -/
inductive PathTo (parents : List Int32) : Nat → List Nat → Prop where
  | root {bone : Nat} (orphan : ∀ parent ∈ parents[bone]?, parent.toInt < 0) : PathTo parents bone [bone]
  | child {bone above : Nat} {path : List Nat} (parent : ∃ parent ∈ parents[bone]?, parent.toInt = above) (reached : PathTo parents above path) :
    PathTo parents bone (path ++ [bone])

/-- The product of a list from left to right; an empty list has none. -/
def productOf (product : M → M → M) : List M → Option M
  | [] => none
  | m :: ms => some (ms.foldl product m)

/-- A bone that does not come after its parent. -/
def Misplaced (parents : List Int32) (bone : Nat) : Prop := ∃ parent ∈ parents[bone]?, (bone : Int) ≤ parent.toInt

/-- The transforms are products along the paths to the first bones. -/
def AlongPaths (product : M → M → M) (parents : List Int32) (own : Nat → M) (globals : List M) : Prop :=
  ∀ i m, globals[i]? = some m → ∃ path, PathTo parents i path ∧ productOf product (path.map own) = some m

theorem orphan_or_child (parents : List Int32) (bone : Nat) :
    (∀ parent ∈ parents[bone]?, parent.toInt < 0) ∨ ∃ above : Nat, ∃ parent ∈ parents[bone]?, parent.toInt = above := by
  rcases hp : parents[bone]? with _ | parent
  · exact .inl nofun
  · by_cases hneg : parent.toInt < 0
    · left
      rintro _ ⟨⟩
      exact hneg
    · exact .inr ⟨parent.toInt.toNat, parent, rfl, by omega⟩

/-- There is one path at most. -/
theorem PathTo.unique {path path' : List Nat} (h : PathTo parents bone path) (h' : PathTo parents bone path') : path = path' := by
  induction h generalizing path' with
  | root orphan =>
    cases h' with
    | root => rfl
    | child parent =>
      obtain ⟨p, hp, he⟩ := parent
      have := orphan p hp
      omega
  | child parent _ ih =>
    obtain ⟨p, hp, he⟩ := parent
    cases h' with
    | root orphan =>
      have := orphan p hp
      omega
    | child parent' hpath =>
      obtain ⟨p', hp', he'⟩ := parent'
      obtain rfl : p = p' := Option.some.inj (hp.symm.trans hp')
      obtain rfl := Int.ofNat.inj (he.symm.trans he')
      rw [ih hpath]

theorem productOf_concat {ms : List M} {above : M} (h : productOf product ms = some above) (m : M) :
    productOf product (ms ++ [m]) = some (product above m) := by
  cases ms with
  | nil => cases h
  | cons m' ms =>
    cases h
    simp [productOf]

theorem pathProducts_of_orphan (h : ∀ parent ∈ parents[globals.length]?, parent.toInt < 0) (m : M) (rest : List M) :
    pathProducts product parents globals (m :: rest) = pathProducts product parents (globals ++ [m]) rest := by
  rw [pathProducts]
  rcases hp : parents[globals.length]? with _ | parent
  · rfl
  · exact if_pos (Int32.lt_iff_toInt_lt.2 (h parent hp))

theorem pathProducts_of_child {above : Nat} (h : ∃ parent ∈ parents[globals.length]?, parent.toInt = above) (m : M) (rest : List M) :
    pathProducts product parents globals (m :: rest) =
      (globals[above]?).bind fun m' => pathProducts product parents (globals ++ [product m' m]) rest := by
  obtain ⟨parent, hp, he⟩ := h
  have hneg : ¬ parent < 0 := by
    rw [Int32.lt_iff_toInt_lt, he]
    exact Int.not_lt.2 (Int.natCast_nonneg above)
  have hplace : parent.toNatClampNeg = above := by
    rw [Int32.toNatClampNeg, he]
    rfl
  rw [pathProducts, Option.mem_def.1 hp]
  dsimp only
  rw [if_neg hneg, hplace]
  cases globals[above]? <;> rfl

theorem AlongPaths.concat (h : AlongPaths product parents own globals) {m : M}
    (hm : ∃ path, PathTo parents globals.length path ∧ productOf product (path.map own) = some m) :
    AlongPaths product parents own (globals ++ [m]) := by
  intro i m' hi
  rw [List.getElem?_append] at hi
  split at hi
  · exact h i m' hi
  · rename_i hlt
    have hlast : i - globals.length = 0 := by
      have hbound := (List.getElem?_eq_some_iff.1 hi).1
      rw [List.length_singleton] at hbound
      omega
    rw [hlast] at hi
    cases hi
    rwa [show i = globals.length by omega]

/-- One bone: when it does not come after its parent there is no answer, and otherwise its transform is a product along a path. -/
theorem pathProducts_step (h : AlongPaths product parents own globals) (rest : List M) :
    (Misplaced parents globals.length ∧ pathProducts product parents globals (own globals.length :: rest) = none) ∨
    (¬ Misplaced parents globals.length ∧ ∃ m, AlongPaths product parents own (globals ++ [m]) ∧
      pathProducts product parents globals (own globals.length :: rest) = pathProducts product parents (globals ++ [m]) rest) := by
  rcases orphan_or_child parents globals.length with horphan | ⟨above, hchild⟩
  · refine .inr ⟨?_, own globals.length, h.concat ⟨_, .root horphan, rfl⟩, pathProducts_of_orphan horphan _ _⟩
    rintro ⟨parent, hp, hle⟩
    have := horphan parent hp
    omega
  · rw [pathProducts_of_child hchild]
    rcases ha : globals[above]? with _ | m
    · left
      obtain ⟨parent, hp, he⟩ := hchild
      have hle := List.getElem?_eq_none_iff.1 ha
      exact ⟨⟨parent, hp, by omega⟩, rfl⟩
    · -- the parent's transform is a product along the path to it, which the bone prolongs
      obtain ⟨path, hpath, hm⟩ := h above m ha
      have hlt := (List.getElem?_eq_some_iff.1 ha).1
      refine .inr ⟨?_, product m (own globals.length), h.concat ⟨_, .child hchild hpath, ?_⟩, rfl⟩
      · rintro ⟨parent', hp', hle⟩
        obtain ⟨parent, hp, he⟩ := hchild
        obtain rfl : parent = parent' := Option.some.inj (hp.symm.trans hp')
        omega
      · rw [List.map_append]
        exact productOf_concat hm _

/-- All bones from some bone on. -/
theorem pathProducts_run (h : AlongPaths product parents own globals) (n : Nat) :
    ((∃ bone, globals.length ≤ bone ∧ bone < globals.length + n ∧ Misplaced parents bone) ∧
      pathProducts product parents globals ((List.range' globals.length n).map own) = none) ∨
    ((∀ bone, globals.length ≤ bone → bone < globals.length + n → ¬ Misplaced parents bone) ∧
      ∃ all, all.length = globals.length + n ∧ AlongPaths product parents own all ∧
        pathProducts product parents globals ((List.range' globals.length n).map own) = some all) := by
  induction n generalizing globals with
  | zero => exact .inr ⟨fun _ _ _ => by omega, globals, rfl, h, rfl⟩
  | succ n ih =>
    rw [List.range'_succ, List.map_cons]
    rcases pathProducts_step h ((List.range' (globals.length + 1) n).map own) with ⟨hbad, hnone⟩ | ⟨hgood, m, hm, hstep⟩
    · exact .inl ⟨⟨_, Nat.le_refl _, by omega, hbad⟩, hnone⟩
    · rw [hstep]
      have ih := ih hm
      rw [List.length_append, List.length_singleton] at ih
      rcases ih with ⟨⟨bone, hle, hlt, hbad⟩, hnone⟩ | ⟨hrest, all, hlen, hall, hsome⟩
      · exact .inl ⟨⟨bone, by omega, by omega, hbad⟩, hnone⟩
      · refine .inr ⟨fun bone hle hlt => ?_, all, by omega, hall, hsome⟩
        rcases Nat.eq_or_lt_of_le hle with rfl | hle
        · exact hgood
        · exact hrest bone hle (by omega)

/-- Either some bone does not come after its parent, and there is no answer, or all transforms are products along paths. -/
theorem pathProducts_cases (product : M → M → M) (parents : List Int32) (own : Nat → M) (n : Nat) :
    ((∃ bone < n, Misplaced parents bone) ∧ pathProducts product parents [] ((List.range n).map own) = none) ∨
    ((¬ ∃ bone < n, Misplaced parents bone) ∧ ∃ all, all.length = n ∧ AlongPaths product parents own all ∧
      pathProducts product parents [] ((List.range n).map own) = some all) := by
  rw [List.range_eq_range']
  have hempty : AlongPaths product parents own [] := nofun
  rcases pathProducts_run hempty n with ⟨⟨bone, -, hlt, hbad⟩, hnone⟩ | ⟨hgood, all, hlen, hall, hsome⟩
  · exact .inl ⟨⟨bone, by simpa using hlt, hbad⟩, hnone⟩
  · refine .inr ⟨?_, all, by simpa using hlen, hall, hsome⟩
    rintro ⟨bone, hlt, hbad⟩
    exact hgood bone (Nat.zero_le _) (by simpa using hlt) hbad

end Paths

/-! ## What is written -/

/-- What forward kinematics leaves in an output. Where there is room for the matrix of a bone, it is the product, from left to right, of the
bones' own matrices along the one path down to the bone; nothing else is written. -/
structure Posed (product : Mat4 → Mat4 → Mat4) (parents : List Int32) (locals old new : List Float32) : Prop where
  length : new.length = old.length
  bones : ∀ i < locals.length / 16, (i + 1) * 16 ≤ old.length → ∃! path, PathTo parents i path ∧
    ∃ m, productOf product (path.map (Mat4.ofListAt locals)) = some m ∧ (new.drop (i * 16)).take 16 = m.toList
  rest : ∀ x, (∀ i < locals.length / 16, (i + 1) * 16 ≤ old.length → x < i * 16 ∨ (i + 1) * 16 ≤ x) → new[x]? = old[x]?

variable {product : Mat4 → Mat4 → Mat4} {parents : List Int32} {locals old : List Float32}

theorem posed_overwrite {globals : List Mat4} (hlen : globals.length = locals.length / 16)
    (h : AlongPaths product parents (Mat4.ofListAt locals) globals) :
    Posed product parents locals old (overwrite ((globals.take (old.length / 16)).flatMap Mat4.toList) old) := by
  have hroom : (globals.take (old.length / 16)).length = min (old.length / 16) (locals.length / 16) := by
    rw [List.length_take, hlen]
  have hnew : ((globals.take (old.length / 16)).flatMap Mat4.toList).length = min (old.length / 16) (locals.length / 16) * 16 := by
    rw [Mat4.length_flatMap_toList, hroom]
  have hfit : ((globals.take (old.length / 16)).flatMap Mat4.toList).length ≤ old.length := by
    rw [hnew]
    omega
  have hover : overwrite ((globals.take (old.length / 16)).flatMap Mat4.toList) old =
      (globals.take (old.length / 16)).flatMap Mat4.toList ++ old.drop (min (old.length / 16) (locals.length / 16) * 16) := by
    rw [overwrite, List.take_of_length_le hfit, hnew]
  refine ⟨Payload.length_overwrite _ _, fun i hi hold => ?_, fun x hx => ?_⟩
  · have hbound : i < globals.length := hlen ▸ hi
    obtain ⟨path, hpath, hm⟩ := h i globals[i] (List.getElem?_eq_getElem hbound)
    refine ⟨path, ⟨hpath, globals[i], hm, ?_⟩, fun path' h' => h'.1.unique hpath⟩
    have hget : (globals.take (old.length / 16))[i]? = some globals[i] := by
      rw [List.getElem?_take, if_pos (by omega), List.getElem?_eq_getElem hbound]
    rw [hover, List.drop_append_of_le_length (by rw [hnew]; omega), List.take_append_of_le_length (by rw [List.length_drop, hnew]; omega)]
    exact Mat4.take_drop_flatMap_toList hget
  · -- a scalar that belongs to no matrix is behind all that are written
    have hbehind : min (old.length / 16) (locals.length / 16) * 16 ≤ x := by
      by_contra hlt
      have := hx (x / 16) (by omega) (by omega)
      omega
    rw [hover, List.getElem?_append_right (by rw [hnew]; exact hbehind), hnew, List.getElem?_drop, Nat.add_sub_cancel' hbehind]

/-- Forward kinematics with any product in the place of the product of transforms. -/
def kinematicsBy (product : Mat4 → Mat4 → Mat4) : Descriptor := { forwardKinematics with evaluate := some (kinematics product) }

/-- The operator of forward kinematics. -/
def kinematicsOperator (name : String) (product : Mat4 → Mat4 → Mat4) : Operator where
  name := name
  outputs := [⟨.float4x4, "result", true⟩]
  params := [⟨.int, "parent", false, true⟩, ⟨.float4x4, "xform", false, true⟩]
  args := [⟨0, .first, none, true⟩, ⟨1, .first, none, true⟩]
  alloc := some fun args _ => [(view args 1).floats.length / 16 * 16]
  kernel := .evaluate (kinematics product)

theorem ofDescriptor_kinematicsBy (name : String) (product : Mat4 → Mat4 → Mat4) :
    Operator.ofDescriptor name (kinematicsBy product) = .ok (kinematicsOperator name product) := rfl

end Operators

namespace Graph

open Operators

variable {product : Mat4 → Mat4 → Mat4} {p : Process} {output : String} {e : EntryId} {g : Graph} {x : Entry} {old : List Float32}

/-- A run of forward kinematics on some views, for an output that held `old`. It is refused just when some bone does not come after its parent,
and then nothing was written; otherwise the output holds the products along the paths, and no other entry changed. -/
structure Poses (product : Mat4 → Mat4 → Mat4) (e : EntryId) (views : List View) (old : List Float32) (g : Graph) (result : Graph × Option String) :
    Prop where
  refused : result.2.isSome ↔ ∃ bone < (view views 1).floats.length / 16, Misplaced (view views 0).ints bone
  untouched : ∀ reason, result.2 = some reason → reason = "parent bone must precede its child" ∧ result.1.store = g.store
  written : result.2 = none → (∃ y new, result.1.entryAt? e = some y ∧ y.payload = .floats new ∧
    Posed product (view views 0).ints (view views 1).floats old new) ∧ ∀ e' ≠ e, result.1.entryAt? e' = g.entryAt? e'

theorem poses_runKernel (hk : p.operator.kernel = .evaluate (kinematics product)) (ho : p.outputs = [(output, e)]) (hx : g.entryAt? e = some x)
    (hold : x.payload = .floats old) (views : List View) (it : Iteration) : g.Poses product e views old (g.runKernel p views it) := by
  have houts : g.outputPayloads p = [.floats old] := by
    simp [outputPayloads, ho, hx, hold]
  rcases pathProducts_cases product (view views 0).ints (Mat4.ofListAt (view views 1).floats) ((view views 1).floats.length / 16) with
    ⟨hbad, hnone⟩ | ⟨hgood, all, hlen, hall, hsome⟩
  · have hrun : kinematics product it views [.floats old] = .error "parent bone must precede its child" := by
      rw [kinematics, matrices, hnone]
    have hresult : (g.runKernel p views it).2 = some "parent bone must precede its child" := by
      simp only [runKernel, hk, houts, hrun]
    refine ⟨by simp [hresult, hbad], fun reason hr => ⟨?_, store_runKernel_of_refused hresult⟩, fun hr => ?_⟩
    · exact Option.some.inj (hr.symm.trans hresult)
    · rw [hresult] at hr
      cases hr
  · have hrun : kinematics product it views [.floats old] = .ok [.floats ((all.take (old.length / 16)).flatMap Mat4.toList)] := by
      rw [kinematics, matrices, hsome]
      rfl
    have hresult : (g.runKernel p views it).2 = none := by
      simp only [runKernel, hk, houts, hrun]
    have hentry : ∀ e', (g.runKernel p views it).1.entryAt? e' =
        if e' = e then (g.entryAt? e').map (·.write (.floats ((all.take (old.length / 16)).flatMap Mat4.toList))) else g.entryAt? e' := by
      intro e'
      simp only [runKernel, hk, houts, hrun]
      rw [entryAt?, writeOutputs, ho]
      exact Store.entryAt?_modifyEntry ..
    refine ⟨by simp [hresult, hgood], fun reason hr => ?_, fun _ => ⟨?_, fun e' hne => ?_⟩⟩
    · rw [hresult] at hr
      cases hr
    · refine ⟨_, _, by rw [hentry, if_pos rfl, hx]; rfl, ?_, posed_overwrite hlen hall⟩
      exact congrArg (Payload.write _) hold
    · rw [hentry, if_neg hne]

/-- Forward kinematics, whatever the product, the table of parents and the scalars are: the output is sized for the whole matrices that there
are, each of which is read as its sixteen scalars, and a run of the kernel on any graph, for an output of any size, is refused or writes the
products along the paths. So does a run of the process, for an output that was resized. -/
theorem forward_kinematics_exact (product : Mat4 → Mat4 → Mat4) {name : String}
    (hop : Operator.ofDescriptor name (kinematicsBy product) = .ok p.operator) (ho : p.outputs = [(output, e)]) :
    ("xflow.forwardKinematics", kinematicsBy Mat4.mul) ∈ builtin ∧
    (∀ views count, (p.operator.alloc.map fun alloc => alloc views count) = some [(view views 1).floats.length / 16 * 16]) ∧
    (∀ (locals : List Float32), ∀ i < locals.length / 16, (Mat4.ofListAt locals i).toList = (locals.drop (i * 16)).take 16) ∧
    ∀ (g : Graph) (x : Entry) (old : List Float32), g.entryAt? e = some x → x.payload = .floats old →
      (∀ views it, g.Poses product e views old (g.runKernel p views it)) ∧
      (g.prepare p).Poses product e (g.viewsOf p) (fitTo ((view (g.viewsOf p) 1).floats.length / 16 * 16) 0 old) (g.applyOperator p) := by
  have hop : p.operator = kinematicsOperator name product := by
    rw [ofDescriptor_kinematicsBy] at hop
    exact (Except.ok.inj hop).symm
  have hk : p.operator.kernel = .evaluate (kinematics product) := by
    rw [hop]
    rfl
  refine ⟨List.mem_of_getElem? (i := 9) rfl, fun views count => by rw [hop]; rfl, fun locals i hi => Mat4.toList_ofListAt (by omega),
    fun g x old hx hold => ⟨poses_runKernel hk ho hx hold, ?_⟩⟩
  -- the run of the process finds the output resized
  have hroom : g.room p = [(view (g.viewsOf p) 1).floats.length / 16 * 16] := by
    rw [room, hop]
    rfl
  have hprepared : (g.prepare p).entryAt? e = some (x.resize ((view (g.viewsOf p) 1).floats.length / 16 * 16)) := by
    rw [entryAt?, store_prepare, hroom, ho]
    exact (Store.entryAt?_modifyEntry ..).trans ((if_pos rfl).trans (congrArg (Option.map _) hx))
  rw [applyOperator_eq]
  exact poses_runKernel hk ho hprepared (congrArg (Payload.resize _) hold) _ _

/-- A graph with room for three matrices, and for two scalars more. -/
def posingGraph : Graph := (new Registry.empty {}).after [.createPayload .float4x4 (.floats (List.replicate 50 0))]

/-- A process of forward kinematics that writes there. -/
def posing : Process where
  owner := 0
  key := ""
  operator := kinematicsOperator "pose" Mat4.mul
  inputs := [none, none]
  outputs := [("result", 0)]
  children := []

/-- The scalars of three matrices, and one more. -/
def posedLocals : List Float32 := (List.range 49).map Nat.toFloat32

/-- The views of a table of parents and of these scalars. -/
def posedViews (parents : List Int32) : List View := [some (.ints parents), some (.floats posedLocals)]

/-- Three bones in a row, with a table that is longer than it has to be: the third is the product of all three. When the first comes after the
second nothing is written. -/
theorem forward_kinematics_exact_chain :
    Operator.ofDescriptor "pose" (kinematicsBy Mat4.mul) = .ok posing.operator ∧ posing.outputs = [("result", 0)] ∧
      (∃ y new, (posingGraph.runKernel posing (posedViews [-1, 0, 1, 7]) ⟨1, [false, false], false⟩).1.entryAt? 0 = some y ∧
        y.payload = .floats new ∧ new.length = 50 ∧ (new.drop 32).take 16 =
          (((Mat4.ofListAt posedLocals 0).mul (Mat4.ofListAt posedLocals 1)).mul (Mat4.ofListAt posedLocals 2)).toList ∧ new[49]? = some 0) ∧
      (posingGraph.runKernel posing (posedViews [1, -1]) ⟨1, [false, false], false⟩).2 = some "parent bone must precede its child" ∧
      (posingGraph.runKernel posing (posedViews [1, -1]) ⟨1, [false, false], false⟩).1.store = posingGraph.store := by
  have hop : Operator.ofDescriptor "pose" (kinematicsBy Mat4.mul) = .ok posing.operator := rfl
  have hentry : (posingGraph.entryAt? 0).map (·.payload) = some (.floats (List.replicate 50 0)) := by decide +kernel
  have hbones : ∀ parents, (view (posedViews parents) 1).floats.length / 16 = 3 := by
    intro parents
    show posedLocals.length / 16 = 3
    simp [posedLocals]
  obtain ⟨x, hx, hold⟩ := Option.map_eq_some_iff.1 hentry
  obtain ⟨-, -, -, hall⟩ := forward_kinematics_exact (p := posing) Mat4.mul hop rfl
  have hruns := (hall posingGraph x _ hx hold).1
  have hordered := hruns (posedViews [-1, 0, 1, 7]) ⟨1, [false, false], false⟩
  have hmisplaced := hruns (posedViews [1, -1]) ⟨1, [false, false], false⟩
  have hrefused := hordered.refused
  have hrefused' := hmisplaced.refused
  rw [hbones] at hrefused hrefused'
  refine ⟨hop, rfl, ?_, ?_⟩
  · have hgood : ¬ ∃ bone < 3, Misplaced [-1, 0, 1, 7] bone := by
      unfold Misplaced
      decide
    have hnone := Option.not_isSome_iff_eq_none.1 (mt hrefused.1 hgood)
    obtain ⟨⟨y, new, hy, hnew, hposed⟩, -⟩ := hordered.written hnone
    obtain ⟨path, ⟨hpath, m, hm, htake⟩, -⟩ := hposed.bones 2 (by rw [hbones]; decide) (by simp)
    have hfirst : PathTo [-1, 0, 1, 7] 0 [0] := .root fun _ hp => by
      cases hp
      decide
    have hsecond : PathTo [-1, 0, 1, 7] 1 ([0] ++ [1]) := .child ⟨0, rfl, rfl⟩ hfirst
    have hthird : PathTo [-1, 0, 1, 7] 2 ([0] ++ [1] ++ [2]) := .child ⟨1, rfl, rfl⟩ hsecond
    obtain rfl := hpath.unique hthird
    obtain rfl := Option.some.inj hm
    refine ⟨y, new, hy, hnew, hposed.length, htake, ?_⟩
    rw [hposed.rest 49 (fun i hi _ => .inr ?_)]
    · rfl
    · rw [hbones] at hi
      omega
  · have hbad : ∃ bone < 3, Misplaced [1, -1] bone := by
      unfold Misplaced
      decide
    obtain ⟨reason, hreason⟩ := Option.isSome_iff_exists.1 (hrefused'.2 hbad)
    obtain ⟨rfl, hstore⟩ := hmisplaced.untouched reason hreason
    exact ⟨hreason, hstore⟩

end Graph

end Dataflow
