import Dataflow.Proofs.Outcome

/-!
# Operators that write everything anew

Whether anything is left of what the outputs of an operator held before shows at the kernel: nothing is when the kernel does not look at it,
and gives for every output, or for every window of one, something of its class that is long enough.
-/

namespace Dataflow

namespace Payload

/-- The class of a payload and the number of its scalars. -/
def shape (p : Payload) : Storage × Nat := (p.storage, p.size)

/-- What is written is of the class of what is written over, and at least as long. -/
def Covers (new old : Payload) : Prop := new.storage = old.storage ∧ old.size ≤ new.size

theorem overwrite_of_le {α : Type} {new old : List α} (h : old.length ≤ new.length) : overwrite new old = new.take old.length := by
  unfold overwrite
  rw [List.drop_eq_nil_of_le h, List.append_nil]

/-- Nothing is left of what is covered. -/
theorem write_congr {new old old' : Payload} (h : new.Covers old) (hs : old.shape = old'.shape) : new.write old = new.write old' := by
  obtain ⟨hc, hle⟩ := h
  obtain ⟨hc', hn⟩ := Prod.mk.inj hs
  have hle' : old'.size ≤ new.size := hn ▸ hle
  cases new <;> cases old <;> cases hc <;> cases old' <;> cases hc' <;> simp only [write, size] at *
  all_goals rw [overwrite_of_le hle, overwrite_of_le hle', hn]

theorem writeAll_congr {news olds olds' : List Payload} (h : List.Forall₂ Covers news olds) (hs : olds.map shape = olds'.map shape) :
    writeAll news olds = writeAll news olds' := by
  induction h generalizing olds' with
  | nil =>
    cases olds' with
    | nil => rfl
    | cons _ _ => cases hs
  | cons hc _ ih =>
    cases olds' with
    | nil => cases hs
    | cons old' olds' =>
      obtain ⟨hs, hrest⟩ := List.cons.inj hs
      rw [writeAll, writeAll, write_congr hc hs, ih hrest]

theorem covers_of_shape {news olds : List Payload} (h : news.map shape = olds.map shape) : List.Forall₂ Covers news olds := by
  induction news generalizing olds with
  | nil =>
    cases olds with
    | nil => exact .nil
    | cons _ _ => cases h
  | cons new news ih =>
    cases olds with
    | nil => cases h
    | cons old olds =>
      obtain ⟨hs, hrest⟩ := List.cons.inj h
      obtain ⟨hc, hn⟩ := Prod.mk.inj hs
      exact .cons ⟨hc, Nat.le_of_eq hn.symm⟩ (ih hrest)

/-- Up to the end of a window that was covered, the scalars are those before it and those that were written. -/
theorem fitTo_splice {α : Type} {start size : Nat} {fill : α} {new old : List α} (h : start + size ≤ old.length) (hn : size ≤ new.length) :
    fitTo (start + size) fill (writeAt.splice start size new old) = fitTo start fill old ++ new.take size := by
  have hw : ((old.drop start).take size).length = size := by
    rw [List.length_take, List.length_drop]
    omega
  have hlen : (old.take start ++ new.take size).length = start + size := by
    rw [List.length_append, List.length_take, List.length_take]
    omega
  unfold writeAt.splice fitTo
  rw [if_pos h, overwrite_of_le (by omega), hw, List.take_left' hlen, List.length_append, hlen, show start - old.length = 0 by omega,
    show start + size - (start + size + _) = 0 by omega]
  simp

theorem size_writeAt (start size : Nat) (new old : Payload) : (writeAt start size new old).size = old.size := by
  have hlen : ∀ {α : Type} (l l' : List α), (writeAt.splice start size l l').length = l'.length := by
    intro α l l'
    unfold writeAt.splice
    split
    · rw [List.length_append, List.length_append, length_overwrite, List.length_take, List.length_take, List.length_drop, List.length_drop]
      omega
    · rfl
  cases new <;> cases old <;> first | rfl | exact hlen _ _

/-- If two payloads of a class have the same scalars in front of a window, they have the same up to its end once it was covered. -/
theorem resize_writeAt_congr {start size : Nat} {new old old' : Payload} (hc : new.storage = old.storage) (hc' : old.storage = old'.storage)
    (hn : size ≤ new.size) (h : start + size ≤ old.size) (h' : start + size ≤ old'.size) (hfront : old.resize start = old'.resize start)
    (ht : old.storage ≠ .texture) : (writeAt start size new old).resize (start + size) = (writeAt start size new old').resize (start + size) := by
  cases new <;> cases old <;> cases hc <;> cases old' <;> cases hc'
  case texture.texture => exact absurd rfl ht
  all_goals
    simp only [writeAt, resize, floats.injEq, ints.injEq, bools.injEq] at hfront ⊢
    rw [fitTo_splice h hn, fitTo_splice h' hn, hfront]

/-- Without scalars, payloads of a class are the same. -/
theorem resize_zero_congr {p p' : Payload} (hc : p.storage = p'.storage) (ht : p.storage ≠ .texture) : p.resize 0 = p'.resize 0 := by
  cases p <;> cases p' <;> cases hc
  case texture.texture => exact absurd rfl ht
  all_goals simp [resize, fitTo]

theorem storage_window (start size : Nat) (p : Payload) : (p.window start size).storage = p.storage := by
  cases p <;> rfl

/-- A window that lies within the scalars has as many as it should. -/
theorem size_window {start size : Nat} {p : Payload} (h : start + size ≤ p.size) (ht : p.storage ≠ .texture) : (p.window start size).size = size := by
  cases p with
  | texture t => exact absurd rfl ht
  | floats l | ints l | bools l =>
    simp only [Payload.size] at h
    simp only [window, Payload.size, Dataflow.window, if_pos h, List.length_take, List.length_drop]
    omega

end Payload

namespace Operator

/-- The payloads are windows, of one tuple each, of the operator's outputs. -/
def Windows (op : Operator) (outs : List Payload) : Prop := outs.map Payload.shape = op.outputs.map fun o => (o.type.storage, o.type.tupleSize)

/-- What the outputs held, resized to what the arguments call for. -/
def resized (op : Operator) (views : List View) (olds : List Payload) : List Payload :=
  updateAll Payload.resize (op.lengths views (op.iteration views).count) olds

/-- Whether the kernel of an operator does not look at what its outputs held before, and writes every scalar. -/
def WritesAll (op : Operator) : Prop :=
  match op.kernel with
  | .core core => ∀ views outs outs', op.Windows outs → op.Windows outs' →
      core views outs = core views outs' ∧ List.Forall₂ Payload.Covers (core views outs) outs
  | .evaluate evaluate => ∀ views olds olds', op.Fits olds → op.Fits olds' →
      evaluate (op.iteration views) views (op.resized views olds) = evaluate (op.iteration views) views (op.resized views olds') ∧
      ∀ news, evaluate (op.iteration views) views (op.resized views olds) = .ok news → List.Forall₂ Payload.Covers news (op.resized views olds)

end Operator

namespace IterationPlan

variable {count i : Nat} {outputs : List OutputDecl} {outs outs' : List Payload} {plan : IterationPlan} {core : Core}

/-- Outputs of a loop of `count` iterations, of which `i` have run, that agree as far as those wrote. -/
inductive AgreeTo (count i : Nat) : List OutputDecl → List Payload → List Payload → Prop where
  | nil : AgreeTo count i [] [] []
  | cons {o : OutputDecl} {outputs : List OutputDecl} {p p' : Payload} {outs outs' : List Payload} (ht : o.type.storage ≠ .texture)
      (hs : p.shape = (o.type.storage, count * o.type.tupleSize)) (hs' : p'.shape = (o.type.storage, count * o.type.tupleSize))
      (hfront : p.resize (i * o.type.tupleSize) = p'.resize (i * o.type.tupleSize)) (hrest : AgreeTo count i outputs outs outs') :
      AgreeTo count i (o :: outputs) (p :: outs) (p' :: outs')

theorem AgreeTo.symm (h : AgreeTo count i outputs outs outs') : AgreeTo count i outputs outs' outs := by
  induction h with
  | nil => exact .nil
  | cons ht hs hs' hfront _ ih => exact .cons ht hs' hs hfront.symm ih

/-- What an iteration is given is one tuple of every output. -/
theorem AgreeTo.windows (h : AgreeTo count i outputs outs outs') (hi : i < count) (hplan : plan.outStrides = outputs.map (·.type.tupleSize)) :
    (plan.windows outs i).map Payload.shape = outputs.map fun o => (o.type.storage, o.type.tupleSize) := by
  unfold IterationPlan.windows
  rw [hplan]
  clear hplan
  induction h with
  | nil => rfl
  | @cons o outputs p _ outs _ ht hs _ _ _ ih =>
    obtain ⟨hc, hn⟩ := Prod.mk.inj hs
    have hbound : i * o.type.tupleSize + o.type.tupleSize ≤ p.size := by
      rw [hn, ← Nat.succ_mul]
      exact Nat.mul_le_mul_right _ hi
    rw [List.map_cons, List.zipWith_cons_cons, List.map_cons, List.map_cons, ih, Payload.shape, Payload.storage_window, hc,
      Payload.size_window hbound (hc ▸ ht)]

/-- Outputs that agree as far as they were written agree after the next windows were written. -/
theorem AgreeTo.writeWindows {news : List Payload} (h : AgreeTo count i outputs outs outs') (hi : i < count)
    (hw : List.Forall₂ (fun new (o : OutputDecl) => new.storage = o.type.storage ∧ o.type.tupleSize ≤ new.size) news outputs) :
    AgreeTo count (i + 1) outputs (writeWindows i (outputs.map (·.type.tupleSize)) news outs)
      (writeWindows i (outputs.map (·.type.tupleSize)) news outs') := by
  induction h generalizing news with
  | nil =>
    cases hw
    exact .nil
  | @cons o outputs p p' outs outs' ht hs hs' hfront _ ih =>
    cases hw with
    | cons hnew hrest =>
      obtain ⟨hclass, hlen⟩ := hnew
      obtain ⟨hc, hn⟩ := Prod.mk.inj hs
      obtain ⟨hc', hn'⟩ := Prod.mk.inj hs'
      have hbound : i * o.type.tupleSize + o.type.tupleSize ≤ count * o.type.tupleSize := by
        rw [← Nat.succ_mul]
        exact Nat.mul_le_mul_right _ hi
      refine .cons ht ?_ ?_ ?_ (ih hrest)
      · rw [Payload.shape, Payload.storage_writeAt, Payload.size_writeAt, hc, hn]
      · rw [Payload.shape, Payload.storage_writeAt, Payload.size_writeAt, hc', hn']
      · rw [Nat.succ_mul]
        exact Payload.resize_writeAt_congr (hclass.trans hc.symm) (hc.trans hc'.symm) hlen (hn ▸ hbound) (hn' ▸ hbound) hfront (hc ▸ ht)

/-- Nothing is left of what outputs held that the loop wrote from front to end. -/
theorem AgreeTo.eq (h : AgreeTo count count outputs outs outs') : outs = outs' := by
  induction h with
  | nil => rfl
  | @cons _ _ p p' _ _ _ hs hs' hfront _ ih =>
    have hself : ∀ p : Payload, p.resize p.size = p := by
      intro p
      cases p <;> simp [Payload.resize, Payload.size, fitTo]
    rw [← (Prod.mk.inj hs).2, hself, (Prod.mk.inj hs).2, ← (Prod.mk.inj hs').2, hself] at hfront
    rw [hfront, ih]

theorem shape_writeWindows (strides : List Nat) (news outs : List Payload) :
    (writeWindows i strides news outs).map Payload.shape = outs.map Payload.shape := by
  induction outs generalizing strides news with
  | nil => cases strides <;> cases news <;> rfl
  | cons out outs ih =>
    rcases strides with _ | ⟨stride, strides⟩
    · rfl
    rcases news with _ | ⟨new, news⟩
    · rfl
    rw [writeWindows, List.map_cons, List.map_cons, ih, Payload.shape, Payload.storage_writeAt, Payload.size_writeAt, Payload.shape]

/-- A loop keeps the classes and the lengths of the outputs. -/
theorem shape_runFrom (plan : IterationPlan) (core : Core) (args : List View) (is : List Nat) (outs : List Payload) :
    (plan.runFrom core args is outs).1.map Payload.shape = outs.map Payload.shape := by
  induction is generalizing outs with
  | nil => rfl
  | cons i is ih =>
    unfold IterationPlan.runFrom step
    dsimp only
    rw [ih, shape_writeWindows]

/-- The rest of the loop of a core that writes every window. -/
theorem AgreeTo.runFrom {op : Operator} (plan : IterationPlan) (hkernel : op.kernel = .core core) (hw : op.WritesAll) (hplan : plan.outStrides = op.outputSizes)
    (args : List View) {k : Nat} (hk : i + k = count) (h : AgreeTo count i op.outputs outs outs') :
    (plan.runFrom core args (List.range' i k) outs).1 = (plan.runFrom core args (List.range' i k) outs').1 := by
  induction k generalizing i outs outs' with
  | zero =>
    obtain rfl : i = count := by omega
    exact h.eq
  | succ k ih =>
    rw [List.range'_succ]
    unfold Operator.WritesAll at hw
    rw [hkernel] at hw
    have hwindows := h.windows (by omega) hplan
    obtain ⟨hblind, hcovers⟩ := hw (plan.views args i) _ _ hwindows (h.symm.windows (by omega) hplan)
    -- what the core gives is as long as the windows, so as long as one tuple
    have hlong := (List.forall₂_map_right_iff (R := fun (new : Payload) (s : Storage × Nat) => new.storage = s.1 ∧ s.2 ≤ new.size)
      (f := Payload.shape)).2 hcovers
    rw [hwindows, List.forall₂_map_right_iff] at hlong
    have hrest := ih (by omega) (h.writeWindows (by omega) hlong)
    unfold IterationPlan.runFrom step
    dsimp only
    rw [← hblind, hplan]
    exact hrest

end IterationPlan

namespace Operator

variable {op : Operator}

/-- Outputs of the same classes are as long as each other once they were resized. -/
theorem shape_resized {lengths : List Nat} {olds olds' : List Payload} (hn : lengths.length = olds.length)
    (h : olds.map (·.storage) = olds'.map (·.storage)) :
    (updateAll Payload.resize lengths olds).map Payload.shape = (updateAll Payload.resize lengths olds').map Payload.shape := by
  induction olds generalizing lengths olds' with
  | nil =>
    cases olds' with
    | nil => rfl
    | cons _ _ => cases h
  | cons p olds ih =>
    rcases lengths with _ | ⟨n, lengths⟩
    · cases hn
    rcases olds' with _ | ⟨p', olds'⟩
    · cases h
    obtain ⟨hc, hrest⟩ := List.cons.inj h
    have hshape : (p.resize n).shape = (p'.resize n).shape := by
      cases p <;> cases p' <;> cases hc <;> simp [Payload.shape, Payload.resize, Payload.storage, Payload.size, Payload.length_fitTo]
    rw [updateAll, updateAll, List.map_cons, List.map_cons, hshape, ih (Nat.succ.inj hn) hrest]

/-- Resized outputs without a texture agree before the first iteration. -/
theorem agreeTo_resized {outputs : List OutputDecl} {olds olds' : List Payload} (count : Nat) (htex : ∀ o ∈ outputs, o.type.storage ≠ .texture)
    (h : olds.map (·.storage) = outputs.map (·.type.storage)) (h' : olds'.map (·.storage) = outputs.map (·.type.storage)) :
    IterationPlan.AgreeTo count 0 outputs (updateAll Payload.resize (outputs.map fun o => count * o.type.tupleSize) olds)
      (updateAll Payload.resize (outputs.map fun o => count * o.type.tupleSize) olds') := by
  induction outputs generalizing olds olds' with
  | nil =>
    rw [List.map_eq_nil_iff.1 h, List.map_eq_nil_iff.1 h']
    exact .nil
  | cons o outputs ih =>
    rcases olds with _ | ⟨p, olds⟩
    · cases h
    rcases olds' with _ | ⟨p', olds'⟩
    · cases h'
    obtain ⟨hc, hrest⟩ := List.cons.inj h
    obtain ⟨hc', hrest'⟩ := List.cons.inj h'
    dsimp only at hc hc'
    have ht := htex o List.mem_cons_self
    have hshape : ∀ {p : Payload} n, p.storage = o.type.storage → (p.resize n).shape = (o.type.storage, n) := fun n hp => by
      rw [Payload.shape, Payload.storage_resize, Payload.size_resize n _ (hp ▸ ht), hp]
    refine .cons ht (hshape _ hc) (hshape _ hc') ?_ (ih (fun o' ho' => htex o' (List.mem_cons_of_mem _ ho')) hrest hrest')
    rw [Nat.zero_mul]
    refine Payload.resize_zero_congr ?_ ?_
    · rw [Payload.storage_resize, Payload.storage_resize, hc, hc']
    · rw [Payload.storage_resize, hc]
      exact ht

/-- An operator leaves nothing of what its outputs held before if its kernel does not look at it and writes all of it; a core writes as
many tuples as there are iterations, so every output has to have room for just those. -/
theorem WritesAll.overwrites (h : op.WritesAll)
    (hcore : ∀ core, op.kernel = .core core → ∀ o ∈ op.outputs, o.custom = false ∧ o.type.storage ≠ .texture) : op.Overwrites := by
  intro views olds olds' hfit hfit'
  have hn : ∀ count, (op.lengths views count).length = olds.length := by
    intro count
    rw [lengths, List.length_mapIdx, ← List.length_map (f := fun o : OutputDecl => o.type.storage), ← hfit, List.length_map]
  have hshape := shape_resized (hn (op.iteration views).count) (hfit.trans hfit'.symm)
  unfold outcome
  dsimp only
  rcases hk : op.kernel with core | evaluate
  · have hlengths : op.lengths views (op.iteration views).count = op.outputs.map fun o => (op.iteration views).count * o.type.tupleSize := by
      refine List.ext_getElem? fun i => ?_
      rw [lengths, List.getElem?_mapIdx, List.getElem?_map]
      refine Option.map_congr fun o ho => ?_
      rw [OutputDecl.length, (hcore core hk o (List.mem_of_getElem? ho)).1]
      rfl
    have hrun := (agreeTo_resized (op.iteration views).count (fun o ho => (hcore core hk o ho).2) hfit hfit').runFrom
      (.ofSizes op.argSizes (op.iteration views).advancing op.outputSizes) hk h rfl views (Nat.zero_add _)
    rw [← hlengths, ← List.range_eq_range'] at hrun
    dsimp only
    unfold IterationPlan.run
    rw [← hrun, Payload.writeAll_congr (Payload.covers_of_shape (IterationPlan.shape_runFrom ..)) hshape]
  · unfold WritesAll at h
    rw [hk] at h
    obtain ⟨hblind, hcovers⟩ := h views olds olds' hfit hfit'
    unfold resized at hblind hcovers
    dsimp only
    rw [← hblind]
    rcases he : evaluate (op.iteration views) views (updateAll Payload.resize (op.lengths views (op.iteration views).count) olds) with r | news
    · rfl
    · exact congrArg Except.ok (Payload.writeAll_congr (hcovers _ he) hshape)

end Operator

theorem Except.bind_eq_ok {ε α β : Type} {x : Except ε α} {f : α → Except ε β} {b : β} : x >>= f = .ok b ↔ ∃ a, x = .ok a ∧ f a = .ok b := by
  rcases x with e | a
  · simp [bind, Except.bind]
  · simp [bind, Except.bind]

theorem Except.mapError_eq_ok_iff {ε ε' α : Type} {x : Except ε α} {f : ε → ε'} {a : α} : x.mapError f = .ok a ↔ x = .ok a := by
  cases x <;> simp [Except.mapError]

namespace Descriptor

/-- The arguments: those of the mapping, or else one for every parameter. -/
def checkArgs (params : List ParamDecl) : Option (List ArgSpec) → Except OperatorFlaw (List ArgDecl)
  | none => .ok (defaultArgs params)
  | some mapping => mapping.mapM (checkArg params)

end Descriptor

namespace Operator

open Descriptor

/-- An operator is made in steps: every step that may refuse takes what those before it made. -/
theorem ofDescriptor_eq (name : String) (d : Descriptor) : ofDescriptor name d =
    if d.outputs = [] then .error (.invalidOperator name .noOutputs)
    else d.outputs.mapM checkOutput >>= fun outputs => d.params.mapM checkParam >>= fun params =>
      (checkArgs params d.mapping).mapError (.invalidOperator name) >>= fun args =>
      if outputs.any (·.custom) && d.alloc.isNone then .error (.invalidOperator name .noAllocation)
      else (d.checkKernel outputs).mapError (.invalidOperator name) >>= fun kernel => .ok ⟨name, outputs, params, args, d.alloc, kernel⟩ := by
  unfold ofDescriptor checkArgs
  rcases d.outputs with _ | ⟨o, outputs⟩
  · rfl
  · rcases d.mapping with _ | mapping <;> rfl

/-- An operator is of the name that it was declared under, and its kernel was checked against its outputs. -/
theorem of_ofDescriptor {name : String} {d : Descriptor} {op : Operator} (h : ofDescriptor name d = .ok op) :
    op.name = name ∧ d.checkKernel op.outputs = .ok op.kernel := by
  rw [ofDescriptor_eq] at h
  split at h
  · cases h
  obtain ⟨outputs, -, h⟩ := Except.bind_eq_ok.1 h
  obtain ⟨params, -, h⟩ := Except.bind_eq_ok.1 h
  obtain ⟨args, -, h⟩ := Except.bind_eq_ok.1 h
  split at h
  · cases h
  obtain ⟨kernel, hkernel, h⟩ := Except.bind_eq_ok.1 h
  cases h
  exact ⟨rfl, Except.mapError_eq_ok_iff.1 hkernel⟩

/-- No output of an operator of a core is a texture. -/
theorem type_ne_texture_of_ofDescriptor {name : String} {d : Descriptor} {op : Operator} {core : Core}
    (h : ofDescriptor name d = .ok op) (hk : op.kernel = .core core) : ∀ o ∈ op.outputs, o.type ≠ .texture := by
  obtain ⟨-, hkernel⟩ := of_ofDescriptor h
  intro o ho htexture
  rw [hk, Descriptor.checkKernel] at hkernel
  split at hkernel
  · rw [if_pos (List.any_eq_true.2 ⟨o, ho, decide_eq_true htexture⟩)] at hkernel
    cases hkernel
  · cases hkernel
  · cases hkernel

end Operator

namespace Registry

/-- Every operator overwrites all that its outputs held before. -/
def Overwriting (r : Registry) : Prop := ∀ name op, r.get? name = some op → op.Overwrites

theorem get?_empty (name : String) : empty.get? name = none := Std.ExtTreeMap.getElem?_empty

theorem wellNamed_empty : empty.WellNamed := fun name op hop => absurd (hop.symm.trans (get?_empty name)) (Option.some_ne_none op)

section Kind

variable {P : String → Operator → Prop} (hP : ∀ {name d op}, Operator.ofDescriptor name d = .ok op → P name op)

include hP

theorem forall_register {r r' : Registry} {name : String} {d : Descriptor} {log : List Notice} (hr : ∀ x op, r.get? x = some op → P x op)
    (h : r.register name d = .ok (r', log)) : ∀ x op, r'.get? x = some op → P x op := by
  unfold Registry.register at h
  obtain ⟨op, hop, h⟩ := Except.bind_eq_ok.1 h
  cases h
  intro x o ho
  unfold get? at ho
  dsimp only at ho
  rw [Std.ExtTreeMap.getElem?_insert] at ho
  split at ho
  · rename_i hx
    obtain rfl := Std.LawfulEqCmp.eq_of_compare hx
    cases ho
    exact hP hop
  · exact hr x o ho

/-- What holds of all operators that descriptors make holds of those that were registered in turn. -/
theorem forall_registerAll {r r' : Registry} {ds : List (String × Descriptor)} {log : List Notice}
    (hr : ∀ x op, r.get? x = some op → P x op) (h : r.registerAll ds = .ok (r', log)) : ∀ x op, r'.get? x = some op → P x op := by
  unfold Registry.registerAll at h
  generalize ([] : List Notice) = old at h
  induction ds generalizing r old with
  | nil =>
    cases h
    exact hr
  | cons d ds ih =>
    rw [List.foldlM_cons] at h
    obtain ⟨⟨r₁, log₁⟩, hstep, h⟩ := Except.bind_eq_ok.1 h
    obtain ⟨⟨r₂, log₂⟩, hreg, hstep⟩ := Except.bind_eq_ok.1 hstep
    cases hstep
    exact ih (forall_register hP hr hreg) _ h

end Kind

/-- Operators that were registered in turn are held under their own names. -/
theorem WellNamed.registerAll {r r' : Registry} {ds : List (String × Descriptor)} {log : List Notice} (hr : r.WellNamed)
    (h : r.registerAll ds = .ok (r', log)) : r'.WellNamed :=
  forall_registerAll (fun hop => (Operator.of_ofDescriptor hop).1) hr h

end Registry

end Dataflow
