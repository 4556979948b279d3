import Dataflow.Proofs.Overwriting
import Mathlib.Data.List.Forall2

/-!
# Declarations and their flaws

A declaration is checked in steps, each of which may need what the ones before it made: an argument is looked up among parameters whose types
were found. What a step has to find wrong can be said without them, as a list of flaws in order; and a check that reports the first of its flaws,
followed by one that does, reports the first of both. So the flaws of a declaration are those of its steps, one after the other, and the first
of them is what it is refused for. Without flaws it makes an operator, in which every name stands for the first parameter that has it.
-/

namespace Dataflow

/-- A check reports the first of some flaws, and passes when there are none. -/
def Reports {ε α : Type} (check : Except ε α) (flaws : List ε) : Prop :=
  match check with
  | .ok _ => flaws = []
  | .error e => flaws.head? = some e

/-- A flaw, where there is one. -/
def flawIf {ε : Type} (c : Prop) [Decidable c] (e : ε) : List ε := if c then [e] else []

theorem flawIf_eq_nil_iff {ε : Type} {c : Prop} [Decidable c] {e : ε} : flawIf c e = [] ↔ ¬ c := by
  unfold flawIf
  split <;> simp [*]

namespace Reports

variable {ε ε' α β : Type} {check : Except ε α} {flaws more : List ε}

theorem ok_iff (h : Reports check flaws) : (∃ a, check = .ok a) ↔ flaws = [] := by
  cases check with
  | ok a => exact ⟨fun _ => h, fun _ => ⟨a, rfl⟩⟩
  | error e =>
    refine ⟨nofun, ?_⟩
    rintro rfl
    cases h

theorem error_iff (h : Reports check flaws) (e : ε) : check = .error e ↔ flaws.head? = some e := by
  cases check with
  | ok a =>
    obtain rfl : flaws = [] := h
    exact ⟨nofun, nofun⟩
  | error e' =>
    change flaws.head? = some e' at h
    rw [h, Except.error.injEq, Option.some_inj]

theorem of_flawIf {c : Prop} [Decidable c] {e : ε} (hpos : c → check = .error e) (hneg : ¬ c → ∃ a, check = .ok a) :
    Reports check (flawIf c e) := by
  by_cases hc : c
  · rw [hpos hc, flawIf, if_pos hc]
    rfl
  · obtain ⟨a, ha⟩ := hneg hc
    rw [ha, flawIf, if_neg hc]
    rfl

/-- A check that goes on only when there is no flaw. -/
theorem guarded {c : Prop} [Decidable c] {e : ε} (h : ¬ c → Reports check flaws) : Reports (if c then .error e else check) (flawIf c e ++ flaws) := by
  by_cases hc : c
  · rw [if_pos hc, flawIf, if_pos hc]
    rfl
  · rw [if_neg hc, flawIf, if_neg hc]
    exact h hc

/-- One check after the other. -/
theorem bind {next : α → Except ε β} (h : Reports check flaws) (hn : ∀ a, check = .ok a → Reports (next a) more) :
    Reports (check >>= next) (flaws ++ more) := by
  cases check with
  | ok a =>
    obtain rfl : flaws = [] := h
    exact hn a rfl
  | error e =>
    change (flaws ++ more).head? = some e
    rw [List.head?_append, show flaws.head? = some e from h]
    rfl

/-- A check, and what is made when it passes. -/
theorem made (h : Reports check flaws) (f : α → β) : Reports (check >>= fun a => .ok (f a)) flaws := by
  cases check with
  | ok a => exact h
  | error e => exact h

theorem mapError (h : Reports check flaws) (f : ε → ε') : Reports (check.mapError f) (flaws.map f) := by
  cases check with
  | ok a =>
    obtain rfl : flaws = [] := h
    rfl
  | error e =>
    change (flaws.map f).head? = some (f e)
    rw [List.head?_map, show flaws.head? = some e from h]
    rfl

/-- The members of a list, one after the other. -/
theorem mapM {f : α → Except ε β} {of : α → List ε} {l : List α} (h : ∀ a ∈ l, Reports (f a) (of a)) : Reports (l.mapM f) (l.flatMap of) := by
  induction l with
  | nil => exact rfl
  | cons a l ih =>
    rw [List.mapM_cons, List.flatMap_cons]
    exact (h a List.mem_cons_self).bind fun b _ => (ih fun a' ha' => h a' (List.mem_cons_of_mem _ ha')).made _

end Reports

/-- A check of the members of a list passes when each of them does. -/
theorem Except.mapM_eq_ok_iff {ε α β : Type} {f : α → Except ε β} {l : List α} {bs : List β} :
    l.mapM f = .ok bs ↔ List.Forall₂ (fun a b => f a = .ok b) l bs := by
  induction l generalizing bs with
  | nil =>
    rw [List.mapM_nil, List.forall₂_nil_left_iff]
    exact ⟨fun h => (Except.ok.inj h).symm, fun h => congrArg Except.ok h.symm⟩
  | cons a l ih =>
    rw [List.mapM_cons, bind_eq_ok, List.forall₂_cons_left_iff]
    constructor
    · rintro ⟨b, hb, h⟩
      obtain ⟨bs', hbs, h⟩ := bind_eq_ok.1 h
      cases h
      exact ⟨b, bs', hb, ih.1 hbs, rfl⟩
    · rintro ⟨b, bs', hb, hbs, rfl⟩
      exact ⟨b, hb, bind_eq_ok.2 ⟨bs', ih.2 hbs, rfl⟩⟩

section Counterparts

variable {α β γ : Type} {R : α → β → Prop} {l : List α} {l' : List β} (h : List.Forall₂ R l l')

include h

theorem exists_left_of_forall₂ {b : β} (hb : b ∈ l') : ∃ a ∈ l, R a b := by
  induction h with
  | nil => cases hb
  | cons hab _ ih =>
    rcases List.mem_cons.1 hb with rfl | hb
    · exact ⟨_, List.mem_cons_self, hab⟩
    · obtain ⟨a, ha, hab⟩ := ih hb
      exact ⟨a, List.mem_cons_of_mem _ ha, hab⟩

theorem map_eq_of_forall₂ {f : α → γ} {g : β → γ} (hR : ∀ a b, R a b → f a = g b) : l.map f = l'.map g := by
  rw [← List.forall₂_eq_eq_eq, List.forall₂_map_left_iff, List.forall₂_map_right_iff]
  exact h.imp hR

theorem any_eq_of_forall₂ {p : α → Bool} {q : β → Bool} (hR : ∀ a b, R a b → p a = q b) : l.any p = l'.any q := by
  have hmap := congrArg (List.any · id) (map_eq_of_forall₂ h hR)
  simpa only [List.any_map, Function.id_comp] using hmap

end Counterparts

/-! ## Names of types -/

/-- A text without the blanks around it. -/
def bare (text : String) : String := String.ofList (trim text.toList)

namespace DataType

variable {text : String} {t : DataType}

theorem ofName?_eq_some_iff {name : String} : ofName? name = some t ↔ name = t.name := by
  constructor
  · intro h
    unfold ofName? at h
    have hname := List.find?_some h
    exact (of_decide_eq_true hname).symm
  · rintro rfl
    exact ofName?_name t

theorem parse_eq_ok_iff : parse text = .ok t ↔ bare text = t.name := by
  rw [← ofName?_eq_some_iff]
  unfold parse bare
  dsimp only
  rcases ofName? (String.ofList (trim text.toList)) with _ | t' <;> simp

theorem parse_eq_error (h : ∀ t : DataType, bare text ≠ t.name) : parse text = .error (.unknownType (bare text)) := by
  have hnone : ofName? (bare text) = none := by
    rcases ho : ofName? (bare text) with _ | t
    · rfl
    · exact absurd (ofName?_eq_some_iff.1 ho) (h t)
  unfold bare at hnone ⊢
  unfold parse
  dsimp only
  rw [hnone]

end DataType

namespace Descriptor

/-- A text names a type, blanks around it aside. -/
def Named (text : String) : Prop := bare text ∈ DataType.all.map DataType.name

instance (text : String) : Decidable (Named text) := inferInstanceAs (Decidable (_ ∈ _))

theorem named_iff {text : String} : Named text ↔ ∃ t : DataType, bare text = t.name := by
  unfold Named
  rw [List.mem_map]
  constructor
  · rintro ⟨t, -, h⟩
    exact ⟨t, h.symm⟩
  · rintro ⟨t, h⟩
    exact ⟨t, t.mem_all, h.symm⟩

/-- What is wrong with the name of a type: there is no type of this name. -/
def typeFlaws (text : String) : List Error := flawIf (¬ Named text) (.unknownType (bare text))

theorem reports_parse (text : String) : Reports (DataType.parse text) (typeFlaws text) := by
  refine .of_flawIf (fun h => DataType.parse_eq_error fun t ht => h (named_iff.2 ⟨t, ht⟩)) fun h => ?_
  obtain ⟨t, ht⟩ := named_iff.1 (not_not.1 h)
  exact ⟨t, DataType.parse_eq_ok_iff.2 ht⟩

theorem reports_checkOutput (o : OutputSpec) : Reports (checkOutput o) (typeFlaws o.type) := (reports_parse o.type).made _

theorem reports_checkParam (p : ParamSpec) : Reports (checkParam p) (typeFlaws p.type) := (reports_parse p.type).made _

/-! ## Arguments -/

/-- What is wrong with an argument, where parameters have these sources: none of them is its source, or, if it is read at a key, it names none
for the key. -/
def argFlaws (sources : List String) (a : ArgSpec) : List OperatorFlaw :=
  flawIf (a.source ∉ sources) (.unknownSource a.source) ++
    if a.access = .first then []
    else match a.key with
      | none => [.missingKey a.source]
      | some key => flawIf (key ∉ sources) (.unknownKey key)

/-- The first of some parameters that has a source is in a place. -/
structure FirstOf (params : List ParamDecl) (source : String) (i : Nat) : Prop where
  found : ∃ p, params[i]? = some p ∧ p.source = source
  first : ∀ j < i, ∀ p, params[j]? = some p → p.source ≠ source

variable {params : List ParamDecl} {source : String}

theorem FirstOf.lt {i : Nat} (h : FirstOf params source i) : i < params.length := by
  obtain ⟨p, hp, -⟩ := h.found
  exact (List.getElem?_eq_some_iff.1 hp).1

theorem firstOf_of_position? {i : Nat} (h : position? params source = some i) : FirstOf params source i := by
  unfold position? at h
  obtain ⟨hlt, hfound, hfirst⟩ := List.findIdx?_eq_some_iff_getElem.1 h
  refine ⟨⟨params[i], List.getElem?_eq_getElem hlt, of_decide_eq_true hfound⟩, fun j hj p hp hs => ?_⟩
  obtain ⟨hlt', rfl⟩ := List.getElem?_eq_some_iff.1 hp
  exact hfirst j hj (decide_eq_true hs)

theorem exists_position?_iff : (∃ i, position? params source = some i) ↔ source ∈ params.map (·.source) := by
  rw [← Option.isSome_iff_exists, position?, List.findIdx?_isSome, List.any_eq_true, List.mem_map]
  simp

/-- A look-up among parameters. -/
theorem reports_position? {α : Type} (flaw : OperatorFlaw) (f : Nat → α) :
    Reports ((position? params source).elim (.error flaw) fun i => .ok (f i)) (flawIf (source ∉ params.map (·.source)) flaw) := by
  refine .of_flawIf (fun h => ?_) fun h => ?_
  · rcases hp : position? params source with _ | i
    · rfl
    · exact absurd (exists_position?_iff.1 ⟨i, hp⟩) h
  · obtain ⟨i, hi⟩ := exists_position?_iff.2 (not_not.1 h)
    exact ⟨f i, by rw [hi]; rfl⟩

/-- The place of the key of an argument. -/
def checkKey (params : List ParamDecl) (a : ArgSpec) : Except OperatorFlaw (Option Nat) :=
  match a.access, a.key with
  | .first, _ => .ok none
  | _, some key => (position? params key).elim (.error (.unknownKey key)) fun k => .ok (some k)
  | _, none => .error (.missingKey a.source)

theorem checkArg_eq (params : List ParamDecl) (a : ArgSpec) : checkArg params a =
    ((position? params a.source).elim (.error (.unknownSource a.source)) fun i => .ok i) >>= fun param => checkKey params a >>= fun key =>
      .ok ⟨param, a.access, key, a.array || (params[param]?.any (·.array))⟩ := by
  unfold checkArg checkKey
  rcases position? params a.source with _ | i
  · rfl
  · rcases a.access <;> rcases a.key <;> rfl

theorem checkKey_first {a : ArgSpec} (ha : a.access = .first) : checkKey params a = .ok none := by
  rw [checkKey, ha]

theorem checkKey_none {a : ArgSpec} (ha : a.access ≠ .first) (hk : a.key = none) : checkKey params a = .error (.missingKey a.source) := by
  rw [checkKey, hk]
  cases h : a.access <;> first | exact absurd h ha | rfl

theorem checkKey_some {a : ArgSpec} (ha : a.access ≠ .first) {key : String} (hk : a.key = some key) :
    checkKey params a = (position? params key).elim (.error (.unknownKey key)) fun k => .ok (some k) := by
  rw [checkKey, hk]
  cases h : a.access <;> first | exact absurd h ha | rfl

theorem reports_checkArg (params : List ParamDecl) (a : ArgSpec) : Reports (checkArg params a) (argFlaws (params.map (·.source)) a) := by
  rw [checkArg_eq, argFlaws]
  refine (reports_position? _ _).bind fun i _ => ?_
  refine Reports.made ?_ _
  split
  · rename_i ha
    rw [checkKey_first ha]
    rfl
  · rename_i ha
    rcases hk : a.key with _ | key
    · rw [checkKey_none ha hk]
      rfl
    · rw [checkKey_some ha hk]
      exact reports_position? _ _

/-- An argument is what it was declared as: it reads the first parameter that has its source, and its key, unless it reads without one, is in
the first parameter that has the source of the key. -/
structure Refers (params : List ParamDecl) (a : ArgSpec) (arg : ArgDecl) : Prop where
  access : arg.access = a.access
  param : FirstOf params a.source arg.param
  unkeyed : a.access = .first → arg.key = none
  keyed : a.access ≠ .first → ∃ key k, a.key = some key ∧ arg.key = some k ∧ FirstOf params key k
  array : arg.array = true ↔ a.array = true ∨ ∃ p, params[arg.param]? = some p ∧ p.array = true

theorem refers_of_checkArg {a : ArgSpec} {arg : ArgDecl} (h : checkArg params a = .ok arg) : Refers params a arg := by
  rw [checkArg_eq, Except.bind_eq_ok] at h
  obtain ⟨i, hi, h⟩ := h
  obtain ⟨key, hkey, h⟩ := Except.bind_eq_ok.1 h
  cases h
  have hposition : ∀ {source : String} {α : Type} {flaw : OperatorFlaw} {f : Nat → α} {b : α},
      (position? params source).elim (.error flaw) (fun i => Except.ok (f i)) = .ok b → ∃ i, f i = b ∧ FirstOf params source i := by
    intro source α flaw f b hb
    rcases hp : position? params source with _ | i <;> rw [hp] at hb <;> cases hb
    exact ⟨i, rfl, firstOf_of_position? hp⟩
  refine ⟨rfl, ?_, fun ha => ?_, fun ha => ?_, ?_⟩
  · obtain ⟨_, rfl, hfirst⟩ := hposition hi
    exact hfirst
  · rw [checkKey_first ha] at hkey
    exact (Except.ok.inj hkey).symm
  · rcases hk : a.key with _ | name
    · rw [checkKey_none ha hk] at hkey
      cases hkey
    · rw [checkKey_some ha hk] at hkey
      obtain ⟨k, rfl, hfirst⟩ := hposition hkey
      exact ⟨name, k, rfl, rfl, hfirst⟩
  · rw [Bool.or_eq_true, Option.any_eq_true]

theorem reports_checkArgs (params : List ParamDecl) (mapping : Option (List ArgSpec)) :
    Reports (checkArgs params mapping) ((mapping.getD []).flatMap (argFlaws (params.map (·.source)))) := by
  rcases mapping with _ | mapping
  · exact rfl
  · exact .mapM fun a _ => reports_checkArg params a

/-! ## Outputs, parameters and the kernel -/

/-- An output is what it was declared as. -/
structure Yields (o : OutputSpec) (decl : OutputDecl) : Prop where
  type : bare o.type = decl.type.name
  name : decl.name = o.name
  custom : decl.custom = o.custom

/-- A parameter is what it was declared as. -/
structure Takes (p : ParamSpec) (decl : ParamDecl) : Prop where
  type : bare p.type = decl.type.name
  source : decl.source = p.source
  optional : decl.optional = p.optional
  array : decl.array = p.array

theorem yields_of_checkOutput {o : OutputSpec} {decl : OutputDecl} (h : checkOutput o = .ok decl) : Yields o decl := by
  obtain ⟨t, ht, h⟩ := Except.bind_eq_ok.1 h
  cases h
  exact ⟨DataType.parse_eq_ok_iff.1 ht, rfl, rfl⟩

theorem takes_of_checkParam {p : ParamSpec} {decl : ParamDecl} (h : checkParam p = .ok decl) : Takes p decl := by
  obtain ⟨t, ht, h⟩ := Except.bind_eq_ok.1 h
  cases h
  exact ⟨DataType.parse_eq_ok_iff.1 ht, rfl, rfl, rfl⟩

theorem Yields.type_eq_iff {o : OutputSpec} {decl : OutputDecl} (h : Yields o decl) (t : DataType) : decl.type = t ↔ bare o.type = t.name := by
  rw [← DataType.parse_eq_ok_iff, DataType.parse_eq_ok_iff.2 h.type, Except.ok.injEq]

/-- What is wrong with the kernel: there is none, or there is a core, and a texture among the outputs. -/
def kernelFlaws (d : Descriptor) : List OperatorFlaw :=
  flawIf (d.core.isNone && d.evaluate.isNone) .noKernel ++
    flawIf (d.core.isSome && d.outputs.any (bare ·.type = DataType.texture.name)) .textureFromCore

theorem reports_checkKernel (d : Descriptor) {outputs : List OutputDecl} (h : List.Forall₂ Yields d.outputs outputs) :
    Reports (checkKernel d outputs) d.kernelFlaws := by
  have htexture : d.outputs.any (bare ·.type = DataType.texture.name) = outputs.any (·.type = .texture) :=
    any_eq_of_forall₂ h fun o decl ho => decide_eq_decide.2 (ho.type_eq_iff .texture).symm
  unfold checkKernel kernelFlaws
  rw [htexture]
  rcases d.core with _ | core
  · rcases d.evaluate with _ | evaluate <;> exact rfl
  · cases outputs.any (·.type = .texture) <;> exact rfl

/-! ## Operators -/

/-- All that is wrong with a descriptor, in order. -/
def flaws (name : String) (d : Descriptor) : List Error :=
  flawIf (d.outputs = []) (.invalidOperator name .noOutputs) ++
    (d.outputs.flatMap (typeFlaws ·.type) ++
      (d.params.flatMap (typeFlaws ·.type) ++
        (((d.mapping.getD []).flatMap (argFlaws (d.params.map (·.source)))).map (.invalidOperator name) ++
          (flawIf (d.outputs.any (·.custom) && d.alloc.isNone) (.invalidOperator name .noAllocation) ++
            d.kernelFlaws.map (.invalidOperator name)))))

/-- A descriptor without flaws. -/
structure Valid (d : Descriptor) : Prop where
  outputs : d.outputs ≠ []
  outputTypes : ∀ o ∈ d.outputs, Named o.type
  paramTypes : ∀ p ∈ d.params, Named p.type
  sources : ∀ a ∈ d.mapping.getD [], a.source ∈ d.params.map (·.source)
  keys : ∀ a ∈ d.mapping.getD [], a.access ≠ .first → ∃ key, a.key = some key ∧ key ∈ d.params.map (·.source)
  allocation : (∃ o ∈ d.outputs, o.custom = true) → d.alloc.isSome
  kernel : d.core.isSome ∨ d.evaluate.isSome
  textures : d.core.isSome → ∀ o ∈ d.outputs, bare o.type ≠ DataType.texture.name

theorem typeFlaws_eq_nil_iff {text : String} : typeFlaws text = [] ↔ Named text := flawIf_eq_nil_iff.trans not_not

theorem argFlaws_eq_nil_iff {sources : List String} {a : ArgSpec} : argFlaws sources a = [] ↔
    a.source ∈ sources ∧ (a.access ≠ .first → ∃ key, a.key = some key ∧ key ∈ sources) := by
  rw [argFlaws, List.append_eq_nil_iff, flawIf_eq_nil_iff, not_not]
  refine and_congr_right fun _ => ?_
  split
  · rename_i ha
    exact ⟨fun _ hne => absurd ha hne, fun _ => rfl⟩
  · rename_i ha
    rcases a.key with _ | key
    · exact ⟨nofun, fun h => absurd (h ha) (by rintro ⟨_, h, -⟩; cases h)⟩
    · rw [flawIf_eq_nil_iff, not_not]
      refine ⟨fun h _ => ⟨key, rfl, h⟩, fun h => ?_⟩
      obtain ⟨_, hkey, h⟩ := h ha
      cases hkey
      exact h

theorem kernelFlaws_eq_nil_iff {d : Descriptor} : d.kernelFlaws = [] ↔
    (d.core.isSome ∨ d.evaluate.isSome) ∧ (d.core.isSome → ∀ o ∈ d.outputs, bare o.type ≠ DataType.texture.name) := by
  rw [kernelFlaws, List.append_eq_nil_iff, flawIf_eq_nil_iff, flawIf_eq_nil_iff]
  refine and_congr ?_ ?_
  · cases d.core <;> cases d.evaluate <;> simp
  · cases d.core <;> simp

/-- A descriptor has no flaws when it is valid. -/
theorem flaws_eq_nil_iff {name : String} {d : Descriptor} : d.flaws name = [] ↔ d.Valid := by
  have halloc : (¬ (d.outputs.any (·.custom) && d.alloc.isNone) = true) ↔ ((∃ o ∈ d.outputs, o.custom = true) → d.alloc.isSome) := by
    rw [Bool.and_eq_true, List.any_eq_true, not_and, Bool.not_eq_true, Option.isNone_eq_false_iff]
  simp only [flaws, List.append_eq_nil_iff, List.map_eq_nil_iff, List.flatMap_eq_nil_iff, flawIf_eq_nil_iff, typeFlaws_eq_nil_iff,
    argFlaws_eq_nil_iff, kernelFlaws_eq_nil_iff, halloc]
  constructor
  · rintro ⟨houtputs, houtputTypes, hparamTypes, hargs, halloc, hkernel, htextures⟩
    exact ⟨houtputs, houtputTypes, hparamTypes, fun a ha => (hargs a ha).1, fun a ha => (hargs a ha).2, halloc, hkernel, htextures⟩
  · intro h
    exact ⟨h.outputs, h.outputTypes, h.paramTypes, fun a ha => ⟨h.sources a ha, h.keys a ha⟩, h.allocation, h.kernel, h.textures⟩

end Descriptor

namespace Operator

open Descriptor

variable {name : String} {d : Descriptor} {op : Operator}

/-- A descriptor is refused for the first of its flaws, and not refused without any. -/
theorem reports_ofDescriptor (name : String) (d : Descriptor) : Reports (ofDescriptor name d) (d.flaws name) := by
  rw [ofDescriptor_eq, flaws]
  refine .guarded fun _ => (Reports.mapM fun o _ => reports_checkOutput o).bind fun outputs houtputs => ?_
  refine (Reports.mapM fun p _ => reports_checkParam p).bind fun params hparams => ?_
  -- the sources and the kinds of allocation are those that were declared
  have hsources : d.params.map (·.source) = params.map (·.source) :=
    map_eq_of_forall₂ (Except.mapM_eq_ok_iff.1 hparams) fun p decl hp => (takes_of_checkParam hp).source.symm
  have hyields : List.Forall₂ Yields d.outputs outputs := (Except.mapM_eq_ok_iff.1 houtputs).imp fun o decl ho => yields_of_checkOutput ho
  rw [hsources, any_eq_of_forall₂ hyields fun o decl ho => ho.custom.symm]
  refine ((reports_checkArgs params d.mapping).mapError _).bind fun args _ => .guarded fun _ => ?_
  exact ((reports_checkKernel d hyields).mapError _).made _

/-- An operator is what it was declared as. Its arguments are those of the mapping, each looked up among the parameters, or one for every
parameter; and its kernel is the core, if there is one. -/
structure Declared (name : String) (d : Descriptor) (op : Operator) : Prop where
  name : op.name = name
  outputs : List.Forall₂ Yields d.outputs op.outputs
  params : List.Forall₂ Takes d.params op.params
  mapped : ∀ mapping, d.mapping = some mapping → List.Forall₂ (Refers op.params) mapping op.args
  unmapped : d.mapping = none → op.args = defaultArgs op.params
  alloc : op.alloc = d.alloc
  core : ∀ core, d.core = some core → op.kernel = .core core
  evaluate : ∀ evaluate, d.core = none → d.evaluate = some evaluate → op.kernel = .evaluate evaluate

theorem declared_of_ofDescriptor (h : ofDescriptor name d = .ok op) : op.Declared name d := by
  rw [ofDescriptor_eq] at h
  split at h
  · cases h
  obtain ⟨outputs, houtputs, h⟩ := Except.bind_eq_ok.1 h
  obtain ⟨params, hparams, h⟩ := Except.bind_eq_ok.1 h
  obtain ⟨args, hargs, h⟩ := Except.bind_eq_ok.1 h
  split at h
  · cases h
  obtain ⟨kernel, hkernel, h⟩ := Except.bind_eq_ok.1 h
  cases h
  rw [Except.mapError_eq_ok_iff] at hargs hkernel
  refine ⟨rfl, ?_, ?_, fun mapping hm => ?_, fun hm => ?_, rfl, fun core hc => ?_, fun evaluate hc he => ?_⟩
  · exact (Except.mapM_eq_ok_iff.1 houtputs).imp fun o decl ho => yields_of_checkOutput ho
  · exact (Except.mapM_eq_ok_iff.1 hparams).imp fun p decl hp => takes_of_checkParam hp
  · rw [hm] at hargs
    exact (Except.mapM_eq_ok_iff.1 hargs).imp fun a arg ha => refers_of_checkArg ha
  · rw [hm] at hargs
    exact (Except.ok.inj hargs).symm
  · unfold checkKernel at hkernel
    rw [hc] at hkernel
    dsimp only at hkernel
    split at hkernel <;> cases hkernel
    rfl
  · unfold checkKernel at hkernel
    rw [hc, he] at hkernel
    exact (Except.ok.inj hkernel).symm

/-- What an argument of an operator reads, and its key, are among the parameters. -/
theorem Declared.arg_lt (h : op.Declared name d) {arg : ArgDecl} (harg : arg ∈ op.args) :
    arg.param < op.params.length ∧ ∀ k, arg.key = some k → k < op.params.length := by
  obtain ⟨a, ha⟩ := List.getElem?_of_mem harg
  rcases hm : d.mapping with _ | mapping
  · rw [h.unmapped hm, defaultArgs, List.getElem?_mapIdx] at ha
    obtain ⟨p, hp, rfl⟩ := Option.map_eq_some_iff.1 ha
    exact ⟨(List.getElem?_eq_some_iff.1 hp).1, nofun⟩
  · obtain ⟨declared, -, hrefers⟩ := exists_left_of_forall₂ (h.mapped mapping hm) harg
    refine ⟨hrefers.param.lt, fun k hk => ?_⟩
    by_cases hfirst : declared.access = .first
    · rw [hrefers.unkeyed hfirst] at hk
      cases hk
    · obtain ⟨_, k', -, hk', hplace⟩ := hrefers.keyed hfirst
      obtain rfl : k' = k := Option.some.inj (hk'.symm.trans hk)
      exact hplace.lt

end Operator

end Dataflow
