import Dataflow.Graph.Run
import Dataflow.Proofs.Mirror

/-!
# Outcomes: what running an operator does, as a function of what it sees

Running a process resizes the entries of its outputs, runs the kernel of its operator on the views of its arguments, and writes what
this computed over them. What the outputs hold afterwards is a function of the views and of what they held before. A cached plan
is the plan that the operator's declaration and the pattern of advancing arguments give.
-/

namespace Dataflow

/-- The members of a list changed by those of another, position by position, as far as that goes. -/
def updateAll {α β : Type} (f : α → β → β) : List α → List β → List β
  | a :: as, b :: bs => f a b :: updateAll f as bs
  | _, bs => bs

theorem writeAll_eq : ∀ news olds : List Payload, Payload.writeAll news olds = updateAll Payload.write news olds
  | [], olds => by cases olds <;> rfl
  | _ :: _, [] => rfl
  | new :: news, old :: olds => by rw [Payload.writeAll, updateAll, writeAll_eq news olds]

theorem map_updateAll {α β γ : Type} {f : α → β → β} {k : β → γ} (h : ∀ a b, k (f a b) = k b) :
    ∀ (as : List α) (bs : List β), (updateAll f as bs).map k = bs.map k
  | [], bs => by cases bs <;> rfl
  | _ :: _, [] => rfl
  | a :: as, b :: bs => by rw [updateAll, List.map_cons, List.map_cons, h, map_updateAll h as bs]

namespace Operator

/-- How the arguments of an operator are iterated over. -/
def iteration (op : Operator) (views : List View) : Iteration := .ofArgs views op.argSizes (op.args.map (·.array))

/-- The number of scalars of every output. -/
def lengths (op : Operator) (views : List View) (count : Nat) : List Nat :=
  op.outputs.mapIdx fun i o => o.length (op.alloc.map fun alloc => alloc views count) count i

/-- What the outputs hold after the operator ran on some views, given what they held before, or the reason why it refuses. -/
def outcome (op : Operator) (views : List View) (olds : List Payload) : Except String (List Payload) :=
  let it := op.iteration views
  let outs := updateAll Payload.resize (op.lengths views it.count) olds
  match op.kernel with
  | .core core =>
    .ok (Payload.writeAll ((IterationPlan.ofSizes op.argSizes it.advancing op.outputSizes).run core views it.count outs).1 outs)
  | .evaluate evaluate => (evaluate it views outs).map (Payload.writeAll · outs)

/-- The payloads are of the classes of the operator's outputs. -/
def Fits (op : Operator) (outs : List Payload) : Prop := outs.map (·.storage) = op.outputs.map (·.type.storage)

/-- The state in which running the operator leaves a process whose inputs have no flaw, and what the outputs hold then: one that refuses leaves
them resized. -/
def attempt (op : Operator) (views : List View) (olds : List Payload) : ProcessState × List Payload :=
  match op.outcome views olds with
  | .ok news => (.processed, news)
  | .error _ => (.invalidInput, updateAll Payload.resize (op.lengths views (op.iteration views).count) olds)

/-- Every scalar of every output is written, so that nothing of what the outputs held before is left. -/
def Overwrites (op : Operator) : Prop :=
  ∀ views olds olds', op.Fits olds → op.Fits olds' → op.outcome views olds = op.outcome views olds'

end Operator

namespace Store

variable {s : Store} {α : Type}

/-- The store with some entries changed in turn. -/
def modifyAll (s : Store) (f : α → Entry → Entry) (l : List ((String × EntryId) × α)) : Store :=
  l.foldl (fun s e => s.modifyEntry e.1.2 (f e.2)) s

theorem modifyAll_cons (s : Store) (f : α → Entry → Entry) (e : (String × EntryId) × α) (l : List ((String × EntryId) × α)) :
    s.modifyAll f (e :: l) = (s.modifyEntry e.1.2 (f e.2)).modifyAll f l := rfl

theorem typeAt?_modifyEntry (s : Store) (id e : EntryId) {f : Entry → Entry}
    (hf : ∀ x, s.entryAt? id = some x → (f x).type = x.type) : (s.modifyEntry id f).typeAt? e = s.typeAt? e := by
  rw [typeAt?, typeAt?, entryAt?_modifyEntry]
  by_cases he : e = id
  · subst he
    rw [if_pos rfl]
    rcases hx : s.entryAt? e with _ | x
    · rfl
    · exact congrArg some (hf x hx)
  · rw [if_neg he]

section All

variable (f : α → Entry → Entry)

theorem modifyAll_fields (l : List ((String × EntryId) × α)) (s : Store) : ∃ entries, s.modifyAll f l = { s with entries } := by
  induction l generalizing s with
  | nil => exact ⟨s.entries, rfl⟩
  | cons e l ih =>
    obtain ⟨entries, he⟩ := ih (s.modifyEntry e.1.2 (f e.2))
    exact ⟨entries, he⟩

theorem mirrored_modifyAll (l : List ((String × EntryId) × α)) {s : Store} (h : s.Mirrored) : (s.modifyAll f l).Mirrored := by
  induction l generalizing s with
  | nil => exact h
  | cons e l ih => exact ih (mirrored_modifyEntry h e.1.2 (f e.2))

theorem typeAt?_modifyAll {f : α → Entry → Entry} (hf : ∀ a x, (f a x).type = x.type) (l : List ((String × EntryId) × α)) (s : Store) (e : EntryId) :
    (s.modifyAll f l).typeAt? e = s.typeAt? e := by
  induction l generalizing s with
  | nil => rfl
  | cons b l ih => rw [modifyAll_cons, ih, typeAt?_modifyEntry _ _ _ fun x _ => hf b.2 x]

/-- Entries that are not among those changed stay. -/
theorem entryAt?_modifyAll {l : List ((String × EntryId) × α)} {e : EntryId} (he : ∀ b ∈ l, b.1.2 ≠ e) (s : Store) :
    (s.modifyAll f l).entryAt? e = s.entryAt? e := by
  induction l generalizing s with
  | nil => rfl
  | cons b l ih =>
    rw [modifyAll_cons, ih (fun b hb => he b (List.mem_cons_of_mem _ hb)), entryAt?_modifyEntry,
      if_neg (Ne.symm (he b (List.mem_cons_self ..)))]

end All

/-- What live entries hold after each was changed once. -/
theorem payloads_modifyAll {f : α → Entry → Entry} {k : α → Payload → Payload} (hk : ∀ a x, (f a x).payload = k a x.payload) :
    ∀ (outs : List (String × EntryId)) (as : List α) (s : Store), (outs.map (·.2)).Nodup → (∀ o ∈ outs, (s.entryAt? o.2).isSome) →
      (outs.filterMap fun o => ((s.modifyAll f (outs.zip as)).entryAt? o.2).map (·.payload)) =
        updateAll k as (outs.filterMap fun o => (s.entryAt? o.2).map (·.payload))
  | [], as, s, _, _ => by cases as <;> rfl
  | o :: outs, [], s, _, _ => by rw [List.zip_nil_right]; rfl
  | o :: outs, a :: as, s, hn, hl => by
    obtain ⟨hno, hn⟩ := List.nodup_cons.1 hn
    obtain ⟨x, hx⟩ := Option.isSome_iff_exists.1 (hl o (List.mem_cons_self ..))
    have hother : ∀ o' ∈ outs, (s.modifyEntry o.2 (f a)).entryAt? o'.2 = s.entryAt? o'.2 := fun o' ho' => by
      rw [entryAt?_modifyEntry, if_neg]
      rintro he
      exact hno (List.mem_map.2 ⟨o', ho', he⟩)
    have hfirst : ((s.modifyEntry o.2 (f a)).modifyAll f (outs.zip as)).entryAt? o.2 = some (f a x) := by
      rw [entryAt?_modifyAll, entryAt?_modifyEntry, if_pos rfl, hx, Option.map_some]
      rintro ⟨o', a'⟩ hb he
      exact hno (List.mem_map.2 ⟨o', (List.of_mem_zip hb).1, he⟩)
    have hrest := payloads_modifyAll hk outs as (s.modifyEntry o.2 (f a)) hn fun o' ho' => by
      rw [hother o' ho']
      exact hl o' (List.mem_cons_of_mem _ ho')
    have hsame : (outs.filterMap fun o' => ((s.modifyEntry o.2 (f a)).entryAt? o'.2).map (·.payload)) =
        outs.filterMap fun o' => (s.entryAt? o'.2).map (·.payload) :=
      List.filterMap_congr fun o' ho' => by rw [hother o' ho']
    rw [hsame] at hrest
    rw [List.zip_cons_cons, modifyAll_cons, List.filterMap_cons, hfirst, List.filterMap_cons, hx, Option.map_some, Option.map_some, hrest]
    simp only [updateAll, hk]

end Store

namespace Iteration

theorem pattern_injective {a b : List Bool} (h : pattern a = pattern b) : a = b := by
  rw [pattern, pattern, String.ofList_inj] at h
  refine List.map_injective_iff.2 (fun x y hxy => ?_) h
  cases x <;> cases y <;> first | rfl | (revert hxy; decide)

theorem colon_not_mem_pattern (a : List Bool) : ':' ∉ (pattern a).toList := by
  rw [pattern, String.toList_ofList, List.mem_map]
  rintro ⟨b, -, hb⟩
  cases b <;> revert hb <;> decide

end Iteration

/-- What precedes and what follows the last of a separator is determined. -/
theorem append_sep_inj {α : Type} {x : α} : ∀ {a b a' b' : List α}, x ∉ b → x ∉ b' → a ++ x :: b = a' ++ x :: b' → a = a' ∧ b = b'
  | [], b, [], b', _, _, h => ⟨rfl, (List.cons.inj h).2⟩
  | [], b, y :: a', b', hb, _, h => by
    obtain ⟨-, rfl⟩ := List.cons.inj h
    exact absurd (List.mem_append_right _ (List.mem_cons_self ..)) hb
  | y :: a, b, [], b', _, hb', h => by
    obtain ⟨-, rfl⟩ := List.cons.inj h
    exact absurd (List.mem_append_right _ (List.mem_cons_self ..)) hb'
  | y :: a, b, y' :: a', b', hb, hb', h => by
    obtain ⟨hy, hrest⟩ := List.cons.inj h
    obtain ⟨ha, hb⟩ := append_sep_inj hb hb' hrest
    exact ⟨by rw [hy, ha], hb⟩

/-- The key of a plan tells the operator's name and the pattern. -/
theorem planKey_inj {a b : String} {p q : List Bool} (h : a ++ ":" ++ Iteration.pattern p = b ++ ":" ++ Iteration.pattern q) : a = b ∧ p = q := by
  have h := congrArg String.toList h
  simp only [String.toList_append, show ":".toList = [':'] from rfl, List.append_assoc, List.singleton_append] at h
  obtain ⟨ha, hp⟩ := append_sep_inj (Iteration.colon_not_mem_pattern p) (Iteration.colon_not_mem_pattern q) h
  exact ⟨String.toList_inj.1 ha, Iteration.pattern_injective (String.toList_inj.1 hp)⟩

namespace Registry

/-- Operators are held under their own names. -/
def WellNamed (r : Registry) : Prop := ∀ name op, r.get? name = some op → op.name = name

end Registry

namespace Graph

variable {g g' : Graph}

/-- Every cached plan is the one that an operator's declaration and a pattern give. -/
def Planned (g : Graph) : Prop :=
  ∀ key plan, g.plans[key]? = some plan → ∀ op advancing, g.registry.get? op.name = some op →
    key = op.name ++ ":" ++ Iteration.pattern advancing → plan = IterationPlan.ofSizes op.argSizes advancing op.outputSizes

/-- Finding a plan changes the kept plans only. -/
theorem planFor_rest (g : Graph) (op : Operator) (advancing : List Bool) : ∃ plans, (g.planFor op advancing).1 = { g with plans } := by
  rw [planFor]
  dsimp only
  split
  · exact ⟨g.plans, rfl⟩
  · exact ⟨_, rfl⟩

theorem planFor_spec (h : g.Planned) {op : Operator} (hop : g.registry.get? op.name = some op) (advancing : List Bool) :
    ∃ plans, g.planFor op advancing = ({ g with plans }, IterationPlan.ofSizes op.argSizes advancing op.outputSizes) ∧
      Planned { g with plans } := by
  rw [planFor]
  dsimp only
  split
  · rename_i plan hp
    rw [h _ plan hp op advancing hop rfl]
    exact ⟨g.plans, rfl, h⟩
  · refine ⟨_, rfl, fun key plan hp op' adv' hop' hkey => ?_⟩
    rw [Std.ExtTreeMap.getElem?_insert] at hp
    split at hp
    · rename_i heq
      have heq := Std.LawfulEqCmp.eq_of_compare heq
      obtain ⟨hn, ha⟩ := planKey_inj (heq.trans hkey)
      have hsame : op = op' := Option.some.inj (hop.symm.trans (hn ▸ hop'))
      rw [← Option.some.inj hp, hsame, ha]
    · exact h key plan hp op' adv' hop' hkey

/-- The views of the arguments of a process. -/
def viewsOf (g : Graph) (p : Process) : List View := p.operator.args.map (g.argView p)

/-- Only the entries of a process's outputs, the plans and the journal changed. -/
structure Wrote (p : Process) (g g' : Graph) : Prop where
  rest : ∃ entries plans journal, g' = { g with store := { g.store with entries }, plans, journal }
  types : ∀ e, g'.store.typeAt? e = g.store.typeAt? e
  mirrored : g.store.Mirrored → g'.store.Mirrored
  entries : ∀ e, e ∉ p.outputs.map (·.2) → g'.store.entryAt? e = g.store.entryAt? e

namespace Wrote

variable {p : Process} {g'' : Graph}

theorem of_rest (h : ∃ plans journal, g' = { g with plans, journal }) : Wrote p g g' := by
  obtain ⟨plans, journal, rfl⟩ := h
  exact ⟨⟨g.store.entries, plans, journal, rfl⟩, fun _ => rfl, id, fun _ _ => rfl⟩

theorem trans (h : Wrote p g g') (h' : Wrote p g' g'') : Wrote p g g'' := by
  obtain ⟨⟨_, _, _, rfl⟩, ht, hm, he⟩ := h
  obtain ⟨⟨_, _, _, rfl⟩, ht', hm', he'⟩ := h'
  exact ⟨⟨_, _, _, rfl⟩, fun e => (ht' e).trans (ht e), fun h => hm' (hm h), fun e h => (he' e h).trans (he e h)⟩

/-- Changing the outputs one by one. -/
theorem modifyAll {α : Type} {f : α → Entry → Entry} (hf : ∀ a x, (f a x).type = x.type) (g : Graph) (p : Process) (as : List α) :
    Wrote p g { g with store := g.store.modifyAll f (p.outputs.zip as) } := by
  obtain ⟨entries, he⟩ := Store.modifyAll_fields f (p.outputs.zip as) g.store
  refine ⟨⟨entries, g.plans, g.journal, by rw [he]⟩, fun e => Store.typeAt?_modifyAll hf _ _ e,
    Store.mirrored_modifyAll f _, fun e hne => Store.entryAt?_modifyAll f ?_ _⟩
  rintro ⟨o, a⟩ hb rfl
  exact hne (List.mem_map.2 ⟨o, (List.of_mem_zip hb).1, rfl⟩)

end Wrote

section Outputs

variable {p : Process} (hn : (p.outputs.map (·.2)).Nodup) (hl : ∀ o ∈ p.outputs, (g.store.entryAt? o.2).isSome)

include hn hl

theorem outputPayloads_resizeOutputs (allocated : Option (List Nat)) (count : Nat) :
    (g.resizeOutputs p allocated count).outputPayloads p =
      updateAll Payload.resize (p.operator.outputs.mapIdx fun i o => o.length allocated count i) (g.outputPayloads p) :=
  Store.payloads_modifyAll (f := fun n (e : Entry) => e.resize n) (fun _ _ => rfl) p.outputs _ g.store hn hl

theorem outputPayloads_writeOutputs (news : List Payload) :
    (g.writeOutputs p news).outputPayloads p = Payload.writeAll news (g.outputPayloads p) := by
  rw [writeAll_eq]
  exact Store.payloads_modifyAll (f := fun n (e : Entry) => e.write n) (fun _ _ => rfl) p.outputs _ g.store hn hl

end Outputs

theorem wrote_resizeOutputs (g : Graph) (p : Process) (allocated : Option (List Nat)) (count : Nat) :
    Wrote p g (g.resizeOutputs p allocated count) := Wrote.modifyAll (f := fun n (e : Entry) => e.resize n) (fun _ _ => rfl) g p _

theorem wrote_writeOutputs (g : Graph) (p : Process) (news : List Payload) : Wrote p g (g.writeOutputs p news) :=
  Wrote.modifyAll (f := fun n (e : Entry) => e.write n) (fun _ _ => rfl) g p _

theorem wrote_isSome {p : Process} (h : Wrote p g g') (e : EntryId) : (g'.store.entryAt? e).isSome = (g.store.entryAt? e).isSome := by
  have := congrArg Option.isSome (h.types e)
  rwa [Store.typeAt?, Store.typeAt?, Option.isSome_map, Option.isSome_map] at this

/-- The graph in which a process, whose inputs have no flaw, is about to run its kernel. -/
def prepare (g : Graph) (p : Process) : Graph :=
  let op := p.operator
  let views := g.viewsOf p
  let it := op.iteration views
  let g := if it.truncated && g.config.warn then g.notice (.truncated op.name it.count) else g
  let fits := ((views.zip op.argSizes).zip it.advancing).all fun ((view, size), advances) => !advances || it.count ≤ view.tupleCount size
  let bound := (op.params.zip p.inputs).all fun (param, channel) => param.optional || channel.isSome
  (((g.check .broadcastSound fits op.name).check .inputValidated bound op.name).resizeOutputs p
    (op.alloc.map fun alloc => alloc views it.count) it.count)

theorem applyOperator_eq (g : Graph) (p : Process) :
    g.applyOperator p = (g.prepare p).runKernel p (g.viewsOf p) (p.operator.iteration (g.viewsOf p)) := rfl

theorem prepare_spec {p : Process} (hn : (p.outputs.map (·.2)).Nodup) (hl : ∀ o ∈ p.outputs, (g.store.entryAt? o.2).isSome) :
    Wrote p g (g.prepare p) ∧ (g.prepare p).plans = g.plans ∧
      (g.prepare p).outputPayloads p = updateAll Payload.resize
        (p.operator.lengths (g.viewsOf p) (p.operator.iteration (g.viewsOf p)).count) (g.outputPayloads p) := by
  rw [prepare]
  dsimp only
  split
  · exact ⟨(Wrote.of_rest ⟨g.plans, _, rfl⟩).trans (wrote_resizeOutputs _ p _ _), rfl, outputPayloads_resizeOutputs hn hl _ _⟩
  · exact ⟨(Wrote.of_rest ⟨g.plans, _, rfl⟩).trans (wrote_resizeOutputs _ p _ _), rfl, outputPayloads_resizeOutputs hn hl _ _⟩

/-- Running an operator has its outcome: the outputs hold what it computed, or it refused. -/
theorem applyOperator_spec (h : g.Planned) {p : Process} (hop : g.registry.get? p.operator.name = some p.operator)
    (hn : (p.outputs.map (·.2)).Nodup) (hl : ∀ o ∈ p.outputs, (g.store.entryAt? o.2).isSome) :
    Wrote p g (g.applyOperator p).1 ∧ (g.applyOperator p).1.Planned ∧
      ((g.applyOperator p).2 = none →
        p.operator.outcome (g.viewsOf p) (g.outputPayloads p) = .ok ((g.applyOperator p).1.outputPayloads p)) := by
  obtain ⟨hw, hplans, hout⟩ := prepare_spec hn hl
  have hreg : (g.prepare p).registry = g.registry := by
    obtain ⟨_, _, _, he⟩ := hw.rest
    rw [he]
  have hp : (g.prepare p).Planned := by
    rw [Planned, hplans, hreg]
    exact h
  have hlive : ∀ o ∈ p.outputs, ((g.prepare p).store.entryAt? o.2).isSome := fun o ho => by
    rw [wrote_isSome hw]
    exact hl o ho
  rw [applyOperator_eq]
  generalize hit : p.operator.iteration (g.viewsOf p) = it
  rw [hit] at hout
  rw [runKernel]
  dsimp only
  rcases hk : p.operator.kernel with core | evaluate
  · obtain ⟨plans, hplan, hp'⟩ := planFor_spec hp (hreg ▸ hop) it.advancing
    dsimp only
    rw [hplan]
    refine ⟨hw.trans ((Wrote.of_rest ⟨plans, (g.prepare p).journal, rfl⟩).trans ((wrote_writeOutputs _ p _).trans
      (.of_rest ⟨_, _, rfl⟩))), ?_, fun _ => ?_⟩
    · exact hp'
    · have := outputPayloads_writeOutputs (g := { g.prepare p with plans }) hn hlive
        ((IterationPlan.ofSizes p.operator.argSizes it.advancing p.operator.outputSizes).run core (g.viewsOf p) it.count
          ((g.prepare p).outputPayloads p)).1
      simp only [Operator.outcome, hk, hit]
      rw [← hout]
      exact congrArg Except.ok this.symm
  · dsimp only
    split
    · rename_i news he
      refine ⟨hw.trans ((wrote_writeOutputs _ p _).trans (.of_rest ⟨_, _, rfl⟩)), hp, fun _ => ?_⟩
      simp only [Operator.outcome, hk, hit]
      rw [← hout, he]
      exact congrArg Except.ok (outputPayloads_writeOutputs hn hlive news).symm
    · exact ⟨hw.trans (.of_rest ⟨_, _, rfl⟩), hp, nofun⟩

/-- An operator that refuses has resized the outputs, and has no other outcome. -/
theorem applyOperator_refused {p : Process} (hn : (p.outputs.map (·.2)).Nodup) (hl : ∀ o ∈ p.outputs, (g.store.entryAt? o.2).isSome)
    {reason : String} (h : (g.applyOperator p).2 = some reason) :
    p.operator.outcome (g.viewsOf p) (g.outputPayloads p) = .error reason ∧
      (g.applyOperator p).1.outputPayloads p =
        updateAll Payload.resize (p.operator.lengths (g.viewsOf p) (p.operator.iteration (g.viewsOf p)).count) (g.outputPayloads p) := by
  obtain ⟨-, -, hout⟩ := prepare_spec hn hl
  rw [applyOperator_eq] at h ⊢
  simp only [Operator.outcome, ← hout]
  rw [runKernel] at h ⊢
  dsimp only at h ⊢
  rcases hk : p.operator.kernel with core | evaluate <;> rw [hk] at h <;> dsimp only at h ⊢
  · cases h
  · rcases he : evaluate (p.operator.iteration (g.viewsOf p)) (g.viewsOf p) ((g.prepare p).outputPayloads p) with r | news
    · rw [he] at h
      cases h
      exact ⟨rfl, rfl⟩
    · rw [he] at h
      cases h

end Graph

end Dataflow
