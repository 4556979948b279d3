import Dataflow.Proofs.Posted

/-!
# Callbacks

What calls report: the callback of every request concerned that has one, once, in ascending order of the requests.
-/

namespace Dataflow

namespace Graph

variable {τ : Work} {g g' : Graph} {rs : List RequestId} {r : RequestId} {change : Change}

theorem mem_inOrder : r ∈ inOrder rs ↔ r ∈ rs := by
  rw [inOrder, Std.ExtTreeSet.mem_toList, Std.ExtTreeSet.mem_insertMany_list]
  simp

theorem pairwise_inOrder (rs : List Nat) : (inOrder rs).Pairwise (· < ·) := by
  rw [inOrder]
  exact Std.ExtTreeSet.ordered_toList.imp fun h => Nat.compare_eq_lt.1 h

/-- What is reported when the callbacks of some requests are invoked. -/
def callbacks (g : Graph) (rs : List RequestId) (change : Change) : List Event :=
  rs.filterMap fun r => ((g.requests[r]?).bind (·.tag)).map fun tag => ⟨r, change, tag⟩

/-- Callbacks are noted after what was noted before. -/
theorem fire_of_sound (g : Graph) (rs : List RequestId) (change : Change) (h : g.journal.violation = none) :
    g.fire rs change = { g with journal := { g.journal with events := g.journal.events ++ g.callbacks (inOrder rs) change } } := by
  unfold fire
  generalize inOrder rs = l
  induction l generalizing g with
  | nil => simp [callbacks]
  | cons r l ih =>
    rw [List.foldl_cons]
    rcases ht : (g.requests[r]?).bind (·.tag) with _ | tag
    · simp only [ih g h, callbacks, List.filterMap_cons, ht, Option.map_none]
    · have hv : (g.journal.event ⟨r, change, tag⟩).violation = none := by simp [Journal.event, h]
      have hcons : g.callbacks (r :: l) change = ⟨r, change, tag⟩ :: g.callbacks l change := by
        rw [callbacks, List.filterMap_cons, ht]
        rfl
      have hsame : Graph.callbacks { g with journal := g.journal.event ⟨r, change, tag⟩ } l change = g.callbacks l change := rfl
      simp only
      rw [ih _ hv, hsame, hcons]
      simp [Journal.event, h]

/-- An invariant that held is noted before the callbacks. -/
theorem fire_check (g : Graph) (i : Invariant) (t : String) (rs : List RequestId) (change : Change) (h : g.journal.violation = none) :
    (g.check i true t).fire rs change = { g with journal := { g.journal with
      checked := g.journal.checked ++ [i], events := g.journal.events ++ g.callbacks (inOrder rs) change } } := by
  have hcheck : g.check i true t = { g with journal := { g.journal with checked := g.journal.checked ++ [i] } } := by
    simp [check, Journal.check, h]
  rw [hcheck]
  exact fire_of_sound _ rs change h

/-- The requests at outlets are those that were made of them. -/
theorem Posted.mem_requestsAt (h : Posted τ g) {ids : List OutletId} :
    r ∈ ids.flatMap g.requestsAt ↔ ∃ q : Request, g.requests[r]? = some q ∧ q.outlet ∈ ids := by
  simp only [List.mem_flatMap, requestsAt]
  constructor
  · rintro ⟨id, hid, hr⟩
    rcases ho : g.outlets[id]? with _ | o
    · simp [ho] at hr
    · rw [ho] at hr
      obtain ⟨q, hq, rfl⟩ := h.known id o r ho (Std.ExtTreeSet.mem_toList.1 hr)
      exact ⟨q, hq, hid⟩
  · rintro ⟨q, hq, hid⟩
    obtain ⟨o, ho, hr⟩ := h.enrolled r q hq
    refine ⟨q.outlet, hid, ?_⟩
    rw [ho]
    exact Std.ExtTreeSet.mem_toList.2 hr

/-- What was reported is a change to the requests of some outlets, and to no others: every one of them that has a callback is told once, in
ascending order. -/
structure Reported (g : Graph) (change : Change) (told : OutletId → Prop) (events : List Event) : Prop where
  ordered : events.Pairwise fun a b => a.request < b.request
  exactly : ∀ e, e ∈ events ↔ e.change = change ∧ ∃ q : Request, g.requests[e.request]? = some q ∧ q.tag = some e.tag ∧ told q.outlet

/-- Firing the callbacks of the requests at some outlets reports the change to them. -/
theorem Posted.reported (h : Posted τ g) (ids : List OutletId) (change : Change) :
    Reported g change (· ∈ ids) (g.callbacks (inOrder (ids.flatMap g.requestsAt)) change) := by
  refine ⟨?_, fun e => ?_⟩
  · rw [callbacks, List.pairwise_filterMap]
    refine (pairwise_inOrder _).imp fun {a b} hab x hx y hy => ?_
    obtain ⟨s, -, rfl⟩ := Option.map_eq_some_iff.1 hx
    obtain ⟨t, -, rfl⟩ := Option.map_eq_some_iff.1 hy
    exact hab
  · simp only [callbacks, List.mem_filterMap, mem_inOrder, h.mem_requestsAt]
    constructor
    · rintro ⟨r, ⟨q, hq, hid⟩, he⟩
      obtain ⟨tag, ht, rfl⟩ := Option.map_eq_some_iff.1 he
      rw [hq, Option.bind_some] at ht
      exact ⟨rfl, q, hq, ht, hid⟩
    · rintro ⟨rfl, q, hq, ht, hid⟩
      exact ⟨e.request, ⟨q, hq, hid⟩, by rw [hq, Option.bind_some, ht]; rfl⟩

theorem Reported.congr {told told' : OutletId → Prop} {events : List Event} (h : Reported g change told events)
    (ht : ∀ id, told' id ↔ told id) (hr : g'.requests = g.requests) : Reported g' change told' events := by
  refine ⟨h.ordered, fun e => ?_⟩
  rw [hr]
  simp only [ht, h.exactly]

end Graph

end Dataflow
