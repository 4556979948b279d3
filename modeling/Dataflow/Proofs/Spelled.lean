import Dataflow.Proofs.Outcome
import Dataflow.Proofs.Plain

/-!
# Keys that tell substitutions apart

The key of a substitution lists its bindings with semicolons between them. So where no bound name has a semicolon, substitutions that spell
the same key for some names bind those names to the same channels.
-/

namespace Dataflow

namespace Substitution

variable {s t : Substitution} {x y : String} {c c' : ChannelId} {T : NameSet}

/-- No bound name has a semicolon. -/
def Spelled (s : Substitution) : Prop := ∀ x c, s.get? x = some c → ';' ∉ x.toList

theorem toList_keyPart (x : String) (c : ChannelId) : (keyPart x c).toList = x.toList ++ '>' :: Nat.toDigits 10 c := by
  simp [keyPart, Nat.toString_eq_repr, Nat.toList_repr]

theorem not_mem_digits {a : Char} (ha : a.isDigit = false) (c : ChannelId) : a ∉ Nat.toDigits 10 c := fun hm => by
  have hdigit := Nat.isDigit_of_mem_toDigits (by decide) (by decide) hm
  rw [ha] at hdigit
  cases hdigit

/-- A binding as it stands in a key tells its name and its channel. -/
theorem keyPart_inj (h : keyPart x c = keyPart y c') : x = y ∧ c = c' := by
  have hlist := congrArg String.toList h
  rw [toList_keyPart, toList_keyPart] at hlist
  obtain ⟨hx, hc⟩ := append_sep_inj (not_mem_digits (by decide) c) (not_mem_digits (by decide) c') hlist
  refine ⟨String.toList_inj.1 hx, ?_⟩
  rw [← Nat.ofDigitChars_ten_toDigits (n := c), hc, Nat.ofDigitChars_ten_toDigits]

/-- The bindings of some names as they stand in a key. -/
def parts (s : Substitution) (T : NameSet) : List String := T.toList.filterMap fun x => (s.get? x).map (keyPart x)

theorem mem_parts {p : String} : p ∈ s.parts T ↔ ∃ x ∈ T, ∃ c, s.get? x = some c ∧ keyPart x c = p := by
  simp [parts, Option.map_eq_some_iff]

/-- The key of names without semicolons tells their bindings. -/
theorem Spelled.parts_eq (hs : s.Spelled) (ht : t.Spelled) (h : s.keyOf T = t.keyOf T) : s.parts T = t.parts T := by
  have hsplit : ∀ {s : Substitution}, s.Spelled →
      ((s.keyOf T).split ';').toList.map (·.copy) = if s.parts T = [] then [""] else s.parts T := by
    intro s hs
    refine String.toList_split_intercalate fun p hp => ?_
    obtain ⟨x, -, c, hx, rfl⟩ := mem_parts.1 hp
    rw [toList_keyPart]
    simp [hs x c hx, not_mem_digits (show Char.isDigit ';' = false by decide) c]
  have hne : ∀ {s : Substitution}, s.parts T ≠ [""] := by
    intro s h
    obtain ⟨x, -, c, -, hp⟩ := mem_parts.1 (h ▸ List.mem_singleton_self "")
    have hlist := congrArg String.toList hp
    rw [toList_keyPart] at hlist
    simp at hlist
  have heq := (hsplit hs).symm.trans ((congrArg (fun k : String => (k.split ';').toList.map (·.copy)) h).trans (hsplit ht))
  split at heq <;> split at heq
  · simp_all
  · exact absurd heq.symm hne
  · exact absurd heq hne
  · exact heq

end Substitution

open Substitution in
/-- Substitutions that bind no name with a semicolon. -/
theorem regime_spelled : Regime Spelled where
  empty x c h := by
    rw [get?_empty] at h
    cases h
  restrict s T hs x c h := by
    rw [get?_restrict] at h
    split at h
    · exact hs x c h
    · cases h
  keys s t T hs ht h x hx := by
    have hsub : ∀ {s t : Substitution} {c : ChannelId}, s.parts T = t.parts T → s.get? x = some c → t.get? x = some c := by
      intro s t c h hc
      obtain ⟨y, -, c', hy, hp⟩ := mem_parts.1 (h ▸ mem_parts.2 ⟨x, hx, c, hc, rfl⟩)
      obtain ⟨rfl, rfl⟩ := keyPart_inj hp
      exact hy
    have hparts := hs.parts_eq ht h
    exact Option.ext fun c => ⟨hsub hparts, hsub hparts.symm⟩

/-- What substitutions bind of some names is told by its key, if none of the names that they bind has a semicolon. -/
theorem Substitution.Spelled.restrict_eq {s t : Substitution} {T : NameSet} (hs : (s.restrict T).Spelled) (ht : (t.restrict T).Spelled)
    (h : (s.restrict T).fullKey = (t.restrict T).fullKey) : s.restrict T = t.restrict T := by
  have hmem : ∀ (s : Substitution) x c, (s.restrict T).get? x = some c → x ∈ T := fun s x c hx => by
    rw [Substitution.get?_restrict] at hx
    exact (Option.ite_none_right_eq_some.1 hx).1
  rw [Substitution.fullKey_eq_keyOf (hmem s), Substitution.fullKey_eq_keyOf (hmem t)] at h
  have hkeys := regime_spelled.keys _ _ T hs ht h
  refine congrArg Substitution.mk (Std.ExtTreeMap.ext_getElem? fun {x} => ?_)
  by_cases hx : x ∈ T
  · exact hkeys x hx
  · have hnone : ∀ s : Substitution, (s.restrict T).get? x = none := fun s => by rw [Substitution.get?_restrict, if_neg hx]
    exact (hnone s).trans (hnone t).symm

end Dataflow
