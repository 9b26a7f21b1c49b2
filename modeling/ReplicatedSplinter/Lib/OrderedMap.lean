import Mathlib.Data.Finset.Card
/-!
# Ordered maps: erasing, counting, the first key above a bound

The parts of `std::map` that a `Std.ExtTreeMap` does not have under these names, and the lookups
after each update in terms of equality of keys.

* `eraseAll m ks` erases the keys of a list one by one, `eraseWhere m p` all keys with `p`.
* `upperBound m b` is the least key above `b`.
* `size_eq_card`: a map has as many entries as the finite set of its keys.
* `size_congr`, `upperBound_congr`: both depend on the keys only.
-/

namespace OrderedMap
open Std

variable {α β : Type} [Ord α] [TransOrd α] [LawfulEqOrd α]

theorem getElem?_insert [DecidableEq α] (m : ExtTreeMap α β) (a k : α) (v : β) :
    (m.insert a v)[k]? = if k = a then some v else m[k]? := by
  rw [ExtTreeMap.getElem?_insert]
  by_cases h : k = a
  · simp [h]
  · have hne : ¬ compare a k = .eq := fun hc => h (Std.compare_eq_iff_eq.1 hc).symm
    rw [if_neg hne, if_neg h]

def eraseAll (m : ExtTreeMap α β) (ks : List α) : ExtTreeMap α β := ks.foldl ExtTreeMap.erase m

theorem getElem?_eraseAll [DecidableEq α] (m : ExtTreeMap α β) (ks : List α) (k : α) :
    (eraseAll m ks)[k]? = if k ∈ ks then none else m[k]? := by
  induction ks generalizing m with
  | nil => simp [eraseAll]
  | cons a ks ih =>
    have hstep : eraseAll m (a :: ks) = eraseAll (m.erase a) ks := rfl
    rw [hstep, ih, ExtTreeMap.getElem?_erase]
    by_cases ha : k = a
    · simp [ha]
    · have hne : ¬ compare a k = .eq := fun h => ha (Std.compare_eq_iff_eq.1 h).symm
      simp [ha, hne]

def eraseWhere (m : ExtTreeMap α β) (p : α → Bool) : ExtTreeMap α β := eraseAll m (m.keys.filter p)

theorem getElem?_eraseWhere (m : ExtTreeMap α β) (p : α → Bool) (k : α) :
    (eraseWhere m p)[k]? = if p k then none else m[k]? := by
  classical
  rw [eraseWhere, getElem?_eraseAll]
  by_cases hp : p k = true
  · by_cases hk : k ∈ m
    · simp [hp, hk]
    · simp [hp, ExtTreeMap.getElem?_eq_none hk]
  · simp [hp]

theorem size_eq_card (m : ExtTreeMap α β) (s : Finset α) (h : ∀ k, k ∈ m ↔ k ∈ s) : m.size = s.card := by
  classical
  have hkeys : m.keys.toFinset = s := by
    ext k
    rw [List.mem_toFinset, ExtTreeMap.mem_keys, h]
  rw [← hkeys, List.toFinset_card_of_nodup ExtTreeMap.nodup_keys, ExtTreeMap.length_keys]

/-- The least key above `b`. -/
def upperBound (m : ExtTreeMap α β) (b : α) : Option α := m.keys.find? fun k => compare b k == .lt

theorem upperBound_eq_some {m : ExtTreeMap α β} {b k : α} (hk : k ∈ m) (hb : compare b k = .lt)
    (hleast : ∀ k' ∈ m, compare b k' = .lt → ¬ compare k' k = .lt) : upperBound m b = some k := by
  obtain ⟨pre, post, hsplit⟩ := List.append_of_mem (ExtTreeMap.mem_keys.2 hk)
  refine List.find?_eq_some_iff_append.2 ⟨by simp [hb], pre, post, hsplit, ?_⟩
  intro a ha
  -- the keys are in order, so `a` stands below `k`
  have hord : m.keys.Pairwise fun a b => compare a b = .lt := ExtTreeMap.ordered_keys
  rw [hsplit] at hord
  have hlt : compare a k = .lt := (List.pairwise_append.1 hord).2.2 a ha k List.mem_cons_self
  have hmem : a ∈ m := ExtTreeMap.mem_keys.1 (by rw [hsplit]; exact List.mem_append_left _ ha)
  have hnot : ¬ compare b a = .lt := fun h => hleast a hmem h hlt
  simp [hnot]

omit [LawfulEqOrd α] in
theorem lt_upperBound {m : ExtTreeMap α β} {b k : α} (h : upperBound m b = some k) : compare b k = .lt := by
  simpa using List.find?_some h

theorem upperBound_eq_none {m : ExtTreeMap α β} {b : α} :
    upperBound m b = none ↔ ∀ k ∈ m, ¬ compare b k = .lt := by
  simp [upperBound, List.find?_eq_none]

/-- Maps with the same keys list them in the same order. -/
theorem keys_congr {m m' : ExtTreeMap α β} (h : ∀ k, k ∈ m ↔ k ∈ m') : m.keys = m'.keys := by
  have hperm : m.keys.Perm m'.keys := by
    refine (List.perm_ext_iff_of_nodup ExtTreeMap.nodup_keys ExtTreeMap.nodup_keys).2 fun k => ?_
    rw [ExtTreeMap.mem_keys, ExtTreeMap.mem_keys, h]
  have hsorted : ∀ m : ExtTreeMap α β, m.keys.Pairwise fun a b => compare a b = .lt := fun _ => ExtTreeMap.ordered_keys
  refine hperm.eq_of_pairwise (fun a b _ _ hab hba => ?_) (hsorted m) (hsorted m')
  exact absurd hba (by rw [Std.OrientedCmp.gt_of_lt hab]; decide)

theorem size_congr {m m' : ExtTreeMap α β} (h : ∀ k, k ∈ m ↔ k ∈ m') : m.size = m'.size := by
  rw [← ExtTreeMap.length_keys, ← ExtTreeMap.length_keys, keys_congr h]

theorem upperBound_congr {m m' : ExtTreeMap α β} (h : ∀ k, k ∈ m ↔ k ∈ m') (b : α) :
    upperBound m b = upperBound m' b := by
  rw [upperBound, upperBound, keys_congr h]

end OrderedMap
