import Mathlib.Tactic

/-!
# Association lists

`List.lookup` on a list of pairs whose keys are distinct, as a map.
-/
namespace KVRPC.Library.Assoc

variable {κ α : Type*} [DecidableEq κ] {l : List (κ × α)} {k k' : κ} {a : α}

theorem mem_of_lookup (found : l.lookup k = some a) : (k, a) ∈ l := by
  obtain ⟨before, after, split, -⟩ := List.lookup_eq_some_iff.mp found
  simp [split]

theorem lookup_eq_none : l.lookup k = none ↔ ∀ p ∈ l, p.1 ≠ k := by
  rw [List.lookup_eq_none_iff]
  refine forall₂_congr fun p _ => ?_
  rw [bne_iff_ne]
  exact ne_comm

theorem lookup_of_mem (keys : (l.map Prod.fst).Nodup) (mem : (k, a) ∈ l) :
    l.lookup k = some a := by
  induction l with
  | nil => simp at mem
  | cons q rest ih =>
    rw [List.map_cons, List.nodup_cons] at keys
    obtain rfl | later := List.mem_cons.mp mem
    · exact List.lookup_cons_self
    · have missed : (k == q.1) = false := by
        rw [beq_eq_false_iff_ne]
        rintro rfl
        exact keys.1 (List.mem_map.mpr ⟨_, later, rfl⟩)
      rw [List.lookup_cons, missed]
      exact ih keys.2 later

/-- An entry is removed. -/
theorem lookup_filter (l : List (κ × α)) (k k' : κ) :
    (l.filter fun p => p.1 ≠ k').lookup k = if k = k' then none else l.lookup k := by
  split_ifs with same
  · rw [lookup_eq_none]
    intro p mem
    rw [same]
    simpa using (List.mem_filter.mp mem).2
  · induction l with
    | nil => rfl
    | cons p rest ih =>
      by_cases gone : p.1 = k'
      · have missed : (k == p.1) = false := by
          rw [beq_eq_false_iff_ne, gone]
          exact same
        rw [List.filter_cons, if_neg (by simp [gone]), List.lookup_cons, missed]
        exact ih
      · rw [List.filter_cons, if_pos (by simp [gone]), List.lookup_cons, List.lookup_cons, ih]

/-- An entry is added behind the others. -/
theorem lookup_append_singleton (l : List (κ × α)) (k k' : κ) (a : α) :
    (l ++ [(k', a)]).lookup k = (l.lookup k).or (if k = k' then some a else none) := by
  rw [List.lookup_append]
  congr 1
  by_cases same : k = k'
  · simp [same]
  · have missed : (k == k') = false := beq_eq_false_iff_ne.mpr same
    simp [List.lookup_cons, missed, same]

end KVRPC.Library.Assoc
