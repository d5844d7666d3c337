import Mathlib.Tactic

/-!
# Threads

A pool of threads is the list of what each of them is doing; one of them moves at a time. The
lemmas say how quantities that are summed or collected over the pool change with that thread.
-/
namespace KVRPC.Library

open scoped List

variable {τ α : Type*} {l : List τ} {i : Nat} {old : τ}

/-- The pool around a thread. -/
theorem set_split (h : l[i]? = some old) :
    ∃ before after, l = before ++ old :: after ∧ ∀ new, l.set i new = before ++ new :: after := by
  obtain ⟨lt, rfl⟩ := List.getElem?_eq_some_iff.mp h
  refine ⟨l.take i, l.drop (i + 1), ?_, fun new => ?_⟩
  · rw [List.getElem_cons_drop lt, List.take_append_drop]
  · simp [List.set_eq_take_append_cons_drop, lt]

/-- A thread moves on and what the others hold stays as it is. -/
theorem flatMap_set (f : τ → List α) (h : l[i]? = some old) (new : τ) :
    ∃ others, l.flatMap f ~ f old ++ others ∧ (l.set i new).flatMap f ~ f new ++ others := by
  obtain ⟨before, after, split, moved⟩ := set_split h
  refine ⟨(before ++ after).flatMap f, ?_, ?_⟩
  · rw [split]
    simp only [List.flatMap_append, List.flatMap_cons]
    exact List.perm_append_comm_assoc _ _ _
  · rw [moved]
    simp only [List.flatMap_append, List.flatMap_cons]
    exact List.perm_append_comm_assoc _ _ _

theorem sum_map_set (f : τ → Nat) (h : l[i]? = some old) (new : τ) :
    ((l.set i new).map f).sum + f old = (l.map f).sum + f new := by
  obtain ⟨before, after, split, moved⟩ := set_split h
  rw [moved, split]
  simp only [List.map_append, List.map_cons, List.sum_append, List.sum_cons]
  omega

end KVRPC.Library
