import Mathlib.Tactic

/-!
# Registries

A table of entries under keys, each with an owner. `Registry l key` says that the keys are
distinct and that every owner has exactly the entry that `key` gives it, or none.
-/
namespace KVRPC.Library

variable {κ α : Type*} {l : List (κ × α)} {key : α → Option κ} {k : κ} {a b : α}

structure Registry (l : List (κ × α)) (key : α → Option κ) : Prop where
  mem : ∀ p, p ∈ l ↔ key p.2 = some p.1
  nodup : (l.map Prod.fst).Nodup

namespace Registry

theorem nil : Registry ([] : List (κ × α)) fun _ => none := ⟨by simp, List.nodup_nil⟩

/-- Two owners do not share a key. -/
theorem owner_eq (h : Registry l key) (left : key a = some k) (right : key b = some k) : a = b := by
  have first : (k, a) ∈ l := (h.mem (k, a)).mpr left
  have second : (k, b) ∈ l := (h.mem (k, b)).mpr right
  have same := List.inj_on_of_nodup_map h.nodup first second rfl
  exact congrArg Prod.snd same

/-- No entry is removed under a key that is not in use. -/
theorem filter_unused [DecidableEq κ] (unused : ∀ p ∈ l, p.1 ≠ k) :
    (l.filter fun p => p.1 ≠ k) = l :=
  List.filter_eq_self.mpr fun p mem => by simpa using unused p mem

variable [DecidableEq α]

theorem add (h : Registry l key) (unowned : key a = none) (unused : ∀ p ∈ l, p.1 ≠ k) :
    Registry (l ++ [(k, a)]) (Function.update key a (some k)) where
  mem := by
    rintro ⟨k', b⟩
    rw [List.mem_append, List.mem_singleton, h.mem, Function.update_apply]
    split_ifs with own
    · subst own
      simp [unowned, eq_comm]
    · simp [own]
  nodup := by
    rw [List.map_append, List.nodup_append]
    refine ⟨h.nodup, List.nodup_singleton _, ?_⟩
    intro k' mem k'' mem' same
    obtain ⟨p, old, rfl⟩ := List.mem_map.mp mem
    rw [List.map_singleton, List.mem_singleton] at mem'
    exact unused p old (same.trans mem')

theorem remove [DecidableEq κ] (h : Registry l key) (owned : key a = some k) :
    Registry (l.filter fun p => p.1 ≠ k) (Function.update key a none) where
  mem := by
    rintro ⟨k', b⟩
    rw [List.mem_filter, h.mem, Function.update_apply]
    split_ifs with own
    · subst own
      rw [owned]
      simp only [Option.some.injEq, decide_eq_true_eq, iff_false, not_and, not_not]
      exact Eq.symm
    · have other : key b = some k' → k' ≠ k := by
        rintro found rfl
        exact own (h.owner_eq found owned)
      simpa using other
  nodup := h.nodup.sublist (List.filter_sublist.map _)

/-- The entries of one owner. -/
theorem entries (h : Registry l key) (a : α) :
    (l.filter fun p => p.2 = a).map Prod.fst = (key a).toList := by
  have entry : ∀ k', k' ∈ (l.filter fun p => p.2 = a).map Prod.fst ↔ key a = some k' := by
    intro k'
    rw [List.mem_map]
    constructor
    · rintro ⟨p, mem, rfl⟩
      obtain ⟨mem, own⟩ := List.mem_filter.mp mem
      rw [← of_decide_eq_true own]
      exact (h.mem p).mp mem
    · intro owned
      exact ⟨(k', a), List.mem_filter.mpr ⟨(h.mem (k', a)).mpr owned, by simp⟩, rfl⟩
  have nodup : ((l.filter fun p => p.2 = a).map Prod.fst).Nodup :=
    h.nodup.sublist (List.filter_sublist.map _)
  have same : ((l.filter fun p => p.2 = a).map Prod.fst).Perm (key a).toList :=
    (List.perm_ext_iff_of_nodup nodup (by cases key a <;> simp)).mpr fun k' => by
      rw [entry, Option.mem_toList]
  cases owned : key a with
  | none =>
    rw [owned] at same
    exact List.perm_nil.mp same
  | some k =>
    rw [owned] at same
    exact List.perm_singleton.mp same

end Registry
end KVRPC.Library
