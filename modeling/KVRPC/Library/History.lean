import Mathlib.Tactic

/-!
# Histories of keyed operations

Operations name the key they act on, and the latest one for a key decides its state. A
history may be shortened to any other that agrees with it on the keys it still mentions.
-/
namespace KVRPC.Library.History

variable {K A : Type*} [DecidableEq K] (key : A → K)

/-- The last operation for `k`. -/
def latest (k : K) (xs : List A) : Option A := xs.reverse.find? fun a => key a = k

variable {key} {k : K} {a b : A} {xs ys zs : List A}

theorem latest_append : latest key k (xs ++ ys) = (latest key k ys).or (latest key k xs) := by
  rw [latest, List.reverse_append, List.find?_append]
  rfl

theorem latest_singleton_self (a : A) : latest key (key a) [a] = some a := by
  simp [latest]

theorem latest_singleton_of_ne (h : key a ≠ k) : latest key k [a] = none := by
  simp [latest, h]

theorem latest_concat_self (xs : List A) (a : A) : latest key (key a) (xs ++ [a]) = some a := by
  rw [latest_append, latest_singleton_self]
  rfl

theorem latest_concat_of_ne (xs : List A) (h : key a ≠ k) :
    latest key k (xs ++ [a]) = latest key k xs := by
  rw [latest_append, latest_singleton_of_ne h]
  rfl

theorem latest_eq_some (h : latest key k xs = some a) : a ∈ xs ∧ key a = k :=
  ⟨List.mem_reverse.mp (List.mem_of_find?_eq_some h), by simpa using List.find?_some h⟩

/-- Where no key is repeated, every operation is the latest for its key. -/
theorem latest_of_mem (distinct : (xs.map key).Nodup) (ha : a ∈ xs) :
    latest key (key a) xs = some a := by
  cases last : latest key (key a) xs with
  | none =>
    rw [latest, List.find?_eq_none] at last
    exact absurd (decide_eq_true rfl) (last a (List.mem_reverse.mpr ha))
  | some b =>
    obtain ⟨hb, same⟩ := latest_eq_some last
    rw [List.inj_on_of_nodup_map distinct hb ha same]

/-- Where the first history mentions a key, it ends like the second. -/
def Agrees (key : A → K) (xs ys : List A) : Prop :=
  ∀ k a, latest key k xs = some a → latest key k ys = some a

theorem Agrees.refl (xs : List A) : Agrees key xs xs := fun _ _ h => h

theorem Agrees.append (h : Agrees key xs ys) (zs : List A) :
    Agrees key (xs ++ zs) (ys ++ zs) := by
  intro k a ha
  rw [latest_append] at ha ⊢
  cases last : latest key k zs with
  | some b =>
    rw [last] at ha
    exact ha
  | none =>
    rw [last] at ha
    exact h k a ha

/-- A list of operations that are all the latest for their keys. -/
theorem agrees_of_forall (h : ∀ a ∈ xs, latest key (key a) ys = some a) : Agrees key xs ys := by
  intro k a ha
  obtain ⟨mem, rfl⟩ := latest_eq_some ha
  exact h a mem

omit [DecidableEq K] in
/-- If what has distinct keys is covered by items of the same keys, it weighs no more. -/
theorem sum_le_of_covers {B : Type*} [DecidableEq B] (name : B → K) {w : A → Nat} {v : B → Nat}
    {items : List B} (distinct : (xs.map key).Nodup)
    (covers : ∀ a ∈ xs, ∃ b ∈ items, name b = key a ∧ w a ≤ v b) :
    (xs.map w).sum ≤ (items.map v).sum := by
  induction xs generalizing items with
  | nil => exact Nat.zero_le _
  | cons a xs ih =>
    obtain ⟨fresh, distinct⟩ := List.nodup_cons.mp distinct
    obtain ⟨b, hb, same, le⟩ := covers a List.mem_cons_self
    have rest := @ih (items.erase b) distinct fun a' ha' => by
      obtain ⟨b', hb', same', le'⟩ := covers a' (List.mem_cons_of_mem a ha')
      refine ⟨b', (List.mem_erase_of_ne ?_).mpr hb', same', le'⟩
      rintro rfl
      exact fresh (List.mem_map.mpr ⟨a', ha', same'.symm.trans same⟩)
    have whole : v b + ((items.erase b).map v).sum = (items.map v).sum := List.sum_map_erase v hb
    rw [List.map_cons, List.sum_cons]
    omega

end KVRPC.Library.History
