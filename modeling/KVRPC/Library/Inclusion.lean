import KVRPC.Library.Recency

/-!
# Inclusion of recency lists

Two recency lists with different limits on their length see the same requests. The shorter one
stays part of the longer one, in the same order, because the longer one never has fewer free
places: it is full only when the shorter one is full as well, and then both drop their oldest
entry.
-/
namespace KVRPC.Library.Recency

variable {K E : Type*} [DecidableEq K] {key : E → K} {weight : E → Nat}

/-- `small` holds at most `few` entries, `large` at most `many`. The free places are compared
without subtraction. -/
structure Included (few many : Nat) (small large : List E) : Prop where
  sub : small.Sublist large
  room : large.length + few ≤ small.length + many

variable {few many : Nat} {small large : List E} {k : K} {e : E}

/-- Dropping the oldest entries down to the limits keeps the inclusion. -/
theorem take_sublist_take (sub : small.Sublist large)
    (room : large.length + few ≤ small.length + many) :
    (small.take few).Sublist (large.take many) := by
  induction sub generalizing few many with
  | slnil => simp
  | @cons xs ys y sub ih =>
    have shorter := sub.length_le
    obtain _ | many := many
    · grind
    · exact (ih (by grind)).cons y
  | @cons_cons xs ys x sub ih =>
    have shorter := sub.length_le
    obtain _ | few := few
    · simp
    obtain _ | many := many
    · grind
    · exact (ih (by grind)).cons_cons x

theorem Included.take (h : Included few many small large) :
    Included few many (small.take few) (large.take many) :=
  ⟨take_sublist_take h.sub h.room, by have := h.room; grind⟩

/-- With distinct keys, removing a key removes at most one entry. -/
theorem length_without (unique : Unique key large) :
    large.length = (without key k large).length + if (lookup key k large).isSome then 1 else 0 := by
  cases found : lookup key k large with
  | none => simp [without_of_lookup_none found]
  | some e => simp [(perm_cons_without unique found).length_eq]

theorem lookup_of_sublist (unique : Unique key large) (sub : small.Sublist large)
    (found : lookup key k small = some e) : lookup key k large = some e := by
  obtain ⟨mem, rfl⟩ := lookup_eq_some found
  exact lookup_of_mem unique (sub.subset mem)

theorem Included.without (h : Included few many small large) (unique : Unique key large) (k : K) :
    Included few many (without key k small) (Recency.without key k large) := by
  refine ⟨h.sub.filter _, ?_⟩
  have room := h.room
  have lengths := length_without (k := k) unique
  have lengths' := length_without (k := k) (unique.sublist h.sub)
  cases found : lookup key k small with
  | none => grind
  | some e =>
    have found' := lookup_of_sublist unique h.sub found
    grind

/-- An entry comes to the front of both lists. -/
theorem Included.cons_without (h : Included few many small large) (unique : Unique key large)
    (e : E) :
    Included few many (e :: Recency.without key (key e) small)
      (e :: Recency.without key (key e) large) := by
  obtain ⟨sub, room⟩ := h.without unique (key e)
  exact ⟨sub.cons_cons e, by grind⟩

theorem length_touch (unique : Unique key large) :
    (touch key k large).length = large.length := by
  unfold touch
  cases found : lookup key k large with
  | none => rfl
  | some e => exact (perm_cons_without unique found).length_eq.symm

/-- A request that the shorter list misses may still reorder the longer one. -/
theorem Included.touch (h : Included few many small large) (unique : Unique key large) (k : K) :
    Included few many (touch key k small) (Recency.touch key k large) := by
  refine ⟨?_, ?_⟩
  · cases found : lookup key k small with
    | some e =>
      have found' := lookup_of_sublist unique h.sub found
      simp only [Recency.touch, found, found']
      exact (h.sub.filter _).cons_cons e
    | none =>
      cases found' : lookup key k large with
      | none => simpa only [Recency.touch, found, found'] using h.sub
      | some e =>
        simp only [Recency.touch, found, found']
        rw [← without_of_lookup_none found]
        exact (h.sub.filter _).cons e
  · rw [length_touch unique, length_touch (unique.sublist h.sub)]
    exact h.room

/-- With enough budget only the number of entries counts. -/
theorem trimTo_eq_take {count budget : Nat} {es : List E}
    (light : total weight (es.take count) ≤ budget) :
    trimTo weight count budget es = es.take count := by
  fun_induction trimTo weight count budget es with
  | case1 => simp
  | case2 => simp
  | case3 count budget e es fits ih =>
    rw [List.take_succ_cons, total_cons] at light
    rw [List.take_succ_cons, ih (by omega)]
  | case4 count budget e es heavy =>
    rw [List.take_succ_cons, total_cons] at light
    omega

end KVRPC.Library.Recency
