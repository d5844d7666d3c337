import Mathlib.Tactic

/-!
# Recency lists

A bounded collection of entries with distinct keys, most recently used first. Entries
have a weight; an insertion drops the oldest entries until both the number of entries
and their total weight are within limits, so what stays is the longest prefix that fits.
-/
namespace KVRPC.Library.Recency

variable {K E : Type*} [DecidableEq K]

structure Limits where
  count : Nat
  budget : Nat
  deriving DecidableEq, Repr

section Weight

variable (weight : E → Nat)

def total (es : List E) : Nat := (es.map weight).sum

@[simp] theorem total_nil : total weight [] = 0 := rfl

@[simp] theorem total_cons (e : E) (es : List E) :
    total weight (e :: es) = weight e + total weight es := by simp [total]

@[simp] theorem total_append (xs ys : List E) :
    total weight (xs ++ ys) = total weight xs + total weight ys := by simp [total]

theorem total_sublist {xs ys : List E} (h : xs.Sublist ys) : total weight xs ≤ total weight ys := by
  induction h with
  | slnil => exact le_rfl
  | cons y _ ih => rw [total_cons]; omega
  | cons_cons y _ ih => rw [total_cons, total_cons]; omega

def Fits (lim : Limits) (es : List E) : Prop :=
  es.length ≤ lim.count ∧ total weight es ≤ lim.budget

instance (lim : Limits) (es : List E) : Decidable (Fits weight lim es) :=
  inferInstanceAs (Decidable (_ ∧ _))

theorem Fits.sublist {lim : Limits} {xs ys : List E} (h : Fits weight lim ys)
    (sub : xs.Sublist ys) : Fits weight lim xs :=
  ⟨sub.length_le.trans h.1, (total_sublist weight sub).trans h.2⟩

/-- The longest prefix within `count` entries and weight `budget`. -/
def trimTo : Nat → Nat → List E → List E
  | 0, _, _ => []
  | _ + 1, _, [] => []
  | count + 1, budget, e :: es =>
    if weight e ≤ budget then e :: trimTo count (budget - weight e) es else []

def trim (lim : Limits) (es : List E) : List E := trimTo weight lim.count lim.budget es

theorem trimTo_isPrefix (count budget : Nat) (es : List E) :
    trimTo weight count budget es <+: es := by
  induction es generalizing count budget with
  | nil => cases count <;> exact List.prefix_rfl
  | cons e es ih =>
    cases count with
    | zero => exact List.nil_prefix
    | succ count =>
      rw [trimTo]
      split
      · exact (List.prefix_cons_inj e).mpr (ih _ _)
      · exact List.nil_prefix

theorem trimTo_of_le {count budget : Nat} {es : List E} (hl : es.length ≤ count)
    (hw : total weight es ≤ budget) : trimTo weight count budget es = es := by
  induction es generalizing count budget with
  | nil => cases count <;> rfl
  | cons e es ih =>
    cases count with
    | zero => simp at hl
    | succ count =>
      rw [total_cons] at hw
      rw [trimTo, if_pos (by omega), ih (by simpa using hl) (by omega)]

/-- Dropping the oldest entry of a list that does not fit leaves the result unchanged. -/
theorem trimTo_concat {count budget : Nat} {es : List E} {e : E}
    (h : ¬ (es.length + 1 ≤ count ∧ total weight es + weight e ≤ budget)) :
    trimTo weight count budget (es ++ [e]) = trimTo weight count budget es := by
  induction es generalizing count budget with
  | nil =>
    cases count with
    | zero => rfl
    | succ count =>
      have heavy : ¬ weight e ≤ budget := by
        intro light
        exact h ⟨by simp, by simpa using light⟩
      simp [trimTo, heavy]
  | cons x es ih =>
    cases count with
    | zero => rfl
    | succ count =>
      rw [List.cons_append, trimTo, trimTo]
      split
      · rw [ih]
        rintro ⟨hl, hw⟩
        refine h ⟨by simpa using hl, ?_⟩
        rw [total_cons]
        omega
      · rfl

theorem trim_isPrefix (lim : Limits) (es : List E) : trim weight lim es <+: es :=
  trimTo_isPrefix weight _ _ es

theorem trim_of_fits {lim : Limits} {es : List E} (h : Fits weight lim es) :
    trim weight lim es = es := trimTo_of_le weight h.1 h.2

theorem trim_concat {lim : Limits} {es : List E} {e : E} (h : ¬ Fits weight lim (es ++ [e])) :
    trim weight lim (es ++ [e]) = trim weight lim es := by
  refine trimTo_concat weight fun fits => h ⟨?_, ?_⟩
  · simpa using fits.1
  · simpa using fits.2

/-- `p` is the longest prefix of `es` within the limits. -/
structure LongestPrefix (lim : Limits) (es p : List E) : Prop where
  isPrefix : p <+: es
  fits : Fits weight lim p
  longest : ∀ q, q <+: es → Fits weight lim q → q <+: p

theorem fits_trimTo (count budget : Nat) (es : List E) :
    Fits weight ⟨count, budget⟩ (trimTo weight count budget es) := by
  induction es generalizing count budget with
  | nil =>
    cases count
    · exact ⟨le_rfl, Nat.zero_le _⟩
    · exact ⟨Nat.zero_le _, Nat.zero_le _⟩
  | cons e es ih =>
    cases count with
    | zero => exact ⟨le_rfl, Nat.zero_le _⟩
    | succ count =>
      rw [trimTo]
      split
      case isTrue light =>
        obtain ⟨short, within⟩ := ih count (budget - weight e)
        refine ⟨Nat.succ_le_succ short, ?_⟩
        rw [total_cons]
        dsimp only at within ⊢
        omega
      case isFalse => exact ⟨Nat.zero_le _, Nat.zero_le _⟩

theorem isPrefix_trimTo {count budget : Nat} {es q : List E} (h : q <+: es)
    (fits : Fits weight ⟨count, budget⟩ q) : q <+: trimTo weight count budget es := by
  induction es generalizing count budget q with
  | nil =>
    rw [List.prefix_nil.mp h]
    exact List.nil_prefix
  | cons e es ih =>
    obtain rfl | ⟨q', rfl, h'⟩ := List.prefix_cons_iff.mp h
    · exact List.nil_prefix
    obtain ⟨short, within⟩ := fits
    rw [total_cons] at within
    dsimp only [List.length_cons] at short within
    cases count with
    | zero => omega
    | succ count =>
      rw [trimTo, if_pos (by omega)]
      exact (List.prefix_cons_inj e).mpr (ih h' ⟨by dsimp only; omega, by dsimp only; omega⟩)

/-- **Trimming is exact.** -/
theorem trim_longest (lim : Limits) (es : List E) :
    LongestPrefix weight lim es (trim weight lim es) :=
  ⟨trim_isPrefix weight lim es, fits_trimTo weight _ _ es, fun _ => isPrefix_trimTo weight⟩

end Weight

section Key

variable (key : E → K)

/-- No two entries share a key. -/
def Unique (es : List E) : Prop := (es.map key).Nodup

def lookup (k : K) (es : List E) : Option E := es.find? fun e => key e = k

def without (k : K) (es : List E) : List E := es.filter fun e => key e ≠ k

/-- Move the entry of `k` to the front, if there is one. -/
def touch (k : K) (es : List E) : List E :=
  match lookup key k es with
  | some e => e :: without key k es
  | none => es

variable {key}

theorem lookup_eq_some {k : K} {es : List E} {e : E} (h : lookup key k es = some e) :
    e ∈ es ∧ key e = k :=
  ⟨List.mem_of_find?_eq_some h, by simpa using List.find?_some h⟩

theorem lookup_eq_none {k : K} {es : List E} : lookup key k es = none ↔ ∀ e ∈ es, key e ≠ k := by
  simp [lookup]

theorem lookup_of_mem {es : List E} (hu : Unique key es) {e : E} (he : e ∈ es) :
    lookup key (key e) es = some e := by
  induction es with
  | nil => simp at he
  | cons x es ih =>
    obtain ⟨fresh, hu⟩ := List.nodup_cons.mp hu
    by_cases hx : key x = key e
    · rcases List.mem_cons.mp he with rfl | he
      · simp [lookup]
      · exact absurd (List.mem_map.mpr ⟨e, he, hx.symm⟩) fresh
    · rcases List.mem_cons.mp he with rfl | he
      · exact absurd rfl hx
      · have := ih hu he
        simpa [lookup, hx] using this

theorem mem_without {k : K} {es : List E} {e : E} : e ∈ without key k es ↔ e ∈ es ∧ key e ≠ k := by
  simp [without]

theorem without_sublist (k : K) (es : List E) : (without key k es).Sublist es := List.filter_sublist

theorem without_of_lookup_none {k : K} {es : List E} (h : lookup key k es = none) :
    without key k es = es := by
  rw [without, List.filter_eq_self]
  simpa using lookup_eq_none.mp h

omit [DecidableEq K] in
theorem Unique.sublist {xs ys : List E} (h : Unique key ys) (sub : xs.Sublist ys) :
    Unique key xs := List.Nodup.sublist (sub.map key) h

theorem Unique.cons_without {es : List E} (h : Unique key es) (e : E) :
    Unique key (e :: without key (key e) es) := by
  refine List.nodup_cons.mpr ⟨?_, h.sublist (without_sublist _ es)⟩
  rintro hmem
  obtain ⟨x, hx, hk⟩ := List.mem_map.mp hmem
  exact (mem_without.mp hx).2 hk

/-- With distinct keys, removing a key removes the one entry found under it. -/
theorem perm_cons_without {k : K} {es : List E} (hu : Unique key es) {e : E}
    (h : lookup key k es = some e) : es.Perm (e :: without key k es) := by
  induction es with
  | nil => simp [lookup] at h
  | cons x es ih =>
    obtain ⟨fresh, hu⟩ := List.nodup_cons.mp hu
    by_cases hx : key x = k
    · obtain rfl : x = e := by simpa [lookup, hx] using h
      have absent : lookup key k es = none := by
        rw [lookup_eq_none]
        exact fun y hy hk => fresh (List.mem_map.mpr ⟨y, hy, hk.trans hx.symm⟩)
      have rest : without key k (x :: es) = without key k es := by simp [without, hx]
      rw [rest, without_of_lookup_none absent]
    · have tail := ih hu (by simpa [lookup, hx] using h)
      have : without key k (x :: es) = x :: without key k es := by simp [without, hx]
      rw [this]
      exact (tail.cons x).trans (List.Perm.swap e x _)

omit [DecidableEq K] in
theorem Unique.ne_of_split {xs ys : List E} {e : E} (h : Unique key (xs ++ e :: ys)) :
    ∀ x, x ∈ xs ∨ x ∈ ys → key x ≠ key e := by
  have front := (List.perm_middle.map key).nodup_iff.mp h
  rw [List.map_cons, List.nodup_cons] at front
  intro x mem same
  exact front.1 (List.mem_map.mpr ⟨x, List.mem_append.mpr mem, same⟩)

/-- Removing the key of an entry removes this entry and keeps the order of the others. -/
theorem without_split {xs ys : List E} {e : E} (h : Unique key (xs ++ e :: ys)) :
    without key (key e) (xs ++ e :: ys) = xs ++ ys := by
  have others := h.ne_of_split
  have front : xs.filter (fun x => key x ≠ key e) = xs :=
    List.filter_eq_self.mpr fun x mem => by simpa using others x (.inl mem)
  have back : ys.filter (fun x => key x ≠ key e) = ys :=
    List.filter_eq_self.mpr fun x mem => by simpa using others x (.inr mem)
  rw [without, List.filter_append, List.filter_cons_of_neg (by simp), front, back]

theorem touch_split {xs ys : List E} {e : E} (h : Unique key (xs ++ e :: ys)) :
    touch key (key e) (xs ++ e :: ys) = e :: (xs ++ ys) := by
  rw [touch, lookup_of_mem h (by simp), without_split h]

theorem Unique.touch {es : List E} (h : Unique key es) (k : K) :
    Unique key (Recency.touch key k es) := by
  unfold Recency.touch
  split
  · rename_i e he
    rw [← (lookup_eq_some he).2]
    exact h.cons_without e
  · exact h

theorem mem_touch {k : K} {es : List E} {e : E} : e ∈ touch key k es → e ∈ es := by
  unfold touch
  split
  · rename_i x hx
    intro h
    rcases List.mem_cons.mp h with rfl | h
    · exact (lookup_eq_some hx).1
    · exact (mem_without.mp h).1
  · exact id

end Key

section Insert

variable (key : E → K) (weight : E → Nat)

/-- Put an entry in front, in place of the one with its key, and drop what no longer fits. -/
def insert (lim : Limits) (e : E) (es : List E) : List E :=
  trim weight lim (e :: without key (key e) es)

variable {key weight}

theorem mem_insert {lim : Limits} {e x : E} {es : List E} (h : x ∈ insert key weight lim e es) :
    x = e ∨ x ∈ es ∧ key x ≠ key e := by
  have := (trim_isPrefix weight lim _).sublist.subset h
  rcases List.mem_cons.mp this with rfl | h
  · exact Or.inl rfl
  · exact Or.inr (mem_without.mp h)

/-- An entry that fits on its own is not dropped. -/
theorem mem_insert_self {lim : Limits} {e : E} (es : List E) (count : 0 < lim.count)
    (light : weight e ≤ lim.budget) : e ∈ insert key weight lim e es := by
  obtain ⟨n, hn⟩ := Nat.exists_eq_succ_of_ne_zero count.ne'
  simp [insert, trim, hn, trimTo, light]

/-- **Rebuilding.** Inserting the entries of a list that fits, oldest first, restores it. -/
theorem foldr_insert {lim : Limits} {es : List E} (hu : Unique key es) (hf : Fits weight lim es) :
    es.foldr (insert key weight lim) [] = es := by
  induction es with
  | nil => rfl
  | cons e es ih =>
    obtain ⟨fresh, hu'⟩ := List.nodup_cons.mp hu
    have absent : lookup key (key e) es = none := by
      rw [lookup_eq_none]
      intro x hx hk
      exact fresh (List.mem_map.mpr ⟨x, hx, hk⟩)
    rw [List.foldr_cons, ih hu' (hf.sublist weight (List.sublist_cons_self e es)), insert,
      without_of_lookup_none absent, trim_of_fits weight hf]

end Insert

end KVRPC.Library.Recency
