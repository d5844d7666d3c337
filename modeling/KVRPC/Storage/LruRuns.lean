import KVRPC.Library.Runs
import KVRPC.Storage.LruCache

/-!
# Runs of `LRUCache`

Calls of the methods in any order and with any readings of the clock, also calls that throw.
Every state on the way is valid, and from every such state the methods move and drop exactly
the entries they should: what `put` leaves is the longest prefix within the limits.
-/
namespace KVRPC.Storage.LRUCache

open Library

variable {K V : Type}

/-- A call of a method, with the readings of the clock it gets and the allocation that fails, if
one does. -/
inductive Op (K V : Type) where
  | put (key : K) (value : V) (expires now : UInt64) (short : Option Members.Shortage)
  | get (key : K) (now : UInt64) (short : Bool)
  | exists_ (key : K) (now : UInt64)
  | remove (key : K)
  | snapshot (clock : Nat → UInt64) (short : Bool)

/-- A call of `get`. -/
def Op.Gets : Op K V → Prop
  | .get .. => True
  | _ => False

namespace Members

variable [DecidableEq K] [Sizes K V] {c c' : Members K V} {capacity maxBytes : Nat}

/-- The exception of a call. -/
def thrown? {α : Type} : Except Thrown α → Option Thrown
  | .error e => some e
  | .ok _ => none

/-- What a call throws and the state after it. -/
def apply (c : Members K V) : Op K V → Option Thrown × Members K V
  | .put key value expires now short => c.putWith key value expires now short
  | .get key now short => (thrown? (c.getWith key now short).1, (c.getWith key now short).2)
  | .exists_ key now => (none, (c.exists_ key now).2)
  | .remove key => (none, (c.remove key).2)
  | .snapshot clock short => (thrown? (c.snapshotWith clock short), c)

abbrev Runs (capacity maxBytes : Nat) (trace : List (Members K V × Op K V)) (c : Members K V) :
    Prop :=
  Run (fun c op c' => (c.apply op).2 = c') (fun _ => False)
    { capacity := capacity, maxBytes := maxBytes } trace c

omit [Sizes K V] in
/-- Whether it throws or not, a call of `get` changes the cache in the same way. -/
@[simp] theorem getWith_snd (c : Members K V) (key : K) (now : UInt64) (short : Bool) :
    (c.getWith key now short).2 = (c.get key now).2 := by
  unfold getWith
  split
  case h_1 found => rw [found]
  case h_2 found => rw [found]

omit [Sizes K V] in
/-- A call of `get` that throws has found the entry and has only not returned it. -/
theorem getWith_thrown {key : K} {now : UInt64} {short : Bool} {e : Thrown}
    (h : thrown? (c.getWith key now short).1 = some e) :
    ∃ value, (c.get key now).1 = some value := by
  unfold getWith at h
  split at h
  case h_1 => cases h
  case h_2 value c' found => exact ⟨value, by rw [found]⟩

omit [Sizes K V] in
/-- A hit is counted. -/
theorem get_hits_of_found {key : K} {now : UInt64} {value : V}
    (h : (c.get key now).1 = some value) :
    (c.get key now).2.stats.hits = c.stats.hits + 1 := by
  unfold get at h ⊢
  split at h
  case h_1 => cases h
  case h_2 n found =>
    split at h
    case isTrue => cases h
    case isFalse alive => rw [if_neg alive]

/-- A call that throws leaves list, index and counters alone, exactly if it is not one of `get`. -/
theorem unchanged_iff_of_thrown {op : Op K V} {e : Thrown} (h : (c.apply op).1 = some e) :
    { (c.apply op).2 with nextAddr := c.nextAddr } = c ↔ ¬ op.Gets := by
  cases op with
  | put key value expires now short =>
    refine iff_of_true ?_ not_false
    simp only [apply, putWith] at h ⊢
    split at h
    case h_1 => rfl
    case h_2 =>
      split at h
      case isTrue => cases h
      case isFalse alive =>
        rw [if_neg alive]
        split at h
        case h_1 => rfl
        case h_2 => rfl
        case h_3 => cases h
  | get key now short =>
    refine iff_of_false (fun same => ?_) (not_not.mpr trivial)
    obtain ⟨value, found⟩ := getWith_thrown h
    have counted := get_hits_of_found found
    have hits := congrArg (fun c => c.stats.hits) same
    simp only [apply, getWith_snd] at hits
    omega
  | snapshot => exact iff_of_true rfl not_false
  | exists_ | remove => cases h

theorem Valid.bump (h : c.Valid) : ({ c with nextAddr := c.nextAddr + 1 } : Members K V).Valid :=
  ⟨⟨h.unique, h.addrs, fun n mem => (h.fresh n mem).trans (Nat.lt_succ_self _), h.index_eq,
    h.bytes_eq, h.cost_eq⟩, h.fits⟩

theorem Valid.apply (h : c.Valid) (op : Op K V) :
    (c.apply op).2.Valid ∧ (c.apply op).2.limits = c.limits := by
  cases op with
  | put key value expires now short =>
    by_cases fits : c.CanStore key value
    · obtain ⟨stored, put, valid, -, lim⟩ := put_spec h expires now fits
      simp only [Members.apply, putWith, put]
      split
      · exact ⟨valid, lim⟩
      split
      · exact ⟨h, rfl⟩
      · exact ⟨h.bump, rfl⟩
      · exact ⟨valid, lim⟩
    · simp only [Members.apply, putWith, put_error expires now fits]
      exact ⟨h, trivial⟩
  | get key now short =>
    simp only [Members.apply, getWith_snd]
    exact ⟨(get_spec h key now).2.1, (get_spec h key now).2.2.2⟩
  | exists_ key now => exact ⟨(exists_spec h key now).2.1, (exists_spec h key now).2.2.2⟩
  | remove key => exact ⟨(remove_spec h key).1, (remove_spec h key).2.2⟩
  | snapshot clock short => exact ⟨h, rfl⟩

theorem runs_valid {trace : List (Members K V × Op K V)} (run : Runs capacity maxBytes trace c) :
    c.Valid ∧ c.limits = ⟨capacity, maxBytes⟩ := by
  refine run.invariant (fun _ c => c.Valid ∧ c.limits = ⟨capacity, maxBytes⟩) (fun _ _ => True) ?_
    ?_ fun _ _ => trivial
  · exact ⟨⟨⟨List.nodup_nil, List.nodup_nil, nofun, fun _ => rfl, rfl, nofun⟩, Nat.zero_le _,
      Nat.zero_le _⟩, rfl⟩
  · rintro _ c op _ ⟨valid, lim⟩ - rfl
    obtain ⟨valid', lim'⟩ := valid.apply op
    exact ⟨valid', lim'.trans lim⟩

/-- `put` keeps the longest prefix that fits and counts what it drops. -/
theorem put_longest (h : c.Valid) (positive : 0 < c.capacity) {key : K} {value : V}
    {expires now : UInt64} (fits : c.CanStore key value)
    (alive : ¬ (expires ≠ 0 ∧ expires ≤ now)) {e : Entry K V}
    (entry : e = ⟨key, value, expires, entryBytes key value⟩) :
    ∃ c', c.put key value expires now = .ok c' ∧
      Recency.LongestPrefix Entry.bytes c.limits (e :: Recency.without Entry.key key c.view)
        c'.view ∧
      e ∈ c'.view ∧ c'.stats.evictions = c.stats.evictions +
        ((e :: Recency.without Entry.key key c.view).length - c'.view.length) := by
  subst entry
  obtain ⟨c', stored, evicted⟩ := put_alive h fits alive
  obtain ⟨-, viewed, lim, stats⟩ :=
    h.toConsistent.linked (e := ⟨key, value, expires, entryBytes key value⟩) rfl
  have view_eq := evicted.view_eq
  have counted := evicted.evictions_eq
  rw [viewed, lim] at view_eq
  rw [viewed, stats] at counted
  refine ⟨c', stored, ?_, ?_, counted⟩
  · rw [view_eq]
    exact Recency.trim_longest Entry.bytes c.limits _
  · rw [view_eq]
    exact Recency.mem_insert_self _ positive fits

theorem lookup_split (h : c.Valid) {xs ys : List (Entry K V)} {e : Entry K V}
    (split : c.view = xs ++ e :: ys) : Recency.lookup Entry.key e.key c.view = some e :=
  Recency.lookup_of_mem h.unique (by simp [split])

/-- **Exact eviction.** From every reachable state, `put` of an entry that fits and has not
expired leaves the longest prefix within the limits of the list with the entry in front and the
old one of its key gone; `get` of an entry that has not expired moves this entry to the front;
`remove` and the lazy expiry of `get`, `exists` and `put` delete this entry. Nothing else moves. -/
theorem eviction_exact {trace : List (Members K V × Op K V)} (positive : 0 < capacity)
    (run : Runs capacity maxBytes trace c) :
    (∀ key value expires now, c.CanStore key value → ¬ (expires ≠ 0 ∧ expires ≤ now) →
      ∃ c', c.put key value expires now = .ok c' ∧
        let e : Entry K V := ⟨key, value, expires, entryBytes key value⟩
        let all := e :: Recency.without Entry.key key c.view
        Recency.LongestPrefix Entry.bytes ⟨capacity, maxBytes⟩ all c'.view ∧ e ∈ c'.view ∧
        c'.stats.evictions = c.stats.evictions + (all.length - c'.view.length)) ∧
    ∀ xs e ys, c.view = xs ++ e :: ys →
      (∀ now, ¬ e.Expired now → (c.get e.key now).1 = some e.value ∧
        (c.get e.key now).2.view = e :: (xs ++ ys) ∧ (c.exists_ e.key now).2.view = c.view) ∧
      (∀ now, e.Expired now → (c.get e.key now).1 = none ∧ (c.get e.key now).2.view = xs ++ ys ∧
        (c.exists_ e.key now).1 = false ∧ (c.exists_ e.key now).2.view = xs ++ ys) ∧
      (∀ value expires now, c.CanStore e.key value → expires ≠ 0 ∧ expires ≤ now →
        ∃ c', c.put e.key value expires now = .ok c' ∧ c'.view = xs ++ ys) ∧
      (c.remove e.key).1 = true ∧ (c.remove e.key).2.view = xs ++ ys := by
  obtain ⟨h, lim⟩ := runs_valid run
  have capacity_eq : c.capacity = capacity := congrArg Recency.Limits.count lim
  refine ⟨fun key value expires now fits alive => ?_, fun xs e ys split => ?_⟩
  · rw [← lim]
    exact put_longest h (capacity_eq ▸ positive) fits alive rfl
  have unique : Recency.Unique Entry.key (xs ++ e :: ys) := split ▸ h.unique
  have found := lookup_split h split
  have rest : Recency.without Entry.key e.key c.view = xs ++ ys :=
    split ▸ Recency.without_split unique
  have touched : Recency.touch Entry.key e.key c.view = e :: (xs ++ ys) :=
    split ▸ Recency.touch_split unique
  refine ⟨fun now alive => ?_, fun now expired => ?_, fun value expires now fits stale => ?_, ?_,
    ?_⟩
  · obtain ⟨result, -, viewed, -⟩ := get_spec h e.key now
    rw [getView, found] at result viewed
    dsimp only at result viewed
    rw [if_neg alive] at result viewed
    refine ⟨result, viewed.trans touched, ?_⟩
    rw [(exists_spec h e.key now).2.2.1, existsView, found]
    dsimp only
    rw [if_neg alive]
  · obtain ⟨result, -, viewed, -⟩ := get_spec h e.key now
    obtain ⟨result', -, viewed', -⟩ := exists_spec h e.key now
    rw [getView, found] at result viewed
    rw [existsView, found] at result' viewed'
    dsimp only at result viewed result' viewed'
    rw [if_pos expired] at result viewed result' viewed'
    exact ⟨result, viewed.trans rest, result', viewed'.trans rest⟩
  · obtain ⟨c', stored, -, viewed, -⟩ := put_spec h expires now fits
    rw [putView, if_pos stale] at viewed
    exact ⟨c', stored, viewed.trans rest⟩
  · unfold Members.remove
    cases missing : c.index e.key with
    | none => rw [h.lookup_of_index_none missing] at found; cases found
    | some it => rfl
  · exact (remove_spec h e.key).2.1.trans rest

/-- A third entry comes to a full cache of two. -/
theorem eviction_exact_third :
    ∃ trace c, Runs (K := Bytes) (V := Bytes) 2 1000 trace c ∧
      c.view.map Entry.key = [[2], [1]] ∧
      ∃ c', c.put [3] [30] 0 0 = .ok c' ∧
        let all := ⟨[3], [30], 0, 82⟩ :: Recency.without Entry.key [3] c.view
        Recency.LongestPrefix Entry.bytes ⟨2, 1000⟩ all c'.view ∧
        c'.stats.evictions = c.stats.evictions + (all.length - c'.view.length) := by
  have run : Runs (K := Bytes) (V := Bytes) 2 1000 _ _ :=
    .snoc (.snoc .nil nofun (Eq.refl (apply _ (.put [1] [10] 0 0 none)).2)) (fun _ _ => not_false)
      (Eq.refl (apply _ (.put [2] [20] 0 0 none)).2)
  obtain ⟨c', stored, longest, -, counted⟩ :=
    (eviction_exact (by decide) run).1 [3] [30] 0 0 (by decide +kernel) (by decide)
  exact ⟨_, _, run, by decide +kernel, c', stored, longest, counted⟩

end Members
end KVRPC.Storage.LRUCache
