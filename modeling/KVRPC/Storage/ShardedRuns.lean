import KVRPC.Library.Runs
import KVRPC.Storage.Contents

/-!
# Runs of `ShardedCache`

The constructor shares out both limits without a remainder, no method changes them, and every
method works on one shard. What the shards keep to therefore adds up to what the cache was
asked for.
-/
namespace KVRPC.Storage.ShardedCache

open Library LRUCache

variable {K V : Type} [DecidableEq K] [Sizes K V] {c c' : ShardedCache K V}
  {hash : K → Nat} {capacity numShards maxBytes : Nat}

/-- A call of a method with its reading of the clock. -/
inductive Op (K V : Type) where
  | put (key : K) (value : V) (expires now : UInt64)
  | get (key : K) (now : UInt64)
  | exists_ (key : K) (now : UInt64)
  | remove (key : K)

def Op.key : Op K V → K
  | .put key .. => key
  | .get key .. => key
  | .exists_ key .. => key
  | .remove key => key

/-- The state after a call; `put` leaves it alone when it throws. -/
def apply (c : ShardedCache K V) : Op K V → ShardedCache K V
  | .put key value expires now =>
    match c.put key value expires now with
    | .ok c' => c'
    | .error _ => c
  | .get key now => (c.get key now).2
  | .exists_ key now => (c.exists_ key now).2
  | .remove key => (c.remove key).2

abbrev Runs (init : ShardedCache K V) (trace : List (ShardedCache K V × Op K V))
    (c : ShardedCache K V) : Prop :=
  Run (fun c op c' => c.apply op = c') (fun _ => False) init trace c

/-- A call changes one shard at most, and not its limits. -/
theorem apply_cases (c : ShardedCache K V) (op : Op K V) :
    c.apply op = c ∨ ∃ s placed, s.limits = (c.getShard op.key).limits ∧
      c.apply op = c.setShard op.key s placed := by
  cases op with
  | put key value expires now =>
    simp only [apply, put]
    split
    case h_1 stored =>
      split at stored
      · cases stored
      case h_2 s done =>
        obtain rfl := Except.ok.inj stored
        exact .inr ⟨s, c.put_placed done, (put_view done).2.1, rfl⟩
    case h_2 => exact .inl rfl
  | get key now =>
    exact .inr ⟨_, c.get_placed key now, ((c.getShard key).get_view key now).2.2, rfl⟩
  | exists_ key now =>
    exact .inr ⟨_, c.exists_placed key now, ((c.getShard key).exists_view key now).2, rfl⟩
  | remove key => exact .inr ⟨_, c.remove_placed key, ((c.getShard key).remove_view key).2, rfl⟩

theorem layout_apply (op : Op K V) : (c.apply op).layout = c.layout := by
  obtain same | ⟨s, placed, lim, set⟩ := c.apply_cases op
  · rw [same]
  · rw [set, layout_setShard placed lim]

/-- A call on a key leaves the other shards alone. -/
theorem apply_other (op : Op K V) {j : Nat} (other : j ≠ c.slot op.key) :
    (c.apply op).shards[j]? = c.shards[j]? := by
  obtain same | ⟨s, placed, -, set⟩ := c.apply_cases op
  · rw [same]
  · rw [set]
    exact List.getElem?_set_ne other.symm

/-! ## Sharing out the limits -/

theorem sum_remainder (n r : Nat) :
    ((List.range n).map fun i => if i < r then 1 else 0).sum = min n r := by
  induction n with
  | zero => simp
  | succ n ih =>
    rw [List.range_succ, List.map_append, List.sum_append, ih]
    simp only [List.map_cons, List.map_nil, List.sum_singleton]
    split <;> omega

/-- The shares add up to the whole. -/
theorem sum_share (total : Nat) {n : Nat} (positive : 0 < n) :
    ((List.range n).map (share total n)).sum = total := by
  have remainder := Nat.mod_lt total positive
  have parts : ((List.range n).map (share total n)).sum = n * (total / n) + total % n := by
    unfold share
    rw [List.sum_map_add, sum_remainder, Nat.min_eq_right remainder.le]
    simp
  rw [parts, Nat.div_add_mod]

/-- The limits of the shards of a new cache. -/
theorem create_limits (h : create hash capacity numShards maxBytes = .ok c) :
    0 < min capacity numShards ∧ c.hash = hash ∧
    (c.shards.map fun s => s.limits) = (List.range (min capacity numShards)).map (fun i =>
      ⟨share capacity (min capacity numShards) i, share maxBytes (min capacity numShards) i⟩) ∧
    ∀ s ∈ c.shards, 0 < s.limits.count ∧ 0 < s.limits.budget := by
  unfold create at h
  split at h
  case isTrue => cases h
  case isFalse positive =>
    dsimp only at h
    split at h
    case h_1 => cases h
    case h_2 shards made =>
      obtain rfl := Except.ok.inj h
      obtain ⟨length, each⟩ := createShards_spec made
      refine ⟨by omega, rfl, List.ext_getElem (by simpa using length) fun i hi _ => ?_, ?_⟩
      · simp only [List.getElem_map, List.getElem_range]
        exact (create_view (each i (by simpa using hi))).2
      · intro s mem
        obtain ⟨i, hi, rfl⟩ := List.getElem_of_mem mem
        have limits : (shards.get ⟨i, hi⟩).limits = _ := (create_view (each i hi)).2
        change 0 < (shards.get ⟨i, hi⟩).limits.count ∧ 0 < (shards.get ⟨i, hi⟩).limits.budget
        rw [limits]
        exact create_pos (each i hi)

/-- What holds of a cache with given limits of its shards, whatever its entries are. -/
theorem bounds_of_limits {n : Nat} (positive : 0 < n)
    (limits : (c.shards.map fun s => s.limits) =
      (List.range n).map fun i => ⟨share capacity n i, share maxBytes n i⟩) :
    (c.shards.map fun s => s.capacity).sum = capacity ∧
    (c.shards.map fun s => s.maxBytes).sum = maxBytes ∧ c.size ≤ capacity ∧
    c.getStats.bytes = Recency.total Entry.bytes c.entries ∧ c.getStats.bytes ≤ maxBytes := by
  have counts : (c.shards.map fun s => s.capacity).sum = capacity := by
    have each := congrArg (List.map Recency.Limits.count) limits
    rw [List.map_map, List.map_map] at each
    exact (congrArg List.sum each).trans (sum_share capacity positive)
  have budgets : (c.shards.map fun s => s.maxBytes).sum = maxBytes := by
    have each := congrArg (List.map Recency.Limits.budget) limits
    rw [List.map_map, List.map_map] at each
    exact (congrArg List.sum each).trans (sum_share maxBytes positive)
  have size : c.size ≤ (c.shards.map fun s => s.capacity).sum := by
    refine List.sum_le_sum fun s _ => ?_
    have within := s.valid.fits.1
    rwa [Members.view, List.length_map] at within
  have bytes : c.getStats.bytes ≤ (c.shards.map fun s => s.maxBytes).sum := by
    refine List.sum_le_sum fun s _ => ?_
    rw [s.valid.bytes_eq]
    exact s.valid.fits.2
  refine ⟨counts, budgets, size.trans_eq counts, ?_, bytes.trans_eq budgets⟩
  have each : (c.shards.map fun s => s.stats.bytes) =
      c.shards.map fun s => (s.view.reverse.map Entry.bytes).sum := by
    refine List.map_congr_left fun s _ => ?_
    rw [s.valid.bytes_eq, List.map_reverse, List.sum_reverse]
    rfl
  rw [getStats, Recency.total, entries, List.map_flatMap, List.flatMap, List.sum_flatten,
    List.map_map, each]
  rfl

/-- **Bounds.** For every hash function and every sequence of calls, the limits of the shards add
up to the limits asked for, the cache is within them, the reported byte count is the accounted
size of the entries, every key is there at most once and in the shard of its hash, and a call
changes no other shard. -/
theorem cache_within_limits {init : ShardedCache K V}
    {trace : List (ShardedCache K V × Op K V)}
    (created : create hash capacity numShards maxBytes = .ok init) (run : Runs init trace c) :
    ((c.shards.map fun s => s.capacity).sum = capacity ∧
      (c.shards.map fun s => s.maxBytes).sum = maxBytes ∧
      ∀ s ∈ c.shards, 0 < s.capacity ∧ 0 < s.maxBytes) ∧
    c.size ≤ capacity ∧
    (c.getStats.bytes = Recency.total Entry.bytes c.entries ∧ c.getStats.bytes ≤ maxBytes ∧
      ∀ e ∈ c.entries, e.bytes = entryBytes e.key e.value) ∧
    (c.entries.map Entry.key).Nodup ∧
    (∀ i (h : i < c.shards.length), ∀ e ∈ (c.shards.get ⟨i, h⟩).view,
      hash e.key % c.shards.length = i) ∧
    ∀ op j, j ≠ c.slot op.key → (c.apply op).shards[j]? = c.shards[j]? := by
  obtain ⟨positive, hashed, limits, each⟩ := create_limits created
  have layout : c.layout = init.layout := by
    refine run.invariant (fun _ c => c.layout = init.layout) (fun _ _ => True) rfl ?_
      fun _ _ => trivial
    rintro _ c op _ kept - rfl
    exact (layout_apply op).trans kept
  have kept : (c.shards.map fun s => s.limits) = init.shards.map fun s => s.limits :=
    congrArg Prod.snd layout
  obtain ⟨counts, budgets, size, bytes, within⟩ :=
    bounds_of_limits positive (kept.trans limits)
  refine ⟨⟨counts, budgets, fun s mem => ?_⟩, size,
    ⟨bytes, within, fun e mem => (mem_entries.mp mem).cost_eq⟩, c.nodup_entries, ?_,
    fun op j => apply_other op⟩
  · have listed : s.limits ∈ init.shards.map fun s => s.limits := by
      rw [← kept]
      exact List.mem_map_of_mem mem
    obtain ⟨old, mem', same⟩ := List.mem_map.mp listed
    have limits := each old mem'
    rwa [same] at limits
  · have same : c.hash = hash := (congrArg Prod.fst layout).trans hashed
    intro i h e mem
    rw [c.length_eq, ← same]
    exact c.placed i h e mem

/-- Three shards for five entries and 500 octets, with one entry in the second. -/
theorem cache_within_limits_five :
    ∃ (init c : ShardedCache Bytes Bytes) (trace : _), create List.length 5 3 500 = .ok init ∧
      Runs init trace c ∧ (c.shards.map fun s => (s.capacity, s.maxBytes, s.items.length)) =
        [(2, 167, 0), (2, 167, 1), (1, 166, 0)] ∧
      (c.shards.map fun s => s.maxBytes).sum = 500 ∧ c.getStats.bytes ≤ 500 := by
  have made : ((create List.length 5 3 500).toOption.map fun init : ShardedCache Bytes Bytes =>
      (init.apply (.put [7] [8] 0 0)).shards.map fun s =>
        (s.capacity, s.maxBytes, s.items.length)) =
      some [(2, 167, 0), (2, 167, 1), (1, 166, 0)] := by decide +kernel
  cases created : create (K := Bytes) (V := Bytes) List.length 5 3 500 with
  | error e =>
    rw [created] at made
    cases made
  | ok init =>
    rw [created] at made
    have run : Runs init _ (init.apply (.put [7] [8] 0 0)) := .snoc .nil nofun rfl
    obtain ⟨⟨-, budgets, -⟩, -, ⟨-, within, -⟩, -⟩ := cache_within_limits created run
    exact ⟨init, _, _, rfl, run, Option.some.inj made, budgets, within⟩

end KVRPC.Storage.ShardedCache
