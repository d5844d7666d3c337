import KVRPC.Storage.LruCache

/-!
# The sharded cache

`ShardedCache` of `sharded_cache.h`. A key lives in the shard its hash selects, and the
structure carries this as an invariant. The `shape` of a cache lists the limits and the
entries of every shard; the methods change one component of it.
-/
namespace KVRPC.Storage

open Library

variable {K V : Type} [DecidableEq K] [Sizes K V]

structure ShardedCache (K V : Type) [DecidableEq K] [Sizes K V] where
  numShards : Nat
  shards : List (LRUCache K V)
  hash : K → Nat
  length_eq : shards.length = numShards
  positive : 0 < numShards
  placed : ∀ i (h : i < shards.length), ∀ e ∈ (shards.get ⟨i, h⟩).view, hash e.key % numShards = i

/-- The limits and the entries of every shard. -/
abbrev Shape (K V : Type) := List (Recency.Limits × List (Entry K V))

/-- Change the entries of one shard. -/
def Shape.update (s : Shape K V) (i : Nat)
    (f : Recency.Limits → List (Entry K V) → List (Entry K V)) : Shape K V :=
  s.modify i fun p => (p.1, f p.1 p.2)

namespace ShardedCache

/-- The shards of the constructor's loop, in order; the first that throws ends it. -/
def createShards (shard : Nat → Except Exception (LRUCache K V)) :
    Nat → Except Exception (List (LRUCache K V))
  | 0 => .ok []
  | n + 1 => do
    let shards ← createShards shard n
    let last ← shard n
    return shards ++ [last]

/-- `total` split over `n` shards, the first ones taking the remainder. -/
def share (total n i : Nat) : Nat := total / n + if i < total % n then 1 else 0

theorem createShards_spec {shard : Nat → Except Exception (LRUCache K V)} {n : Nat}
    {shards : List (LRUCache K V)} (h : createShards shard n = .ok shards) :
    shards.length = n ∧ ∀ i (hi : i < shards.length), shard i = .ok (shards.get ⟨i, hi⟩) := by
  induction n generalizing shards with
  | zero =>
    cases h
    exact ⟨rfl, fun i hi => absurd hi (Nat.not_lt_zero i)⟩
  | succ n ih =>
    unfold createShards at h
    cases hs : createShards shard n with
    | error e => rw [hs] at h; cases h
    | ok front =>
      cases hl : shard n with
      | error e => rw [hs, hl] at h; cases h
      | ok last =>
        rw [hs, hl] at h
        cases h
        obtain ⟨len, each⟩ := ih hs
        refine ⟨by simp [len], fun i hi => ?_⟩
        by_cases old : i < front.length
        · rw [each i old]
          simp [List.getElem_append_left old]
        · obtain rfl : i = front.length := by simp at hi; omega
          exact (len ▸ hl).trans (by simp)

def create (hash : K → Nat) (capacity numShards maxBytes : Nat) :
    Except Exception (ShardedCache K V) :=
  if positive : capacity = 0 ∨ numShards = 0 then
    .error (invalidArgument "Capacity and shard count must be positive")
  else
    let n := min capacity numShards
    match h : createShards (fun i =>
        LRUCache.create (share capacity n i) (share maxBytes n i)) n with
    | .error e => .error e
    | .ok shards => .ok {
        numShards := n
        shards := shards
        hash := hash
        length_eq := (createShards_spec h).1
        positive := by omega
        placed := by
          intro i hi e he
          rw [(LRUCache.create_view ((createShards_spec h).2 i hi)).1] at he
          simp at he }

variable (c : ShardedCache K V)

def slot (key : K) : Nat := c.hash key % c.numShards

theorem slot_lt (key : K) : c.slot key < c.shards.length := by
  rw [c.length_eq]
  exact Nat.mod_lt _ c.positive

def getShard (key : K) : LRUCache K V := c.shards.get ⟨c.slot key, c.slot_lt key⟩

/-- The cache with the shard of `key` changed. -/
def setShard (key : K) (s : LRUCache K V) (h : ∀ e ∈ s.view, c.slot e.key = c.slot key) :
    ShardedCache K V where
  numShards := c.numShards
  shards := c.shards.set (c.slot key) s
  hash := c.hash
  length_eq := by rw [List.length_set, c.length_eq]
  positive := c.positive
  placed := by
    intro i hi e he
    rw [List.get_eq_getElem, List.getElem_set] at he
    split at he
    · rename_i here
      exact (h e he).trans here
    · exact c.placed i (by simpa using hi) e he

theorem mem_getShard {key : K} {e : Entry K V} (h : e ∈ (c.getShard key).view) :
    c.slot e.key = c.slot key := c.placed _ _ e h

def CanStore (key : K) (value : V) : Prop := (c.getShard key).CanStore key value

instance (key : K) (value : V) : Decidable (c.CanStore key value) :=
  inferInstanceAs (Decidable ((c.getShard key).CanStore key value))

theorem put_placed {key : K} {value : V} {expires now : UInt64} {s : LRUCache K V}
    (h : (c.getShard key).put key value expires now = .ok s) :
    ∀ e ∈ s.view, c.slot e.key = c.slot key := by
  intro e he
  rw [(LRUCache.put_view h).1] at he
  rcases LRUCache.Members.mem_putView he with rfl | ⟨old, _⟩
  · rfl
  · exact c.mem_getShard old

def put (key : K) (value : V) (expires now : UInt64) : Except Exception (ShardedCache K V) :=
  match h : (c.getShard key).put key value expires now with
  | .error e => .error e
  | .ok s => .ok (c.setShard key s (c.put_placed h))

theorem get_placed (key : K) (now : UInt64) :
    ∀ e ∈ ((c.getShard key).get key now).2.view, c.slot e.key = c.slot key := by
  intro e he
  rw [(LRUCache.get_view _ key now).2.1] at he
  exact c.mem_getShard (LRUCache.Members.mem_getView he)

def get (key : K) (now : UInt64) : Option V × ShardedCache K V :=
  (((c.getShard key).get key now).1, c.setShard key _ (c.get_placed key now))

theorem exists_placed (key : K) (now : UInt64) :
    ∀ e ∈ ((c.getShard key).exists_ key now).2.view, c.slot e.key = c.slot key := by
  intro e he
  rw [(LRUCache.exists_view _ key now).1] at he
  exact c.mem_getShard (LRUCache.Members.mem_existsView he)

def exists_ (key : K) (now : UInt64) : Bool × ShardedCache K V :=
  (((c.getShard key).exists_ key now).1, c.setShard key _ (c.exists_placed key now))

theorem remove_placed (key : K) :
    ∀ e ∈ ((c.getShard key).remove key).2.view, c.slot e.key = c.slot key := by
  intro e he
  rw [(LRUCache.remove_view _ key).1] at he
  exact c.mem_getShard (Recency.mem_without.mp he).1

def remove (key : K) : Bool × ShardedCache K V :=
  (((c.getShard key).remove key).1, c.setShard key _ (c.remove_placed key))

def size : Nat := (c.shards.map fun s => s.items.length).sum

def getStats : Stats where
  hits := (c.shards.map fun s => s.stats.hits).sum
  misses := (c.shards.map fun s => s.stats.misses).sum
  bytes := (c.shards.map fun s => s.stats.bytes).sum
  evictions := (c.shards.map fun s => s.stats.evictions).sum

/-- The snapshots of the shards from number `i` on. -/
def snapshotFrom (clock : Nat → Nat → UInt64) : Nat → List (LRUCache K V) → List (Entry K V)
  | _, [] => []
  | i, s :: shards => s.snapshot (clock i) ++ snapshotFrom clock (i + 1) shards

/-- `clock i j` is the reading for the `j`-th entry that shard `i` visits. -/
def snapshot (clock : Nat → Nat → UInt64) : List (Entry K V) := snapshotFrom clock 0 c.shards

/-! ## Shapes -/

def shape : Shape K V := c.shards.map fun s => (s.limits, s.view)

theorem shape_setShard {key : K} {s : LRUCache K V} (h : ∀ e ∈ s.view, c.slot e.key = c.slot key)
    {f : Recency.Limits → List (Entry K V) → List (Entry K V)}
    (lim : s.limits = (c.getShard key).limits)
    (viewed : s.view = f (c.getShard key).limits (c.getShard key).view) :
    (c.setShard key s h).shape = c.shape.update (c.slot key) f := by
  refine List.ext_getElem? fun j => ?_
  simp only [shape, setShard, Shape.update, List.getElem?_map, List.getElem?_set,
    List.getElem?_modify]
  by_cases here : c.slot key = j
  · subst here
    simp [c.slot_lt key, lim, viewed, getShard]
  · simp [here]

theorem put_ok {key : K} {value : V} (expires now : UInt64) (hs : c.CanStore key value) :
    ∃ c', c.put key value expires now = .ok c' ∧ c'.hash = c.hash ∧ c'.numShards = c.numShards ∧
      c'.shape = c.shape.update (c.slot key)
        (fun lim => LRUCache.Members.putView lim key value expires now) := by
  obtain ⟨s, hok, viewed, lim⟩ := (c.getShard key).put_ok expires now hs
  unfold put
  split
  · rename_i he
    rw [hok] at he
    cases he
  · rename_i s' hs'
    obtain rfl : s = s' := Except.ok.inj (hok.symm.trans hs')
    exact ⟨_, rfl, rfl, rfl, c.shape_setShard _ lim viewed⟩

theorem put_error {key : K} {value : V} (expires now : UInt64) (hs : ¬ c.CanStore key value) :
    c.put key value expires now = .error (lengthError "Entry exceeds shard byte budget") := by
  have refused := (c.getShard key).put_error expires now hs
  unfold put
  split
  · rename_i he
    rw [refused] at he
    cases he
    rfl
  · rename_i hm
    rw [refused] at hm
    cases hm

theorem get_shape (key : K) (now : UInt64) :
    (c.get key now).1 = (LRUCache.Members.getView key now (c.getShard key).view).1 ∧
      (c.get key now).2.shape = c.shape.update (c.slot key)
        (fun _ es => (LRUCache.Members.getView key now es).2) :=
  have h := (c.getShard key).get_view key now
  ⟨h.1, c.shape_setShard (c.get_placed key now) h.2.2 h.2.1⟩

theorem remove_shape (key : K) : (c.remove key).2.shape =
    c.shape.update (c.slot key) (fun _ => Recency.without Entry.key key) :=
  have h := (c.getShard key).remove_view key
  c.shape_setShard (c.remove_placed key) h.2 h.1

end ShardedCache
end KVRPC.Storage
