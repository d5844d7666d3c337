import KVRPC.Library.Recency
import KVRPC.Storage.LruMembers

/-!
# One shard: `LRUCache`

An `LRUCache` carries the proof that its index, its list and its counters agree. Its
`view`, the entries most recently used first, is a recency list, and every method acts
on it as the corresponding operation of `Library.Recency`.

1. `Consistent.erase`, `Consistent.link` and `Consistent.evict` treat the steps of the
   methods.
2. `put_spec`, `get_spec` and `remove_spec` say what a method does to the view.
-/
namespace KVRPC.Storage

open Library

variable {K V : Type}

namespace LRUCache

/-! ## Agreement of list, index and counters -/

namespace Members

variable [DecidableEq K]

theorem lookup_view (c : Members K V) (k : K) :
    Recency.lookup Entry.key k c.view =
      (c.items.find? fun n => n.entry.key = k).map Node.entry := by
  rw [Recency.lookup, view, List.find?_map]
  rfl

theorem map_filter_key (c : Members K V) (k : K) :
    ((c.items.filter fun x => x.entry.key ≠ k).map Node.entry) =
      Recency.without Entry.key k c.view := by
  rw [Recency.without, view, List.filter_map]
  rfl

/-- Removing one key does not change what is found under another. -/
theorem find_filter_of_ne {items : List (Node K V)} {key k : K} (hk : k ≠ key) :
    ((items.filter fun x => x.entry.key ≠ key).find? fun n => n.entry.key = k) =
      items.find? fun n => n.entry.key = k := by
  rw [List.find?_filter]
  congr 1
  funext x
  by_cases hx : x.entry.key = k
  · simp [hx, hk]
  · simp [hx]

variable [Sizes K V]

structure Consistent (c : Members K V) : Prop where
  unique : Recency.Unique Entry.key c.view
  addrs : (c.items.map Node.addr).Nodup
  fresh : ∀ n ∈ c.items, n.addr < c.nextAddr
  index_eq : ∀ k, c.index k = (c.items.find? fun n => n.entry.key = k).map Node.addr
  bytes_eq : c.stats.bytes = Recency.total Entry.bytes c.view
  cost_eq : ∀ e ∈ c.view, e.bytes = entryBytes e.key e.value

def limits (c : Members K V) : Recency.Limits := ⟨c.capacity, c.maxBytes⟩

/-- Between calls the limits hold as well. -/
structure Valid (c : Members K V) : Prop extends Consistent c where
  fits : Recency.Fits Entry.bytes c.limits c.view

theorem Consistent.deref_of_mem {c : Members K V} (h : c.Consistent) {n : Node K V}
    (hn : n ∈ c.items) : c.deref n.addr = some n :=
  @Recency.lookup_of_mem _ _ _ Node.addr _ h.addrs _ hn

theorem unique_nodes {c : Members K V} (h : c.Consistent) :
    Recency.Unique (fun n : Node K V => n.entry.key) c.items := by
  have := h.unique
  rw [Recency.Unique, view, List.map_map] at this
  exact this

/-- The index finds exactly the entries of the list. -/
theorem Consistent.find {c : Members K V} (h : c.Consistent) (k : K) :
    (c.index k).bind c.deref = c.items.find? fun n => n.entry.key = k := by
  rw [h.index_eq]
  cases hf : c.items.find? fun n => n.entry.key = k with
  | none => rfl
  | some n => exact h.deref_of_mem (List.mem_of_find?_eq_some hf)

/-- Erasing an element by its iterator erases its key. -/
theorem filter_addr {c : Members K V} (h : c.Consistent) {n : Node K V} (hn : n ∈ c.items) :
    (c.items.filter fun x => x.addr ≠ n.addr) =
      c.items.filter fun x => x.entry.key ≠ n.entry.key := by
  refine List.filter_congr fun x hx => ?_
  have same : x.addr = n.addr ↔ x.entry.key = n.entry.key := by
    constructor
    · intro ha
      exact congrArg (fun n : Node K V => n.entry.key) (List.inj_on_of_nodup_map h.addrs hx hn ha)
    · intro hk
      exact congrArg Node.addr (List.inj_on_of_nodup_map (unique_nodes h) hx hn hk)
  simp [same]

theorem Consistent.total_without {c : Members K V} (h : c.Consistent) {n : Node K V}
    (hn : n ∈ c.items) :
    usub c.stats.bytes n.entry.bytes =
      Recency.total Entry.bytes (Recency.without Entry.key n.entry.key c.view) := by
  have mem : n.entry ∈ c.view := List.mem_map_of_mem hn
  have split := (Recency.perm_cons_without h.unique (Recency.lookup_of_mem h.unique mem)).map
    Entry.bytes
  rw [h.bytes_eq, Recency.total, Recency.total, split.sum_eq, usub_of_le (by simp)]
  simp

/-- Erasing one element keeps everything in agreement. -/
theorem Consistent.erase {c : Members K V} (h : c.Consistent) {n : Node K V} (hn : n ∈ c.items) :
    (c.erase n.addr).Consistent ∧
      (c.erase n.addr).view = Recency.without Entry.key n.entry.key c.view ∧
      (c.erase n.addr).limits = c.limits ∧ (c.erase n.addr).stats.hits = c.stats.hits ∧
      (c.erase n.addr).stats.misses = c.stats.misses ∧
      (c.erase n.addr).stats.evictions = c.stats.evictions := by
  have items : (c.erase n.addr).items = c.items.filter fun x => x.entry.key ≠ n.entry.key := by
    rw [← filter_addr h hn]
    simp only [Members.erase, h.deref_of_mem hn]
  have viewed : (c.erase n.addr).view = Recency.without Entry.key n.entry.key c.view := by
    rw [← map_filter_key, ← items]
    rfl
  have sub : (c.erase n.addr).items.Sublist c.items := items ▸ List.filter_sublist
  have fields : (c.erase n.addr).nextAddr = c.nextAddr ∧ (c.erase n.addr).limits = c.limits ∧
      (c.erase n.addr).stats = { c.stats with bytes := usub c.stats.bytes n.entry.bytes } ∧
      (c.erase n.addr).index = Function.update c.index n.entry.key none := by
    simp only [Members.erase, h.deref_of_mem hn, limits, and_self]
  obtain ⟨next, lim, stats, index⟩ := fields
  refine ⟨⟨?_, ?_, ?_, ?_, ?_, ?_⟩, viewed, lim, by rw [stats], by rw [stats],
    by rw [stats]⟩
  · rw [viewed]
    exact h.unique.sublist (Recency.without_sublist _ _)
  · exact h.addrs.sublist (sub.map Node.addr)
  · intro x hx
    rw [next]
    exact h.fresh x (sub.subset hx)
  · intro k
    rw [index, items]
    by_cases hk : k = n.entry.key
    · subst hk
      simp
    · rw [Function.update_of_ne hk, h.index_eq, find_filter_of_ne hk]
  · rw [stats, viewed]
    exact h.total_without hn
  · intro e he
    rw [viewed] at he
    exact h.cost_eq e (Recency.mem_without.mp he).1

/-- Counters other than the byte count are free. -/
theorem Consistent.withStats {c : Members K V} (h : c.Consistent) {stats : Stats}
    (hs : stats.bytes = c.stats.bytes) : ({ c with stats := stats } : Members K V).Consistent :=
  ⟨h.unique, h.addrs, h.fresh, h.index_eq, hs.trans h.bytes_eq, h.cost_eq⟩

theorem Valid.withStats {c : Members K V} (h : c.Valid) {stats : Stats}
    (hs : stats.bytes = c.stats.bytes) : ({ c with stats := stats } : Members K V).Valid :=
  ⟨h.toConsistent.withStats hs, h.fits⟩

theorem Consistent.over_iff {c : Members K V} (h : c.Consistent) :
    (c.items.length > c.capacity ∨ c.stats.bytes > c.maxBytes) ↔
      ¬ Recency.Fits Entry.bytes c.limits c.view := by
  have len : c.view.length = c.items.length := List.length_map _
  rw [Recency.Fits, ← h.bytes_eq, len]
  change _ ↔ ¬ (c.items.length ≤ c.capacity ∧ c.stats.bytes ≤ c.maxBytes)
  omega

/-- One round drops the last element. -/
theorem Consistent.evictOne {c : Members K V} (h : c.Consistent) {init : List (Node K V)}
    {last : Node K V} (split : c.items = init ++ [last]) :
    (c.evictOne last).Consistent ∧ (c.evictOne last).items = init ∧
      (c.evictOne last).limits = c.limits ∧ (c.evictOne last).stats = { c.stats with
        bytes := (c.evictOne last).stats.bytes, evictions := c.stats.evictions + 1 } := by
  have mem : last ∈ c.items := by simp [split]
  obtain ⟨consistent, -, lim, hits, misses, evictions⟩ := h.erase mem
  have shorter : (c.items.filter fun x => x.addr ≠ last.addr) = init := by
    have apart : ∀ n ∈ init, n.addr ≠ last.addr := by
      intro n front same
      have addrs := h.addrs
      rw [split, List.map_append, List.nodup_append] at addrs
      exact addrs.2.2 _ (List.mem_map_of_mem front) _ (by simp) same
    rw [split, List.filter_append, List.filter_eq_self.mpr (by simpa using apart)]
    simp
  have items : (c.erase last.addr).items = init := by
    rw [← shorter]
    simp only [Members.erase, h.deref_of_mem mem]
  refine ⟨consistent.withStats rfl, items, lim, ?_⟩
  simp only [Members.evictOne, hits, misses, evictions]

/-- The result `c'` of the loop: the longest prefix within the limits, and a count of what
was dropped. -/
structure Evicted (c c' : Members K V) : Prop where
  valid : c'.Valid
  view_eq : c'.view = Recency.trim Entry.bytes c.limits c.view
  limits_eq : c'.limits = c.limits
  hits_eq : c'.stats.hits = c.stats.hits
  misses_eq : c'.stats.misses = c.stats.misses
  evictions_eq : c'.stats.evictions = c.stats.evictions + (c.view.length - c'.view.length)

theorem Evicted.of_fits {c : Members K V} (h : c.Consistent)
    (fits : Recency.Fits Entry.bytes c.limits c.view) : Evicted c c :=
  ⟨⟨h, fits⟩, (Recency.trim_of_fits Entry.bytes fits).symm, rfl, rfl, rfl, by simp⟩

/-- What the rounds after the first one do to a list that does not fit. -/
theorem Evicted.of_evictOne {c c' : Members K V} (h : c.Consistent) {init : List (Node K V)}
    {last : Node K V} (split : c.items = init ++ [last])
    (heavy : ¬ Recency.Fits Entry.bytes c.limits c.view) (rest : Evicted (c.evictOne last) c') :
    Evicted c c' := by
  obtain ⟨-, items, lim, stats⟩ := h.evictOne split
  have whole : c.view = init.map Node.entry ++ [last.entry] := by simp [view, split]
  have front : (c.evictOne last).view = init.map Node.entry := by rw [view, items]
  have kept := rest.view_eq
  have dropped := (Recency.trim_isPrefix Entry.bytes c.limits (c.evictOne last).view).length_le
  rw [lim] at kept
  rw [← kept, front, List.length_map] at dropped
  refine ⟨rest.valid, ?_, rest.limits_eq.trans lim, ?_, ?_, ?_⟩
  · rw [kept, front, whole]
    rw [whole] at heavy
    exact (Recency.trim_concat Entry.bytes heavy).symm
  · rw [rest.hits_eq, stats]
  · rw [rest.misses_eq, stats]
  · rw [rest.evictions_eq, stats, whole, front, List.length_append, List.length_map,
      List.length_singleton]
    dsimp only
    omega

theorem Consistent.evict {n : Nat} {c : Members K V} (h : c.Consistent) (hn : c.items.length ≤ n) :
    Evicted c (c.evict n) := by
  induction n generalizing c with
  | zero =>
    have empty : c.items = [] := List.length_eq_zero_iff.mp (Nat.le_zero.mp hn)
    exact .of_fits h ⟨by simp [view, empty], by simp [view, empty]⟩
  | succ n ih =>
    rw [Members.evict]
    split
    case isTrue heavy =>
      rw [h.over_iff] at heavy
      obtain empty | ⟨init, last, split⟩ := List.eq_nil_or_concat c.items
      · exact absurd ⟨by simp [view, empty], by simp [view, empty]⟩ heavy
      rw [List.concat_eq_append] at split
      obtain ⟨consistent, items, -, -⟩ := h.evictOne split
      have shorter : (c.evictOne last).items.length ≤ n := by
        rw [split, List.length_append, List.length_singleton] at hn
        rw [items]
        omega
      rw [show c.items.getLast? = some last by rw [split]; simp]
      exact .of_evictOne h split heavy (ih consistent shorter)
    case isFalse fits =>
      rw [h.over_iff, not_not] at fits
      exact .of_fits h fits

/-- Linking an entry replaces the one with its key, whether or not there was one. -/
theorem Consistent.link_eq {c : Members K V} (h : c.Consistent) (e : Entry K V) :
    (c.link e).items = ⟨c.nextAddr, e⟩ :: c.items.filter (fun x => x.entry.key ≠ e.key) ∧
      (c.link e).index = Function.update c.index e.key (some c.nextAddr) ∧
      (c.link e).nextAddr = c.nextAddr + 1 ∧ (c.link e).limits = c.limits ∧
      (c.link e).stats = { c.stats with
        bytes := Recency.total Entry.bytes (Recency.without Entry.key e.key c.view) } := by
  have found := h.index_eq e.key
  cases hf : c.items.find? fun n => n.entry.key = e.key with
  | none =>
    rw [hf, Option.map_none] at found
    have absent : Recency.lookup Entry.key e.key c.view = none := by rw [lookup_view, hf]; rfl
    have same : (c.items.filter fun x => x.entry.key ≠ e.key) = c.items := by
      rw [List.filter_eq_self]
      simpa using hf
    have rest := Recency.without_of_lookup_none absent
    simp only [link, found]
    rw [same, rest, ← h.bytes_eq]
    exact ⟨rfl, trivial, trivial, rfl, rfl⟩
  | some n =>
    rw [hf, Option.map_some] at found
    have hn : n ∈ c.items := List.mem_of_find?_eq_some hf
    have hk : n.entry.key = e.key := by simpa using List.find?_some hf
    have other : c.nextAddr ≠ n.addr := Nat.ne_of_gt (h.fresh n hn)
    have deref := h.deref_of_mem hn
    simp only [link, found, deref]
    refine ⟨?_, trivial, trivial, rfl, ?_⟩
    · rw [List.filter_cons_of_pos (by simpa using other), filter_addr h hn, hk]
    · rw [← hk, ← h.total_without hn]
      rfl

theorem Consistent.link {c : Members K V} (h : c.Consistent) {e : Entry K V}
    (cost : e.bytes = entryBytes e.key e.value) {stats : Stats}
    (hs : stats.bytes = (c.link e).stats.bytes + e.bytes) :
    ({ c.link e with stats := stats } : Members K V).Consistent ∧
      ({ c.link e with stats := stats } : Members K V).view =
        e :: Recency.without Entry.key e.key c.view := by
  obtain ⟨items, index, next, _, bytes⟩ := h.link_eq e
  have viewed : ({ c.link e with stats := stats } : Members K V).view =
      e :: Recency.without Entry.key e.key c.view := by
    rw [view, items, List.map_cons, map_filter_key]
  have sub : (c.items.filter fun x => x.entry.key ≠ e.key).Sublist c.items := List.filter_sublist
  refine ⟨⟨?_, ?_, ?_, ?_, ?_, ?_⟩, viewed⟩
  · rw [viewed]
    exact h.unique.cons_without e
  · simp only [items, List.map_cons, List.nodup_cons]
    refine ⟨?_, h.addrs.sublist (sub.map Node.addr)⟩
    intro hmem
    obtain ⟨x, hx, ha⟩ := List.mem_map.mp hmem
    exact absurd ha (Nat.ne_of_lt (h.fresh x (sub.subset hx)))
  · intro x hx
    simp only [items, next] at hx ⊢
    rcases List.mem_cons.mp hx with rfl | hx
    · exact Nat.lt_succ_self _
    · exact (h.fresh x (sub.subset hx)).trans (Nat.lt_succ_self _)
  · intro k
    simp only [items, index]
    by_cases hk : k = e.key
    · subst hk
      simp
    · rw [Function.update_of_ne hk, h.index_eq, List.find?_cons_of_neg (by simpa using Ne.symm hk),
        find_filter_of_ne hk]
  · rw [viewed, Recency.total_cons]
    simp only [hs, bytes]
    omega
  · rw [viewed]
    intro x hx
    rcases List.mem_cons.mp hx with rfl | hx
    · exact cost
    · exact h.cost_eq x (Recency.mem_without.mp hx).1

/-! ## What the methods do to the view -/

/-- `put` on the entries of a shard. -/
def putView (lim : Recency.Limits) (key : K) (value : V) (expires now : UInt64)
    (es : List (Entry K V)) : List (Entry K V) :=
  if expires ≠ 0 ∧ expires ≤ now then Recency.without Entry.key key es
  else Recency.insert Entry.key Entry.bytes lim ⟨key, value, expires, entryBytes key value⟩ es

omit [Sizes K V] in
/-- `get` on the entries of a shard. -/
def getView (key : K) (now : UInt64) (es : List (Entry K V)) : Option V × List (Entry K V) :=
  match Recency.lookup Entry.key key es with
  | none => (none, es)
  | some e =>
    if e.Expired now then (none, Recency.without Entry.key key es)
    else (some e.value, Recency.touch Entry.key key es)

omit [Sizes K V] in
/-- `exists` on the entries of a shard. -/
def existsView (key : K) (now : UInt64) (es : List (Entry K V)) : Bool × List (Entry K V) :=
  match Recency.lookup Entry.key key es with
  | none => (false, es)
  | some e => if e.Expired now then (false, Recency.without Entry.key key es) else (true, es)

theorem mem_putView {lim : Recency.Limits} {key : K} {value : V} {expires now : UInt64}
    {es : List (Entry K V)} {e : Entry K V} (h : e ∈ putView lim key value expires now es) :
    e = ⟨key, value, expires, entryBytes key value⟩ ∨ e ∈ es ∧ e.key ≠ key := by
  unfold putView at h
  split at h
  · exact Or.inr (Recency.mem_without.mp h)
  · exact Recency.mem_insert h

omit [Sizes K V] in
theorem mem_getView {key : K} {now : UInt64} {es : List (Entry K V)} {e : Entry K V}
    (h : e ∈ (getView key now es).2) : e ∈ es := by
  unfold getView at h
  split at h
  · exact h
  · split at h
    · exact (Recency.mem_without.mp h).1
    · exact Recency.mem_touch h

omit [Sizes K V] in
theorem mem_existsView {key : K} {now : UInt64} {es : List (Entry K V)} {e : Entry K V}
    (h : e ∈ (existsView key now es).2) : e ∈ es := by
  unfold existsView at h
  split at h
  · exact h
  · split at h
    · exact (Recency.mem_without.mp h).1
    · exact h

theorem create_valid {capacity maxBytes : Nat} {c : Members K V}
    (h : create capacity maxBytes = .ok c) :
    c.Valid ∧ c.view = [] ∧ c.limits = ⟨capacity, maxBytes⟩ := by
  unfold create at h
  split at h
  · cases h
  · cases h
    exact ⟨⟨⟨List.nodup_nil, List.nodup_nil, by simp, by simp, rfl, by simp [view]⟩,
      Nat.zero_le _, Nat.zero_le _⟩, rfl, rfl⟩

theorem Valid.erase {c : Members K V} (h : c.Valid) {n : Node K V} (hn : n ∈ c.items) :
    (c.erase n.addr).Valid := by
  obtain ⟨consistent, viewed, lim, _⟩ := h.toConsistent.erase hn
  refine ⟨consistent, ?_⟩
  rw [viewed, lim]
  exact h.fits.sublist Entry.bytes (Recency.without_sublist _ _)

/-- An iterator in the index points to an element with that key. -/
theorem Consistent.mem_of_index {c : Members K V} (h : c.Consistent) {key : K} {it : Nat}
    (hi : c.index key = some it) : ∃ n ∈ c.items, n.addr = it ∧ n.entry.key = key ∧
      Recency.lookup Entry.key key c.view = some n.entry := by
  rw [h.index_eq] at hi
  obtain ⟨n, hf, rfl⟩ := Option.map_eq_some_iff.mp hi
  exact ⟨n, List.mem_of_find?_eq_some hf, rfl, by simpa using List.find?_some hf,
    by rw [lookup_view, hf]; rfl⟩

theorem Consistent.lookup_of_index_none {c : Members K V} (h : c.Consistent) {key : K}
    (hi : c.index key = none) : Recency.lookup Entry.key key c.view = none := by
  rw [h.index_eq, Option.map_eq_none_iff] at hi
  rw [lookup_view, hi]
  rfl

/-- The state before the loop of `put`. -/
def linked (c : Members K V) (e : Entry K V) : Members K V :=
  { c.link e with stats := { (c.link e).stats with bytes := (c.link e).stats.bytes + e.bytes } }

theorem Consistent.linked {c : Members K V} (h : c.Consistent) {e : Entry K V}
    (cost : e.bytes = entryBytes e.key e.value) :
    (c.linked e).Consistent ∧ (c.linked e).view = e :: Recency.without Entry.key e.key c.view ∧
      (c.linked e).limits = c.limits ∧
      (c.linked e).stats = { c.stats with bytes := (c.linked e).stats.bytes } := by
  have bytes : (c.linked e).stats.bytes = (c.link e).stats.bytes + e.bytes := rfl
  obtain ⟨consistent, viewed⟩ := h.link cost bytes
  obtain ⟨-, -, -, lim, stats⟩ := h.link_eq e
  refine ⟨consistent, viewed, lim, ?_⟩
  simp only [Members.linked, stats]

/-- What is written before it expires goes to the front, and the loop does the rest. -/
theorem put_alive {c : Members K V} (h : c.Valid) {key : K} {value : V} {expires now : UInt64}
    (hs : c.CanStore key value) (alive : ¬ (expires ≠ 0 ∧ expires ≤ now)) :
    ∃ c', c.put key value expires now = .ok c' ∧
      Evicted (c.linked ⟨key, value, expires, entryBytes key value⟩) c' := by
  have consistent :=
    (h.toConsistent.linked (e := ⟨key, value, expires, entryBytes key value⟩) rfl).1
  refine ⟨_, ?_, consistent.evict le_rfl⟩
  unfold put
  dsimp only
  rw [if_neg (not_lt.mpr hs), if_neg alive]
  rfl

theorem put_spec {c : Members K V} (h : c.Valid) {key : K} {value : V} (expires now : UInt64)
    (hs : c.CanStore key value) : ∃ c', c.put key value expires now = .ok c' ∧ c'.Valid ∧
      c'.view = putView c.limits key value expires now c.view ∧ c'.limits = c.limits := by
  unfold putView
  split
  case isTrue stale =>
    -- Written after its expiry: nothing stays under the key.
    unfold put
    dsimp only
    rw [if_neg (not_lt.mpr hs), if_pos stale]
    cases hi : c.index key with
    | none =>
      have absent := h.lookup_of_index_none hi
      exact ⟨c, rfl, h, (Recency.without_of_lookup_none absent).symm, rfl⟩
    | some old =>
      obtain ⟨n, hn, rfl, rfl, _⟩ := h.mem_of_index hi
      obtain ⟨_, viewed, lim, _⟩ := h.toConsistent.erase hn
      exact ⟨_, rfl, h.erase hn, viewed, lim⟩
  case isFalse alive =>
    obtain ⟨c', stored, evicted⟩ := put_alive h hs alive
    obtain ⟨-, viewed, lim, -⟩ :=
      h.toConsistent.linked (e := ⟨key, value, expires, entryBytes key value⟩) rfl
    refine ⟨c', stored, evicted.valid, ?_, evicted.limits_eq.trans lim⟩
    rw [evicted.view_eq, viewed, lim]
    rfl

theorem put_error {c : Members K V} {key : K} {value : V} (expires now : UInt64)
    (hs : ¬ c.CanStore key value) :
    c.put key value expires now = .error (lengthError "Entry exceeds shard byte budget") :=
  if_pos (not_le.mp hs)

theorem put_valid {c c' : Members K V} (h : c.Valid) {key : K} {value : V} {expires now : UInt64}
    (hput : c.put key value expires now = .ok c') : c'.Valid := by
  by_cases hs : c.CanStore key value
  · obtain ⟨_, hok, valid, _⟩ := put_spec h expires now hs
    rw [hok] at hput
    cases hput
    exact valid
  · rw [put_error expires now hs] at hput
    cases hput

/-- Moving an element to the front of the list keeps the index right. -/
theorem Valid.splice {c : Members K V} (h : c.Valid) {n : Node K V} (hn : n ∈ c.items) :
    ({ c with items := n :: c.items.filter fun x => x.addr ≠ n.addr } : Members K V).Valid ∧
      ({ c with items := n :: c.items.filter fun x => x.addr ≠ n.addr } : Members K V).view =
        Recency.touch Entry.key n.entry.key c.view := by
  have mem : n.entry ∈ c.view := List.mem_map_of_mem hn
  have found := Recency.lookup_of_mem h.unique mem
  have touched : Recency.touch Entry.key n.entry.key c.view =
      n.entry :: Recency.without Entry.key n.entry.key c.view := by
    rw [Recency.touch, found]
  have viewed : ({ c with items := n :: c.items.filter fun x => x.addr ≠ n.addr } :
      Members K V).view = Recency.touch Entry.key n.entry.key c.view := by
    rw [touched, ← map_filter_key, ← filter_addr h.toConsistent hn]
    rfl
  have perm : (Recency.touch Entry.key n.entry.key c.view).Perm c.view := by
    rw [touched]
    exact (Recency.perm_cons_without h.unique found).symm
  have total : Recency.total Entry.bytes (Recency.touch Entry.key n.entry.key c.view) =
      Recency.total Entry.bytes c.view := (perm.map Entry.bytes).sum_eq
  have sub : (c.items.filter fun x => x.addr ≠ n.addr).Sublist c.items := List.filter_sublist
  refine ⟨⟨⟨?_, ?_, ?_, ?_, ?_, ?_⟩, ?_⟩, viewed⟩
  · rw [viewed]
    exact h.unique.touch _
  · refine List.nodup_cons.mpr ⟨?_, h.addrs.sublist (sub.map Node.addr)⟩
    intro hmem
    obtain ⟨x, hx, ha⟩ := List.mem_map.mp hmem
    simp [ha] at hx
  · intro x hx
    rcases List.mem_cons.mp hx with rfl | hx
    · exact h.fresh x hn
    · exact h.fresh x (sub.subset hx)
  · intro k
    rw [h.index_eq, filter_addr h.toConsistent hn]
    by_cases hk : n.entry.key = k
    · subst hk
      have := Recency.lookup_of_mem (unique_nodes h.toConsistent) hn
      rw [Recency.lookup] at this
      simp [this]
    · rw [List.find?_cons_of_neg (by simpa using hk), find_filter_of_ne (Ne.symm hk)]
  · rw [viewed, total]
    exact h.bytes_eq
  · rw [viewed]
    exact fun e he => h.cost_eq e (perm.subset he)
  · rw [viewed]
    exact ⟨perm.length_eq.trans_le h.fits.1, total.trans_le h.fits.2⟩

theorem get_spec {c : Members K V} (h : c.Valid) (key : K) (now : UInt64) :
    (c.get key now).1 = (getView key now c.view).1 ∧ (c.get key now).2.Valid ∧
      (c.get key now).2.view = (getView key now c.view).2 ∧
      (c.get key now).2.limits = c.limits := by
  unfold get getView
  rw [h.find, lookup_view]
  cases hf : c.items.find? fun n => n.entry.key = key with
  | none => exact ⟨rfl, h.withStats rfl, rfl, rfl⟩
  | some n =>
    have hn : n ∈ c.items := List.mem_of_find?_eq_some hf
    have hk : n.entry.key = key := by simpa using List.find?_some hf
    subst hk
    simp only [Option.map_some]
    split
    · obtain ⟨_, viewed, lim, _⟩ := h.toConsistent.erase hn
      exact ⟨rfl, (h.erase hn).withStats rfl, viewed, lim⟩
    · obtain ⟨valid, viewed⟩ := h.splice hn
      exact ⟨rfl, valid.withStats rfl, viewed, rfl⟩

theorem exists_spec {c : Members K V} (h : c.Valid) (key : K) (now : UInt64) :
    (c.exists_ key now).1 = (existsView key now c.view).1 ∧ (c.exists_ key now).2.Valid ∧
      (c.exists_ key now).2.view = (existsView key now c.view).2 ∧
      (c.exists_ key now).2.limits = c.limits := by
  unfold exists_ existsView
  rw [h.find, lookup_view]
  cases hf : c.items.find? fun n => n.entry.key = key with
  | none => exact ⟨rfl, h, rfl, rfl⟩
  | some n =>
    have hn : n ∈ c.items := List.mem_of_find?_eq_some hf
    have hk : n.entry.key = key := by simpa using List.find?_some hf
    subst hk
    simp only [Option.map_some]
    split
    · obtain ⟨_, viewed, lim, _⟩ := h.toConsistent.erase hn
      exact ⟨rfl, h.erase hn, viewed, lim⟩
    · exact ⟨rfl, h, rfl, rfl⟩

theorem remove_spec {c : Members K V} (h : c.Valid) (key : K) :
    (c.remove key).2.Valid ∧ (c.remove key).2.view = Recency.without Entry.key key c.view ∧
      (c.remove key).2.limits = c.limits := by
  unfold remove
  cases hi : c.index key with
  | none =>
    exact ⟨h, (Recency.without_of_lookup_none (h.lookup_of_index_none hi)).symm, rfl⟩
  | some it =>
    obtain ⟨n, hn, rfl, rfl, _⟩ := h.mem_of_index hi
    obtain ⟨_, viewed, lim, _⟩ := h.toConsistent.erase hn
    exact ⟨h.erase hn, viewed, lim⟩

end Members
end LRUCache

/-- The class: data members that agree and are within the limits. -/
structure LRUCache (K V : Type) [DecidableEq K] [Sizes K V] extends LRUCache.Members K V where
  valid : toMembers.Valid

namespace LRUCache

variable [DecidableEq K] [Sizes K V]

def create (capacity maxBytes : Nat) : Except Exception (LRUCache K V) :=
  match h : Members.create capacity maxBytes with
  | .error e => .error e
  | .ok c => .ok ⟨c, (Members.create_valid h).1⟩

def put (c : LRUCache K V) (key : K) (value : V) (expires now : UInt64) :
    Except Exception (LRUCache K V) :=
  match h : c.toMembers.put key value expires now with
  | .error e => .error e
  | .ok c' => .ok ⟨c', Members.put_valid c.valid h⟩

def get (c : LRUCache K V) (key : K) (now : UInt64) : Option V × LRUCache K V :=
  ((c.toMembers.get key now).1, ⟨_, (Members.get_spec c.valid key now).2.1⟩)

def exists_ (c : LRUCache K V) (key : K) (now : UInt64) : Bool × LRUCache K V :=
  ((c.toMembers.exists_ key now).1, ⟨_, (Members.exists_spec c.valid key now).2.1⟩)

def remove (c : LRUCache K V) (key : K) : Bool × LRUCache K V :=
  ((c.toMembers.remove key).1, ⟨_, (Members.remove_spec c.valid key).1⟩)

theorem create_view {capacity maxBytes : Nat} {c : LRUCache K V}
    (h : create capacity maxBytes = .ok c) : c.view = [] ∧ c.limits = ⟨capacity, maxBytes⟩ := by
  unfold create at h
  split at h
  · cases h
  · rename_i hc
    cases h
    exact (Members.create_valid hc).2

theorem create_pos {capacity maxBytes : Nat} {c : LRUCache K V}
    (h : create capacity maxBytes = .ok c) : 0 < capacity ∧ 0 < maxBytes := by
  unfold create at h
  split at h
  case h_1 => cases h
  case h_2 made =>
    unfold Members.create at made
    split at made
    · cases made
    · omega

theorem put_ok (c : LRUCache K V) {key : K} {value : V} (expires now : UInt64)
    (hs : c.CanStore key value) : ∃ c', c.put key value expires now = .ok c' ∧
      c'.view = Members.putView c.limits key value expires now c.view ∧ c'.limits = c.limits := by
  obtain ⟨m, hok, _, viewed, lim⟩ := Members.put_spec c.valid expires now hs
  unfold put
  split
  · rename_i he
    rw [hok] at he
    cases he
  · rename_i m' hm
    obtain rfl : m = m' := Except.ok.inj (hok.symm.trans hm)
    exact ⟨_, rfl, viewed, lim⟩

theorem put_error (c : LRUCache K V) {key : K} {value : V} (expires now : UInt64)
    (hs : ¬ c.CanStore key value) :
    c.put key value expires now = .error (lengthError "Entry exceeds shard byte budget") := by
  have refused := Members.put_error expires now hs
  unfold put
  split
  · rename_i he
    rw [refused] at he
    cases he
    rfl
  · rename_i hm
    rw [refused] at hm
    cases hm

theorem put_view {c c' : LRUCache K V} {key : K} {value : V} {expires now : UInt64}
    (h : c.put key value expires now = .ok c') :
    c'.view = Members.putView c.limits key value expires now c.view ∧ c'.limits = c.limits ∧
      c.CanStore key value := by
  by_cases hs : c.CanStore key value
  · obtain ⟨_, hok, viewed, lim⟩ := c.put_ok expires now hs
    rw [hok] at h
    cases h
    exact ⟨viewed, lim, hs⟩
  · rw [c.put_error expires now hs] at h
    cases h

theorem get_view (c : LRUCache K V) (key : K) (now : UInt64) :
    (c.get key now).1 = (Members.getView key now c.view).1 ∧
      (c.get key now).2.view = (Members.getView key now c.view).2 ∧
      (c.get key now).2.limits = c.limits :=
  have h := Members.get_spec c.valid key now
  ⟨h.1, h.2.2.1, h.2.2.2⟩

theorem exists_view (c : LRUCache K V) (key : K) (now : UInt64) :
    (c.exists_ key now).2.view = (Members.existsView key now c.view).2 ∧
      (c.exists_ key now).2.limits = c.limits :=
  (Members.exists_spec c.valid key now).2.2

theorem remove_view (c : LRUCache K V) (key : K) :
    (c.remove key).2.view = Recency.without Entry.key key c.view ∧
      (c.remove key).2.limits = c.limits := (Members.remove_spec c.valid key).2

end LRUCache
end KVRPC.Storage
