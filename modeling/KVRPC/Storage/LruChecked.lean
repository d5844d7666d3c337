import KVRPC.Storage.LruRuns

/-!
# `LRUCache` does nothing undefined

The methods once more, with a check before everything that is only meaningful under a
condition: an iterator is followed, a size is added to or taken from the byte count, the last
element of the list is dropped. From a reachable state no check fails, and the checked methods
do what the others do.
-/
namespace KVRPC.Storage.LRUCache

open Library

variable {K V : Type}

inductive Fault where
  | dangling
  | underflow
  | overflow
  | emptyList
  /-- The loop of `put` drops the entry it was called with. -/
  | evictsNew
  | diverges
  deriving DecidableEq, Repr

namespace Members

variable [DecidableEq K] [Sizes K V] {c c' : Members K V}

/-- The element is there and its size is within the byte count. -/
def checkElement (c : Members K V) (it : Nat) : Except Fault (Node K V) :=
  match c.deref it with
  | none => .error .dangling
  | some n => if n.entry.bytes ≤ c.stats.bytes then .ok n else .error .underflow

def checkErase (c : Members K V) (it : Nat) : Except Fault (Members K V) := do
  let _ ← c.checkElement it
  return c.erase it

/-- The loop of `put`; `new` is the iterator of the new entry. -/
def checkEvict (new : Nat) : Nat → Members K V → Except Fault (Members K V)
  | 0, c =>
    if c.items.length > c.capacity ∨ c.stats.bytes > c.maxBytes then .error .diverges else .ok c
  | rounds + 1, c =>
    if c.items.length > c.capacity ∨ c.stats.bytes > c.maxBytes then
      match c.items.getLast? with
      | none => .error .emptyList
      | some last => do
        if last.addr = new then throw .evictsNew
        let _ ← c.checkElement last.addr
        checkEvict new rounds (c.evictOne last)
    else .ok c

def checkLink (c : Members K V) (e : Entry K V) : Except Fault (Members K V) := do
  match c.index e.key with
  | some old => let _ ← c.checkElement old
  | none => pure ()
  if 2 ^ 64 ≤ (c.link e).stats.bytes + e.bytes then throw .overflow
  return c.linked e

def checkPut (c : Members K V) (key : K) (value : V) (expires now : UInt64)
    (short : Option Shortage) : Except Fault (Members K V) :=
  if 2 ^ 64 ≤ entryBytes key value then .error .overflow
  else if entryBytes key value > c.maxBytes then .ok c
  else if expires ≠ 0 ∧ expires ≤ now then
    match c.index key with
    | some old => c.checkErase old
    | none => .ok c
  else
    match short, c.index key with
    | some .node, _ => .ok c
    | some .place, none => .ok { c with nextAddr := c.nextAddr + 1 }
    | _, _ => do
      let linked ← c.checkLink ⟨key, value, expires, entryBytes key value⟩
      checkEvict c.nextAddr linked.items.length linked

/-- An element found in the index. -/
def checkFind (c : Members K V) (key : K) : Except Fault (Option (Node K V)) :=
  match c.index key with
  | none => .ok none
  | some it => (c.checkElement it).map some

def check (c : Members K V) : Op K V → Except Fault (Members K V)
  | .put key value expires now short => c.checkPut key value expires now short
  | .get key now _ => do
    match ← c.checkFind key with
    | none => return c.miss.2
    | some n =>
      if n.entry.Expired now then return (← c.checkErase n.addr).miss.2
      else return { c with
        stats := { c.stats with hits := c.stats.hits + 1 }
        items := n :: c.items.filter fun x => x.addr ≠ n.addr }
  | .exists_ key now => do
    match ← c.checkFind key with
    | none => return c
    | some n => if n.entry.Expired now then c.checkErase n.addr else return c
  | .remove key =>
    match c.index key with
    | none => .ok c
    | some it => c.checkErase it
  | .snapshot .. => .ok c

/-- The sizes of the entries, old and new, add up to less than `2 ^ 64`. -/
def Small (c : Members K V) : Op K V → Prop
  | .put key value _ _ _ => Recency.total Entry.bytes c.view + entryBytes key value < 2 ^ 64
  | _ => True

theorem Consistent.checkElement (h : c.Consistent) {n : Node K V} (mem : n ∈ c.items) :
    c.checkElement n.addr = .ok n := by
  have within : n.entry.bytes ≤ c.stats.bytes := by
    rw [h.bytes_eq]
    exact List.single_le_sum (by simp) _ (List.mem_map_of_mem (List.mem_map_of_mem mem))
  rw [Members.checkElement, h.deref_of_mem mem]
  exact if_pos within

theorem Consistent.checkErase (h : c.Consistent) {n : Node K V} (mem : n ∈ c.items) :
    c.checkErase n.addr = .ok (c.erase n.addr) := by
  rw [Members.checkErase, h.checkElement mem]
  rfl

theorem Consistent.checkFind (h : c.Consistent) (key : K) :
    c.checkFind key = .ok (c.items.find? fun n => n.entry.key = key) := by
  rw [Members.checkFind, h.index_eq]
  cases found : c.items.find? fun n => n.entry.key = key with
  | none => rfl
  | some n =>
    simp only [Option.map_some, h.checkElement (List.mem_of_find?_eq_some found)]
    rfl

/-- A list that does not fit has more than the new entry in it, which fits alone. -/
theorem Consistent.exists_last (h : c.Consistent) {first : Node K V} {rest : List (Node K V)}
    (items : c.items = first :: rest) (positive : 0 < c.capacity)
    (light : first.entry.bytes ≤ c.maxBytes)
    (heavy : c.items.length > c.capacity ∨ c.stats.bytes > c.maxBytes) :
    ∃ front last, c.items = (first :: front) ++ [last] ∧ last.addr ≠ first.addr := by
  obtain rfl | ⟨front, last, rfl⟩ := List.eq_nil_or_concat rest
  · rw [h.bytes_eq, view, items] at heavy
    simp at heavy
    omega
  · rw [List.concat_eq_append] at items
    refine ⟨front, last, items, fun same => ?_⟩
    have addrs := h.addrs
    rw [items, List.map_cons, List.nodup_cons] at addrs
    exact addrs.1 (by simp [same])

/-- The loop passes its checks as long as the new entry stands first. -/
theorem Consistent.checkEvict {first : Node K V} {rest : List (Node K V)} {rounds : Nat}
    (h : c.Consistent) (items : c.items = first :: rest) (positive : 0 < c.capacity)
    (light : first.entry.bytes ≤ c.maxBytes) (enough : c.items.length ≤ rounds) :
    checkEvict first.addr rounds c = .ok (c.evict rounds) := by
  induction rounds generalizing c rest with
  | zero => simp [items] at enough
  | succ rounds ih =>
    rw [Members.checkEvict, Members.evict]
    split
    case isTrue heavy =>
      obtain ⟨front, last, split, other⟩ := h.exists_last items positive light heavy
      obtain ⟨consistent, shorter, lim, -⟩ := h.evictOne split
      have capacity : (c.evictOne last).capacity = c.capacity := congrArg Recency.Limits.count lim
      have maxBytes : (c.evictOne last).maxBytes = c.maxBytes := congrArg Recency.Limits.budget lim
      have found : c.items.getLast? = some last := by rw [split, List.getLast?_concat]
      have element := h.checkElement (n := last) (by simp [split])
      have next := ih consistent shorter (capacity ▸ positive) (maxBytes ▸ light) (by
        rw [split, List.length_append, List.length_singleton] at enough
        rw [shorter]
        omega)
      simp only [found, other, if_false, element]
      exact next
    case isFalse => rfl

theorem Consistent.checkLink (h : c.Consistent) {e : Entry K V}
    (cost : e.bytes = entryBytes e.key e.value)
    (small : Recency.total Entry.bytes c.view + e.bytes < 2 ^ 64) :
    c.checkLink e = .ok (c.linked e) := by
  have bound : ¬ 2 ^ 64 ≤ (c.link e).stats.bytes + e.bytes := by
    have fewer : (Recency.without Entry.key e.key c.view).Sublist c.view :=
      Recency.without_sublist e.key c.view
    have less := Recency.total_sublist Entry.bytes fewer
    rw [(h.link_eq e).2.2.2.2]
    dsimp only
    omega
  unfold Members.checkLink
  cases found : c.index e.key with
  | none =>
    simp only [bound, if_false]
    rfl
  | some old =>
    obtain ⟨n, mem, rfl, -⟩ := h.mem_of_index found
    simp only [bound, if_false, h.checkElement mem]
    rfl

theorem Valid.checkPut (h : c.Valid) (positive : 0 < c.capacity) {key : K} {value : V}
    (expires now : UInt64) (short : Option Shortage)
    (small : Recency.total Entry.bytes c.view + entryBytes key value < 2 ^ 64) :
    c.checkPut key value expires now short = .ok (c.putWith key value expires now short).2 := by
  have bound : ¬ 2 ^ 64 ≤ entryBytes key value := by omega
  unfold Members.checkPut putWith Members.put
  dsimp only
  rw [if_neg bound]
  by_cases large : entryBytes key value > c.maxBytes
  · simp only [if_pos large]
  rw [if_neg large, if_neg large]
  by_cases stale : expires ≠ 0 ∧ expires ≤ now
  · simp only [if_pos stale]
    cases found : c.index key with
    | none => rfl
    | some old =>
      obtain ⟨n, mem, rfl, -⟩ := h.mem_of_index found
      exact h.checkErase mem
  simp only [if_neg stale]
  -- the path on which nothing is short of memory
  have stored : (do
      let linked ← c.checkLink ⟨key, value, expires, entryBytes key value⟩
      checkEvict c.nextAddr linked.items.length linked) =
      .ok ((c.linked ⟨key, value, expires, entryBytes key value⟩).evict
        (c.linked ⟨key, value, expires, entryBytes key value⟩).items.length) := by
    have linked := h.checkLink (e := ⟨key, value, expires, entryBytes key value⟩) rfl small
    obtain ⟨consistent, -, lim, -⟩ :=
      h.toConsistent.linked (e := ⟨key, value, expires, entryBytes key value⟩) rfl
    have items := (h.link_eq ⟨key, value, expires, entryBytes key value⟩).1
    rw [linked]
    exact consistent.checkEvict items
      (lt_of_lt_of_eq positive (congrArg Recency.Limits.count lim).symm)
      (le_of_le_of_eq (not_lt.mp large) (congrArg Recency.Limits.budget lim).symm) le_rfl
  cases short with
  | none => exact stored
  | some short =>
    cases short with
    | node => rfl
    | place =>
      cases c.index key with
      | none => rfl
      | some old => exact stored

/-- A call in a valid state passes all checks. -/
theorem Valid.check (h : c.Valid) (positive : 0 < c.capacity) {op : Op K V} (small : c.Small op) :
    c.check op = .ok (c.apply op).2 := by
  cases op with
  | put key value expires now short => exact h.checkPut positive expires now short small
  | get key now short =>
    simp only [Members.check, h.checkFind, Members.apply, getWith_snd, Members.get, h.find]
    cases found : c.items.find? fun n => n.entry.key = key with
    | none => rfl
    | some n =>
      have erased := h.checkErase (List.mem_of_find?_eq_some found)
      by_cases expired : n.entry.Expired now
      · simp only [bind, Except.bind, if_pos expired, erased]
        rfl
      · simp only [bind, Except.bind, if_neg expired]
        rfl
  | exists_ key now =>
    simp only [Members.check, h.checkFind, Members.apply, Members.exists_, h.find]
    cases found : c.items.find? fun n => n.entry.key = key with
    | none => rfl
    | some n =>
      have erased := h.checkErase (List.mem_of_find?_eq_some found)
      by_cases expired : n.entry.Expired now
      · simp only [bind, Except.bind, if_pos expired]
        exact erased
      · simp only [bind, Except.bind, if_neg expired]
        rfl
  | remove key =>
    simp only [Members.check, Members.apply, Members.remove]
    cases found : c.index key with
    | none => rfl
    | some it =>
      obtain ⟨n, mem, rfl, -⟩ := h.mem_of_index found
      exact h.checkErase mem
  | snapshot clock short => rfl

/-- **Representation invariant.** After any calls, list, index and counters agree and are within
the limits. The next call follows no dangling iterator, its arithmetic does not wrap around, and
the loop of `put` ends without touching an empty list or the new entry. A call that throws leaves
the cache as it was, exactly if it is not one of `get`: that one has counted the hit and moved the
entry when the copy of the value fails. -/
theorem representation_invariant {capacity maxBytes : Nat} {trace : List (Members K V × Op K V)}
    (positive : 0 < capacity) (run : Runs capacity maxBytes trace c) :
    c.Valid ∧ c.limits = ⟨capacity, maxBytes⟩ ∧
    (∀ op, c.Small op → c.check op = .ok (c.apply op).2) ∧
    (∀ op e, (c.apply op).1 = some e →
      ({ (c.apply op).2 with nextAddr := c.nextAddr } = c ↔ ¬ op.Gets)) ∧
    ∀ key now short e, (c.apply (.get key now short)).1 = some e →
      ∃ value, c.get key now = (some value, (c.apply (.get key now short)).2) := by
  obtain ⟨valid, lim⟩ := runs_valid run
  have capacity_eq : c.capacity = capacity := congrArg Recency.Limits.count lim
  refine ⟨valid, lim, fun op small => valid.check (capacity_eq ▸ positive) small,
    fun op e => unchanged_iff_of_thrown, fun key now short e thrown => ?_⟩
  obtain ⟨value, found⟩ := getWith_thrown thrown
  exact ⟨value, Prod.ext found (getWith_snd c key now short).symm⟩

/-- An entry is replaced by a larger one after a call that was refused. -/
theorem representation_invariant_replaced :
    ∃ trace c, Runs (K := Bytes) (V := Bytes) 2 200 trace c ∧ c.Valid ∧
      c.check (.put [1] [10, 11, 12] 0 0 none) = .ok (c.apply (.put [1] [10, 11, 12] 0 0 none)).2 ∧
      (c.apply (.put [1] [10, 11, 12] 0 0 none)).2.stats.bytes = 166 := by
  have run : Runs (K := Bytes) (V := Bytes) 2 200 _ _ :=
    .snoc (.snoc (.snoc .nil nofun (Eq.refl (apply _ (.put [1] [10] 0 0 none)).2))
      (fun _ _ => not_false) (Eq.refl (apply _ (.put [2] [20] 0 0 none)).2))
      (fun _ _ => not_false) (Eq.refl (apply _ (.put [3] (List.replicate 200 0) 0 0 none)).2)
  obtain ⟨valid, -, checked, -⟩ := representation_invariant (by decide) run
  exact ⟨_, _, run, valid, checked _ (by change _ < _; decide +kernel), by decide +kernel⟩

/-- A `get` throws because there is no memory for the copy of a value of 32 octets. It has moved
the entry to the front, so that the next `put` evicts the other one. -/
theorem get_throws_changed :
    ∃ trace c, Runs (K := Bytes) (V := Bytes) 2 1000 trace c ∧
      c.view.map Entry.key = [[2], [1]] ∧ c.stats.hits = 0 ∧
      (c.apply (.get [1] 0 true)).1 = some .badAlloc ∧
      (c.apply (.get [1] 0 true)).2.view.map Entry.key = [[1], [2]] ∧
      (c.apply (.get [1] 0 true)).2.stats.hits = 1 := by
  have run : Runs (K := Bytes) (V := Bytes) 2 1000 _ _ :=
    .snoc (.snoc .nil nofun (Eq.refl (apply _ (.put [1] (List.replicate 32 10) 0 0 none)).2))
      (fun _ _ => not_false) (Eq.refl (apply _ (.put [2] [20] 0 0 none)).2)
  exact ⟨_, _, run, by decide +kernel, by decide +kernel, by decide +kernel, by decide +kernel,
    by decide +kernel⟩

end Members
end KVRPC.Storage.LRUCache
