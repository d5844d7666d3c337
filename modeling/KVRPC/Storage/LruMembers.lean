import KVRPC.Library.Bytes
import KVRPC.Protocol.Message

/-!
# The data members of `LRUCache`

`LRUCache.Members` are the data members of the class of `lru_cache.h` and its methods
are translated one by one: a list of entries behind iterators, an index from keys to
iterators, and counters. A method that reads the wall clock takes the reading as an
argument. `put`, `get` and `snapshot` copy keys or values and throw when memory is short;
`putWith`, `getWith` and `snapshotWith` say what is left behind then.
-/
namespace KVRPC.Storage

open Library

/-- `Cost` of keys and values, and the size of a list entry. -/
class Sizes (K V : Type) where
  keyCost : K → Nat
  valueCost : V → Nat
  entrySize : Nat

/-- Strings cost their length; an entry is two strings and two 64-bit words. -/
instance : Sizes Bytes Bytes where
  keyCost := List.length
  valueCost := List.length
  entrySize := 80

structure Entry (K V : Type) where
  key : K
  value : V
  expires : UInt64 := 0
  bytes : Nat := 0
  deriving DecidableEq, Repr

structure Stats where
  hits : Nat := 0
  misses : Nat := 0
  bytes : Nat := 0
  evictions : Nat := 0
  deriving DecidableEq, Repr

variable {K V : Type}

/-- `Expired`, at the time `now`. -/
def Entry.Expired (now : UInt64) (e : Entry K V) : Prop := e.expires ≠ 0 ∧ e.expires ≤ now

instance (now : UInt64) (e : Entry K V) : Decidable (e.Expired now) :=
  inferInstanceAs (Decidable (_ ∧ _))

/-- What an entry for `key` and `value` counts against the byte budget. -/
def entryBytes [Sizes K V] (key : K) (value : V) : Nat :=
  Sizes.keyCost V key + Sizes.valueCost K value + Sizes.entrySize K V

namespace LRUCache

/-- A list element; `addr` stands for the iterator that points to it. -/
structure Node (K V : Type) where
  addr : Nat
  entry : Entry K V
  deriving DecidableEq, Repr

structure Members (K V : Type) where
  capacity : Nat
  maxBytes : Nat
  items : List (Node K V) := []
  index : K → Option Nat := fun _ => none
  /-- The next unused iterator. -/
  nextAddr : Nat := 0
  stats : Stats := {}

namespace Members

variable [DecidableEq K] [Sizes K V]

def create (capacity maxBytes : Nat) : Except Exception (Members K V) :=
  if capacity = 0 ∨ maxBytes = 0 then .error (invalidArgument "Cache limits must be positive")
  else .ok { capacity := capacity, maxBytes := maxBytes }

def CanStore (c : Members K V) (key : K) (value : V) : Prop := entryBytes key value ≤ c.maxBytes

instance (c : Members K V) (key : K) (value : V) : Decidable (c.CanStore key value) :=
  inferInstanceAs (Decidable (_ ≤ _))

/-- The element an iterator points to. -/
def deref (c : Members K V) (it : Nat) : Option (Node K V) := c.items.find? fun n => n.addr = it

def erase (c : Members K V) (it : Nat) : Members K V :=
  match c.deref it with
  | none => c
  | some n => { c with
      stats := { c.stats with bytes := usub c.stats.bytes n.entry.bytes }
      index := Function.update c.index n.entry.key none
      items := c.items.filter fun x => x.addr ≠ it }

/-- One round of the loop at the end of `put`. -/
def evictOne (c : Members K V) (last : Node K V) : Members K V :=
  let c := c.erase last.addr
  { c with stats := { c.stats with evictions := c.stats.evictions + 1 } }

/-- The loop; `n` bounds the number of rounds. -/
def evict : Nat → Members K V → Members K V
  | 0, c => c
  | n + 1, c =>
    if c.items.length > c.capacity ∨ c.stats.bytes > c.maxBytes then
      match c.items.getLast? with
      | none => c
      | some last => evict n (c.evictOne last)
    else c

/-- The new entry in front of the list and in the index, in place of the old one. -/
def link (c : Members K V) (e : Entry K V) : Members K V :=
  match c.index e.key with
  | some old => { c with
      items := (⟨c.nextAddr, e⟩ :: c.items).filter fun x => x.addr ≠ old
      index := Function.update c.index e.key (some c.nextAddr)
      nextAddr := c.nextAddr + 1
      stats := { c.stats with
        bytes := usub c.stats.bytes ((c.deref old).elim 0 fun n => n.entry.bytes) } }
  | none => { c with
      items := ⟨c.nextAddr, e⟩ :: c.items
      index := Function.update c.index e.key (some c.nextAddr)
      nextAddr := c.nextAddr + 1 }

def put (c : Members K V) (key : K) (value : V) (expires now : UInt64) :
    Except Exception (Members K V) :=
  let bytes := entryBytes key value
  if bytes > c.maxBytes then .error (lengthError "Entry exceeds shard byte budget")
  else if expires ≠ 0 ∧ expires ≤ now then
    match c.index key with
    | some old => .ok (c.erase old)
    | none => .ok c
  else
    let c := c.link ⟨key, value, expires, bytes⟩
    let c := { c with stats := { c.stats with bytes := c.stats.bytes + bytes } }
    .ok (c.evict c.items.length)

/-- The allocation of `put` that fails: the list element, or the place in the index. -/
inductive Shortage where
  | node
  | place
  deriving DecidableEq, Repr

inductive Thrown where
  | error (e : Exception)
  | badAlloc
  deriving DecidableEq, Repr

/-- `put` when memory may be short: what is thrown, and what is left behind. An entry that
replaces another needs no place in the index, and one that is not stored needs no memory. -/
def putWith (c : Members K V) (key : K) (value : V) (expires now : UInt64)
    (short : Option Shortage) : Option Thrown × Members K V :=
  match c.put key value expires now with
  | .error e => (some (.error e), c)
  | .ok stored =>
    if expires ≠ 0 ∧ expires ≤ now then (none, stored)
    else
      match short, c.index key with
      | some .node, _ => (some .badAlloc, c)
      | some .place, none =>
        -- `push_front` has been done and is undone by `pop_front`
        let pushed := ⟨c.nextAddr, ⟨key, value, expires, entryBytes key value⟩⟩ :: c.items
        (some .badAlloc, { c with items := pushed.tail, nextAddr := c.nextAddr + 1 })
      | _, _ => (none, stored)

def miss (c : Members K V) : Option V × Members K V :=
  (none, { c with stats := { c.stats with misses := c.stats.misses + 1 } })

def get (c : Members K V) (key : K) (now : UInt64) : Option V × Members K V :=
  match (c.index key).bind c.deref with
  | none => c.miss
  | some n =>
    if n.entry.Expired now then (c.erase n.addr).miss
    else (some n.entry.value, { c with
      stats := { c.stats with hits := c.stats.hits + 1 }
      items := n :: c.items.filter fun x => x.addr ≠ n.addr })

/-- `get` when memory may be short for the copy of the value it returns. By then the hit has been
counted and the element moved to the front. -/
def getWith (c : Members K V) (key : K) (now : UInt64) (short : Bool) :
    Except Thrown (Option V) × Members K V :=
  match c.get key now with
  | (none, c) => (.ok none, c)
  | (some value, c) => (if short then .error .badAlloc else .ok (some value), c)

def exists_ (c : Members K V) (key : K) (now : UInt64) : Bool × Members K V :=
  match (c.index key).bind c.deref with
  | none => (false, c)
  | some n => if n.entry.Expired now then (false, c.erase n.addr) else (true, c)

def remove (c : Members K V) (key : K) : Bool × Members K V :=
  match c.index key with
  | none => (false, c)
  | some it => (true, c.erase it)

/-- The entries, most recently used first. -/
def view (c : Members K V) : List (Entry K V) := c.items.map Node.entry

end Members

/-- The entries not expired when they are reached; each one costs a reading of the clock. -/
def unexpired : (Nat → UInt64) → List (Entry K V) → List (Entry K V)
  | _, [] => []
  | clock, e :: es =>
    if e.Expired (clock 0) then unexpired (fun i => clock (i + 1)) es
    else e :: unexpired (fun i => clock (i + 1)) es

/-- Oldest first. -/
def Members.snapshot (c : Members K V) (clock : Nat → UInt64) : List (Entry K V) :=
  unexpired clock c.view.reverse

/-- `snapshot` when memory may be short for the copies of the entries. -/
def Members.snapshotWith (c : Members K V) (clock : Nat → UInt64) (short : Bool) :
    Except Members.Thrown (List (Entry K V)) :=
  if short ∧ c.snapshot clock ≠ [] then .error .badAlloc else .ok (c.snapshot clock)

end LRUCache
end KVRPC.Storage
