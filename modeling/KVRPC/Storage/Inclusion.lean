import KVRPC.Library.Inclusion
import KVRPC.Storage.LruRuns

/-!
# A larger cache holds what a smaller one holds

Two caches of different capacities receive the same calls. As long as entries neither expire nor
are too heavy, everything the smaller cache holds is in the larger one, in the same order, so the
larger one hits whenever the smaller one does.
-/
namespace KVRPC.Storage.LRUCache

open Library

variable {K V : Type}

/-- A call that does not depend on the clock, because what it puts does not expire. -/
inductive Call (K V : Type) where
  | put (key : K) (value : V)
  | get (key : K)
  | exists_ (key : K)
  | remove (key : K)
  deriving DecidableEq, Repr

/-- The call at the time `now`. -/
def Call.op (now : UInt64) : Call K V → Op K V
  | .put key value => .put key value 0 now none
  | .get key => .get key now false
  | .exists_ key => .exists_ key now
  | .remove key => .remove key

namespace Members

variable [DecidableEq K] [Sizes K V] {c c' small large : Members K V}

/-- A new cache after some calls. -/
def after (capacity maxBytes : Nat) (ops : List (Op K V)) : Members K V :=
  ops.foldl (fun c op => (c.apply op).2) { capacity := capacity, maxBytes := maxBytes }

omit [DecidableEq K] in
/-- One of the calls has put the entry. -/
def Written (calls : List (Call K V)) (e : Entry K V) : Prop :=
  ∃ key value, .put key value ∈ calls ∧ e = ⟨key, value, 0, entryBytes key value⟩

omit [DecidableEq K] in
/-- The budget is no limit: any `count` entries that the calls put under different keys fit. -/
def Unlimited (maxBytes count : Nat) (calls : List (Call K V)) : Prop :=
  ∀ es : List (Entry K V), Recency.Unique Entry.key es → es.length ≤ count →
    (∀ e ∈ es, Written calls e) → Recency.total Entry.bytes es ≤ maxBytes

omit [DecidableEq K] in
/-- A budget for `count` entries of the largest size is no limit. -/
theorem unlimited_of_le {maxBytes count largest : Nat} {calls : List (Call K V)}
    (bound : ∀ key value, .put key value ∈ calls → entryBytes key value ≤ largest)
    (enough : count * largest ≤ maxBytes) : Unlimited maxBytes count calls := by
  intro es _ short written
  have each : ∀ n ∈ es.map Entry.bytes, n ≤ largest := by
    intro n mem
    obtain ⟨e, held, rfl⟩ := List.mem_map.mp mem
    obtain ⟨key, value, called, rfl⟩ := written e held
    exact bound key value called
  calc Recency.total Entry.bytes es ≤ (es.map Entry.bytes).length * largest :=
        List.sum_le_card_nsmul _ _ each
    _ ≤ count * largest := Nat.mul_le_mul_right _ (by simpa using short)
    _ ≤ maxBytes := enough

/-! ## Entries that do not expire -/

/-- Nothing in the cache expires. -/
def Lasting (c : Members K V) : Prop := ∀ e ∈ c.view, e.expires = 0

omit [DecidableEq K] [Sizes K V] in
theorem Lasting.not_expired (h : c.Lasting) {e : Entry K V} (mem : e ∈ c.view) (now : UInt64) :
    ¬ e.Expired now := fun expired => expired.1 (h e mem)

/-- `put` drops the oldest entries that are over the capacity. -/
theorem put_lasting (h : c.Valid) {key : K} {value : V} (now : UInt64) {e : Entry K V}
    (entry : e = ⟨key, value, 0, entryBytes key value⟩) (fits : c.CanStore key value)
    (light : Recency.total Entry.bytes
      ((e :: Recency.without Entry.key key c.view).take c.capacity) ≤ c.maxBytes) :
    ∃ c', c.put key value 0 now = .ok c' ∧
      c'.view = (e :: Recency.without Entry.key key c.view).take c.capacity ∧
      c'.stats.hits = c.stats.hits := by
  subst entry
  have alive : ¬ ((0 : UInt64) ≠ 0 ∧ 0 ≤ now) := by simp
  obtain ⟨c', stored, evicted⟩ := put_alive h fits alive
  obtain ⟨-, viewed, lim, stats⟩ :=
    h.toConsistent.linked (e := ⟨key, value, 0, entryBytes key value⟩) rfl
  refine ⟨c', stored, ?_, ?_⟩
  · rw [evicted.view_eq, viewed, lim]
    exact Recency.trimTo_eq_take light
  · rw [evicted.hits_eq, stats]

theorem get_lasting (h : c.Valid) (lasting : c.Lasting) (key : K) (now : UInt64) :
    (c.get key now).1 = (Recency.lookup Entry.key key c.view).map Entry.value ∧
      (c.get key now).2.view = Recency.touch Entry.key key c.view ∧
      (c.get key now).2.stats.hits =
        c.stats.hits + if (Recency.lookup Entry.key key c.view).isSome then 1 else 0 := by
  obtain ⟨result, -, viewed, -⟩ := get_spec h key now
  have hits : (c.get key now).2.stats.hits =
      c.stats.hits + if (c.get key now).1.isSome then 1 else 0 := by
    unfold get
    rw [h.find]
    cases found : c.items.find? fun n => n.entry.key = key with
    | none => rfl
    | some n =>
      have mem : n.entry ∈ c.view := List.mem_map_of_mem (List.mem_of_find?_eq_some found)
      simp [lasting.not_expired mem now]
  rw [hits, result, viewed]
  unfold getView
  cases found : Recency.lookup Entry.key key c.view with
  | none => simp [Recency.touch, found]
  | some e => simp [lasting.not_expired (Recency.lookup_eq_some found).1 now]

theorem exists_lasting (h : c.Valid) (lasting : c.Lasting) (key : K) (now : UInt64) :
    (c.exists_ key now).2 = c := by
  unfold exists_
  rw [h.find]
  cases found : c.items.find? fun n => n.entry.key = key with
  | none => rfl
  | some n =>
    have mem : n.entry ∈ c.view := List.mem_map_of_mem (List.mem_of_find?_eq_some found)
    simp [lasting.not_expired mem now]

theorem remove_hits (h : c.Valid) (key : K) : (c.remove key).2.stats.hits = c.stats.hits := by
  unfold remove
  cases found : c.index key with
  | none => rfl
  | some it =>
    obtain ⟨n, mem, rfl, -⟩ := h.mem_of_index found
    exact (h.toConsistent.erase mem).2.2.2.1

/-! ## Two caches -/

/-- The states of the two caches after the same calls. -/
structure Twin (few many maxBytes : Nat) (calls : List (Call K V)) (small large : Members K V) :
    Prop where
  valid : small.Valid ∧ large.Valid
  limits : small.limits = ⟨few, maxBytes⟩ ∧ large.limits = ⟨many, maxBytes⟩
  included : Recency.Included few many small.view large.view
  written : ∀ e ∈ large.view, Written calls e
  hits : small.stats.hits ≤ large.stats.hits

namespace Twin

variable {few many maxBytes : Nat} {calls : List (Call K V)}

theorem lasting (h : Twin few many maxBytes calls small large) : small.Lasting ∧ large.Lasting := by
  have all : large.Lasting := by
    intro e mem
    obtain ⟨key, value, -, rfl⟩ := h.written e mem
    rfl
  exact ⟨fun e mem => all e (h.included.sub.subset mem), all⟩

omit [DecidableEq K] in
/-- What a cache keeps of the entries put so far is not too heavy. -/
theorem light (unlimited : Unlimited maxBytes many calls) {count : Nat} (le : count ≤ many)
    {es : List (Entry K V)} (unique : Recency.Unique Entry.key es)
    (written : ∀ e ∈ es, Written calls e) :
    Recency.total Entry.bytes (es.take count) ≤ maxBytes :=
  unlimited _ (unique.sublist (List.take_sublist _ _)) (by simp; omega)
    fun e mem => written e (List.mem_of_mem_take mem)

/-- Every call keeps a cache valid and its limits; the rest is up to the call. -/
theorem next (h : Twin few many maxBytes calls small large) (op op' : Op K V)
    (included : Recency.Included few many (small.apply op).2.view (large.apply op').2.view)
    (written : ∀ e ∈ (large.apply op').2.view, Written calls e)
    (hits : (small.apply op).2.stats.hits ≤ (large.apply op').2.stats.hits) :
    Twin few many maxBytes calls (small.apply op).2 (large.apply op').2 := by
  obtain ⟨valid, lim⟩ := h.valid.1.apply op
  obtain ⟨valid', lim'⟩ := h.valid.2.apply op'
  exact ⟨⟨valid, valid'⟩, ⟨lim.trans h.limits.1, lim'.trans h.limits.2⟩, included, written, hits⟩

theorem put (h : Twin few many maxBytes calls small large) (le : few ≤ many)
    (unlimited : Unlimited maxBytes many calls) {key : K} {value : V}
    (called : .put key value ∈ calls) (now now' : UInt64) :
    Twin few many maxBytes calls (small.apply (.put key value 0 now none)).2
      (large.apply (.put key value 0 now' none)).2 := by
  have budget : small.maxBytes = maxBytes := congrArg Recency.Limits.budget h.limits.1
  have budget' : large.maxBytes = maxBytes := congrArg Recency.Limits.budget h.limits.2
  have capacity : small.capacity = few := congrArg Recency.Limits.count h.limits.1
  have capacity' : large.capacity = many := congrArg Recency.Limits.count h.limits.2
  have alike : small.CanStore key value ↔ large.CanStore key value := by
    unfold CanStore
    rw [budget, budget']
  by_cases fits : small.CanStore key value
  · let e : Entry K V := ⟨key, value, 0, entryBytes key value⟩
    have front : ∀ x ∈ e :: Recency.without Entry.key key large.view, Written calls x := by
      intro x mem
      rcases List.mem_cons.mp mem with rfl | old
      · exact ⟨key, value, called, rfl⟩
      · exact h.written x (Recency.mem_without.mp old).1
    have joined := h.included.cons_without h.valid.2.unique e
    have heavy := light unlimited le (h.valid.1.unique.cons_without e) fun x mem =>
      front x (joined.sub.subset mem)
    have heavy' := light unlimited le_rfl (h.valid.2.unique.cons_without e) front
    obtain ⟨c, stored, viewed, hits⟩ :=
      put_lasting h.valid.1 now rfl fits (by rw [budget, capacity]; exact heavy)
    obtain ⟨c', stored', viewed', hits'⟩ :=
      put_lasting h.valid.2 now' rfl (alike.mp fits) (by rw [budget', capacity']; exact heavy')
    have done : (small.apply (.put key value 0 now none)).2 = c := by simp [apply, putWith, stored]
    have done' : (large.apply (.put key value 0 now' none)).2 = c' := by
      simp [apply, putWith, stored']
    refine h.next _ _ ?_ ?_ ?_
    · rw [done, done', viewed, viewed', capacity, capacity']
      exact joined.take
    · rw [done', viewed']
      exact fun x mem => front x (List.mem_of_mem_take mem)
    · rw [done, done', hits, hits']
      exact h.hits
  · -- both calls throw
    have refused := put_error 0 now fits
    have refused' := put_error 0 now' (mt alike.mpr fits)
    simp only [apply, putWith, refused, refused']
    exact h

theorem get (h : Twin few many maxBytes calls small large) (key : K) (now now' : UInt64) :
    Twin few many maxBytes calls (small.apply (.get key now false)).2
      (large.apply (.get key now' false)).2 := by
  obtain ⟨-, viewed, hits⟩ := get_lasting h.valid.1 h.lasting.1 key now
  obtain ⟨-, viewed', hits'⟩ := get_lasting h.valid.2 h.lasting.2 key now'
  refine h.next _ _ ?_ ?_ ?_
  all_goals simp only [apply, getWith_snd, viewed, viewed', hits, hits']
  · exact h.included.touch h.valid.2.unique key
  · exact fun e mem => h.written e (Recency.mem_touch mem)
  · refine Nat.add_le_add h.hits ?_
    cases found : Recency.lookup Entry.key key small.view with
    | none => simp
    | some e => rw [Recency.lookup_of_sublist h.valid.2.unique h.included.sub found]

theorem remove (h : Twin few many maxBytes calls small large) (key : K) :
    Twin few many maxBytes calls (small.remove key).2 (large.remove key).2 := by
  refine h.next (.remove key) (.remove key) ?_ ?_ ?_
  all_goals simp only [apply, (remove_spec h.valid.1 key).2.1, (remove_spec h.valid.2 key).2.1,
    remove_hits h.valid.1, remove_hits h.valid.2]
  · exact h.included.without h.valid.2.unique key
  · exact fun e mem => h.written e (Recency.mem_without.mp mem).1
  · exact h.hits

/-- Both caches take one call, each at its own time. -/
theorem step (h : Twin few many maxBytes calls small large) (le : few ≤ many)
    (unlimited : Unlimited maxBytes many calls) {call : Call K V} (called : call ∈ calls)
    (now now' : UInt64) :
    Twin few many maxBytes calls (small.apply (call.op now)).2 (large.apply (call.op now')).2 := by
  cases call with
  | put key value => exact h.put le unlimited called now now'
  | get key => exact h.get key now now'
  | exists_ key =>
    simp only [Call.op, apply, exists_lasting h.valid.1 h.lasting.1,
      exists_lasting h.valid.2 h.lasting.2]
    exact h
  | remove key => exact h.remove key

theorem steps (h : Twin few many maxBytes calls small large) (le : few ≤ many)
    (unlimited : Unlimited maxBytes many calls) {rest : List (Call K V × UInt64 × UInt64)}
    (called : ∀ x ∈ rest, x.1 ∈ calls) :
    Twin few many maxBytes calls
      ((rest.map fun x => x.1.op x.2.1).foldl (fun c op => (c.apply op).2) small)
      ((rest.map fun x => x.1.op x.2.2).foldl (fun c op => (c.apply op).2) large) := by
  induction rest generalizing small large with
  | nil => exact h
  | cons x rest ih =>
    exact ih (h.step le unlimited (called x (by simp)) x.2.1 x.2.2)
      fun y mem => called y (by simp [mem])

theorem initial (le : few ≤ many) (maxBytes : Nat) (calls : List (Call K V)) :
    Twin few many maxBytes calls { capacity := few, maxBytes } { capacity := many, maxBytes } where
  valid := ⟨(runs_valid .nil).1, (runs_valid .nil).1⟩
  limits := ⟨rfl, rfl⟩
  included := ⟨.slnil, by simpa [view] using le⟩
  written := by simp [view]
  hits := le_rfl

end Twin

/-- **LRU inclusion.** Two new caches with capacities `few ≤ many` and no limit on bytes receive
the same calls, with two readings of the clock for each. The entries of the smaller cache are
entries of the larger one, in the same order of use; what a `get` finds in the smaller cache it
finds in the larger one; and the larger cache has counted at least as many hits. -/
theorem lru_inclusion {few many maxBytes : Nat} (le : few ≤ many)
    (calls : List (Call K V × UInt64 × UInt64))
    (unlimited : Unlimited maxBytes many (calls.map Prod.fst)) :
    let small := after few maxBytes (calls.map fun x => x.1.op x.2.1)
    let large := after many maxBytes (calls.map fun x => x.1.op x.2.2)
    small.view.Sublist large.view ∧
    (∀ key now now' value, (small.get key now).1 = some value →
      (large.get key now').1 = some value) ∧
    small.stats.hits ≤ large.stats.hits := by
  intro small large
  have twin : Twin few many maxBytes (calls.map Prod.fst) small large :=
    (Twin.initial le maxBytes _).steps le unlimited fun x mem => List.mem_map_of_mem mem
  refine ⟨twin.included.sub, fun key now now' value hit => ?_, twin.hits⟩
  rw [(get_lasting twin.valid.1 twin.lasting.1 key now).1] at hit
  rw [(get_lasting twin.valid.2 twin.lasting.2 key now').1]
  obtain ⟨e, found, rfl⟩ := Option.map_eq_some_iff.mp hit
  rw [Recency.lookup_of_sublist twin.valid.2.unique twin.included.sub found]
  rfl

/-- A `get` that misses in the smaller cache reorders the larger one, and a removal leaves them
with different gaps. -/
def diverging : List (Call Bytes Bytes × UInt64 × UInt64) :=
  [(.put [1] [10], 0, 0), (.put [2] [20], 1, 2), (.get [1], 3, 3), (.remove [2], 4, 4),
    (.put [3] [30], 5, 6)]

theorem lru_inclusion_diverging :
    let small := after 1 1000 (diverging.map fun x => x.1.op x.2.1)
    let large := after 2 1000 (diverging.map fun x => x.1.op x.2.2)
    small.view.map Entry.key = [[3]] ∧ large.view.map Entry.key = [[3], [1]] ∧
      small.view.Sublist large.view ∧ small.stats.hits ≤ large.stats.hits := by
  have bound : ∀ key value, .put key value ∈ diverging.map Prod.fst →
      entryBytes key value ≤ 82 := by
    intro key value called
    simp only [diverging, List.map_cons, List.map_nil, List.mem_cons, Call.put.injEq, reduceCtorEq,
      List.not_mem_nil, or_false, false_or] at called
    rcases called with ⟨rfl, rfl⟩ | ⟨rfl, rfl⟩ | ⟨rfl, rfl⟩
    all_goals decide
  have unlimited : Unlimited 1000 2 (diverging.map Prod.fst) := unlimited_of_le bound (by decide)
  obtain ⟨sub, -, hits⟩ := lru_inclusion (by decide : 1 ≤ 2) diverging unlimited
  exact ⟨by decide +kernel, by decide +kernel, sub, hits⟩

end Members
end KVRPC.Storage.LRUCache
