import KVRPC.Storage.ShardedCache

/-!
# The entries a sharded cache holds

Over all shards a key has at most one entry. `put` replaces it, `remove` drops it and `get`
finds it; everything else these methods do is to drop entries. What may be stored depends
on the `layout` alone, which no method changes.
-/
namespace KVRPC.Storage.ShardedCache

open Library LRUCache

variable {K V : Type} [DecidableEq K] [Sizes K V] {c c' : ShardedCache K V} {e : Entry K V}

def Holds (c : ShardedCache K V) (e : Entry K V) : Prop := ∃ s ∈ c.shards, e ∈ s.view

theorem holds_iff_getShard : c.Holds e ↔ e ∈ (c.getShard e.key).view := by
  constructor
  · rintro ⟨s, hs, he⟩
    obtain ⟨i, hi, rfl⟩ := List.getElem_of_mem hs
    have here : c.slot e.key = i := c.placed i hi e he
    simpa [getShard, here] using he
  · intro he
    exact ⟨_, List.getElem_mem _, he⟩

theorem holds_iff_shape : c.Holds e ↔ ∃ p ∈ c.shape, e ∈ p.2 := by
  simp only [Holds, shape, List.mem_map]
  constructor
  · rintro ⟨s, hs, he⟩
    exact ⟨_, ⟨s, hs, rfl⟩, he⟩
  · rintro ⟨_, ⟨s, hs, rfl⟩, he⟩
    exact ⟨s, hs, he⟩

/-- After a change of one shard, an entry is in the new part of it or lives elsewhere. -/
theorem holds_update {key : K} {f : Recency.Limits → List (Entry K V) → List (Entry K V)}
    (h : c'.shape = c.shape.update (c.slot key) f) (he : c'.Holds e) :
    e ∈ f (c.getShard key).limits (c.getShard key).view ∨ c.Holds e ∧ e.key ≠ key := by
  obtain ⟨p, hp, he⟩ := holds_iff_shape.mp he
  obtain ⟨j, hj⟩ := List.mem_iff_getElem?.mp hp
  rw [h, Shape.update, List.getElem?_modify, shape, List.getElem?_map] at hj
  by_cases here : c.slot key = j
  · subst here
    simp only [c.slot_lt key, getElem?_pos, Option.map_some, Option.map_eq_map, if_true] at hj
    cases hj
    exact Or.inl he
  · obtain ⟨s, hs, rfl⟩ : ∃ s, c.shards[j]? = some s ∧ (s.limits, s.view) = p := by
      simpa [here] using hj
    obtain ⟨inside, rfl⟩ := List.getElem?_eq_some_iff.mp hs
    refine Or.inr ⟨⟨_, List.getElem_mem inside, he⟩, fun same => here ?_⟩
    rw [← same]
    exact c.placed j inside e he

theorem holds_put {key : K} {value : V} {expires now : UInt64}
    (h : c.put key value expires now = .ok c') (he : c'.Holds e) :
    e = ⟨key, value, expires, entryBytes key value⟩ ∨ c.Holds e ∧ e.key ≠ key := by
  by_cases hs : c.CanStore key value
  · obtain ⟨_, hok, _, _, shaped⟩ := c.put_ok expires now hs
    cases hok.symm.trans h
    rcases holds_update shaped he with here | elsewhere
    · exact (Members.mem_putView here).imp id fun old =>
        ⟨⟨_, List.getElem_mem _, old.1⟩, old.2⟩
    · exact Or.inr elsewhere
  · rw [c.put_error expires now hs] at h
    cases h

/-- What is stored is there, unless it has expired already. -/
theorem put_holds {key : K} {value : V} {expires now : UInt64}
    (h : c.put key value expires now = .ok c') (count : 0 < (c.getShard key).limits.count)
    (alive : ¬ (expires ≠ 0 ∧ expires ≤ now)) :
    c'.Holds ⟨key, value, expires, entryBytes key value⟩ := by
  by_cases hs : c.CanStore key value
  · obtain ⟨_, hok, _, _, shaped⟩ := c.put_ok expires now hs
    cases hok.symm.trans h
    have here : c'.shape[c.slot key]? = some ((c.getShard key).limits,
        Members.putView (c.getShard key).limits key value expires now (c.getShard key).view) := by
      rw [shaped, Shape.update, List.getElem?_modify, shape, List.getElem?_map]
      simp [c.slot_lt key, getShard]
    refine holds_iff_shape.mpr ⟨_, List.mem_of_getElem? here, ?_⟩
    rw [Members.putView, if_neg alive]
    exact Recency.mem_insert_self _ count hs
  · rw [c.put_error expires now hs] at h
    cases h

theorem holds_get {key : K} {now : UInt64} (he : (c.get key now).2.Holds e) : c.Holds e := by
  rcases holds_update (c.get_shape key now).2 he with here | elsewhere
  · exact ⟨_, List.getElem_mem _, Members.mem_getView here⟩
  · exact elsewhere.1

theorem holds_remove {key : K} (he : (c.remove key).2.Holds e) : c.Holds e ∧ e.key ≠ key := by
  rcases holds_update (c.remove_shape key) he with here | elsewhere
  · obtain ⟨old, hk⟩ := Recency.mem_without.mp here
    exact ⟨⟨_, List.getElem_mem _, old⟩, hk⟩
  · exact elsewhere

/-- A hit returns the value of an entry that is there and not expired. -/
theorem get_found {key : K} {now : UInt64} {value : V} (h : (c.get key now).1 = some value) :
    ∃ e, c.Holds e ∧ e.key = key ∧ e.value = value ∧ ¬ e.Expired now := by
  rw [(c.get_shape key now).1, Members.getView] at h
  split at h
  · cases h
  · rename_i e he
    obtain ⟨mem, hk⟩ := Recency.lookup_eq_some he
    split at h
    · cases h
    · exact ⟨e, ⟨_, List.getElem_mem _, mem⟩, hk, Option.some.inj h, ‹_›⟩

/-- An entry that is there and not expired is hit. -/
theorem Holds.get_eq {now : UInt64} (h : c.Holds e) (alive : ¬ e.Expired now) :
    (c.get e.key now).1 = some e.value := by
  have here := holds_iff_getShard.mp h
  have unique : Recency.Unique Entry.key (c.getShard e.key).view :=
    (c.getShard e.key).valid.toConsistent.unique
  rw [(c.get_shape e.key now).1, Members.getView, Recency.lookup_of_mem unique here]
  simp [alive]

/-- The key is resident and not expired, with this value. -/
def Resident (c : ShardedCache K V) (now : UInt64) (key : K) (value : V) : Prop :=
  ∃ e, c.Holds e ∧ e.key = key ∧ e.value = value ∧ ¬ e.Expired now

theorem get_eq_some_iff {key : K} {now : UInt64} {value : V} :
    (c.get key now).1 = some value ↔ c.Resident now key value := by
  refine ⟨get_found, ?_⟩
  rintro ⟨e, held, rfl, rfl, alive⟩
  exact held.get_eq alive

/-! ## Layout -/

/-- What decides where a key goes and what fits there. -/
def layout (c : ShardedCache K V) : (K → Nat) × List Recency.Limits :=
  (c.hash, c.shards.map fun s => s.limits)

theorem layout_setShard {key : K} {s : LRUCache K V} (h : ∀ e ∈ s.view, c.slot e.key = c.slot key)
    (lim : s.limits = (c.getShard key).limits) : (c.setShard key s h).layout = c.layout := by
  refine Prod.ext rfl (List.ext_getElem? fun j => ?_)
  simp only [layout, setShard, List.getElem?_map, List.getElem?_set]
  by_cases here : c.slot key = j
  · subst here
    simp [c.slot_lt key, lim, getShard]
  · simp [here]

theorem layout_put {key : K} {value : V} {expires now : UInt64}
    (h : c.put key value expires now = .ok c') : c'.layout = c.layout := by
  unfold put at h
  split at h
  · cases h
  · rename_i s hs
    cases h
    exact layout_setShard _ (put_view hs).2.1

theorem layout_get (key : K) (now : UInt64) : (c.get key now).2.layout = c.layout :=
  layout_setShard (c.get_placed key now) ((c.getShard key).get_view key now).2.2

theorem layout_remove (key : K) : (c.remove key).2.layout = c.layout :=
  layout_setShard (c.remove_placed key) ((c.getShard key).remove_view key).2

theorem numShards_eq_of_layout (h : c.layout = c'.layout) : c.numShards = c'.numShards := by
  have := congrArg List.length (congrArg Prod.snd h)
  simpa [layout, c.length_eq, c'.length_eq] using this

theorem slot_eq_of_layout (h : c.layout = c'.layout) (key : K) : c.slot key = c'.slot key := by
  have hash : c.hash = c'.hash := congrArg Prod.fst h
  rw [slot, slot, hash, numShards_eq_of_layout h]

theorem limits_getElem? (key : K) :
    (c.shards.map fun s => s.limits)[c.slot key]? = some (c.getShard key).limits := by
  simp [c.slot_lt key, getShard]

theorem limits_eq_of_layout (h : c.layout = c'.layout) (key : K) :
    (c.getShard key).limits = (c'.getShard key).limits := by
  have limits := congrArg Prod.snd h
  have there := limits_getElem? (c := c) key
  simp only [layout] at limits
  rw [limits, slot_eq_of_layout h, limits_getElem?] at there
  exact (Option.some.inj there).symm

theorem canStore_iff {key : K} {value : V} :
    c.CanStore key value ↔ entryBytes key value ≤ (c.getShard key).limits.budget := Iff.rfl

theorem canStore_congr (h : c.layout = c'.layout) (key : K) (value : V) :
    c.CanStore key value ↔ c'.CanStore key value := by
  rw [canStore_iff, canStore_iff, limits_eq_of_layout h]

theorem Holds.canStore (h : c.Holds e) : c.CanStore e.key e.value := by
  have mem := holds_iff_getShard.mp h
  have valid := (c.getShard e.key).valid
  rw [canStore_iff, ← valid.cost_eq e mem]
  refine le_trans ?_ valid.fits.2
  simpa [Recency.total] using
    List.single_le_sum (by simp) _ (List.mem_map_of_mem (f := Entry.bytes) mem)

theorem Holds.cost_eq (h : c.Holds e) : e.bytes = entryBytes e.key e.value :=
  (c.getShard e.key).valid.cost_eq e (holds_iff_getShard.mp h)

theorem create_empty {hash : K → Nat} {capacity numShards maxBytes : Nat}
    (h : create hash capacity numShards maxBytes = .ok c) : ∀ s ∈ c.shards, s.view = [] := by
  unfold create at h
  split at h
  · cases h
  dsimp only at h
  split at h
  · cases h
  · rename_i shards hs
    cases h
    intro s mem
    obtain ⟨i, hi, rfl⟩ := List.getElem_of_mem mem
    exact (create_view ((createShards_spec hs).2 i hi)).1

/-! ## Snapshots -/

omit [DecidableEq K] [Sizes K V] in
theorem unexpired_sublist (clock : Nat → UInt64) (es : List (Entry K V)) :
    (unexpired clock es).Sublist es := by
  induction es generalizing clock with
  | nil => exact .slnil
  | cons e es ih =>
    unfold unexpired
    split
    · exact (ih _).cons e
    · exact (ih _).cons_cons e

omit [DecidableEq K] [Sizes K V] in
theorem mem_unexpired {clock : Nat → UInt64} {es : List (Entry K V)} (mem : e ∈ es)
    (alive : ∀ i, ¬ e.Expired (clock i)) : e ∈ unexpired clock es := by
  induction es generalizing clock with
  | nil => simp at mem
  | cons x es ih =>
    have rest : e ∈ es → e ∈ unexpired (fun i => clock (i + 1)) es :=
      fun h => ih h fun i => alive (i + 1)
    unfold unexpired
    rcases List.mem_cons.mp mem with rfl | mem
    · rw [if_neg (alive 0)]
      exact List.mem_cons_self
    · split
      · exact rest mem
      · exact List.mem_cons_of_mem x (rest mem)

omit [DecidableEq K] [Sizes K V] in
theorem alive_of_mem_unexpired {clock : Nat → UInt64} {es : List (Entry K V)}
    (mem : e ∈ unexpired clock es) : ∃ i, ¬ e.Expired (clock i) := by
  induction es generalizing clock with
  | nil => simp [unexpired] at mem
  | cons x es ih =>
    unfold unexpired at mem
    split at mem
    · obtain ⟨i, hi⟩ := ih mem
      exact ⟨i + 1, hi⟩
    · rename_i alive
      rcases List.mem_cons.mp mem with rfl | mem
      · exact ⟨0, alive⟩
      · obtain ⟨i, hi⟩ := ih mem
        exact ⟨i + 1, hi⟩

omit [DecidableEq K] [Sizes K V] in
theorem unexpired_eq_self {clock : Nat → UInt64} {es : List (Entry K V)}
    (alive : ∀ e ∈ es, ∀ i, ¬ e.Expired (clock i)) : unexpired clock es = es := by
  induction es generalizing clock with
  | nil => rfl
  | cons e es ih =>
    rw [unexpired, if_neg (alive e (by simp) 0), ih fun x hx i => alive x (by simp [hx]) (i + 1)]

/-- All entries, shard by shard and oldest first. -/
def entries (c : ShardedCache K V) : List (Entry K V) := c.shards.flatMap fun s => s.view.reverse

theorem mem_entries : e ∈ c.entries ↔ c.Holds e := by
  simp [entries, Holds]

theorem nodup_entries (c : ShardedCache K V) : (c.entries.map Entry.key).Nodup := by
  rw [entries, List.map_flatMap, List.nodup_flatMap]
  refine ⟨fun s _ => ?_, ?_⟩
  · rw [List.map_reverse, List.nodup_reverse]
    exact s.valid.unique
  · rw [List.pairwise_iff_getElem]
    intro i j hi hj hij k h₁ h₂
    simp only [List.map_reverse, List.mem_reverse, List.mem_map] at h₁ h₂
    obtain ⟨e₁, he₁, rfl⟩ := h₁
    obtain ⟨e₂, he₂, hk⟩ := h₂
    have at₁ := c.placed i hi e₁ he₁
    have at₂ := c.placed j hj e₂ he₂
    rw [hk] at at₂
    omega

theorem snapshotFrom_sublist (clock : Nat → Nat → UInt64) (i : Nat) (shards : List (LRUCache K V)) :
    (snapshotFrom clock i shards).Sublist (shards.flatMap fun s => s.view.reverse) := by
  induction shards generalizing i with
  | nil => exact .slnil
  | cons s shards ih =>
    rw [List.flatMap_cons, snapshotFrom]
    exact (unexpired_sublist _ _).append (ih (i + 1))

theorem snapshot_sublist (c : ShardedCache K V) (clock : Nat → Nat → UInt64) :
    (c.snapshot clock).Sublist c.entries := snapshotFrom_sublist clock 0 c.shards

theorem nodup_snapshot (c : ShardedCache K V) (clock : Nat → Nat → UInt64) :
    ((c.snapshot clock).map Entry.key).Nodup :=
  c.nodup_entries.sublist ((c.snapshot_sublist clock).map Entry.key)

theorem holds_of_mem_snapshot {clock : Nat → Nat → UInt64} (h : e ∈ c.snapshot clock) :
    c.Holds e := mem_entries.mp ((c.snapshot_sublist clock).subset h)

theorem Holds.mem_snapshot {clock : Nat → Nat → UInt64} (h : c.Holds e)
    (alive : ∀ i j, ¬ e.Expired (clock i j)) : e ∈ c.snapshot clock := by
  suffices ∀ (i : Nat) (shards : List (LRUCache K V)), (∃ s ∈ shards, e ∈ s.view) →
      e ∈ snapshotFrom clock i shards from this 0 c.shards h
  intro i shards
  induction shards generalizing i with
  | nil => simp
  | cons s shards ih =>
    rintro ⟨s', hs', he⟩
    rw [snapshotFrom, List.mem_append]
    rcases List.mem_cons.mp hs' with rfl | hs'
    · exact Or.inl (mem_unexpired (List.mem_reverse.mpr he) (alive i))
    · exact Or.inr (ih (i + 1) ⟨s', hs', he⟩)

theorem alive_of_mem_snapshot {clock : Nat → Nat → UInt64} (h : e ∈ c.snapshot clock) :
    ∃ i j, ¬ e.Expired (clock i j) := by
  suffices ∀ (i : Nat) (shards : List (LRUCache K V)), e ∈ snapshotFrom clock i shards →
      ∃ i j, ¬ e.Expired (clock i j) from this 0 c.shards h
  intro i shards
  induction shards generalizing i with
  | nil => simp [snapshotFrom]
  | cons s shards ih =>
    rw [snapshotFrom, List.mem_append]
    rintro (here | later)
    · exact ⟨i, alive_of_mem_unexpired here⟩
    · exact ih (i + 1) later

theorem snapshot_eq_entries {clock : Nat → Nat → UInt64}
    (alive : ∀ e, c.Holds e → ∀ i j, ¬ e.Expired (clock i j)) : c.snapshot clock = c.entries := by
  suffices ∀ (i : Nat) (shards : List (LRUCache K V)),
      (∀ s ∈ shards, ∀ e ∈ s.view, ∀ i j, ¬ e.Expired (clock i j)) →
      snapshotFrom clock i shards = shards.flatMap fun s => s.view.reverse from
    this 0 c.shards fun s hs e he => alive e ⟨s, hs, he⟩
  intro i shards
  induction shards generalizing i with
  | nil => simp [snapshotFrom]
  | cons s shards ih =>
    intro each
    rw [snapshotFrom, List.flatMap_cons, ih (i + 1) fun s' hs' => each s' (by simp [hs'])]
    congr 1
    exact unexpired_eq_self fun e he j => each s (by simp) e (List.mem_reverse.mp he) i j

/-! ## Rebuilding -/

omit [DecidableEq K] [Sizes K V] in
theorem update_append (xs ys : Shape K V) (p : Recency.Limits × List (Entry K V))
    (f : Recency.Limits → List (Entry K V) → List (Entry K V)) :
    Shape.update (xs ++ p :: ys) xs.length f = xs ++ (p.1, f p.1 p.2) :: ys := by
  induction xs with
  | nil => rfl
  | cons x xs ih => exact congrArg (x :: ·) ih

omit [Sizes K V] in
/-- Put an entry into the shard of its key. -/
def insertEntry (slot : K → Nat) (s : Shape K V) (e : Entry K V) : Shape K V :=
  s.update (slot e.key) fun lim => Recency.insert Entry.key Entry.bytes lim e

omit [Sizes K V] in
theorem foldl_insertEntry {slot : K → Nat} {i : Nat} {es : List (Entry K V)}
    (placed : ∀ e ∈ es, slot e.key = i) (s : Shape K V) :
    es.foldl (insertEntry slot) s = s.update i fun lim old =>
      es.foldl (fun es e => Recency.insert Entry.key Entry.bytes lim e es) old := by
  induction es generalizing s with
  | nil => exact (List.modify_id i s).symm
  | cons e es ih =>
    rw [List.foldl_cons, ih fun x hx => placed x (by simp [hx]), insertEntry,
      placed e List.mem_cons_self]
    exact List.modify_modify_eq _ _ i s

/-- The shape with nothing in it. -/
def blank (c : ShardedCache K V) : Shape K V := c.layout.2.map fun lim => (lim, [])

theorem shape_create {hash : K → Nat} {capacity numShards maxBytes : Nat}
    (h : create hash capacity numShards maxBytes = .ok c) : c.shape = c.blank := by
  rw [blank, layout, List.map_map]
  refine List.map_congr_left fun s hs => ?_
  rw [create_empty h s hs]
  rfl

/-- Inserted shard by shard and oldest first, the entries make the same cache. -/
theorem foldl_entries (c : ShardedCache K V) :
    c.entries.foldl (insertEntry c.slot) c.blank = c.shape := by
  suffices ∀ built rest : List (LRUCache K V),
      (∀ i (h : i < rest.length), ∀ e ∈ (rest.get ⟨i, h⟩).view, c.slot e.key = built.length + i) →
      (rest.flatMap fun s => s.view.reverse).foldl (insertEntry c.slot)
        ((built.map fun s => (s.limits, s.view)) ++ rest.map fun s => (s.limits, [])) =
        (built ++ rest).map fun s => (s.limits, s.view) by
    rw [blank, layout, List.map_map]
    exact this [] c.shards fun i h e he => (c.placed i h e he).trans (Nat.zero_add i).symm
  intro built rest
  induction rest generalizing built with
  | nil => simp
  | cons s rest ih =>
    intro placed
    have here : ∀ e ∈ s.view.reverse, c.slot e.key =
        (built.map fun s => (s.limits, s.view)).length := by
      intro e he
      rw [List.length_map]
      exact placed 0 (Nat.succ_pos _) e (List.mem_reverse.mp he)
    have later := ih (built ++ [s]) fun i h e he => by
      rw [List.length_append, List.length_singleton, Nat.add_assoc, Nat.add_comm 1 i]
      exact placed (i + 1) (Nat.succ_lt_succ h) e he
    rw [List.flatMap_cons, List.foldl_append, foldl_insertEntry here, List.map_cons, update_append,
      List.foldl_reverse, Recency.foldr_insert s.valid.unique s.valid.fits]
    simpa using later

end KVRPC.Storage.ShardedCache
