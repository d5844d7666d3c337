import KVRPC.Client.Steps
import KVRPC.Library.Assoc

/-!
# The ledger of requests

What the containers of the transport say about its requests, without sockets, timers and
counters: which requests have been admitted and completed, and which are on their way to the
loop, in the map, waiting or assigned to a connection. The ledger has steps of its own, and
every step of the transport is a step of its ledger or leaves the ledger alone.
-/
namespace KVRPC.Client

open Library Net Relation
open scoped List

variable {ε : Type} {t : AsyncTransport ε}

structure Ledger where
  submitted : Nat
  accepted : List Nat
  completed : List Nat
  requests : List (Nat × Nat)
  waiting : List Nat
  /-- The requests whose task has not run. -/
  coming : List Nat
  id : Nat → Nat
  size : Nat → Nat
  slot : Nat → Option Nat

namespace Ledger

variable {l l' : Ledger} {id ref i : Nat}

/-- The requests admitted and not completed. -/
def outstanding (l : Ledger) : List Nat := l.accepted.filter (· ∉ l.completed)

/-- The open requests of a connection. -/
def assigned (l : Ledger) (i : Nat) : List Nat := l.outstanding.filter fun r => l.slot r = some i

/-- The entry for a new call of `Submit`. -/
def open_ (l : Ledger) (id size : Nat) : Ledger :=
  { l with
    submitted := l.submitted + 1
    id := Function.update l.id l.submitted id
    size := Function.update l.size l.submitted size
    slot := Function.update l.slot l.submitted none }

def finish (l : Ledger) (id ref : Nat) : Ledger :=
  { l with
    requests := l.requests.filter fun p => p.1 ≠ id
    waiting := match l.slot ref with
      | some _ => l.waiting
      | none => l.waiting.filter fun r => l.id r ≠ id
    completed := l.completed ++ [ref] }

inductive Step (l : Ledger) : Ledger → Prop
  | reject (id size : Nat) :
      Step l { l.open_ id size with completed := l.completed ++ [l.submitted] }
  | accept (id size : Nat) {coming : List Nat} (last : coming ~ l.submitted :: l.coming) :
      Step l { l.open_ id size with accepted := l.accepted ++ [l.submitted], coming := coming }
  | reorder {coming : List Nat} (same : coming ~ l.coming) : Step l { l with coming := coming }
  | enroll {ref : Nat} {coming : List Nat} (next : l.coming ~ ref :: coming) :
      Step l { l with
        coming := coming
        requests := if (l.requests.lookup (l.id ref)).isSome then l.requests
          else l.requests ++ [(l.id ref, ref)]
        waiting := l.waiting ++ [ref] }
  | finish {id ref : Nat} (found : l.requests.lookup id = some ref) : Step l (l.finish id ref)
  | skip {ref : Nat} {rest : List Nat} (head : l.waiting = ref :: rest)
      (gone : l.requests.lookup (l.id ref) = none) : Step l { l with waiting := rest }
  | assign {ref : Nat} {rest : List Nat} (i : Nat) (head : l.waiting = ref :: rest) :
      Step l { l with waiting := rest, slot := Function.update l.slot ref (some i) }

structure Sound (l : Ledger) : Prop where
  below : ∀ r, r ∈ l.accepted ∨ r ∈ l.completed → r < l.submitted
  once : l.accepted.Nodup
  completedOnce : l.completed.Nodup
  keys : (l.requests.map Prod.fst).Nodup
  ids : ∀ p ∈ l.requests, l.id p.2 = p.1
  enrolled : ∀ p ∈ l.requests, p.2 ∈ l.outstanding
  /-- A request in the map that is not assigned waits. -/
  queued : ∀ p ∈ l.requests, l.slot p.2 = none → p.2 ∈ l.waiting
  waiting : ∀ r ∈ l.waiting, r ∈ l.outstanding ∧ l.slot r = none
  coming : ∀ r ∈ l.coming, r ∈ l.outstanding ∧ l.slot r = none ∧ ∀ p ∈ l.requests, p.2 ≠ r
  line : (l.coming ++ l.waiting).Nodup

theorem mem_outstanding {r : Nat} : r ∈ l.outstanding ↔ r ∈ l.accepted ∧ r ∉ l.completed := by
  simp [outstanding]

namespace Sound

theorem lookup (h : l.Sound) {p : Nat × Nat} (mem : p ∈ l.requests) :
    l.requests.lookup p.1 = some p.2 := Assoc.lookup_of_mem h.keys mem

theorem ref_lt (h : l.Sound) {p : Nat × Nat} (mem : p ∈ l.requests) : p.2 < l.submitted :=
  h.below _ (.inl (mem_outstanding.mp (h.enrolled p mem)).1)

/-- Two entries of the map for one request are the same. -/
theorem entry_unique (h : l.Sound) {p q : Nat × Nat} (mem : p ∈ l.requests) (mem' : q ∈ l.requests)
    (same : p.1 = q.1) : p = q := by
  have first := h.lookup mem
  rw [same, h.lookup mem'] at first
  exact Prod.ext same (Option.some.inj first).symm

/-- A finished request leaves the open ones. -/
theorem outstanding_finish (h : l.Sound) (found : l.requests.lookup id = some ref) :
    l.outstanding ~ ref :: (l.finish id ref).outstanding := by
  have member := h.enrolled _ (Assoc.mem_of_lookup found)
  have distinct : l.outstanding.Nodup := h.once.filter _
  have shorter : (l.finish id ref).outstanding = l.outstanding.erase ref := by
    rw [distinct.erase_eq_filter]
    simp only [outstanding, finish, List.filter_filter]
    refine List.filter_congr fun r _ => ?_
    by_cases same : r = ref
    · simp [same]
    · simp [same]
  rw [shorter]
  exact List.perm_cons_erase member

/-- A new entry touches nothing the ledger speaks of. -/
theorem slot_open (h : l.Sound) {r : Nat} (known : r ∈ l.accepted) (id size : Nat) :
    (l.open_ id size).slot r = l.slot r ∧ (l.open_ id size).id r = l.id r := by
  have other : r ≠ l.submitted := (h.below r (.inl known)).ne
  exact ⟨Function.update_of_ne other _ _, Function.update_of_ne other _ _⟩

theorem reject (h : l.Sound) (id size : Nat) :
    Sound { l.open_ id size with completed := l.completed ++ [l.submitted] } := by
  have same : ({ l.open_ id size with completed := l.completed ++ [l.submitted] } :
      Ledger).outstanding = l.outstanding := by
    refine List.filter_congr fun r known => ?_
    have other : r ≠ l.submitted := (h.below r (.inl known)).ne
    simp [other]
  have accepted : ∀ {r}, r ∈ l.outstanding → r ∈ l.accepted := fun mem => (mem_outstanding.mp mem).1
  refine ⟨?_, h.once, ?_, h.keys, ?_, ?_, ?_, ?_, ?_, h.line⟩
  · intro r known
    simp only [open_, List.mem_append, List.mem_singleton] at known ⊢
    obtain old | old | rfl := known
    · exact (h.below r (.inl old)).trans (Nat.lt_succ_self _)
    · exact (h.below r (.inr old)).trans (Nat.lt_succ_self _)
    · exact Nat.lt_succ_self _
  · refine h.completedOnce.append (List.nodup_singleton _) ?_
    rw [List.disjoint_singleton]
    exact fun mem => (h.below _ (.inr mem)).ne rfl
  · intro p mem
    exact (h.slot_open (accepted (h.enrolled p mem)) id size).2.trans (h.ids p mem)
  · intro p mem
    rw [same]
    exact h.enrolled p mem
  · intro p mem slot
    have kept := (h.slot_open (accepted (h.enrolled p mem)) id size).1
    exact h.queued p mem (kept.symm.trans slot)
  · intro r mem
    obtain ⟨out, slot⟩ := h.waiting r mem
    rw [same]
    exact ⟨out, (h.slot_open (accepted out) id size).1.trans slot⟩
  · intro r mem
    obtain ⟨out, slot, apart⟩ := h.coming r mem
    rw [same]
    exact ⟨out, (h.slot_open (accepted out) id size).1.trans slot, apart⟩

theorem accept (h : l.Sound) (id size : Nat) {coming : List Nat}
    (last : coming ~ l.submitted :: l.coming) :
    Sound { l.open_ id size with accepted := l.accepted ++ [l.submitted], coming := coming } := by
  have fresh : l.submitted ∉ l.accepted ∧ l.submitted ∉ l.completed :=
    ⟨fun mem => (h.below _ (.inl mem)).ne rfl, fun mem => (h.below _ (.inr mem)).ne rfl⟩
  have accepted : ∀ {r}, r ∈ l.outstanding → r ∈ l.accepted := fun mem => (mem_outstanding.mp mem).1
  have longer : ∀ {r}, r ∈ l.outstanding → r ∈ ({ l.open_ id size with
      accepted := l.accepted ++ [l.submitted], coming := coming } : Ledger).outstanding := by
    intro r mem
    obtain ⟨old, incomplete⟩ := mem_outstanding.mp mem
    exact mem_outstanding.mpr ⟨List.mem_append_left _ old, incomplete⟩
  refine ⟨?_, ?_, h.completedOnce, h.keys, ?_, ?_, ?_, ?_, ?_, ?_⟩
  · intro r known
    simp only [open_, List.mem_append, List.mem_singleton] at known ⊢
    obtain (old | rfl) | old := known
    · exact (h.below r (.inl old)).trans (Nat.lt_succ_self _)
    · exact Nat.lt_succ_self _
    · exact (h.below r (.inr old)).trans (Nat.lt_succ_self _)
  · exact h.once.append (List.nodup_singleton _) (List.disjoint_singleton.mpr fresh.1)
  · intro p mem
    exact (h.slot_open (accepted (h.enrolled p mem)) id size).2.trans (h.ids p mem)
  · intro p mem
    exact longer (h.enrolled p mem)
  · intro p mem slot
    have kept := (h.slot_open (accepted (h.enrolled p mem)) id size).1
    exact h.queued p mem (kept.symm.trans slot)
  · intro r mem
    obtain ⟨out, slot⟩ := h.waiting r mem
    exact ⟨longer out, (h.slot_open (accepted out) id size).1.trans slot⟩
  · intro r mem
    obtain rfl | old := List.mem_cons.mp (last.subset mem)
    · refine ⟨mem_outstanding.mpr ⟨by simp, fresh.2⟩, Function.update_self _ _ _, ?_⟩
      intro p mem same
      exact fresh.1 (same ▸ accepted (h.enrolled p mem))
    · obtain ⟨out, slot, apart⟩ := h.coming r old
      exact ⟨longer out, (h.slot_open (accepted out) id size).1.trans slot, apart⟩
  · refine ((last.append_right _).nodup_iff).mpr (List.nodup_cons.mpr ⟨?_, h.line⟩)
    intro mem
    obtain old | old := List.mem_append.mp mem
    · exact fresh.1 (accepted (h.coming _ old).1)
    · exact fresh.1 (accepted (h.waiting _ old).1)

theorem reorder (h : l.Sound) {coming : List Nat} (same : coming ~ l.coming) :
    Sound { l with coming := coming } :=
  ⟨h.below, h.once, h.completedOnce, h.keys, h.ids, h.enrolled, h.queued, h.waiting,
    fun r mem => h.coming r (same.subset mem), ((same.append_right _).nodup_iff).mpr h.line⟩

theorem enroll (h : l.Sound) {coming : List Nat} (next : l.coming ~ ref :: coming) :
    Sound { l with
      coming := coming
      requests := if (l.requests.lookup (l.id ref)).isSome then l.requests
        else l.requests ++ [(l.id ref, ref)]
      waiting := l.waiting ++ [ref] } := by
  obtain ⟨out, unassigned, apart⟩ := h.coming ref (next.symm.subset (by simp))
  have line : (ref :: coming ++ l.waiting).Nodup := ((next.append_right _).nodup_iff).mp h.line
  have distinct : (coming ++ (l.waiting ++ [ref])).Nodup := by
    rw [← List.append_assoc, (List.perm_append_singleton _ _).nodup_iff]
    exact line
  have absent : ref ∉ coming := by
    intro mem
    exact (List.nodup_cons.mp line).1 (List.mem_append_left _ mem)
  have waits : ∀ r ∈ l.waiting ++ [ref], r ∈ l.outstanding ∧ l.slot r = none := by
    intro r mem
    obtain old | new := List.mem_append.mp mem
    · exact h.waiting r old
    · rw [List.mem_singleton.mp new]
      exact ⟨out, unassigned⟩
  by_cases taken : (l.requests.lookup (l.id ref)).isSome
  · rw [if_pos taken]
    exact ⟨h.below, h.once, h.completedOnce, h.keys, h.ids, h.enrolled,
      fun p mem slot => List.mem_append_left _ (h.queued p mem slot), waits,
      fun r mem => h.coming r (next.symm.subset (by simp [mem])), distinct⟩
  · rw [if_neg taken]
    have free : ∀ p ∈ l.requests, p.1 ≠ l.id ref :=
      Assoc.lookup_eq_none.mp (Option.not_isSome_iff_eq_none.mp taken)
    have split : ∀ {P : Nat × Nat → Prop}, (∀ p ∈ l.requests, P p) → P (l.id ref, ref) →
        ∀ p ∈ l.requests ++ [(l.id ref, ref)], P p := by
      intro P old new p mem
      obtain mem | mem := List.mem_append.mp mem
      · exact old p mem
      · rw [List.mem_singleton.mp mem]
        exact new
    refine ⟨h.below, h.once, h.completedOnce, ?_, split h.ids rfl, split h.enrolled out, ?_, waits,
      ?_, distinct⟩
    · rw [List.map_append]
      refine h.keys.append (List.nodup_singleton _) (List.disjoint_singleton.mpr ?_)
      intro mem
      obtain ⟨p, mem', same⟩ := List.mem_map.mp mem
      exact free p mem' same
    · exact split (fun p mem slot => List.mem_append_left _ (h.queued p mem slot)) (by simp)
    · intro r mem
      obtain ⟨out', slot', apart'⟩ := h.coming r (next.symm.subset (by simp [mem]))
      refine ⟨out', slot', split apart' ?_⟩
      rintro rfl
      exact absent mem

theorem finish (h : l.Sound) (found : l.requests.lookup id = some ref) :
    (l.finish id ref).Sound := by
  have entry := Assoc.mem_of_lookup found
  obtain ⟨accepted, incomplete⟩ := mem_outstanding.mp (h.enrolled _ entry)
  have still : ∀ {r}, r ∈ l.outstanding → r ≠ ref → r ∈ (l.finish id ref).outstanding := by
    intro r mem other
    obtain ⟨known, unfinished⟩ := mem_outstanding.mp mem
    exact mem_outstanding.mpr ⟨known, by simp [Ledger.finish, unfinished, other]⟩
  have kept : ∀ p ∈ (l.finish id ref).requests, p ∈ l.requests ∧ p.1 ≠ id ∧ p.2 ≠ ref := by
    intro p mem
    obtain ⟨old, other⟩ := List.mem_filter.mp mem
    rw [decide_eq_true_eq] at other
    refine ⟨old, other, fun same => other ?_⟩
    rw [← h.ids p old, same]
    exact h.ids _ entry
  have waits : ∀ r ∈ (l.finish id ref).waiting, r ∈ l.waiting ∧ r ≠ ref := by
    intro r mem
    simp only [Ledger.finish] at mem
    split at mem
    case h_1 i slot =>
      refine ⟨mem, ?_⟩
      rintro rfl
      simp [(h.waiting _ mem).2] at slot
    case h_2 =>
      obtain ⟨old, other⟩ := List.mem_filter.mp mem
      refine ⟨old, ?_⟩
      rintro rfl
      simp [h.ids _ entry] at other
  refine ⟨?_, h.once, ?_, ?_, ?_, ?_, ?_, ?_, ?_, ?_⟩
  · intro r known
    simp only [Ledger.finish, List.mem_append, List.mem_singleton] at known
    obtain old | old | rfl := known
    · exact h.below r (.inl old)
    · exact h.below r (.inr old)
    · exact h.below r (.inl accepted)
  · exact h.completedOnce.append (List.nodup_singleton _) (List.disjoint_singleton.mpr incomplete)
  · exact (List.filter_sublist.map Prod.fst).nodup h.keys
  · intro p mem
    exact h.ids p (kept p mem).1
  · intro p mem
    obtain ⟨old, -, other⟩ := kept p mem
    exact still (h.enrolled p old) other
  · intro p mem slot
    obtain ⟨old, other, -⟩ := kept p mem
    have queued := h.queued p old slot
    simp only [Ledger.finish]
    split
    · exact queued
    · exact List.mem_filter.mpr ⟨queued, by simpa [h.ids p old] using other⟩
  · intro r mem
    obtain ⟨old, other⟩ := waits r mem
    exact ⟨still (h.waiting r old).1 other, (h.waiting r old).2⟩
  · intro r mem
    obtain ⟨out, slot, apart⟩ := h.coming r mem
    exact ⟨still out (apart _ entry).symm, slot, fun p mem => apart p (kept p mem).1⟩
  · refine (List.Sublist.append_left ?_ _).nodup h.line
    simp only [Ledger.finish]
    split
    · exact .refl _
    · exact List.filter_sublist

theorem skip (h : l.Sound) {rest : List Nat} (head : l.waiting = ref :: rest)
    (gone : l.requests.lookup (l.id ref) = none) : Sound { l with waiting := rest } := by
  have queued : ∀ p ∈ l.requests, l.slot p.2 = none → p.2 ∈ rest := by
    intro p mem slot
    have waits := h.queued p mem slot
    rw [head] at waits
    refine (List.mem_cons.mp waits).resolve_left fun same => ?_
    exact Assoc.lookup_eq_none.mp gone p mem (same ▸ (h.ids p mem).symm)
  refine ⟨h.below, h.once, h.completedOnce, h.keys, h.ids, h.enrolled, queued,
    fun r mem => h.waiting r ?_, h.coming, ?_⟩
  · rw [head]
    exact List.mem_cons_of_mem _ mem
  · refine (List.Sublist.append_left ?_ _).nodup h.line
    rw [head]
    exact List.sublist_cons_self _ _

theorem assign (h : l.Sound) (i : Nat) {rest : List Nat} (head : l.waiting = ref :: rest) :
    Sound { l with waiting := rest, slot := Function.update l.slot ref (some i) } := by
  have line := h.line
  rw [head] at line
  have apart : ref ∉ l.coming ∧ ref ∉ rest := by
    rw [List.perm_middle.nodup_iff, List.nodup_cons, List.mem_append, not_or] at line
    exact line.1
  refine ⟨h.below, h.once, h.completedOnce, h.keys, h.ids, h.enrolled, ?_, ?_, ?_, ?_⟩
  · intro p mem slot
    have other : p.2 ≠ ref := by
      intro same
      simp [same] at slot
    have waits := h.queued p mem ((Function.update_of_ne other _ _).symm.trans slot)
    rw [head] at waits
    exact (List.mem_cons.mp waits).resolve_left other
  · intro r mem
    obtain ⟨out, slot⟩ := h.waiting r (head ▸ List.mem_cons_of_mem _ mem)
    have other : r ≠ ref := fun same => apart.2 (same ▸ mem)
    exact ⟨out, (Function.update_of_ne other _ _).trans slot⟩
  · intro r mem
    obtain ⟨out, slot, unlisted⟩ := h.coming r mem
    have other : r ≠ ref := fun same => apart.1 (same ▸ mem)
    exact ⟨out, (Function.update_of_ne other _ _).trans slot, unlisted⟩
  · exact (List.Sublist.append_left (List.sublist_cons_self _ _) _).nodup line

theorem step (h : l.Sound) (s : l.Step l') : l'.Sound := by
  cases s with
  | reject id size => exact h.reject id size
  | accept id size last => exact h.accept id size last
  | reorder same => exact h.reorder same
  | enroll next => exact h.enroll next
  | finish found => exact h.finish found
  | skip head gone => exact h.skip head gone
  | assign i head => exact h.assign i head

end Sound

/-- No two admitted requests have the same identifier. -/
def Distinct (l : Ledger) : Prop :=
  ∀ a ∈ l.accepted, ∀ b ∈ l.accepted, l.id a = l.id b → a = b

instance (l : Ledger) : Decidable l.Distinct :=
  inferInstanceAs (Decidable (∀ a ∈ l.accepted, ∀ b ∈ l.accepted, l.id a = l.id b → a = b))

/-- Every open request is on its way to the loop or in the map. -/
def Complete (l : Ledger) : Prop :=
  ∀ r ∈ l.outstanding, r ∈ l.coming ∨ (l.id r, r) ∈ l.requests

/-- What has been admitted stays admitted under its identifier. -/
theorem Step.accepted (h : l.Sound) (s : l.Step l') {r : Nat} (mem : r ∈ l.accepted) :
    r ∈ l'.accepted ∧ l'.id r = l.id r := by
  cases s with
  | reject id size => exact ⟨mem, (h.slot_open mem id size).2⟩
  | accept id size _ => exact ⟨List.mem_append_left _ mem, (h.slot_open mem id size).2⟩
  | _ => exact ⟨mem, rfl⟩

/-- The calls of `Submit` so far are among those of the whole run. -/
theorem Distinct.before (h : l.Sound) (s : l.Step l') (distinct : l'.Distinct) : l.Distinct := by
  intro a mem b mem' same
  obtain ⟨later, kept⟩ := s.accepted h mem
  obtain ⟨later', kept'⟩ := s.accepted h mem'
  exact distinct a later b later' (kept.trans (same.trans kept'.symm))

theorem Complete.step (h : l.Sound) (distinct : l'.Distinct) (complete : l.Complete)
    (s : l.Step l') : l'.Complete := by
  cases s with
  | reject key size =>
    intro r mem
    obtain ⟨accepted, incomplete⟩ := mem_outstanding.mp mem
    simp only [List.mem_append, not_or] at incomplete
    have same := (h.slot_open accepted key size).2
    obtain old | old := complete r (mem_outstanding.mpr ⟨accepted, incomplete.1⟩)
    · exact .inl old
    · exact .inr (same ▸ old)
  | accept key size last =>
    intro r mem
    obtain ⟨accepted, incomplete⟩ := mem_outstanding.mp mem
    obtain known | new := List.mem_append.mp accepted
    · have same := (h.slot_open known key size).2
      obtain old | old := complete r (mem_outstanding.mpr ⟨known, incomplete⟩)
      · exact .inl (last.symm.subset (List.mem_cons_of_mem _ old))
      · exact .inr (same ▸ old)
    · rw [List.mem_singleton.mp new]
      exact .inl (last.symm.subset List.mem_cons_self)
  | reorder same =>
    exact fun r mem => (complete r mem).imp (fun old => same.symm.subset old) fun old => old
  | @enroll ref coming next =>
    intro r mem
    obtain ⟨out, -, apart⟩ := h.coming ref (next.symm.subset (by simp))
    have known := (mem_outstanding.mp out).1
    -- nobody else has the identifier of the new request
    have free : (l.requests.lookup (l.id ref)) = none := by
      rw [Assoc.lookup_eq_none]
      intro p entry same
      refine apart p entry (distinct _ (mem_outstanding.mp (h.enrolled p entry)).1 _ known ?_)
      exact (h.ids p entry).trans same
    simp only [free, Option.isSome_none, Bool.false_eq_true, if_false]
    obtain old | old := complete r mem
    · obtain rfl | later := List.mem_cons.mp (next.subset old)
      · exact .inr (by simp)
      · exact .inl later
    · exact .inr (List.mem_append_left _ old)
  | @finish key ref found =>
    intro r mem
    obtain ⟨accepted, incomplete⟩ := mem_outstanding.mp mem
    simp only [Ledger.finish, List.mem_append, List.mem_singleton, not_or] at incomplete
    refine (complete r (mem_outstanding.mpr ⟨accepted, incomplete.1⟩)).imp (fun old => old) ?_
    intro old
    refine List.mem_filter.mpr ⟨old, decide_eq_true fun same => incomplete.2 ?_⟩
    have entry := h.entry_unique old (Assoc.mem_of_lookup found) same
    exact congrArg Prod.snd entry
  | skip head gone => exact complete
  | assign i head => exact complete

end Ledger

namespace State

variable {s s' : State}

/-- The requests whose task is in the queue of the loop. -/
def admits (s : State) : List Nat :=
  s.loop.tasks.filterMap fun
    | .accept ref => some ref
    | _ => none

theorem mem_admits {s : State} {ref : Nat} : ref ∈ s.admits ↔ .accept ref ∈ s.loop.tasks := by
  rw [admits, List.mem_filterMap]
  constructor
  · rintro ⟨task, mem, same⟩
    cases task with
    | accept r => exact Option.some.inj same ▸ mem
    | pump i => cases same
    | drain => cases same
  · exact fun mem => ⟨_, mem, rfl⟩

/-- The requests on their way to the loop. -/
def coming (s : State) : List Nat := s.posting ++ s.admits

theorem head_coming {s : State} {ref : Nat} {rest : List Task}
    (head : s.loop.tasks = .accept ref :: rest) : ref ∈ s.coming :=
  List.mem_append_right _ (mem_admits.mpr (head ▸ List.mem_cons_self))

def ledger (s : State) : Ledger where
  submitted := s.submitted
  accepted := s.accepted
  completed := s.completed.map Prod.fst
  requests := s.requests
  waiting := s.waiting
  coming := s.coming
  id r := (s.heap r).id
  size r := (s.heap r).bytes.length
  slot r := (s.heap r).slot

/-- Fields of the objects that the ledger does not speak of may change. -/
theorem ledger_congr (submitted : s'.submitted = s.submitted) (accepted : s'.accepted = s.accepted)
    (completed : s'.completed = s.completed) (requests : s'.requests = s.requests)
    (waiting : s'.waiting = s.waiting) (posting : s'.posting = s.posting)
    (admits : s'.admits = s.admits) (ids : ∀ r, (s'.heap r).id = (s.heap r).id)
    (sizes : ∀ r, (s'.heap r).bytes = (s.heap r).bytes)
    (slots : ∀ r, (s'.heap r).slot = (s.heap r).slot) : s'.ledger = s.ledger := by
  simp only [ledger, coming, submitted, accepted, completed, requests, waiting, posting, admits,
    ids, sizes, slots]

/-- A field of the objects after one of them has changed. -/
theorem heap_update {α : Type} (f : Request → α) (heap : Nat → Request) (ref : Nat) (r : Request) :
    (fun r' => f (Function.update heap ref r r')) =
      Function.update (fun r' => f (heap r')) ref (f r) :=
  Function.comp_update f heap ref r

theorem ledger_open (id : Nat) (bytes : Bytes) :
    ({ s with
        submitted := s.submitted + 1
        heap := Function.update s.heap s.submitted { id, bytes } } : State).ledger =
      s.ledger.open_ id bytes.length := by
  simp only [ledger, Ledger.open_, heap_update Request.id, heap_update Request.slot,
    heap_update fun r => r.bytes.length]
  rfl

theorem ledger_finish (id ref : Nat) (outcome : Outcome) :
    ((s.release id ref).record ref outcome).ledger = s.ledger.finish id ref := by
  simp only [ledger, Ledger.finish, record, List.map_append, List.map_cons, List.map_nil]
  rfl

theorem ledger_assign (t : AsyncTransport ε) (i ref : Nat) (rest : List Nat) :
    (s.assign t i ref rest).ledger =
      { s.ledger with waiting := rest, slot := Function.update s.ledger.slot ref (some i) } := by
  simp only [ledger, assign, heap_update Request.id, heap_update Request.slot,
    heap_update fun r => r.bytes.length, Function.update_eq_self]
  rfl

theorem ledger_enroll (ref : Nat) (rest : List Task)
    (head : s.loop.tasks = .accept ref :: rest) :
    s.ledger.Step ((s.setTasks rest).enroll ref).ledger := by
  have next : s.coming ~ ref :: (s.setTasks rest).coming := by
    simp only [coming, admits, head, setTasks, List.filterMap_cons]
    exact List.perm_middle
  have same : ((s.setTasks rest).enroll ref).ledger = { s.ledger with
      coming := (s.setTasks rest).coming
      requests := if (s.ledger.requests.lookup (s.ledger.id ref)).isSome then s.ledger.requests
        else s.ledger.requests ++ [(s.ledger.id ref, ref)]
      waiting := s.ledger.waiting ++ [ref] } := by
    simp only [ledger, enroll, heap_update Request.id, heap_update Request.slot,
      heap_update fun r => r.bytes.length, Function.update_eq_self]
    rfl
  rw [same]
  exact .enroll next

theorem ledger_opened (i : Nat) (connecting : Bool) :
    (s.opened i connecting).ledger = s.ledger := by
  unfold opened
  split <;> rfl

theorem ledger_clear (i : Nat) : (s.clear i).ledger = s.ledger := by
  unfold clear
  split <;> rfl

theorem ledger_schedule (i : Nat) : (s.schedule i).ledger = s.ledger := by
  unfold schedule
  split
  · rfl
  · refine ledger_congr rfl rfl rfl rfl rfl rfl ?_ (fun _ => rfl) (fun _ => rfl) (fun _ => rfl)
    simp [admits, Reactor.post]

theorem ledger_wrote (i ref : Nat) (rest : List Nat) (n : Nat) :
    (s.wrote i ref rest n).ledger = s.ledger := by
  unfold wrote
  split
  · exact ledger_congr rfl rfl rfl rfl rfl rfl rfl (update_field Request.id (by rfl))
      (update_field Request.bytes (by rfl)) (update_field Request.slot (by rfl))
  · rfl

end State

/-- **Refinement.** A step of the transport is a step of its ledger, or the ledger does not
see it. -/
theorem Step.ledger {x x' : Phase} {s s' : State} (h : Step t (x, s) (x', s')) :
    s'.ledger = s.ledger ∨ s.ledger.Step s'.ledger := by
  cases h with
  | @reject _ _ id bytes _ =>
    right
    have same : (s.reject t id bytes).ledger = { s.ledger.open_ id bytes.length with
        completed := s.ledger.completed ++ [s.ledger.submitted] } := by
      rw [← State.ledger_open]
      simp only [State.ledger, State.reject, List.map_append, List.map_cons, List.map_nil]
      rfl
    rw [same]
    exact .reject id bytes.length
  | @accept _ _ id bytes _ =>
    right
    have same : (s.accept t id bytes).ledger = { s.ledger.open_ id bytes.length with
        accepted := s.ledger.accepted ++ [s.ledger.submitted]
        coming := s.posting ++ [s.submitted] ++ s.admits } := by
      rw [← State.ledger_open]
      rfl
    rw [same]
    refine .accept id bytes.length ?_
    rw [List.append_assoc]
    exact List.perm_middle
  | @post _ _ ref mem =>
    right
    have same : (s.post ref).ledger = { s.ledger with
        coming := s.posting.erase ref ++ (s.admits ++ [ref]) } := by
      simp only [State.ledger, State.coming, State.post, State.admits, Reactor.post,
        List.filterMap_append]
      rfl
    rw [same]
    refine .reorder ?_
    have first := (List.perm_cons_erase mem).append_right s.admits
    refine List.Perm.trans ?_ first.symm
    rw [← List.append_assoc]
    exact List.perm_append_singleton _ _
  | @destroy _ _ _ _ =>
    left
    refine State.ledger_congr rfl rfl rfl rfl rfl rfl ?_ (fun _ => rfl) (fun _ => rfl)
      (fun _ => rfl)
    simp [State.admits, Reactor.post]
  | enroll head => exact .inr (State.ledger_enroll _ _ head)
  | @resume _ _ i rest head =>
    left
    refine State.ledger_congr rfl rfl rfl rfl rfl rfl ?_ (fun _ => rfl) (fun _ => rfl)
      (fun _ => rfl)
    simp [State.admits, State.setTasks, State.unschedule, State.setSocket, head]
  | @drain _ _ rest head =>
    left
    refine State.ledger_congr rfl rfl rfl rfl rfl rfl ?_ (fun _ => rfl) (fun _ => rfl)
      (fun _ => rfl)
    simp [State.admits, State.setTasks, head]
  | expire found _ =>
    right
    rw [State.ledger_finish]
    exact .finish found
  | @retire _ _ id ref i found _ _ _ =>
    right
    rw [State.ledger_finish]
    have finished : (s.retire i id).ledger.Step ((s.retire i id).ledger.finish id ref) :=
      .finish found
    exact finished
  | fail found _ _ =>
    right
    rw [State.ledger_finish]
    exact .finish found
  | @deliver _ _ i size id ref response _ _ _ found _ =>
    right
    rw [State.ledger_finish]
    have finished : (s.take t i size ref response).ledger.Step
        ((s.take t i size ref response).ledger.finish id ref) := .finish found
    exact finished
  | refuse _ refuses =>
    left
    cases refuses with
    | _ => rfl
  | clear i => exact .inl (State.ledger_clear i)
  | skip head gone => exact .inr (.skip head gone)
  | @assign _ _ i ref rest _ head _ _ _ =>
    right
    rw [State.ledger_assign]
    exact .assign i head
  | @connect _ _ i ref rest connecting _ _ head _ _ _ =>
    right
    rw [State.ledger_opened, State.ledger_assign]
    exact .assign i head
  | @refused _ _ i ref rest made _ head _ _ _ =>
    right
    rw [State.ledger_clear]
    have same : (if made then (s.assign t i ref rest).socketMade i
        else s.assign t i ref rest).ledger = (s.assign t i ref rest).ledger := by
      split <;> rfl
    rw [same, State.ledger_assign]
    exact .assign i head
  | wrote _ _ _ _ => exact .inl (State.ledger_wrote _ _ _ _)
  | schedule i => exact .inl (State.ledger_schedule i)
  | _ => exact .inl rfl

end KVRPC.Client
