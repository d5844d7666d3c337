import KVRPC.Library.Assoc
import Mathlib.Data.List.Sort

/-!
# Sorted sequences with an index

A multimap whose nodes are found through a second table, from identifiers to the addresses of
the nodes. `Indexed` says that the two tables are in bijection.
-/
namespace KVRPC.Library

open scoped List

section Multimap

variable {ν κ : Type*} [LinearOrder κ] (key : ν → κ)

/-- The nodes stand in the order of their keys. -/
def Ascending (nodes : List ν) : Prop := nodes.Pairwise fun m n => key m ≤ key n

/-- A new node goes behind those with the same key. -/
def emplace (n : ν) (nodes : List ν) : List ν := nodes.orderedInsert (fun a b => key a < key b) n

theorem emplace_perm (n : ν) (nodes : List ν) : emplace key n nodes ~ n :: nodes :=
  List.perm_orderedInsert _ n nodes

variable {key} {n : ν} {nodes : List ν}

theorem Ascending.emplace (h : Ascending key nodes) : Ascending key (emplace key n nodes) := by
  induction nodes with
  | nil => exact List.pairwise_singleton _ _
  | cons m nodes ih =>
    obtain ⟨least, sorted⟩ := List.pairwise_cons.mp h
    unfold Library.emplace
    rw [List.orderedInsert_cons]
    split_ifs with before
    · refine List.pairwise_cons.mpr ⟨fun x mem => ?_, h⟩
      obtain rfl | later := List.mem_cons.mp mem
      · exact before.le
      · exact before.le.trans (least x later)
    · refine List.pairwise_cons.mpr ⟨fun x mem => ?_, ih sorted⟩
      obtain rfl | old := List.mem_cons.mp ((emplace_perm key n nodes).subset mem)
      · exact not_lt.mp before
      · exact least x old

end Multimap

section Index

variable {ν ι α : Type*} (id : ν → ι) (address : ν → α)

structure Indexed (nodes : List ν) (index : List (ι × α)) : Prop where
  entries : index ~ nodes.map fun n => (id n, address n)
  ids : (nodes.map id).Nodup
  addresses : (nodes.map address).Nodup

namespace Indexed

variable {id address} {nodes nodes' : List ν} {index : List (ι × α)} {n : ν} {i : ι} {a : α}

theorem nil : Indexed id address [] [] := ⟨.refl _, List.nodup_nil, List.nodup_nil⟩

theorem keys (h : Indexed id address nodes index) : index.map Prod.fst ~ nodes.map id := by
  simpa [Function.comp_def] using h.entries.map Prod.fst

variable [DecidableEq ι]

/-- A node is added under an identifier and at an address that are not in use. -/
theorem insert (h : Indexed id address nodes index) (unused : id n ∉ nodes.map id)
    (free : address n ∉ nodes.map address) (added : nodes' ~ n :: nodes) :
    Indexed id address nodes' (index.filter (fun p => p.1 ≠ id n) ++ [(id n, address n)]) := by
  have kept : index.filter (fun p => p.1 ≠ id n) = index := by
    refine List.filter_eq_self.mpr fun p mem => decide_eq_true fun same => ?_
    exact unused (same ▸ h.keys.subset (List.mem_map_of_mem mem))
  refine ⟨?_, ?_, ?_⟩
  · rw [kept]
    have moved := (added.map fun n => (id n, address n)).symm
    exact ((h.entries.append_right _).trans List.perm_append_comm).trans moved
  · exact ((added.map id).nodup_iff).mpr (List.nodup_cons.mpr ⟨unused, h.ids⟩)
  · exact ((added.map address).nodup_iff).mpr (List.nodup_cons.mpr ⟨free, h.addresses⟩)

/-- A node and its entry are removed. -/
theorem remove (h : Indexed id address nodes index) (i : ι) :
    Indexed id address (nodes.filter fun n => id n ≠ i) (index.filter fun p => p.1 ≠ i) := by
  refine ⟨?_, h.ids.sublist (List.filter_sublist.map id),
    h.addresses.sublist (List.filter_sublist.map address)⟩
  refine (h.entries.filter _).trans (.of_eq ?_)
  rw [List.filter_map]
  rfl

/-- Erasing the node at the address found in the index erases the node of that identifier. -/
theorem filter_address [DecidableEq α] (h : Indexed id address nodes index)
    (found : index.lookup i = some a) :
    (nodes.filter fun n => address n ≠ a) = nodes.filter fun n => id n ≠ i := by
  have entry := h.entries.subset (Assoc.mem_of_lookup found)
  obtain ⟨n, mem, same⟩ := List.mem_map.mp entry
  obtain ⟨rfl, rfl⟩ := Prod.mk.inj same
  refine List.filter_congr fun m mem' => ?_
  have iff : address m = address n ↔ id m = id n :=
    ⟨fun at_ => congrArg id (List.inj_on_of_nodup_map h.addresses mem' mem at_),
      fun of_ => congrArg address (List.inj_on_of_nodup_map h.ids mem' mem of_)⟩
  simp [iff]

theorem notMem_of_lookup (h : Indexed id address nodes index) (missed : index.lookup i = none) :
    i ∉ nodes.map id := by
  intro mem
  obtain ⟨p, entry, same⟩ := List.mem_map.mp (h.keys.symm.subset mem)
  exact Assoc.lookup_eq_none.mp missed p entry same

/-- The first node is taken off. -/
theorem tail {rest : List ν} (h : Indexed id address (n :: rest) index) :
    Indexed id address rest (index.filter fun p => p.1 ≠ id n) := by
  have others : (rest.filter fun m => id m ≠ id n) = rest := by
    refine List.filter_eq_self.mpr fun m mem => decide_eq_true fun same => ?_
    exact (List.nodup_cons.mp h.ids).1 (same ▸ List.mem_map_of_mem mem)
  have removed := h.remove (id n)
  rwa [List.filter_cons, if_neg (by simp), others] at removed

end Indexed
end Index
end KVRPC.Library
