import EarlyMemory.Proofs.Paging.Attaching
import EarlyMemory.Proofs.Paging.Refinement

/-!
# Walks into the window

Once the recursive map is installed, a walk that starts at the slot stays at the root. So the
path of an address is a path of the hierarchy's own, followed by the slot as often as the walk
takes it. Where the own path leads is what the hardware translates the address to: the leaf's
frame if the slot is not taken, and a table otherwise.
-/

namespace EarlyMemory

namespace Hierarchy

variable {root : Frame} {slot : TableIndex} {memory : Memory} {path left right : TablePath}

/-! ## Own parts of paths -/

theorem exists_own (root : Frame) (slot : TableIndex) (path : TablePath) :
    ∃ own count, path = own ++ List.replicate count slot ∧ (without root slot).Owns own := by
  induction path with
  | nil => exact ⟨[], 0, rfl, owns_nil⟩
  | cons index above induction =>
      rcases induction with ⟨own, count, same, owns⟩
      cases own with
      | cons next rest =>
          exact ⟨index :: next :: rest, count, by rw [same]; rfl,
            owns.cons (List.cons_ne_nil _ _)⟩
      | nil =>
          rw [List.nil_append] at same
          by_cases isSlot : index = slot
          · exact ⟨[], count + 1, by rw [same, isSlot, List.nil_append, List.replicate_succ],
              owns_nil⟩
          · refine ⟨[index], count, by rw [same, List.singleton_append], ?_⟩
            intro last isLast
            cases isLast
            exact fun hidden => isSlot (Option.some.inj hidden).symm

theorem eq_nil_of_owns (owns : (without root slot).Owns path)
    (same : ∀ index ∈ path, index = slot) : path = [] := by
  cases isLast : path.getLast? with
  | none => exact List.getLast?_eq_none_iff.1 isLast
  | some last =>
      refine absurd ?_ (owns last isLast)
      rw [same last (List.mem_of_getLast? isLast)]

theorem own_unique {one other : Nat} (leftOwns : (without root slot).Owns left)
    (rightOwns : (without root slot).Owns right)
    (same : left ++ List.replicate one slot = right ++ List.replicate other slot) :
    left = right := by
  induction left generalizing right with
  | nil =>
      refine (eq_nil_of_owns rightOwns fun index member => ?_).symm
      have isMember : index ∈ List.replicate one slot := by
        rw [← List.nil_append (List.replicate one slot), same]
        exact List.mem_append_left _ member
      exact List.eq_of_mem_replicate isMember
  | cons index above induction =>
      cases right with
      | nil =>
          refine eq_nil_of_owns leftOwns fun next member => ?_
          have isMember : next ∈ List.replicate other slot := by
            rw [← List.nil_append (List.replicate other slot), ← same]
            exact List.mem_append_left _ member
          exact List.eq_of_mem_replicate isMember
      | cons next rest =>
          rw [List.cons_append, List.cons_append, List.cons.injEq] at same
          rw [same.1, induction leftOwns.tail rightOwns.tail same.2]

/-! ## Where paths lead -/

theorem tableAt_eq_map_entryAt (hierarchy : Hierarchy) (memory : Memory) (nonempty : path ≠ []) :
    hierarchy.tableAt memory path = (hierarchy.entryAt memory path).map PageEntry.frame := by
  cases path with
  | nil => exact absurd rfl nonempty
  | cons index above =>
      cases found : hierarchy.tableAt memory above with
      | none => rw [tableAt_cons_of_none found, entryAt_cons_of_none found, Option.map_none]
      | some table => rw [tableAt_cons_of_some found, entryAt_cons_of_some found]

/-- A walk that starts at the slot stays at the root. -/
theorem tableAt_append_slot (installed : RecursiveMap.isInstalled memory root = true)
    (path : TablePath) (count : Nat) :
    (without root RecursiveMap.slot).tableAt memory
        (path ++ List.replicate count RecursiveMap.slot) =
      (without root RecursiveMap.slot).tableAt memory path := by
  induction path with
  | nil =>
      have steps := RecursiveMap.steps_of_isInstalled installed
      rw [List.nil_append]
      induction count with
      | zero => rfl
      | succ count induction =>
          exact tableAt_cons_eq_some.2 ⟨_, induction, steps.present, steps.frame⟩
  | cons index above induction => rw [List.cons_append, tableAt, tableAt, induction]

theorem exists_own_path (root : Frame) (slot : TableIndex) (level : Level)
    (address : VirtualAddress) :
    ∃ own count, level.path address = own ++ List.replicate count slot ∧
      own.length ≤ level.depth ∧ (without root slot).Owns own := by
  rcases exists_own root slot (level.path address) with ⟨own, count, same, owns⟩
  have length := congrArg List.length same
  rw [Level.length_path, List.length_append] at length
  exact ⟨own, count, same, by omega, owns⟩

/-- The tables on any walk are tables of the hierarchy's own. -/
theorem IsTree.hasTables_shown (tree : (without root RecursiveMap.slot).IsTree memory)
    (installed : RecursiveMap.isInstalled memory root = true) (address : VirtualAddress) :
    (shown root).HasTables memory address .pt := by
  intro level shallow frame found
  rcases exists_own_path root RecursiveMap.slot level address with ⟨own, count, same, short, owns⟩
  rw [← tableAt_eq_shown (without root RecursiveMap.slot), same, tableAt_append_slot installed]
    at found
  exact tree.inside frame ⟨own, Nat.le_trans short shallow, owns, found⟩

end Hierarchy

open Hierarchy (without)

namespace RecursiveMap

theorem leafPath_tableAddress (level : Level) (address : VirtualAddress) :
    (tableAddress level address).leafPath =
      level.path address ++ List.replicate (4 - level.depth) slot := by
  unfold Address.leafPath Level.path
  cases level with
  | pml4 =>
      rcases index_tableAddress_pml4 address with ⟨one, two, three, four⟩
      rw [one, two, three, four]
      rfl
  | pdpt =>
      rcases index_tableAddress_pdpt address with ⟨one, two, three, four⟩
      rw [one, two, three, four]
      rfl
  | pd =>
      rcases index_tableAddress_pd address with ⟨one, two, three, four⟩
      rw [one, two, three, four]
      rfl
  | pt =>
      rcases index_tableAddress_pt address with ⟨one, two, three, four⟩
      rw [one, two, three, four]
      rfl

end RecursiveMap

theorem Memory.translate_eq_of_hasTables {memory : Memory} {root : Frame}
    (addressable : memory.IsAddressable) (installed : RecursiveMap.isInstalled memory root = true)
    (address : VirtualAddress) (tables : (Hierarchy.shown root).HasTables memory address .pt)
    {own : TablePath} {count : Nat}
    (path : address.leafPath = own ++ List.replicate count RecursiveMap.slot) :
    memory.translate root address =
      .ok (((without root RecursiveMap.slot).tableAt memory own).map
        fun frame => frame.join (address.offset .small)) := by
  have walked := Hierarchy.walk_eq addressable tables
  have leads := Hierarchy.tableAt_eq_map_entryAt (Hierarchy.shown root) memory
    (List.cons_ne_nil (Level.pt.index address) (Level.pt.path address))
  rw [← Address.leafPath, path,
    ← Hierarchy.tableAt_eq_shown (without root RecursiveMap.slot),
    Hierarchy.tableAt_append_slot installed] at leads
  rw [Memory.translate, walked, leads, ← path, Option.map_map]
  rfl

theorem Memory.translate_eq_tableAt {memory : Memory} {root : Frame}
    (addressable : memory.IsAddressable)
    (tree : (without root RecursiveMap.slot).IsTree memory)
    (installed : RecursiveMap.isInstalled memory root = true) (address : VirtualAddress)
    {own : TablePath} {count : Nat}
    (path : address.leafPath = own ++ List.replicate count RecursiveMap.slot) :
    memory.translate root address =
      .ok (((without root RecursiveMap.slot).tableAt memory own).map
        fun frame => frame.join (address.offset .small)) :=
  translate_eq_of_hasTables addressable installed address (tree.hasTables_shown installed address)
    path

theorem Address.pageKey_eq_iff {root : Frame} {slot : TableIndex} {one other : VirtualAddress}
    {left right : TablePath} {leftCount rightCount : Nat}
    (leftPath : one.leafPath = left ++ List.replicate leftCount slot)
    (leftOwns : (without root slot).Owns left)
    (rightPath : other.leafPath = right ++ List.replicate rightCount slot)
    (rightOwns : (without root slot).Owns right) :
    one.pageKey = other.pageKey ↔ left = right := by
  rw [← Address.leafPath_eq_iff]
  constructor
  · intro same
    rw [leftPath, rightPath] at same
    exact Hierarchy.own_unique leftOwns rightOwns same
  · rintro rfl
    have sameCount : leftCount = rightCount := by
      have leftLength := congrArg List.length leftPath
      have rightLength := congrArg List.length rightPath
      rw [List.length_append, List.length_replicate, Address.length_leafPath]
        at leftLength rightLength
      omega
    rw [leftPath, rightPath, sameCount]

end EarlyMemory
