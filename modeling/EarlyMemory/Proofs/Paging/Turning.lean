import EarlyMemory.Proofs.Paging.NewTables
import EarlyMemory.Proofs.Paging.Window
import Mathlib.Data.List.DropRight

/-!
# Walks that take the slot

A walk that starts at the slot of the recursive map stays at the root for as long as it takes
the slot. What is left of it is the start of another walk, which does not take the slot: that
for the address with the remaining indices. Both read the same entries and reach the same
tables, only the levels go by other names. So whatever mapping does to the tables for the one
address, going down does for the other, to a level that is as much higher.
-/

namespace EarlyMemory

open Hierarchy (without)

/-! ## Own paths of addresses -/

namespace Address

variable {root : Frame} {address : VirtualAddress} {own : TablePath} {count : Nat}

/-- The path of the leaf of an address without the turns through the slot it starts with. -/
def ownPath (address : VirtualAddress) : TablePath :=
  address.leafPath.rdropWhile (· = RecursiveMap.slot)

theorem owns_ownPath (root : Frame) (address : VirtualAddress) :
    (without root RecursiveMap.slot).Owns address.ownPath := by
  intro index isLast hidden
  rcases List.mem_getLast?_eq_getLast isLast with ⟨nonempty, rfl⟩
  exact List.rdropWhile_last_not _ _ nonempty (decide_eq_true (Option.some.inj hidden).symm)

theorem exists_leafPath_eq (address : VirtualAddress) :
    ∃ count, address.leafPath = address.ownPath ++ List.replicate count RecursiveMap.slot := by
  have turns : ∀ index ∈ address.leafPath.rtakeWhile (· = RecursiveMap.slot),
      index = RecursiveMap.slot := fun index member =>
    by simpa using List.mem_rtakeWhile_imp member
  refine ⟨(address.leafPath.rtakeWhile (· = RecursiveMap.slot)).length, ?_⟩
  rw [← List.eq_replicate_of_mem turns, ownPath, List.rdropWhile_append_rtakeWhile]

theorem ownPath_eq (path : address.leafPath = own ++ List.replicate count RecursiveMap.slot)
    (owns : (without root RecursiveMap.slot).Owns own) : address.ownPath = own := by
  rcases exists_leafPath_eq address with ⟨turns, leafPath⟩
  exact Hierarchy.own_unique (owns_ownPath root address) owns (leafPath.symm.trans path)

theorem length_ownPath_le (address : VirtualAddress) : address.ownPath.length ≤ 4 :=
  (List.rdropWhile_prefix ..).length_le

theorem ownPath_eq_leafPath (outside : Level.pml4.index address ≠ RecursiveMap.slot) :
    address.ownPath = address.leafPath := by
  rw [ownPath, List.rdropWhile_eq_self_iff]
  intro nonempty isSlot
  exact outside (of_decide_eq_true isSlot)

/-- Unless it takes the slot, the walk for an address is part of no other page's walk. -/
theorem ownPath_suffix_iff {page : VirtualAddress}
    (outside : Level.pml4.index address ≠ RecursiveMap.slot) :
    address.ownPath <:+ page.ownPath ↔ page.pageKey = address.pageKey := by
  rw [← leafPath_eq_iff, ownPath_eq_leafPath outside]
  constructor
  · intro through
    have whole : page.ownPath = page.leafPath := (List.rdropWhile_prefix ..).eq_of_length_le
      (through.length_le.trans' (by rw [length_leafPath, length_leafPath]))
    rw [whole] at through
    exact (through.eq_of_length (by rw [length_leafPath, length_leafPath])).symm
  · intro same
    have whole : page.ownPath = address.leafPath := by
      rw [ownPath, same, ← ownPath, ownPath_eq_leafPath outside]
    exact whole ▸ List.suffix_rfl

end Address

namespace RecursiveMap

variable {address : VirtualAddress} {level upper lower : Level}

/-- Whether the walk for an address takes the slot at every level above this one. -/
def Turns (address : VirtualAddress) (level : Level) : Prop :=
  ∀ upper : Level, upper.depth < level.depth → upper.index address = slot

/-- The address whose walk is what is left of another once that has come down to a level. -/
def afterTurns (level : Level) (address : VirtualAddress) : VirtualAddress :=
  .ofNat (address.value <<< (9 * level.depth))

theorem index_afterTurns (depth : lower.depth = level.depth + upper.depth) :
    upper.index (afterTurns level address) = lower.index address := by
  apply Fin.ext
  have bound := address.isLt
  cases level <;> cases upper <;> cases lower <;>
    simp only [Level.depth, reduceCtorEq, Nat.reduceAdd, Nat.reduceEqDiff] at depth <;>
    simp only [Level.val_index, Level.shift, afterTurns, Address.ofNat, Level.depth,
      Nat.shiftLeft_eq, Nat.shiftRight_eq_div_pow] at bound ⊢ <;>
    omega

theorem path_of_turns (turns : Turns address level) :
    level.path address = List.replicate level.depth slot := by
  cases level with
  | pml4 => rfl
  | pdpt =>
      rw [Level.path, turns .pml4 (by decide)]
      rfl
  | pd =>
      rw [Level.path, turns .pml4 (by decide), turns .pdpt (by decide)]
      rfl
  | pt =>
      rw [Level.path, turns .pml4 (by decide), turns .pdpt (by decide), turns .pd (by decide)]
      rfl

theorem path_afterTurns (turns : Turns address level)
    (depth : lower.depth = level.depth + upper.depth) :
    lower.path address =
      upper.path (afterTurns level address) ++ List.replicate level.depth slot := by
  induction further : upper.depth generalizing upper lower with
  | zero =>
      rw [further] at depth
      have first : upper = .pml4 := Level.eq_of_depth_eq further
      have same : lower = level := Level.eq_of_depth_eq depth
      rw [first, same, path_of_turns turns]
      rfl
  | succ count induction =>
      rcases Level.exists_above further with ⟨upperAbove, upperDepth, _, upperPath⟩
      rcases Level.exists_above (show lower.depth = level.depth + count + 1 by omega) with
        ⟨lowerAbove, lowerDepth, _, lowerPath⟩
      have depths : lowerAbove.depth = level.depth + upperAbove.depth := by omega
      rw [lowerPath, upperPath, induction depths upperDepth, index_afterTurns depths,
        List.cons_append]

theorem value_tableAddress_eq_pageKey (level : Level) (address : VirtualAddress) :
    (tableAddress level address).value =
      upperHalf + (tableAddress level address).pageKey.val * 4096 := by
  have below := tableNumber_lt level address
  have high : upperHalf = 0xFFFF000000000000 := rfl
  have start : window .pml4 = 0xFFFFFF7FBFDFE000 ∧ window .pdpt = 0xFFFFFF7FBFC00000 ∧
      window .pd = 0xFFFFFF7F80000000 ∧ window .pt = 0xFFFFFF0000000000 := by decide
  simp only [Address.pageKey, value_tableAddress, high]
  generalize tableNumber level address = number at below ⊢
  cases level <;> simp only [start, tableCount, Nat.reduceShiftLeft] at below ⊢ <;> omega

theorem tableAddress_afterTurns (turns : Turns address level)
    (depth : lower.depth = level.depth + upper.depth) :
    tableAddress upper (afterTurns level address) = tableAddress lower address := by
  have deepest : lower.depth ≤ 3 := lower.depth_le
  have samePage : (tableAddress upper (afterTurns level address)).pageKey =
      (tableAddress lower address).pageKey := by
    rw [← Address.leafPath_eq_iff, leafPath_tableAddress, leafPath_tableAddress,
      path_afterTurns turns depth, List.append_assoc, List.replicate_append_replicate]
    congr 2
    omega
  apply Address.ext
  rw [value_tableAddress_eq_pageKey, samePage, ← value_tableAddress_eq_pageKey]

/-- A walk leaves the root at some level, unless it takes the slot at all of them. -/
theorem exists_turns (address : VirtualAddress) :
    (∀ level : Level, level.index address = slot) ∨
      ∃ level : Level, Turns address level ∧ level.index address ≠ slot := by
  by_cases leaves : ∃ level : Level, Turns address level ∧ level.index address ≠ slot
  · exact .inr leaves
  · refine .inl fun level => ?_
    induction depth : level.depth using Nat.strong_induction_on generalizing level with
    | _ depth induction =>
        subst depth
        refine Classical.byContradiction fun other => leaves ⟨level, fun upper above => ?_, other⟩
        exact induction upper.depth above upper rfl

end RecursiveMap

theorem Level.exists_renamed (level : Level) : ∃ (uppers : List Level) (lowest : Level),
    uppers <+: Level.pml4.below ∧ lowest.depth = uppers.length ∧
      Level.pt.depth = level.depth + lowest.depth ∧
      List.Forall₂ (fun upper lower : Level => lower.depth = level.depth + upper.depth) uppers
        level.below := by
  cases level with
  | pml4 => exact ⟨[.pdpt, .pd, .pt], .pt, List.prefix_rfl, rfl, rfl,
      .cons rfl (.cons rfl (.cons rfl .nil))⟩
  | pdpt => exact ⟨[.pdpt, .pd], .pd, ⟨[.pt], rfl⟩, rfl, rfl, .cons rfl (.cons rfl .nil)⟩
  | pd => exact ⟨[.pdpt], .pdpt, ⟨[.pd, .pt], rfl⟩, rfl, rfl, .cons rfl .nil⟩
  | pt => exact ⟨[], .pml4, List.nil_prefix, rfl, rfl, .nil⟩

namespace AddressSpace

variable {F : Type} {space : AddressSpace} {before after : Paged F}
  {address : VirtualAddress} {level upper lower : Level} {table frame : Frame}

open RecursiveMap (Turns afterTurns index_afterTurns)

/-! ## The same tables under other names -/

theorem reach_afterTurns (turns : Turns address level)
    (depth : lower.depth = level.depth + upper.depth) (access : TableAccess) (memory : Memory)
    (frame : Frame) :
    access.reach memory upper (afterTurns level address) frame =
      access.reach memory lower address frame := by
  cases access with
  | direct => rfl
  | recursive active =>
      rw [TableAccess.reach, TableAccess.reach, RecursiveMap.tableAddress_afterTurns turns depth]

theorem flushedByLink_afterTurns (turns : Turns address level)
    (depth : lower.depth = level.depth + upper.depth) (access : TableAccess) :
    access.flushedByLink upper (afterTurns level address) =
      access.flushedByLink lower address := by
  cases access with
  | direct => rfl
  | recursive active =>
      rw [TableAccess.flushedByLink, TableAccess.flushedByLink,
        RecursiveMap.tableAddress_afterTurns turns depth]

theorem reachTable_afterTurns (turns : Turns address level)
    (depth : lower.depth = level.depth + upper.depth) (frame : Frame) :
    (space.reachTable upper (afterTurns level address) frame :
      Operation (Paged F) MapError Frame) = space.reachTable lower address frame := by
  simp only [reachTable, reach_afterTurns turns depth]

variable [FrameSource F]

/-- Apart from what is reported of it, a missing table is linked alike. -/
theorem run_ensureChild_afterTurns (turns : Turns address level)
    (depth : lower.depth = level.depth + upper.depth) {index : TableIndex}
    (done : (space.ensureChild table index lower address).run before = (.done frame, after)) :
    (space.ensureChild table index upper (afterTurns level address)).run before =
      (.done frame, after) := by
  rw [ensureChild, Operation.run_bind_of_done (Paged.run_inspect ..)] at done ⊢
  by_cases present : (before.memory.entry table index).present = true
  · rwa [if_pos present] at done ⊢
  · rw [if_neg present] at done ⊢
    rcases Operation.of_run_bind done with ⟨answer, asked, taken, linked⟩
    rw [Operation.run_bind_of_done taken]
    cases answer with
    | none => cases linked
    | some fresh =>
        simp only [Operation.run_bind, Operation.run_report, flushedByLink_afterTurns turns depth,
          reachTable_afterTurns turns depth] at linked ⊢
        exact linked

theorem run_descend_afterTurns (turns : Turns address level) {uppers lowers : List Level}
    (depths : List.Forall₂ (fun upper lower : Level => lower.depth = level.depth + upper.depth)
      uppers lowers)
    (depth : lower.depth = level.depth + upper.depth)
    (done : (space.descend address lower table lowers).run before = (.done frame, after)) :
    (space.descend (afterTurns level address) upper table uppers).run before =
      (.done frame, after) := by
  induction depths generalizing upper lower table before with
  | nil => exact done
  | cons next _ induction =>
      rw [descend] at done ⊢
      rcases Operation.of_run_bind done with ⟨reached, _, reaching, done⟩
      rcases Operation.of_run_bind done with ⟨child, _, ensured, further⟩
      rw [← reachTable_afterTurns turns depth] at reaching
      rw [← index_afterTurns depth] at ensured
      rw [Operation.run_bind_of_done reaching,
        Operation.run_bind_of_done (run_ensureChild_afterTurns turns next ensured)]
      exact induction next further

omit [FrameSource F] in
theorem IsUsable.reach_root (usable : space.IsUsable before.memory) (turns : Turns address level) :
    (space.reachTable level address space.root : Operation (Paged F) MapError Frame).run before =
      (.done space.root, before) := by
  have tables : space.hierarchy.HasTables before.memory (afterTurns level address) .pml4 := by
    intro upper shallow found leads
    cases Level.eq_of_depth_eq (show upper.depth = Level.pml4.depth from Nat.le_zero.1 shallow)
    cases leads
    exact usable.tree.root_inside
  have reached := reach_eq_ok usable.addressable usable.served tables Hierarchy.tableAt_nil
  rw [root_hierarchy] at reached
  rw [← reachTable_afterTurns turns (show level.depth = level.depth + Level.pml4.depth from rfl),
    reachTable, Paged.run_inspect, reached]

theorem run_descend_of_turns {root : Frame} {before : Paged F}
    (usable : IsUsable ⟨root, .recursive root⟩ before.memory) (turns : Turns address level) :
    (descend ⟨root, .recursive root⟩ address .pml4 root Level.pml4.below).run before =
      (descend ⟨root, .recursive root⟩ address level root level.below).run before := by
  induction depth : level.depth generalizing level with
  | zero =>
      cases Level.eq_of_depth_eq (show level.depth = Level.pml4.depth from depth)
      rfl
  | succ count induction =>
      rcases Level.exists_above depth with ⟨upper, upperDepth, below, _⟩
      have turnsAbove : Turns address upper := fun other above => turns other (by omega)
      have steps := RecursiveMap.steps_of_isInstalled usable.served.2
      have isSlot : upper.index address = RecursiveMap.slot := turns upper (by omega)
      rw [induction turnsAbove upperDepth, below, descend,
        Operation.run_bind_of_done (usable.reach_root turnsAbove),
        Operation.run_bind_of_done (run_ensureChild_of_present (isSlot ▸ steps.present)), isSlot,
        steps.frame]

end AddressSpace

end EarlyMemory
