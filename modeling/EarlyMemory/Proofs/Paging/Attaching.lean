import EarlyMemory.Proofs.Paging.SelfMap

/-!
# Linking a table on a walk

The walk for one address needs no tree of tables to be kept in order: one frame may be a
table at several levels. A present entry is never written, so the walk down to a missing
table stays where it is, and a fresh frame is not on the walk, so clearing it destroys no
part of it.
-/

namespace EarlyMemory

open Memory (AgreesOutside)

namespace Hierarchy

variable {hierarchy : Hierarchy} {memory before after : Memory} {address : VirtualAddress}
  {table reached : Frame} {path : TablePath}

def IsOnWalk (hierarchy : Hierarchy) (memory : Memory) (address : VirtualAddress)
    (frame : Frame) : Prop :=
  ∃ level : Level, hierarchy.tableAt memory (level.path address) = some frame

theorem tableAt_eq_shown (hierarchy : Hierarchy) (memory : Memory) (path : TablePath) :
    hierarchy.tableAt memory path = (shown hierarchy.root).tableAt memory path := by
  induction path with
  | nil => rfl
  | cons index above induction => rw [tableAt, tableAt, induction]

theorem HasTables.of_shown {lowest : Level}
    (tables : (shown hierarchy.root).HasTables memory address lowest) :
    hierarchy.HasTables memory address lowest := by
  intro level shallow frame found
  exact tables level shallow frame ((tableAt_eq_shown ..).symm.trans found)

theorem HasTablesAbove.of_shown {level : Level}
    (tables : (shown hierarchy.root).HasTablesAbove memory address level) :
    hierarchy.HasTablesAbove memory address level := by
  intro upper above frame found
  exact tables upper above frame ((tableAt_eq_shown ..).symm.trans found)

/-- Writes that miss the tables above a level leave the walk down to it alone. -/
theorem tableAt_path_of_agrees {touched : Frame → Prop}
    (agrees : AgreesOutside touched before after) (level : Level)
    (missed : ∀ upper : Level, upper.depth < level.depth → ∀ table,
      hierarchy.tableAt before (upper.path address) = some table → ¬ touched table) :
    hierarchy.tableAt after (level.path address) =
      hierarchy.tableAt before (level.path address) := by
  have step : ∀ upper : Level, upper.depth < level.depth →
      hierarchy.tableAt after (upper.path address) =
        hierarchy.tableAt before (upper.path address) →
      hierarchy.tableAt after (upper.index address :: upper.path address) =
        hierarchy.tableAt before (upper.index address :: upper.path address) := by
    intro upper above same
    cases found : hierarchy.tableAt before (upper.path address) with
    | none => rw [tableAt_cons_of_none found, tableAt_cons_of_none (same.trans found)]
    | some table =>
        rw [tableAt_cons_of_some found, tableAt_cons_of_some (same.trans found),
          Memory.presentEntry, Memory.presentEntry,
          agrees.entry_eq (missed upper above table found)]
  cases level with
  | pml4 => rfl
  | pdpt => exact step .pml4 (by decide) rfl
  | pd => exact step .pdpt (by decide) (step .pml4 (by decide) rfl)
  | pt => exact step .pd (by decide) (step .pdpt (by decide) (step .pml4 (by decide) rfl))

theorem exists_tableAt_of_le {upper lower : Level}
    (found : hierarchy.tableAt memory (lower.path address) = some table)
    (higher : upper.depth ≤ lower.depth) :
    ∃ reached, hierarchy.tableAt memory (upper.path address) = some reached := by
  have parent : ∀ {index : TableIndex} {above : TablePath},
      (∃ reached, hierarchy.tableAt memory (index :: above) = some reached) →
        ∃ reached, hierarchy.tableAt memory above = some reached := by
    rintro index above ⟨reached, leads⟩
    rcases tableAt_cons_eq_some.1 leads with ⟨table, found, _, _⟩
    exact ⟨table, found⟩
  cases upper with
  | pml4 => exact ⟨hierarchy.root, rfl⟩
  | pdpt =>
      cases lower with
      | pml4 => exact absurd higher (by decide)
      | pdpt => exact ⟨table, found⟩
      | pd => exact parent ⟨table, found⟩
      | pt => exact parent (parent ⟨table, found⟩)
  | pd =>
      cases lower with
      | pml4 | pdpt => exact absurd higher (by decide)
      | pd => exact ⟨table, found⟩
      | pt => exact parent ⟨table, found⟩
  | pt =>
      cases lower with
      | pml4 | pdpt | pd => exact absurd higher (by decide)
      | pt => exact ⟨table, found⟩

theorem tableAt_of_absent {upper lower : Level}
    (found : hierarchy.tableAt memory (upper.path address) = some table)
    (absent : (memory.entry table (upper.index address)).present = false)
    (deeper : upper.depth < lower.depth) :
    hierarchy.tableAt memory (lower.path address) = none := by
  cases leads : hierarchy.tableAt memory (lower.path address) with
  | none => rfl
  | some frame =>
      cases below : upper.below with
      | nil =>
          cases Level.eq_pt_of_below_eq_nil below
          exact absurd lower.depth_le (Nat.not_le.2 deeper)
      | cons child rest =>
          rcases Level.below_eq_cons below with ⟨_, depth, path⟩
          rcases exists_tableAt_of_le leads (show child.depth ≤ lower.depth by omega) with
            ⟨reached, foundChild⟩
          rw [path, tableAt_cons_of_some found, Memory.presentEntry_eq_none absent] at foundChild
          cases foundChild

theorem tableAt_path_of_kept {level : Level}
    (found : hierarchy.tableAt before (level.path address) = some reached)
    (kept : ∀ upper : Level, upper.depth < level.depth → ∀ table,
      hierarchy.tableAt before (upper.path address) = some table →
      (before.entry table (upper.index address)).present = true →
      after.entry table (upper.index address) = before.entry table (upper.index address)) :
    hierarchy.tableAt after (level.path address) = some reached := by
  -- By induction on the number of tables above.
  generalize count : level.depth = depth at kept
  induction depth generalizing level reached with
  | zero =>
      have top : level = .pml4 := Level.eq_of_depth_eq count
      rw [top] at found ⊢
      exact found
  | succ depth induction =>
      rcases Level.exists_above count with ⟨upper, above, _, path⟩
      rw [path] at found ⊢
      rcases tableAt_cons_eq_some.1 found with ⟨table, leads, present, frame⟩
      have same := kept upper (by omega) table leads present
      refine tableAt_cons_eq_some.2 ⟨table, induction leads above fun further higher =>
        kept further (by omega), ?_, ?_⟩
      · rw [same, present]
      · rw [same, frame]

end Hierarchy

namespace AddressSpace

open Hierarchy (shown)

variable {root : Frame} {memory : Memory} {address : VirtualAddress} {level child : Level}
  {table frame : Frame}

/-- What has to be known of a memory, a table on the walk for an address and a frame off the
walk before the frame is linked as the next table. -/
structure Attaching (root : Frame) (memory : Memory) (address : VirtualAddress)
    (level child : Level) (table frame : Frame) : Prop where
  next : ∃ below, level.below = child :: below
  tables : (shown root).HasTables memory address .pt
  found : (shown root).tableAt memory (level.path address) = some table
  absent : (memory.entry table (level.index address)).present = false
  inside : memory.HasFrame frame
  linkable : frame.IsLinkable
  off : ¬ (shown root).IsOnWalk memory address frame

namespace Attaching

variable (attaching : Attaching root memory address level child table frame)

include attaching

theorem depth_child : child.depth = level.depth + 1 := by
  rcases attaching.next with ⟨_, next⟩
  exact (Level.below_eq_cons next).2.1

theorem path_child : child.path address = level.index address :: level.path address := by
  rcases attaching.next with ⟨_, next⟩
  exact (Level.below_eq_cons next).2.2 address

theorem tableAt_linked_of_le {upper : Level} (higher : upper.depth ≤ level.depth) :
    (shown root).tableAt (linkedMemory memory address level table frame) (upper.path address) =
      (shown root).tableAt memory (upper.path address) := by
  rcases Hierarchy.exists_tableAt_of_le attaching.found higher with ⟨reached, leads⟩
  rw [leads]
  exact Hierarchy.tableAt_of_keepsEntries (Memory.keepsEntries_setEntry _ attaching.absent) leads

theorem tableAt_linked :
    (shown root).tableAt (linkedMemory memory address level table frame) (child.path address) =
      some frame := by
  have inside := attaching.tables level level.depth_le table attaching.found
  have written : (linkedMemory memory address level table frame).entry table
      (level.index address) = .table frame := Memory.entry_setEntry_same _ _ _ _ inside
  rw [attaching.path_child]
  refine Hierarchy.tableAt_cons_eq_some.2 ⟨table, ?_, ?_, ?_⟩
  · rw [attaching.tableAt_linked_of_le (Nat.le_refl _), attaching.found]
  · rw [written, PageEntry.present_table]
  · rw [written, PageEntry.frame_table attaching.linkable]

/-- The walk down to the fresh table: what was on it before, and then the frame. -/
theorem of_tableAt_linked {upper : Level} {reached : Frame} (higher : upper.depth ≤ child.depth)
    (leads : (shown root).tableAt (linkedMemory memory address level table frame)
      (upper.path address) = some reached) :
    (shown root).tableAt memory (upper.path address) = some reached ∨ reached = frame := by
  by_cases above : upper.depth ≤ level.depth
  · exact .inl ((attaching.tableAt_linked_of_le above).symm.trans leads)
  · have depth := attaching.depth_child
    have same : upper = child := Level.eq_of_depth_eq (by omega)
    rw [same, attaching.tableAt_linked] at leads
    exact .inr (Option.some.inj leads).symm

theorem hasTables_linked :
    (shown root).HasTables (linkedMemory memory address level table frame) address child := by
  intro upper higher reached leads
  rw [hasFrame_linkedMemory]
  rcases attaching.of_tableAt_linked higher leads with old | rfl
  · exact attaching.tables upper upper.depth_le reached old
  · exact attaching.inside

theorem isInstalled_linked (installed : RecursiveMap.isInstalled memory root = true) :
    RecursiveMap.isInstalled (linkedMemory memory address level table frame) root = true :=
  RecursiveMap.isInstalled_setEntry_of_absent _ attaching.absent installed

/-! ## Clearing it -/

theorem tableAt_cleared_of_le {upper : Level} (higher : upper.depth ≤ child.depth) :
    (shown root).tableAt ((linkedMemory memory address level table frame).clearTable frame)
        (upper.path address) =
      (shown root).tableAt (linkedMemory memory address level table frame)
        (upper.path address) := by
  refine Hierarchy.tableAt_path_of_agrees (Memory.agreesOutside_clearTable ..) upper ?_
  rintro above higherStill _ leads rfl
  have depth := attaching.depth_child
  rw [attaching.tableAt_linked_of_le (by omega)] at leads
  exact attaching.off ⟨above, leads⟩

theorem tableAt_cleared :
    (shown root).tableAt ((linkedMemory memory address level table frame).clearTable frame)
      (child.path address) = some frame := by
  rw [attaching.tableAt_cleared_of_le (Nat.le_refl _), attaching.tableAt_linked]

theorem of_tableAt_cleared {lower : Level} {reached : Frame}
    (leads : (shown root).tableAt
      ((linkedMemory memory address level table frame).clearTable frame)
      (lower.path address) = some reached) :
    (shown root).tableAt memory (lower.path address) = some reached ∨ reached = frame := by
  by_cases above : lower.depth ≤ child.depth
  · rw [attaching.tableAt_cleared_of_le above] at leads
    exact attaching.of_tableAt_linked above leads
  · have empty : ∀ index, (((linkedMemory memory address level table frame).clearTable
        frame).entry frame index).present = false := by
      intro index
      rw [Memory.entry_clearTable_same _ _ ((hasFrame_linkedMemory frame).2 attaching.inside)]
      exact PageEntry.present_zero
    rw [Hierarchy.tableAt_of_absent attaching.tableAt_cleared (empty _)
      (Nat.lt_of_not_le above)] at leads
    cases leads

theorem isInstalled_cleared (installed : RecursiveMap.isInstalled memory root = true) :
    RecursiveMap.isInstalled ((linkedMemory memory address level table frame).clearTable frame)
      root = true := by
  have other : root ≠ frame := by
    rintro rfl
    exact attaching.off ⟨.pml4, rfl⟩
  rw [RecursiveMap.isInstalled, RecursiveMap.entryOf,
    (Memory.agreesOutside_clearTable ..).entry_eq other]
  exact attaching.isInstalled_linked installed

end Attaching

end AddressSpace

end EarlyMemory
