import EarlyMemory.Proofs.Machine.Agreement
import EarlyMemory.Proofs.Paging.Entries

/-!
# Hierarchies of tables

A table is known by its path, the indices that lead to it from the root. The
hierarchy in a memory is a tree when no two paths lead to one frame. A tree
keeps its shape under writes to other frames, gains exactly one table when an
absent entry is linked to a fresh empty frame, and gains exactly one leaf when
an absent entry of a last table is filled.

Under a recursive map one root slot leads back to the root. Such a slot is
hidden: paths through it are not the hierarchy's own.
-/

namespace EarlyMemory

/-- The indices from the root to a table or an entry, the last one first. -/
abbrev TablePath := List TableIndex

def Memory.presentEntry (memory : Memory) (table : Frame) (index : TableIndex) :
    Option PageEntry :=
  if (memory.entry table index).present then some (memory.entry table index) else none

theorem Memory.presentEntry_eq_of_present {memory : Memory} {table : Frame} {index : TableIndex}
    (present : (memory.entry table index).present = true) :
    memory.presentEntry table index = some (memory.entry table index) :=
  if_pos present

theorem Memory.presentEntry_eq_some {memory : Memory} {table : Frame} {index : TableIndex}
    {entry : PageEntry} :
    memory.presentEntry table index = some entry ↔
      (memory.entry table index).present = true ∧ memory.entry table index = entry := by
  unfold presentEntry
  split
  next present => simp [present]
  next absent => simp [absent]

theorem Memory.presentEntry_eq_none {memory : Memory} {table : Frame} {index : TableIndex}
    (absent : (memory.entry table index).present = false) :
    memory.presentEntry table index = none :=
  if_neg (by simp [absent])

namespace Memory

variable {memory : Memory} {table : Frame} {index : TableIndex}

def KeepsEntries (before after : Memory) : Prop :=
  ∀ table index, (before.entry table index).present = true →
    after.entry table index = before.entry table index

theorem keepsEntries_setEntry (entry : PageEntry)
    (absent : (memory.entry table index).present = false) :
    memory.KeepsEntries (memory.setEntry table index entry) := by
  intro other otherIndex present
  apply entry_setEntry_other
  by_cases same : other = table
  · refine .inr fun sameIndex => ?_
    rw [same, sameIndex, absent] at present
    cases present
  · exact .inl same

theorem keepsEntries_clearTable (inside : memory.HasFrame table) :
    (memory.clearTable table).KeepsEntries memory := by
  intro other index present
  by_cases same : other = table
  · rw [same, entry_clearTable_same memory table inside, PageEntry.present_zero] at present
    cases present
  · exact ((agreesOutside_clearTable memory table).entry_eq same index).symm

end Memory

structure Hierarchy where
  root : Frame
  /-- The root slot that leads to no table of its own. -/
  hidden : Option TableIndex

namespace Hierarchy

variable (hierarchy : Hierarchy)

/-- Whether a path keeps clear of the hidden slot. -/
def Owns (path : TablePath) : Prop :=
  ∀ index ∈ path.getLast?, hierarchy.hidden ≠ some index

def tableAt (memory : Memory) : TablePath → Option Frame
  | [] => some hierarchy.root
  | index :: above =>
      (tableAt memory above).bind fun table =>
        (memory.presentEntry table index).map PageEntry.frame

def entryAt (memory : Memory) : TablePath → Option PageEntry
  | [] => none
  | index :: above =>
      (hierarchy.tableAt memory above).bind fun table => memory.presentEntry table index

/-- Whether a frame is a table. Three indices lead to a last table. -/
def IsTable (memory : Memory) (frame : Frame) : Prop :=
  ∃ path : TablePath, path.length ≤ 3 ∧ hierarchy.Owns path ∧
    hierarchy.tableAt memory path = some frame

/-- Every table stands in the memory and is reached along one path only. -/
structure IsTree (memory : Memory) : Prop where
  inside : ∀ frame, hierarchy.IsTable memory frame → memory.HasFrame frame
  unique : ∀ left right : TablePath, ∀ frame,
    left.length ≤ 3 → hierarchy.Owns left → hierarchy.tableAt memory left = some frame →
    right.length ≤ 3 → hierarchy.Owns right → hierarchy.tableAt memory right = some frame →
    left = right

variable {hierarchy} {memory before after : Memory} {index : TableIndex} {above path : TablePath}
  {table fresh : Frame}

theorem owns_nil : hierarchy.Owns [] := by
  simp [Owns]

theorem Owns.tail (owns : hierarchy.Owns (index :: above)) : hierarchy.Owns above := by
  cases above with
  | nil => exact owns_nil
  | cons next rest =>
      intro last isLast
      exact owns last (by simpa [List.getLast?_cons_cons] using isLast)

theorem Owns.cons (owns : hierarchy.Owns above) (nonempty : above ≠ []) :
    hierarchy.Owns (index :: above) := by
  cases above with
  | nil => exact absurd rfl nonempty
  | cons next rest =>
      intro last isLast
      exact owns last (by simpa [List.getLast?_cons_cons] using isLast)

theorem Owns.append (owns : hierarchy.Owns path) (nonempty : path ≠ [])
    (front : TablePath) : hierarchy.Owns (front ++ path) := by
  induction front with
  | nil => exact owns
  | cons index front induction => exact induction.cons (by simp [nonempty])

theorem owns_of_shown (shown : hierarchy.hidden = none) : hierarchy.Owns path := by
  intro last _
  simp [shown]

@[simp] theorem tableAt_nil : hierarchy.tableAt memory [] = some hierarchy.root :=
  rfl

theorem isTable_root : hierarchy.IsTable memory hierarchy.root :=
  ⟨[], by simp, owns_nil, rfl⟩

theorem tableAt_cons_eq_some {frame : Frame} :
    hierarchy.tableAt memory (index :: above) = some frame ↔
      ∃ table, hierarchy.tableAt memory above = some table ∧
        (memory.entry table index).present = true ∧
        (memory.entry table index).frame = frame := by
  simp only [tableAt, Option.bind_eq_some_iff, Option.map_eq_some_iff]
  constructor
  · rintro ⟨table, found, entry, shown, frameEq⟩
    rcases Memory.presentEntry_eq_some.1 shown with ⟨present, entryEq⟩
    exact ⟨table, found, present, entryEq ▸ frameEq⟩
  · rintro ⟨table, found, present, frameEq⟩
    exact ⟨table, found, _, Memory.presentEntry_eq_of_present present, frameEq⟩

theorem tableAt_cons_of_some (found : hierarchy.tableAt memory above = some table) :
    hierarchy.tableAt memory (index :: above) =
      (memory.presentEntry table index).map PageEntry.frame := by
  simp [tableAt, found]

theorem tableAt_cons_of_none (missing : hierarchy.tableAt memory above = none) :
    hierarchy.tableAt memory (index :: above) = none := by
  simp [tableAt, missing]

theorem entryAt_cons_of_some (found : hierarchy.tableAt memory above = some table) :
    hierarchy.entryAt memory (index :: above) = memory.presentEntry table index := by
  simp [entryAt, found]

theorem entryAt_cons_of_none (missing : hierarchy.tableAt memory above = none) :
    hierarchy.entryAt memory (index :: above) = none := by
  simp [entryAt, missing]

theorem IsTree.root_inside (tree : hierarchy.IsTree memory) : memory.HasFrame hierarchy.root :=
  tree.inside _ isTable_root

theorem tableAt_of_emptyRoot
    (empty : ∀ index, hierarchy.hidden ≠ some index →
      (memory.entry hierarchy.root index).present = false)
    (path : TablePath) (owns : hierarchy.Owns path) :
    hierarchy.tableAt memory path = if path = [] then some hierarchy.root else none := by
  induction path with
  | nil => rfl
  | cons index above induction =>
      rw [if_neg (by simp)]
      have parents := induction owns.tail
      cases above with
      | nil =>
          have shown : hierarchy.hidden ≠ some index := owns index rfl
          rw [tableAt_cons_of_some rfl, Memory.presentEntry_eq_none (empty index shown),
            Option.map_none]
      | cons next rest => exact tableAt_cons_of_none (parents.trans (if_neg (by simp)))

theorem isTable_of_emptyRoot
    (empty : ∀ index, hierarchy.hidden ≠ some index →
      (memory.entry hierarchy.root index).present = false) {frame : Frame}
    (isTable : hierarchy.IsTable memory frame) : frame = hierarchy.root := by
  rcases isTable with ⟨path, _, owns, found⟩
  rw [tableAt_of_emptyRoot empty path owns] at found
  split at found
  · exact (Option.some.inj found).symm
  · cases found

theorem isTree_of_emptyRoot (inside : memory.HasFrame hierarchy.root)
    (empty : ∀ index, hierarchy.hidden ≠ some index →
      (memory.entry hierarchy.root index).present = false) : hierarchy.IsTree memory where
  inside frame isTable := isTable_of_emptyRoot empty isTable ▸ inside
  unique left right frame _ leftOwns leftFound _ rightOwns rightFound := by
    rw [tableAt_of_emptyRoot empty _ leftOwns] at leftFound
    rw [tableAt_of_emptyRoot empty _ rightOwns] at rightFound
    split at leftFound <;> split at rightFound <;> simp_all

/-! ## Writes elsewhere -/

theorem tableAt_congr
    (same : ∀ table index, hierarchy.IsTable before table →
      after.entry table index = before.entry table index)
    (path : TablePath) (short : path.length ≤ 4) (owns : hierarchy.Owns path) :
    hierarchy.tableAt after path = hierarchy.tableAt before path := by
  induction path with
  | nil => rfl
  | cons index above induction =>
      simp only [List.length_cons] at short
      have sameAbove := induction (by omega) owns.tail
      cases found : hierarchy.tableAt before above with
      | none => rw [tableAt_cons_of_none found, tableAt_cons_of_none (sameAbove.trans found)]
      | some table =>
          have isTable : hierarchy.IsTable before table :=
            ⟨above, by omega, owns.tail, found⟩
          rw [tableAt_cons_of_some found, tableAt_cons_of_some (sameAbove.trans found),
            Memory.presentEntry, Memory.presentEntry, same table index isTable]

theorem entryAt_congr
    (same : ∀ table index, hierarchy.IsTable before table →
      after.entry table index = before.entry table index)
    (path : TablePath) (short : path.length ≤ 4) (owns : hierarchy.Owns path) :
    hierarchy.entryAt after path = hierarchy.entryAt before path := by
  cases path with
  | nil => rfl
  | cons index above =>
      simp only [List.length_cons] at short
      have sameAbove := tableAt_congr same above (by omega) owns.tail
      cases found : hierarchy.tableAt before above with
      | none => rw [entryAt_cons_of_none found, entryAt_cons_of_none (sameAbove.trans found)]
      | some table =>
          have isTable : hierarchy.IsTable before table :=
            ⟨above, by omega, owns.tail, found⟩
          rw [entryAt_cons_of_some found, entryAt_cons_of_some (sameAbove.trans found),
            Memory.presentEntry, Memory.presentEntry, same table index isTable]

theorem isTable_congr
    (same : ∀ table index, hierarchy.IsTable before table →
      after.entry table index = before.entry table index) (frame : Frame) :
    hierarchy.IsTable after frame ↔ hierarchy.IsTable before frame := by
  constructor
  · rintro ⟨path, short, owns, found⟩
    exact ⟨path, short, owns, (tableAt_congr same path (by omega) owns).symm.trans found⟩
  · rintro ⟨path, short, owns, found⟩
    exact ⟨path, short, owns, (tableAt_congr same path (by omega) owns).trans found⟩

theorem tableAt_of_keepsEntries (keeps : before.KeepsEntries after) {reached : Frame}
    (found : hierarchy.tableAt before path = some reached) :
    hierarchy.tableAt after path = some reached := by
  induction path generalizing reached with
  | nil => exact found
  | cons index above induction =>
      rcases tableAt_cons_eq_some.1 found with ⟨parent, foundParent, present, frame⟩
      have same := keeps parent index present
      refine tableAt_cons_eq_some.2 ⟨parent, induction foundParent, ?_, ?_⟩
      · rw [same, present]
      · rw [same, frame]

/-- A tree is known by where its paths lead. -/
theorem IsTree.of_tableAt_eq (tree : hierarchy.IsTree before)
    (inside : ∀ frame, before.HasFrame frame → after.HasFrame frame)
    (same : ∀ path : TablePath, path.length ≤ 3 → hierarchy.Owns path →
      hierarchy.tableAt after path = hierarchy.tableAt before path) :
    hierarchy.IsTree after where
  inside := by
    rintro frame ⟨path, short, owns, found⟩
    exact inside frame (tree.inside frame ⟨path, short, owns, (same path short owns) ▸ found⟩)
  unique left right frame leftShort leftOwns leftFound rightShort rightOwns rightFound :=
    tree.unique left right frame leftShort leftOwns ((same left leftShort leftOwns) ▸ leftFound)
      rightShort rightOwns ((same right rightShort rightOwns) ▸ rightFound)

end Hierarchy

end EarlyMemory
