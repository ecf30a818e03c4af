import EarlyMemory.Proofs.Paging.Mapping

/-!
# Installing the recursive map

In a tree no slot of the root leads back to the root, so the slot is either empty or taken
by something else. Pointing it at the root hides it: the paths through all other slots lead
where they did before, and they still form a tree.
-/

namespace EarlyMemory.Hierarchy

variable {root : Frame} {slot : TableIndex} {before after : Memory}

/-- A hierarchy that shows every slot of its root. -/
abbrev shown (root : Frame) : Hierarchy :=
  ⟨root, none⟩

/-- A hierarchy without one slot of its root. -/
abbrev without (root : Frame) (slot : TableIndex) : Hierarchy :=
  ⟨root, some slot⟩

theorem leads_without {slot : TableIndex} {address : VirtualAddress} :
    (without root slot).Leads address ↔ Level.pml4.index address ≠ slot := by
  constructor
  · intro leads same
    exact leads (congrArg some same.symm)
  · intro outside hidden
    exact outside (Option.some.inj hidden).symm

theorem owns_shown (path : TablePath) : (shown root).Owns path :=
  owns_of_shown rfl

def SameButSlot (root : Frame) (slot : TableIndex) (before after : Memory) : Prop :=
  ∀ table index, table ≠ root ∨ index ≠ slot → after.entry table index = before.entry table index

theorem ne_root_or_ne_slot {index : TableIndex} {above : TablePath} {table : Frame}
    (tree : (shown root).IsTree before) (short : above.length ≤ 3)
    (owns : (without root slot).Owns (index :: above))
    (found : (shown root).tableAt before above = some table) : table ≠ root ∨ index ≠ slot := by
  cases above with
  | nil =>
      refine .inr fun same => owns index rfl ?_
      rw [same]
  | cons next rest =>
      refine .inl fun isRoot => ?_
      have unique := tree.unique [] (next :: rest) root (by simp) owns_nil rfl short
        (owns_shown _) (isRoot ▸ found)
      cases unique

theorem tableAt_without (tree : (shown root).IsTree before)
    (same : SameButSlot root slot before after) (path : TablePath) (short : path.length ≤ 4)
    (owns : (without root slot).Owns path) :
    (without root slot).tableAt after path = (shown root).tableAt before path := by
  induction path with
  | nil => rfl
  | cons index above induction =>
      simp only [List.length_cons] at short
      have parents := induction (by omega) owns.tail
      cases found : (shown root).tableAt before above with
      | none => rw [tableAt_cons_of_none found, tableAt_cons_of_none (parents.trans found)]
      | some table =>
          have elsewhere := ne_root_or_ne_slot tree (by omega) owns found
          rw [tableAt_cons_of_some found, tableAt_cons_of_some (parents.trans found),
            Memory.presentEntry, Memory.presentEntry, same table index elsewhere]

theorem entryAt_without (tree : (shown root).IsTree before)
    (same : SameButSlot root slot before after) (path : TablePath) (short : path.length ≤ 4)
    (owns : (without root slot).Owns path) :
    (without root slot).entryAt after path = (shown root).entryAt before path := by
  cases path with
  | nil => rfl
  | cons index above =>
      simp only [List.length_cons] at short
      have parents := tableAt_without tree same above (by omega) owns.tail
      cases found : (shown root).tableAt before above with
      | none => rw [entryAt_cons_of_none found, entryAt_cons_of_none (parents.trans found)]
      | some table =>
          have elsewhere := ne_root_or_ne_slot tree (by omega) owns found
          rw [entryAt_cons_of_some found, entryAt_cons_of_some (parents.trans found),
            Memory.presentEntry, Memory.presentEntry, same table index elsewhere]

theorem isTable_of_without (tree : (shown root).IsTree before)
    (same : SameButSlot root slot before after) {frame : Frame}
    (isTable : (without root slot).IsTable after frame) : (shown root).IsTable before frame := by
  rcases isTable with ⟨path, short, owns, found⟩
  rw [tableAt_without tree same path (by omega) owns] at found
  exact ⟨path, short, owns_shown path, found⟩

theorem isTree_without (tree : (shown root).IsTree before)
    (same : SameButSlot root slot before after)
    (inside : ∀ frame, before.HasFrame frame → after.HasFrame frame) :
    (without root slot).IsTree after where
  inside frame isTable := inside frame (tree.inside frame (isTable_of_without tree same isTable))
  unique left right frame leftShort leftOwns leftFound rightShort rightOwns rightFound := by
    rw [tableAt_without tree same left (by omega) leftOwns] at leftFound
    rw [tableAt_without tree same right (by omega) rightOwns] at rightFound
    exact tree.unique left right frame leftShort (owns_shown left) leftFound rightShort
      (owns_shown right) rightFound

theorem not_isInstalled (tree : (shown root).IsTree before) :
    RecursiveMap.isInstalled before root = false := by
  cases installed : RecursiveMap.isInstalled before root with
  | false => rfl
  | true =>
      simp only [RecursiveMap.isInstalled, RecursiveMap.entryOf, Bool.and_eq_true,
        beq_iff_eq] at installed
      have found : (shown root).tableAt before [RecursiveMap.slot] = some root :=
        tableAt_cons_eq_some.2 ⟨root, rfl, installed.1, installed.2⟩
      have unique := tree.unique [] [RecursiveMap.slot] root (by simp) owns_nil rfl (by simp)
        (owns_shown _) found
      cases unique

end EarlyMemory.Hierarchy

namespace EarlyMemory.RecursiveMap

variable {root : Frame} {memory : Memory}

theorem sameButSlot_install (root : Frame) (memory : Memory) :
    Hierarchy.SameButSlot root slot memory (install memory root) :=
  fun _ _ elsewhere => Memory.entry_setEntry_other _ _ _ _ _ _ elsewhere

theorem agreesOutside_install (root : Frame) (memory : Memory) :
    Memory.AgreesOutside (· = root) memory (install memory root) :=
  Memory.agreesOutside_setEntry ..

theorem isLinkable_of_isInstalled (installed : isInstalled memory root = true) :
    root.IsLinkable := by
  simp only [isInstalled, Bool.and_eq_true, beq_iff_eq] at installed
  rw [← installed.2]
  exact PageEntry.isLinkable_frame _

theorem isInstalled_install (inside : memory.HasFrame root) (linkable : root.IsLinkable) :
    isInstalled (install memory root) root = true := by
  have entry : entryOf (install memory root) root = .selfReference root :=
    Memory.entry_setEntry_same _ _ _ _ inside
  simp [isInstalled, entry, linkable]

theorem isInstalled_of_keepsEntries {before after : Memory} (keeps : before.KeepsEntries after)
    (installed : isInstalled before root = true) : isInstalled after root = true := by
  rw [isInstalled, entryOf, keeps root slot (steps_of_isInstalled installed).present]
  exact installed

/-- The slot's entry is present, so writing to an absent one does not touch it. -/
theorem isInstalled_setEntry_of_absent {table : Frame} {index : TableIndex} (entry : PageEntry)
    (absent : (memory.entry table index).present = false)
    (installed : isInstalled memory root = true) :
    isInstalled (memory.setEntry table index entry) root = true :=
  isInstalled_of_keepsEntries (Memory.keepsEntries_setEntry entry absent) installed

end EarlyMemory.RecursiveMap
