import EarlyMemory.Proofs.Paging.Hierarchy

/-!
# How a hierarchy grows

A hierarchy grows by fresh empty tables and keeps every table and every leaf it
had. Linking a cleared frame to an absent entry is one step of growth. Filling
an absent entry of a last table changes no table and one leaf.
-/

namespace EarlyMemory.Hierarchy

variable {hierarchy : Hierarchy} {fresh wider : Frame → Prop} {before middle after : Memory}
  {table child : Frame} {index : TableIndex} {above path : TablePath}

/-- Every table is kept, and the further ones were fresh before. -/
structure Extends (hierarchy : Hierarchy) (fresh : Frame → Prop) (before after : Memory) :
    Prop where
  tree : hierarchy.IsTree after
  kept : ∀ path : TablePath, ∀ frame, path.length ≤ 3 → hierarchy.Owns path →
    hierarchy.tableAt before path = some frame → hierarchy.tableAt after path = some frame
  tables : ∀ frame, hierarchy.IsTable after frame → hierarchy.IsTable before frame ∨ fresh frame

/-- Growth adds no leaf and takes none away. -/
structure Grows (hierarchy : Hierarchy) (fresh : Frame → Prop) (before after : Memory) : Prop
    extends hierarchy.Extends fresh before after where
  leaves : ∀ path : TablePath, path.length = 4 → hierarchy.Owns path →
    hierarchy.entryAt after path = hierarchy.entryAt before path

namespace Extends

theorem refl (tree : hierarchy.IsTree before) : hierarchy.Extends fresh before before :=
  ⟨tree, fun _ _ _ _ found => found, fun _ isTable => .inl isTable⟩

theorem trans (first : hierarchy.Extends fresh before middle)
    (second : hierarchy.Extends fresh middle after) : hierarchy.Extends fresh before after where
  tree := second.tree
  kept path frame short owns found :=
    second.kept path frame short owns (first.kept path frame short owns found)
  tables frame isTable := by
    rcases second.tables frame isTable with old | new
    · exact first.tables frame old
    · exact .inr new

theorem mono (widened : hierarchy.Extends fresh before after)
    (included : ∀ frame, fresh frame → wider frame) : hierarchy.Extends wider before after where
  tree := widened.tree
  kept := widened.kept
  tables frame isTable := (widened.tables frame isTable).imp_right (included frame)

theorem fresh_of_new (widened : hierarchy.Extends fresh before after) {frame : Frame}
    (short : path.length ≤ 3) (owns : hierarchy.Owns path)
    (missing : hierarchy.tableAt before path = none)
    (found : hierarchy.tableAt after path = some frame) : fresh frame := by
  rcases widened.tables frame ⟨path, short, owns, found⟩ with old | isFresh
  · rcases old with ⟨other, otherShort, otherOwns, otherFound⟩
    have same := widened.tree.unique path other frame short owns found otherShort otherOwns
      (widened.kept other frame otherShort otherOwns otherFound)
    rw [same, otherFound] at missing
    cases missing
  · exact isFresh

end Extends

/-- Writes that miss every table leave the hierarchy as it is. -/
theorem grows_of_agrees {touched : Frame → Prop} (tree : hierarchy.IsTree before)
    (agrees : Memory.AgreesOutside touched before after)
    (missed : ∀ frame, hierarchy.IsTable before frame → ¬ touched frame) :
    hierarchy.Grows fresh before after := by
  have same : ∀ table index, hierarchy.IsTable before table →
      after.entry table index = before.entry table index :=
    fun table index isTable => agrees.entry_eq (missed table isTable) index
  refine ⟨⟨?_, ?_, ?_⟩, ?_⟩
  · exact tree.of_tableAt_eq (fun frame inside => (agrees.hasFrame_iff frame).2 inside)
      fun path short owns => tableAt_congr same path (by omega) owns
  · intro path frame short owns found
    exact (tableAt_congr same path (by omega) owns).trans found
  · intro frame isTable
    exact .inl ((isTable_congr same frame).1 isTable)
  · intro path long owns
    exact entryAt_congr same path (by omega) owns

/-! ## One entry -/

/-- A table has another entry at an index; no other entry of a table changed. -/
structure Rewrites (hierarchy : Hierarchy) (before after : Memory) (table : Frame)
    (index : TableIndex) (entry : PageEntry) : Prop where
  entry : after.entry table index = entry
  others : ∀ other otherIndex, hierarchy.IsTable before other →
    other ≠ table ∨ otherIndex ≠ index →
    after.entry other otherIndex = before.entry other otherIndex

theorem rewrites_setEntry {memory : Memory} {entry : PageEntry} (inside : memory.HasFrame table) :
    hierarchy.Rewrites memory (memory.setEntry table index entry) table index entry where
  entry := Memory.entry_setEntry_same _ _ _ _ inside
  others _ _ _ different := Memory.entry_setEntry_other _ _ _ _ _ _ different

theorem Rewrites.presentEntry {entry : PageEntry} {other : Frame} {next : TableIndex}
    {rest : TablePath} (rewrites : hierarchy.Rewrites before after table index entry)
    (tree : hierarchy.IsTree before)
    (found : hierarchy.tableAt before above = some table) (short : above.length ≤ 3)
    (owns : hierarchy.Owns above)
    (parent : hierarchy.tableAt before rest = some other) (restShort : rest.length ≤ 3)
    (ownsRest : hierarchy.Owns rest) (present : entry.present = true) :
    after.presentEntry other next =
      if next :: rest = index :: above then some entry else before.presentEntry other next := by
  by_cases here : other = table ∧ next = index
  · rcases here with ⟨rfl, rfl⟩
    have sameParent : rest = above :=
      tree.unique rest above other restShort ownsRest parent short owns found
    rw [if_pos (by rw [sameParent]), Memory.presentEntry, rewrites.entry, if_pos present]
  · have different : next :: rest ≠ index :: above := by
      intro same
      cases same
      rw [found] at parent
      exact here ⟨(Option.some.inj parent).symm, rfl⟩
    have elsewhere : other ≠ table ∨ next ≠ index := by
      by_cases sameTable : other = table
      · exact .inr fun sameIndex => here ⟨sameTable, sameIndex⟩
      · exact .inl sameTable
    rw [if_neg different, Memory.presentEntry, Memory.presentEntry,
      rewrites.others other next ⟨rest, restShort, ownsRest, parent⟩ elsewhere]

/-- A write to one entry of a tree leaves every path alone that does not run through it. -/
theorem Rewrites.tableAt_of_apart {entry : PageEntry}
    (rewrites : hierarchy.Rewrites before after table index entry)
    (tree : hierarchy.IsTree before)
    (found : hierarchy.tableAt before above = some table) (room : above.length ≤ 3)
    (ownsAbove : hierarchy.Owns above) (present : entry.present = true)
    (path : TablePath) (short : path.length ≤ 4) (owns : hierarchy.Owns path)
    (apart : ¬ index :: above <:+ path) :
    hierarchy.tableAt after path = hierarchy.tableAt before path := by
  induction path with
  | nil => rfl
  | cons next rest induction =>
      simp only [List.length_cons] at short
      have parents := induction (by omega) owns.tail fun through =>
        apart (through.trans (List.suffix_cons next rest))
      cases parent : hierarchy.tableAt before rest with
      | none => rw [tableAt_cons_of_none parent, tableAt_cons_of_none (parents.trans parent)]
      | some other =>
          have different : next :: rest ≠ index :: above := fun same =>
            apart (same ▸ List.suffix_refl _)
          rw [tableAt_cons_of_some parent, tableAt_cons_of_some (parents.trans parent),
            rewrites.presentEntry tree found room ownsAbove parent (by omega) owns.tail present,
            if_neg different]

/-! ## Linking a table -/

section

variable {link : PageEntry}

theorem tableAt_of_linked (tree : hierarchy.IsTree before)
    (rewrites : hierarchy.Rewrites before after table index link)
    (present : link.present = true)
    (found : hierarchy.tableAt before above = some table) (room : above.length ≤ 2)
    (ownsAbove : hierarchy.Owns above)
    (absent : (before.entry table index).present = false)
    (path : TablePath) (short : path.length ≤ 3) (owns : hierarchy.Owns path)
    (shallow : path.length ≤ above.length + 1 ∨
      ∀ below, (after.entry link.frame below).present = false) :
    hierarchy.tableAt after path =
      if path = index :: above then some link.frame else hierarchy.tableAt before path := by
  induction path with
  | nil => simp
  | cons next rest induction =>
      simp only [List.length_cons] at short shallow
      have parents := induction (by omega) owns.tail (shallow.imp_left (by omega))
      by_cases through : rest = index :: above
      · -- The path runs through the child, which has no entries yet.
        subst through
        simp only [List.length_cons] at shallow
        have empty : ∀ below, (after.entry link.frame below).present = false := by
          rcases shallow with impossible | empty
          · omega
          · exact empty
        have missing : hierarchy.tableAt before (index :: above) = none := by
          rw [tableAt_cons_of_some found, Memory.presentEntry_eq_none absent, Option.map_none]
        have longer : next :: index :: above ≠ index :: above := by
          intro same
          have := congrArg List.length same
          simp at this
        rw [if_pos rfl] at parents
        rw [if_neg longer, tableAt_cons_of_some parents,
          Memory.presentEntry_eq_none (empty next), tableAt_cons_of_none missing, Option.map_none]
      · rw [if_neg through] at parents
        cases parent : hierarchy.tableAt before rest with
        | none =>
            have different : next :: rest ≠ index :: above := by
              intro same
              cases same
              rw [found] at parent
              cases parent
            rw [if_neg different, tableAt_cons_of_none parent,
              tableAt_cons_of_none (parents.trans parent)]
        | some other =>
            rw [tableAt_cons_of_some parent, tableAt_cons_of_some (parents.trans parent),
              rewrites.presentEntry tree found (by omega) ownsAbove parent (by omega) owns.tail
                present]
            split <;> rfl

/-- Linking an empty frame that was no table yet is growth by that frame. -/
theorem grows_of_linked (tree : hierarchy.IsTree before)
    (rewrites : hierarchy.Rewrites before after table index link)
    (present : link.present = true)
    (found : hierarchy.tableAt before above = some table) (room : above.length ≤ 2)
    (owns : hierarchy.Owns (index :: above))
    (absent : (before.entry table index).present = false)
    (empty : ∀ below, (after.entry link.frame below).present = false)
    (unused : ¬ hierarchy.IsTable before link.frame)
    (inside : ∀ frame, hierarchy.IsTable before frame ∨ frame = link.frame →
      after.HasFrame frame) :
    hierarchy.Grows (· = link.frame) before after := by
  have tables := fun path short ownsPath =>
    tableAt_of_linked tree rewrites present found room owns.tail absent path short ownsPath
      (.inr empty)
  have missing : hierarchy.tableAt before (index :: above) = none := by
    rw [tableAt_cons_of_some found, Memory.presentEntry_eq_none absent, Option.map_none]
  have origin : ∀ path frame, path.length ≤ 3 → hierarchy.Owns path →
      hierarchy.tableAt after path = some frame →
      path = index :: above ∧ frame = link.frame ∨
        hierarchy.tableAt before path = some frame := by
    intro path frame short ownsPath leads
    rw [tables path short ownsPath] at leads
    split at leads
    next same => exact .inl ⟨same, (Option.some.inj leads).symm⟩
    next => exact .inr leads
  refine ⟨⟨⟨?_, ?_⟩, ?_, ?_⟩, ?_⟩
  · rintro frame ⟨path, short, ownsPath, leads⟩
    apply inside frame
    rcases origin path frame short ownsPath leads with ⟨_, isChild⟩ | old
    · exact .inr isChild
    · exact .inl ⟨path, short, ownsPath, old⟩
  · intro left right frame leftShort leftOwns leftLeads rightShort rightOwns rightLeads
    rcases origin left frame leftShort leftOwns leftLeads with
      ⟨leftEq, isChild⟩ | leftOld <;>
    rcases origin right frame rightShort rightOwns rightLeads with
      ⟨rightEq, alsoChild⟩ | rightOld
    · exact leftEq.trans rightEq.symm
    · exact absurd ⟨right, rightShort, rightOwns, isChild ▸ rightOld⟩ unused
    · exact absurd ⟨left, leftShort, leftOwns, alsoChild ▸ leftOld⟩ unused
    · exact tree.unique left right frame leftShort leftOwns leftOld rightShort rightOwns rightOld
  · intro path frame short ownsPath leads
    have different : path ≠ index :: above := by
      rintro rfl
      rw [missing] at leads
      cases leads
    rw [tables path short ownsPath, if_neg different]
    exact leads
  · rintro frame ⟨path, short, ownsPath, leads⟩
    rcases origin path frame short ownsPath leads with ⟨_, isChild⟩ | old
    · exact .inr isChild
    · exact .inl ⟨path, short, ownsPath, old⟩
  · intro path long ownsPath
    cases path with
    | nil => simp at long
    | cons last rest =>
        simp only [List.length_cons] at long
        have parents := tables rest (by omega) ownsPath.tail
        by_cases through : rest = index :: above
        · subst through
          rw [if_pos rfl] at parents
          rw [entryAt_cons_of_some parents, entryAt_cons_of_none missing,
            Memory.presentEntry_eq_none (empty last)]
        · rw [if_neg through] at parents
          cases parent : hierarchy.tableAt before rest with
          | none => rw [entryAt_cons_of_none parent, entryAt_cons_of_none (parents.trans parent)]
          | some other =>
              have different : last :: rest ≠ index :: above := by
                intro same
                cases same
                omega
              rw [entryAt_cons_of_some parent, entryAt_cons_of_some (parents.trans parent),
                rewrites.presentEntry tree found (by omega) owns.tail parent (by omega)
                  ownsPath.tail present, if_neg different]

end

/-! ## Filling a leaf -/

section

variable {leaf : PageEntry}

theorem tableAt_of_filled (tree : hierarchy.IsTree before)
    (rewrites : hierarchy.Rewrites before after table index leaf) (present : leaf.present = true)
    (found : hierarchy.tableAt before above = some table) (last : above.length = 3)
    (ownsAbove : hierarchy.Owns above)
    (path : TablePath) (short : path.length ≤ 3) (owns : hierarchy.Owns path) :
    hierarchy.tableAt after path = hierarchy.tableAt before path := by
  refine rewrites.tableAt_of_apart tree found (by omega) ownsAbove present path (by omega) owns
    fun through => ?_
  have longer := through.length_le
  rw [List.length_cons] at longer
  omega

theorem extends_of_filled (tree : hierarchy.IsTree before)
    (rewrites : hierarchy.Rewrites before after table index leaf) (present : leaf.present = true)
    (found : hierarchy.tableAt before above = some table) (last : above.length = 3)
    (ownsAbove : hierarchy.Owns above)
    (inside : ∀ frame, before.HasFrame frame → after.HasFrame frame) :
    hierarchy.Extends fresh before after := by
  have same := tableAt_of_filled tree rewrites present found last ownsAbove
  refine ⟨tree.of_tableAt_eq inside same, ?_, ?_⟩
  · intro path frame short owns leads
    exact (same path short owns).trans leads
  · rintro frame ⟨path, short, owns, leads⟩
    exact .inl ⟨path, short, owns, (same path short owns).symm.trans leads⟩

theorem entryAt_of_filled (tree : hierarchy.IsTree before)
    (rewrites : hierarchy.Rewrites before after table index leaf) (present : leaf.present = true)
    (found : hierarchy.tableAt before above = some table) (last : above.length = 3)
    (ownsAbove : hierarchy.Owns above)
    (path : TablePath) (long : path.length = 4) (owns : hierarchy.Owns path) :
    hierarchy.entryAt after path =
      if path = index :: above then some leaf else hierarchy.entryAt before path := by
  cases path with
  | nil => simp at long
  | cons next rest =>
      simp only [List.length_cons] at long
      have parents :=
        tableAt_of_filled tree rewrites present found last ownsAbove rest (by omega) owns.tail
      cases parent : hierarchy.tableAt before rest with
      | none =>
          have different : next :: rest ≠ index :: above := by
            intro same
            cases same
            rw [found] at parent
            cases parent
          rw [if_neg different, entryAt_cons_of_none parent,
            entryAt_cons_of_none (parents.trans parent)]
      | some other =>
          rw [entryAt_cons_of_some parent, entryAt_cons_of_some (parents.trans parent),
            rewrites.presentEntry tree found (by omega) ownsAbove parent (by omega) owns.tail
              present]

end

end EarlyMemory.Hierarchy
