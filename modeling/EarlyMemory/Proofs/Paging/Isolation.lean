import EarlyMemory.Proofs.Paging.Descent

/-!
# What a mapping leaves alone

Mapping a page links the tables that are missing on its walk and fills one entry. As long as the
tables form a tree, a page is translated as before unless it shows a new table in the window or
its walk goes through the filled entry. That entry is the mapped page's own, except if the
address takes the slot: then the walk ends above the last level and the filled entry leads on.
-/

namespace EarlyMemory

open Hierarchy (without)
open RecursiveMap (Turns afterTurns index_afterTurns path_afterTurns)

/-! ## Walks through an entry -/

namespace Hierarchy

variable {root table frame : Frame} {memory : Memory} {index : TableIndex} {above path : TablePath}
  {page address : VirtualAddress}

theorem suffix_ownPath_of_path {own : TablePath} {count : Nat} {level : Level}
    (split : level.path page = own ++ List.replicate count RecursiveMap.slot)
    (owns : (without root RecursiveMap.slot).Owns own) (through : index :: above <:+ own) :
    index :: above <:+ page.ownPath := by
  rcases level.path_suffix_leafPath page with ⟨front, leafPath⟩
  have nonempty : own ≠ [] := by
    rintro rfl
    exact List.cons_ne_nil _ _ (List.suffix_nil.1 through)
  rw [split, ← List.append_assoc] at leafPath
  rw [Address.ownPath_eq leafPath.symm (owns.append nonempty front)]
  exact through.trans (List.suffix_append front own)

/-- Filling an absent entry changes where the pages lead whose walks go through it, and no
others. -/
theorem translate_setEntry_of_apart {entry : PageEntry} (addressable : memory.IsAddressable)
    (tree : (without root RecursiveMap.slot).IsTree memory)
    (installed : RecursiveMap.isInstalled memory root = true)
    (found : (without root RecursiveMap.slot).tableAt memory above = some table)
    (room : above.length ≤ 3) (owns : (without root RecursiveMap.slot).Owns above)
    (absent : (memory.entry table index).present = false) (present : entry.present = true)
    (apart : ¬ index :: above <:+ page.ownPath) :
    (memory.setEntry table index entry).translate root page = memory.translate root page := by
  have inside := tree.inside table ⟨above, room, owns, found⟩
  have agrees := Memory.agreesOutside_setEntry memory table index entry
  have installedAfter := RecursiveMap.isInstalled_setEntry_of_absent entry absent installed
  have rewrites : (without root RecursiveMap.slot).Rewrites memory
      (memory.setEntry table index entry) table index entry := rewrites_setEntry inside
  have same := rewrites.tableAt_of_apart tree found room owns present
  have tables : (shown root).HasTables (memory.setEntry table index entry) page .pt := by
    intro level shallow frame leads
    rcases exists_own_path root RecursiveMap.slot level page with
      ⟨own, count, split, short, ownsOwn⟩
    have isOwn : own.length ≤ 3 := Nat.le_trans short shallow
    rw [← tableAt_eq_shown (without root RecursiveMap.slot), split,
      tableAt_append_slot installedAfter, same own (Nat.le_succ_of_le isOwn) ownsOwn
        fun through => apart (suffix_ownPath_of_path split ownsOwn through)] at leads
    exact (agrees.hasFrame_iff frame).2 (tree.inside frame ⟨own, isOwn, ownsOwn, leads⟩)
  rcases Address.exists_leafPath_eq page with ⟨count, leafPath⟩
  rw [Memory.translate_eq_of_hasTables (agrees.isAddressable_iff.2 addressable) installedAfter page
      tables leafPath,
    Memory.translate_eq_tableAt addressable tree installed page leafPath,
    same _ page.length_ownPath_le (Address.owns_ownPath root page) apart]

end Hierarchy

namespace AddressSpace

open RecursiveMap (Shows)

variable {F : Type} {space : AddressSpace} {before after : Paged F} {records : Frame → Prop}
  {address page : VirtualAddress} {level lowest : Level} {last root : Frame}
  {target : PhysicalAddress} {rights : Rights}

/-! ## New tables -/

/-- Whether a table of a walk is there now and was not before. -/
def IsLinked (space : AddressSpace) (address : VirtualAddress) (before after : Memory)
    (level : Level) : Prop :=
  space.hierarchy.tableAt before (level.path address) = none ∧
    space.hierarchy.tableAt after (level.path address) ≠ none

/-- Whether the walk for an address leads to a frame, as a table that was not there before. -/
def LinksTo (space : AddressSpace) (address : VirtualAddress) (before after : Memory)
    (frame : Frame) : Prop :=
  ∃ level : Level, space.hierarchy.tableAt before (level.path address) = none ∧
    space.hierarchy.tableAt after (level.path address) = some frame

/-- Whether a page of the window shows a table that is new on the walk for an address. -/
def ShowsNewTable (space : AddressSpace) (address : VirtualAddress) (before after : Memory)
    (page : VirtualAddress) : Prop :=
  ∃ level : Level, space.IsLinked address before after level ∧
    page.pageKey = (RecursiveMap.tableAddress level address).pageKey

section

variable {before after : Memory}

theorem ComesDown.tableAt_eq (comes : space.ComesDown address lowest last before after)
    (path : TablePath) (short : path.length ≤ 4) (owns : space.hierarchy.Owns path)
    (old : ∀ level : Level, level.depth ≤ lowest.depth →
      space.IsLinked address before after level → path ≠ level.path address) :
    space.hierarchy.tableAt after path = space.hierarchy.tableAt before path := by
  by_cases long : path.length = 4
  · have nonempty : path ≠ [] := List.ne_nil_of_length_eq_add_one long
    rw [Hierarchy.tableAt_eq_map_entryAt _ _ nonempty, comes.same path long owns,
      ← Hierarchy.tableAt_eq_map_entryAt _ _ nonempty]
  · rcases comes.links with ⟨linked, shallow, links⟩
    exact links.others path (by omega) owns fun level member =>
      old level (shallow level member) (links.fresh level member)

theorem ComesDown.translate_eq
    (comes : ComesDown ⟨root, .recursive root⟩ address lowest last before after)
    (usable : IsUsable ⟨root, .recursive root⟩ before)
    (leads : (without root RecursiveMap.slot).Leads address)
    (old : ∀ level : Level, level.depth ≤ lowest.depth →
      IsLinked ⟨root, .recursive root⟩ address before after level →
      page.pageKey ≠ (RecursiveMap.tableAddress level address).pageKey) :
    after.translate root page = before.translate root page := by
  rcases Address.exists_leafPath_eq page with ⟨count, leafPath⟩
  have owns := Address.owns_ownPath root page
  have same := comes.tableAt_eq page.ownPath page.length_ownPath_le owns
    fun level shallow linked samePath => old level shallow linked
      ((Address.pageKey_eq_iff leafPath owns (RecursiveMap.leafPath_tableAddress level address)
        (leads.owns_path level)).2 samePath)
  rw [Memory.translate_eq_tableAt comes.usable.addressable comes.usable.tree comes.usable.served.2
      page leafPath,
    Memory.translate_eq_tableAt usable.addressable usable.tree usable.served.2 page leafPath]
  exact congrArg (fun found => Except.ok (Option.map _ found)) same

/-- A table of a walk goes by both its names. -/
theorem tableAt_afterTurns {memory : Memory} {upper lower : Level}
    (installed : RecursiveMap.isInstalled memory root = true) (turns : Turns address level)
    (depth : lower.depth = level.depth + upper.depth) :
    (without root RecursiveMap.slot).tableAt memory (upper.path (afterTurns level address)) =
      (without root RecursiveMap.slot).tableAt memory (lower.path address) := by
  rw [path_afterTurns turns depth, Hierarchy.tableAt_append_slot installed]

/-! ## Mapping a page -/

/-- How a page is mapped: after its turns the walk goes down to a table, where it fills an absent
entry. -/
structure Places (root : Frame) (address : VirtualAddress) (leaf : PageEntry)
    (level lowest : Level) (last : Frame) (before middle after : Memory) : Prop where
  turns : Turns address level
  leads : (without root RecursiveMap.slot).Leads (afterTurns level address)
  depth : Level.pt.depth = level.depth + lowest.depth
  comes : ComesDown ⟨root, .recursive root⟩ (afterTurns level address) lowest last before middle
  absent : (middle.entry last (lowest.index (afterTurns level address))).present = false
  memory : after = middle.setEntry last (lowest.index (afterTurns level address)) leaf

namespace Places

variable {leaf : PageEntry} {middle : Memory}
  (places : Places root address leaf level lowest last before middle after)

include places

theorem ownPath : address.ownPath =
    lowest.index (afterTurns level address) :: lowest.path (afterTurns level address) := by
  have split : address.leafPath = (lowest.index (afterTurns level address) ::
      lowest.path (afterTurns level address)) ++ List.replicate level.depth RecursiveMap.slot := by
    rw [Address.leafPath, path_afterTurns places.turns places.depth,
      index_afterTurns places.depth, List.cons_append]
  exact Address.ownPath_eq split (places.leads.owns_next lowest)

theorem isInstalled_after : RecursiveMap.isInstalled after root = true := by
  rw [places.memory]
  exact RecursiveMap.isInstalled_setEntry_of_absent leaf places.absent places.comes.usable.served.2

theorem translate_after (present : leaf.present = true)
    (apart : ¬ address.ownPath <:+ page.ownPath) :
    after.translate root page = middle.translate root page := by
  have usable := places.comes.usable
  rw [places.ownPath] at apart
  rw [places.memory]
  exact Hierarchy.translate_setEntry_of_apart usable.addressable usable.tree usable.served.2
    places.comes.found lowest.length_path_le (places.leads.owns_path lowest) places.absent present
    apart

theorem isLinked {upper lower : Level}
    (installed : RecursiveMap.isInstalled before root = true)
    (depth : lower.depth = level.depth + upper.depth)
    (linked : IsLinked ⟨root, .recursive root⟩ (afterTurns level address) before middle upper) :
    IsLinked ⟨root, .recursive root⟩ address before after lower := by
  rcases linked with ⟨missing, found⟩
  rcases Option.ne_none_iff_exists'.1 found with ⟨table, found⟩
  have kept : (without root RecursiveMap.slot).tableAt after
      (upper.path (afterTurns level address)) = some table := by
    rw [places.memory]
    exact Hierarchy.tableAt_of_keepsEntries (Memory.keepsEntries_setEntry leaf places.absent) found
  have still := places.isInstalled_after
  refine ⟨(tableAt_afterTurns installed places.turns depth).symm.trans missing, ?_⟩
  exact Option.ne_none_iff_exists'.2
    ⟨table, (tableAt_afterTurns still places.turns depth).symm.trans kept⟩

end Places

end

variable [FrameSource F]

/-- What a page that is mapped is known by: going down found a table whose entry was absent, and
there the leaf is. -/
theorem of_run_map
    (done : (map ⟨root, .recursive root⟩ target address rights).run before = (.done (), after)) :
    ∃ hint middle,
      (descend ⟨root, .recursive root⟩ address .pml4 root Level.pml4.below).run before =
        (.done hint, middle) ∧
      ∃ last, Shows root middle.memory address .pt last ∧
        (middle.memory.entry last (Level.pt.index address)).present = false ∧
        after.memory = middle.memory.setEntry last (Level.pt.index address)
          (.leaf (target.page .small) rights) := by
  rw [map] at done
  rcases Operation.of_run_bind done with ⟨hint, middle, descended, done⟩
  rcases Operation.of_run_bind done with ⟨last, _, reaching, done⟩
  rcases Paged.of_run_inspect reaching with ⟨reached, rfl⟩
  rw [Operation.run_bind_of_done (Paged.run_inspect ..)] at done
  refine ⟨hint, middle, descended, last, ⟨hint, reached⟩, ?_⟩
  cases present : (middle.memory.entry last (Level.pt.index address)).present with
  | true =>
      rw [if_pos present] at done
      cases done
  | false =>
      rw [if_neg (by simp [present])] at done
      rcases Operation.of_run_bind done with ⟨_, filled, filling, done⟩
      rcases Paged.of_run_changeMemory filling with ⟨memory, _⟩
      cases done
      exact ⟨rfl, memory⟩

/-- A run that is done has accessed the root, so the memory has addresses. -/
theorem addressable_of_map
    (done : (map ⟨root, .recursive root⟩ target address rights).run before = (.done (), after)) :
    before.memory.IsAddressable := by
  rcases of_run_map done with ⟨_, _, descended, _, shows, _⟩
  rcases shows_of_descend descended rfl shows with ⟨_, findsRoot⟩
  exact findsRoot.addressable

theorem exists_places_of_map (keepsTo : KeepsTo before.source records)
    (usable : IsUsable ⟨root, .recursive root⟩ before.memory)
    (unrecorded : ∀ frame, records frame →
      ¬ (without root RecursiveMap.slot).IsTable before.memory frame)
    (done : (map ⟨root, .recursive root⟩ target address rights).run before = (.done (), after))
    (fresh : ∀ frame, LinksTo ⟨root, .recursive root⟩ address before.memory after.memory frame →
      ¬ (without root RecursiveMap.slot).IsTable before.memory frame ∧ ¬ records frame) :
    ∃ level lowest last middle, Places root address (.leaf (target.page .small) rights) level
      lowest last before.memory middle after.memory := by
  rcases of_run_map done with ⟨hint, middle, descended, last, shows, absent, memory⟩
  have installed := usable.served.2
  rcases RecursiveMap.exists_turns address with every | ⟨level, turns, leaves⟩
  · -- The walk ends at the slot itself, whose entry is present.
    have turns : Turns address .pt := fun upper _ => every upper
    have turned := (run_descend_of_turns usable turns).symm.trans descended
    cases turned
    have isRoot := shows.tableAt installed
    rw [RecursiveMap.path_of_turns turns, ← List.nil_append (List.replicate _ _),
      Hierarchy.tableAt_append_slot installed] at isRoot
    cases isRoot
    rw [every .pt, (RecursiveMap.steps_of_isInstalled installed).present] at absent
    cases absent
  · rcases level.exists_renamed with ⟨uppers, lowest, part, count, depth, depths⟩
    have leads : (without root RecursiveMap.slot).Leads (afterTurns level address) := fun hidden =>
      leaves ((index_afterTurns rfl).symm.trans (Option.some.inj hidden).symm)
    have descending := run_descend_afterTurns turns depths
      (show level.depth = level.depth + Level.pml4.depth from rfl)
      ((run_descend_of_turns usable turns).symm.trans descended)
    have deep : lowest.depth = Level.pml4.depth + uppers.length := by
      rw [count, Level.depth, Nat.zero_add]
    have showsLast : Shows root middle.memory (afterTurns level address) lowest last := by
      rcases shows with ⟨hint, reached⟩
      exact ⟨hint, (reach_afterTurns turns depth _ _ _).trans reached⟩
    have comesTo : ComesTo root records (afterTurns level address) .pml4 before.memory :=
      usable.comesTo unrecorded leads Hierarchy.tableAt_nil
    have still := (sameWalk_of_descend keepsTo rfl comesTo descending part deep showsLast
      (Nat.le_refl _)).2
    rw [← index_afterTurns depth] at absent memory
    refine ⟨level, lowest, last, middle.memory, turns, leads, depth, ?_, absent, memory⟩
    refine comesDown_of_descend keepsTo rfl usable unrecorded leads part deep descending showsLast
      (fun _ => .inl) ?_
    intro upper _ shallow missing frame found
    rcases Level.exists_of_depth (show level.depth + upper.depth ≤ Level.pt.depth by omega) with
      ⟨lower, lowerDepth⟩
    refine fresh frame ⟨lower,
      (tableAt_afterTurns installed turns lowerDepth).symm.trans missing, ?_⟩
    have keeps := Memory.keepsEntries_setEntry (.leaf (target.page .small) rights) absent
    rw [← memory] at keeps
    have kept := Hierarchy.tableAt_of_keepsEntries keeps found
    exact (tableAt_afterTurns (RecursiveMap.isInstalled_of_keepsEntries keeps still) turns
      lowerDepth).symm.trans kept

/-- Mapping a page changes where another leads only if its walk goes through the filled entry or
it shows a new table, as long as the new tables stand in frames that were in no use. -/
theorem translate_eq_of_map (keepsTo : KeepsTo before.source records)
    (usable : IsUsable ⟨root, .recursive root⟩ before.memory)
    (unrecorded : ∀ frame, records frame →
      ¬ (without root RecursiveMap.slot).IsTable before.memory frame)
    (done : (map ⟨root, .recursive root⟩ target address rights).run before = (.done (), after))
    (fresh : ∀ frame, LinksTo ⟨root, .recursive root⟩ address before.memory after.memory frame →
      ¬ (without root RecursiveMap.slot).IsTable before.memory frame ∧ ¬ records frame)
    (apart : ¬ address.ownPath <:+ page.ownPath)
    (old : ¬ ShowsNewTable ⟨root, .recursive root⟩ address before.memory after.memory page) :
    after.memory.translate root page = before.memory.translate root page := by
  rcases exists_places_of_map keepsTo usable unrecorded done fresh with
    ⟨level, lowest, last, middle, places⟩
  rw [places.translate_after (PageEntry.present_leaf (target.page .small) rights) apart]
  refine places.comes.translate_eq usable places.leads fun upper shallow linked shows => ?_
  have depth := places.depth
  rcases Level.exists_of_depth (show level.depth + upper.depth ≤ Level.pt.depth by omega) with
    ⟨lower, lowerDepth⟩
  refine old ⟨lower, places.isLinked usable.served.2 lowerDepth linked, ?_⟩
  rw [shows, RecursiveMap.tableAddress_afterTurns places.turns lowerDepth]

end AddressSpace

end EarlyMemory
