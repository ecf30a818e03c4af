import EarlyMemory.Proofs.FrameManager.Drawing
import EarlyMemory.Proofs.Kernel.Bookkeeping
import EarlyMemory.Proofs.Kernel.Safety
import EarlyMemory.Proofs.Paging.Isolation
import Mathlib.Data.Fintype.Card

/-!
# Isolation of the kernel's mappings

A manager that is ready takes missing tables from its own ledger. While the tables form a tree
apart from the bitmaps, and the frames that it draws for new tables are in no such use, it maps a
page without a change to any other, except in the window of the recursive map. A safe kernel draws
no other frames.

An address that takes the slot has an entry of a table filled, so whatever is translated through
that entry changes too.
-/

namespace EarlyMemory

open Hierarchy (shown without)

theorem Ledger.IsOrderly.keeps_of_holdsBitmaps {ledger : Ledger} {memory : Memory}
    {keeps : Frame → Prop} {frame : Frame} (orderly : ledger.IsOrderly memory keeps)
    (holds : ledger.HoldsBitmaps frame) : keeps frame := by
  rcases holds with ⟨offset, below, holds⟩
  have inFront := orderly.inFront
  rcases (orderly.inside offset (by unfold Ledger.size; omega)).2 with ⟨other, isKept, holdsOther⟩
  rwa [Page.eq_of_holds holds holdsOther]

namespace FrameManager

open AddressSpace (Walkable)
open RecursiveMap (slot)

variable {root table : Frame} {manager : FrameManager} {keeps usable : Frame → Prop}
  {held busy : List Frame} {before after : Paged FrameManager} {address : VirtualAddress}

/-! ## Addresses by their indices -/

/-- The first address whose walk takes the given indices. -/
def pageAt (first second third last : TableIndex) : VirtualAddress :=
  .ofNat (first.val <<< 39 + second.val <<< 30 + third.val <<< 21 + last.val <<< 12)

theorem index_pageAt (first second third last : TableIndex) :
    Level.pml4.index (pageAt first second third last) = first ∧
      Level.pdpt.index (pageAt first second third last) = second ∧
      Level.pd.index (pageAt first second third last) = third ∧
      Level.pt.index (pageAt first second third last) = last := by
  have firstBound := first.isLt
  have secondBound := second.isLt
  have thirdBound := third.isLt
  have lastBound := last.isLt
  refine ⟨Fin.ext ?_, Fin.ext ?_, Fin.ext ?_, Fin.ext ?_⟩ <;>
    simp only [Level.val_index, Level.shift, pageAt, Address.ofNat, Nat.shiftLeft_eq,
      Nat.shiftRight_eq_div_pow] <;>
    omega

theorem pageKey_ne_of_index_ne (level : Level) {left right : VirtualAddress}
    (different : level.index left ≠ level.index right) : left.pageKey ≠ right.pageKey := by
  intro same
  have path := Address.leafPath_eq_iff.2 same
  simp only [Address.leafPath, Level.path, List.cons.injEq, and_true] at path
  cases level with
  | pml4 => exact different path.2.2.2
  | pdpt => exact different path.2.2.1
  | pd => exact different path.2.1
  | pt => exact different path.1

theorem pageKey_ne_tableAddress {page : VirtualAddress} (outside : Level.pml4.index page ≠ slot)
    (level : Level) (address : VirtualAddress) :
    page.pageKey ≠ (RecursiveMap.tableAddress level address).pageKey := by
  apply pageKey_ne_of_index_ne .pml4
  rwa [RecursiveMap.first_index_tableAddress]

/-! ## Absent entries -/

theorem le_frames_of_injective {memory : Memory} {count : Nat} {frameOf : Fin count → Frame}
    (injective : Function.Injective frameOf) (inside : ∀ index, memory.HasFrame (frameOf index)) :
    count ≤ memory.frames := by
  have room : ∀ index, (frameOf index).number - memory.base.number < memory.frames := by
    intro index
    rcases inside index with ⟨above, below⟩
    omega
  have crowded := Fintype.card_le_of_injective
    (fun index => (⟨_, room index⟩ : Fin memory.frames)) fun left right same => ?_
  · rwa [Fintype.card_fin, Fintype.card_fin] at crowded
  · have offset := congrArg Fin.val same
    have leftAbove := (inside left).1
    have rightAbove := (inside right).1
    simp only at offset
    exact injective (Page.ext (by omega))

/-- The present entries of a table in a tree lead to a frame of its own each, so there are no more
of them than frames. -/
theorem exists_absent_of_injective {memory : Memory} {above : TablePath} {count : Nat}
    {indexOf : Fin count → TableIndex} (distinct : Function.Injective indexOf)
    (few : memory.frames < count) (tree : (without root slot).IsTree memory)
    (found : (without root slot).tableAt memory above = some table) (room : above.length ≤ 2)
    (owns : ∀ position, (without root slot).Owns (indexOf position :: above)) :
    ∃ position, (memory.entry table (indexOf position)).present = false := by
  apply Classical.byContradiction
  intro none
  have leads : ∀ position, (without root slot).tableAt memory (indexOf position :: above) =
      some (memory.entry table (indexOf position)).frame := by
    intro position
    refine Hierarchy.tableAt_cons_eq_some.2 ⟨table, found, ?_, rfl⟩
    cases present : (memory.entry table (indexOf position)).present with
    | true => rfl
    | false => exact absurd ⟨position, present⟩ none
  have short : ∀ position, (indexOf position :: above).length ≤ 3 := fun _ => Nat.succ_le_succ room
  have injective : Function.Injective fun position =>
      (memory.entry table (indexOf position)).frame := by
    intro left right same
    have samePath := tree.unique _ _ _ (short left) (owns left) (leads left) (short right)
      (owns right) ((leads right).trans (congrArg some same.symm))
    exact distinct (List.cons.inj samePath).1
  have fits := le_frames_of_injective injective fun position =>
    tree.inside _ ⟨_, short position, owns position, leads position⟩
  omega

/-- In a small memory some entry of a table in a tree is absent, from any index on. -/
theorem exists_absent_entry {memory : Memory} {above : TablePath}
    (tree : (without root slot).IsTree memory)
    (found : (without root slot).tableAt memory above = some table) (room : above.length ≤ 2)
    (owns : (without root slot).Owns above) (first : Nat)
    (few : first + memory.frames < slot.val) :
    ∃ index : TableIndex, first ≤ index.val ∧ index.val ≤ first + memory.frames ∧
      (memory.entry table index).present = false := by
  have below : ∀ position : Fin (memory.frames + 1), first + position.val < slot.val := by
    intro position
    have bound := position.isLt
    omega
  have distinct : Function.Injective fun position : Fin (memory.frames + 1) =>
      (⟨first + position.val, (below position).trans slot.isLt⟩ : TableIndex) := by
    intro left right same
    have sameIndex := congrArg Fin.val same
    simp only at sameIndex
    exact Fin.ext (by omega)
  have owned : ∀ position, (without root slot).Owns
      (⟨first + position.val, (below position).trans slot.isLt⟩ :: above) := by
    intro position
    by_cases isRoot : above = []
    · subst isRoot
      intro index last hidden
      cases last
      exact Nat.ne_of_lt (below position) (congrArg Fin.val (Option.some.inj hidden)).symm
    · exact owns.cons isRoot
  rcases exists_absent_of_injective distinct (Nat.lt_succ_self _) tree found room owned with
    ⟨position, absent⟩
  have bound := position.isLt
  exact ⟨_, Nat.le_add_right .., by simp only; omega, absent⟩

/-! ## Mappings of a safe kernel -/

theorem isTable_of_isOnWalk {memory : Memory} {frame : Frame}
    (leads : (spaceBelow root).hierarchy.Leads address)
    (onWalk : (shown root).IsOnWalk memory address frame) :
    (spaceBelow root).hierarchy.IsTable memory frame := by
  rcases onWalk with ⟨level, found⟩
  exact leads.isTable ((Hierarchy.tableAt_eq_shown ..).trans found)

theorem AccountsFor.walkable {managed : Set Frame} (accounts : AccountsFor managed keeps before)
    (usable : (spaceBelow root).IsUsable before.memory)
    (leads : (spaceBelow root).hierarchy.Leads address)
    (kept : ∀ frame, keeps frame → ¬ (spaceBelow root).hierarchy.IsTable before.memory frame)
    (offered : ∀ frame, before.source.ledger.Offers before.memory frame →
      before.memory.HasFrame frame ∧ frame.IsLinkable ∧ ¬ keeps frame ∧
        ¬ (shown root).IsOnWalk before.memory address frame) :
    Walkable root (supply before.source) address before
      (before.source.ledger.Offers before.memory) keeps where
  addressable := usable.addressable
  installed := usable.served.2
  tables := usable.tree.hasTables_shown usable.served.2 address
  supplied := ⟨rfl, accounts.ready, accounts.orderly, fun _ => Iff.rfl⟩
  offered := offered
  kept frame isKept onWalk := kept frame isKept (isTable_of_isOnWalk leads onWalk)

/-- What is left behind if a page was mapped in a table that was drawn for it. -/
structure DrawsTable (root : Frame) (managed : Set Frame) (keeps usable : Frame → Prop)
    (table frame : Frame) (page : VirtualAddress) (leaf : PageEntry)
    (before after : Paged FrameManager) : Prop
    extends DrawsLast keeps table frame page leaf before after where
  safe : Kernel.IsSafe root before.source keeps usable [] [] after
  accounts : AccountsFor managed keeps after
  offered : before.source.ledger.Offers before.memory frame
  lowest : ∀ other, before.source.ledger.Offers before.memory other →
    frame.number ≤ other.number
  found : (spaceBelow root).hierarchy.tableAt after.memory (Level.pd.path page) = some table
  drawn : (spaceBelow root).hierarchy.tableAt after.memory (Level.pt.path page) = some frame

theorem exists_drawsTable {managed : Set Frame} {page : VirtualAddress}
    (safe : Kernel.IsSafe root before.source keeps usable [] [] before)
    (accounts : AccountsFor managed keeps before) (outside : Level.pml4.index page ≠ slot)
    (found : (spaceBelow root).hierarchy.tableAt before.memory (Level.pd.path page) = some table)
    (absent : (before.memory.entry table (Level.pd.index page)).present = false)
    (nonempty : ∃ frame, before.source.ledger.Offers before.memory frame)
    (target : PhysicalAddress) (rights : Rights) :
    ∃ frame after, (FrameManager.map target page rights).run before = (.done (), after) ∧
      DrawsTable root managed keeps usable table frame page (.leaf (target.page .small) rights)
        before after := by
  have leads : (spaceBelow root).hierarchy.Leads page :=
    Hierarchy.leads_without.2 outside
  have walkable := accounts.walkable safe.ready.usable leads safe.ready.kept fun frame offered => by
    have spare := safe.isSpare offered
    exact ⟨spare.inside, spare.linkable, spare.unkept, spare.unused ∘ isTable_of_isOnWalk leads⟩
  rcases exists_drawsLast accounts walkable safe.active safe.owner
    ((Hierarchy.tableAt_eq_shown ..).symm.trans found) absent nonempty target rights with
    ⟨frame, after, ran, offered, lowest, accountsAfter, draws⟩
  rcases safe.map outside ran with ⟨safeAfter, widened⟩
  have foundAfter := widened.kept _ table Level.pd.length_path_le (leads.owns_path .pd) found
  refine ⟨frame, after, ran, draws, safeAfter, accountsAfter, offered, lowest, foundAfter, ?_⟩
  refine Hierarchy.tableAt_cons_eq_some.2 ⟨table, foundAfter, ?_, ?_⟩
  · rw [draws.link, PageEntry.present_table]
  · rw [draws.link, PageEntry.frame_table (safe.isSpare offered).linkable]

/-- A kernel that is safe draws frames for its tables that were in no use. -/
theorem fresh_of_linksTo (safe : Kernel.IsSafe root manager keeps usable held busy before)
    (outside : Level.pml4.index address ≠ slot) {target : PhysicalAddress} {rights : Rights}
    (done : (FrameManager.map target address rights).run before = (.done (), after))
    {frame : Frame} (links : (spaceBelow root).LinksTo address before.memory after.memory frame) :
    ¬ (spaceBelow root).hierarchy.IsTable before.memory frame ∧
      ¬ before.source.ledger.HoldsBitmaps frame := by
  rcases links with ⟨level, missing, found⟩
  have leads : (spaceBelow root).hierarchy.Leads address :=
    Hierarchy.leads_without.2 outside
  have spare := safe.isSpare ((safe.map outside done).2.fresh_of_new level.length_path_le
    (leads.owns_path level) missing found)
  refine ⟨spare.unused, fun holds => spare.unkept ?_⟩
  rw [safe.source] at holds
  exact safe.orderly.keeps_of_holdsBitmaps holds

/-! ## The small machine -/

theorem Prepared.exists_tableAt {capacity : Nat} {sorting : Region.Sorting}
    {table : RegionTable capacity sorting} (prepared : Prepared root table before)
    (clear : ∀ layout, Ledger.Layout.ofRegions table.regions = .ok layout →
      ∀ index < layout.metadataPages,
        (spaceBelow root).hierarchy.Leads (before.source.nextVirtual.pageAfter index))
    (done : (adopt table.regions).run before = (.done (), after)) :
    ∃ frame, (spaceBelow root).hierarchy.tableAt after.memory
      (Level.pt.path before.source.nextVirtual) = some frame := by
  rcases FrameManager.of_run_adopt done with
    ⟨layout, region, address, strip, left, mapped, opened, allocated, marked, steps, rfl⟩
  rcases steps.found with ⟨bytes, size, found⟩
  rcases Ledger.Layout.hosts_of_find prepared.wellFormed size found with ⟨member, hosts⟩
  have admits := prepared.admits hosts member
  have leads := clear layout steps.planned
  rcases steps.settles prepared.wellFormed (Run.pairwise_separate prepared.sound.separate) member
    admits leads with ⟨used, settles⟩
  rcases Run.exists_mem_ofRegions member (prepared.wellFormed region member).1 with ⟨run, isRun, _⟩
  have some := settles.houses.pos (List.ne_nil_of_mem isRun)
  have lead := leads 0 some
  have leaf := settles.maps.leaves 0 some
  rw [Address.pageAfter_zero] at lead leaf
  rcases settles.maps.grows admits settles.behind
    (settles.opens.agrees.trans settles.withdraws.agrees) with ⟨_, _, grows⟩
  rw [← grows.leaves _ (Address.length_leafPath _) lead.owns_leafPath] at leaf
  cases leadsTo : (spaceBelow root).hierarchy.tableAt marked.memory
      (Level.pt.path before.source.nextVirtual) with
  | some frame => exact ⟨frame, leadsTo⟩
  | none =>
      rw [Address.leafPath, Hierarchy.entryAt_cons_of_none leadsTo] at leaf
      cases leaf

theorem exists_tinyUp : ∃ installed adopted layout host used table,
    (adopt Kernel.tinyTable.regions).run installed = (.done (), adopted) ∧
    Adopts Kernel.tinyRoot Kernel.tinyTable layout host used adopted ∧
    adopted.memory.frames = 16 ∧
    AccountsFor (managedPages Kernel.tinyTable.regions) (layout.Occupies host) adopted ∧
    (spaceBelow Kernel.tinyRoot).hierarchy.tableAt adopted.memory
      (Level.pd.path Kernel.tinyEnd) = some table := by
  rcases Kernel.exists_tinyManaged with
    ⟨_, installed, adopted, _, _, prepared, next, adopting, frames⟩
  have start : Kernel.tinyEnd.alignUp .small = Kernel.tinyEnd := by decide
  have clear := Kernel.tinyEnd_isClear
  rw [start, ← next] at clear
  have leads : ∀ layout, Ledger.Layout.ofRegions Kernel.tinyTable.regions = .ok layout →
      ∀ index < layout.metadataPages, (spaceBelow Kernel.tinyRoot).hierarchy.Leads
        (installed.source.nextVirtual.pageAfter index) :=
    fun layout planned index below => Hierarchy.leads_without.2 (clear layout planned index below)
  rcases prepared.of_run_adopt leads adopting with ⟨layout, host, used, adopts, _⟩
  have inOrder : Kernel.tinyTable.regions.Pairwise fun left right =>
      left.stop.value ≤ right.start.value := by decide
  rcases accountsFor_of_run_adopt prepared.pageAligned (inOrder.imp Region.precedes_of_stop_le)
    adopting with ⟨_, accounts⟩
  rcases prepared.exists_tableAt leads adopting with ⟨_, last⟩
  rw [next] at last
  rcases Hierarchy.exists_tableAt_of_le last (show Level.pd.depth ≤ Level.pt.depth by decide) with
    ⟨table, found⟩
  exact ⟨installed, adopted, layout, host, used, table, adopting, adopts, frames,
    ⟨accounts.ready, adopts.ready.supplied.2.orderly, accounts.sorted, accounts.tracked⟩, found⟩

theorem exists_tinyNeighbours : ∃ installed adopted layout host used table,
    ∃ page address : VirtualAddress,
    (adopt Kernel.tinyTable.regions).run installed = (.done (), adopted) ∧
    Adopts Kernel.tinyRoot Kernel.tinyTable layout host used adopted ∧
    AccountsFor (managedPages Kernel.tinyTable.regions) (layout.Occupies host) adopted ∧
    Level.pml4.index page ≠ slot ∧ Level.pml4.index address ≠ slot ∧
    (spaceBelow Kernel.tinyRoot).hierarchy.tableAt adopted.memory (Level.pd.path page) =
      some table ∧
    (adopted.memory.entry table (Level.pd.index page)).present = false ∧
    Level.pd.path address = Level.pd.path page ∧
    (adopted.memory.entry table (Level.pd.index address)).present = false ∧
    Level.pd.index address ≠ Level.pd.index page ∧
    Level.pt.index page ≠ Level.pt.index address := by
  rcases exists_tinyUp with
    ⟨installed, adopted, layout, host, used, table, adopting, adopts, frames, accounts, found⟩
  have outside : Level.pml4.index Kernel.tinyEnd ≠ slot := by decide
  have leads : (spaceBelow Kernel.tinyRoot).hierarchy.Leads Kernel.tinyEnd :=
    Hierarchy.leads_without.2 outside
  rcases exists_absent_entry adopts.ready.tree found (by decide) (leads.owns_path .pd) 0
    (by rw [frames]; decide) with ⟨index, _, low, absent⟩
  rcases exists_absent_entry adopts.ready.tree found (by decide) (leads.owns_path .pd) 17
    (by rw [frames]; decide) with ⟨next, above, _, absentNext⟩
  rw [frames] at low
  have different : next ≠ index := Fin.ne_of_val_ne (by omega)
  rcases index_pageAt (Level.pml4.index Kernel.tinyEnd) (Level.pdpt.index Kernel.tinyEnd) index 1
    with ⟨first, second, third, last⟩
  rcases index_pageAt (Level.pml4.index Kernel.tinyEnd) (Level.pdpt.index Kernel.tinyEnd) next 2
    with ⟨firstNext, secondNext, thirdNext, lastNext⟩
  refine ⟨installed, adopted, layout, host, used, table, _, _, adopting, adopts, accounts,
    first.symm ▸ outside, firstNext.symm ▸ outside, ?_, third.symm ▸ absent, ?_,
    thirdNext.symm ▸ absentNext, ?_, ?_⟩
  · rw [Level.path, first, second]
    exact found
  · rw [Level.path, Level.path, first, second, firstNext, secondNext]
  · rwa [third, thirdNext]
  · rw [last, lastNext]
    decide

theorem Adopts.isSafe {layout : Ledger.Layout} {host : PhysicalAddress} {used : Nat}
    (adopts : Adopts Kernel.tinyRoot Kernel.tinyTable layout host used after) :
    Kernel.IsSafe Kernel.tinyRoot after.source (layout.Occupies host)
      (after.source.ledger.Offers after.memory) [] [] after :=
  ⟨adopts.active, adopts.owner, adopts.ready, fun _ offered => offered, by simp, by simp⟩

/-! ## Other pages -/

/-- While its tables form a tree apart from its bitmaps, a manager that maps a page leaves the
translation of every other page alone, except in the window where it shows new tables, as long as
the new tables stand in frames that were neither. Only if the address takes the slot do pages
share the entry that is filled. -/
theorem mapping_leaves_other_pages_alone (active : before.source.active = root)
    (owner : before.source.root = some root)
    (installed : RecursiveMap.isInstalled before.memory root = true)
    (tree : (spaceBelow root).hierarchy.IsTree before.memory)
    (apart : ∀ frame, before.source.ledger.HoldsBitmaps frame →
      ¬ (spaceBelow root).hierarchy.IsTable before.memory frame)
    (target : PhysicalAddress) (address : VirtualAddress) (rights : Rights)
    (done : (FrameManager.map target address rights).run before = (.done (), after))
    (fresh : ∀ frame, (spaceBelow root).LinksTo address before.memory after.memory frame →
      ¬ (spaceBelow root).hierarchy.IsTable before.memory frame ∧
        ¬ before.source.ledger.HoldsBitmaps frame) :
    (Level.pml4.index address ≠ slot → ∀ page : VirtualAddress, page.pageKey ≠ address.pageKey →
      ¬ (spaceBelow root).ShowsNewTable address before.memory after.memory page →
      after.memory.translate root page = before.memory.translate root page) ∧
    ∀ page : VirtualAddress, ¬ address.ownPath <:+ page.ownPath →
      ¬ (spaceBelow root).ShowsNewTable address before.memory after.memory page →
      after.memory.translate root page = before.memory.translate root page := by
  rcases of_run_map active owner done with ⟨_, mapped⟩
  have usable : (spaceBelow root).IsUsable before.memory :=
    ⟨AddressSpace.addressable_of_map mapped, tree, rfl, installed⟩
  have alone : ∀ page : VirtualAddress, ¬ address.ownPath <:+ page.ownPath →
      ¬ (spaceBelow root).ShowsNewTable address before.memory after.memory page →
      after.memory.translate root page = before.memory.translate root page :=
    fun page off old => AddressSpace.translate_eq_of_map (keepsTo_holdsBitmaps before.source)
      usable apart mapped fresh off old
  refine ⟨fun outside page different => alone page fun through => ?_, alone⟩
  exact different ((Address.ownPath_suffix_iff outside).1 through)

/-- On the small machine the manager maps a page in a table that is new, and nothing else. -/
theorem tinyMapping_leaves_other_pages_alone : ∃ installed adopted address after,
    (adopt Kernel.tinyTable.regions).run installed = (.done (), adopted) ∧
    (FrameManager.map Kernel.tinyRoot.base address .readWrite).run adopted = (.done (), after) ∧
    (∃ frame, (spaceBelow Kernel.tinyRoot).LinksTo address adopted.memory after.memory frame) ∧
    ∀ page : VirtualAddress, page.pageKey ≠ address.pageKey →
      ¬ (spaceBelow Kernel.tinyRoot).ShowsNewTable address adopted.memory after.memory page →
      after.memory.translate Kernel.tinyRoot page =
        adopted.memory.translate Kernel.tinyRoot page := by
  rcases exists_tinyNeighbours with ⟨installed, adopted, layout, host, used, table, address, _,
    adopting, adopts, accounts, outside, _, found, absent, _⟩
  have safe := adopts.isSafe
  rcases exists_drawsTable safe accounts outside found absent
    ⟨_, Kernel.tinyFrame_isOffered adopts⟩ Kernel.tinyRoot.base .readWrite with
    ⟨frame, after, ran, draws⟩
  have missing : (spaceBelow Kernel.tinyRoot).hierarchy.tableAt adopted.memory
      (Level.pt.path address) = none := Hierarchy.tableAt_of_absent found absent (by decide)
  exact ⟨installed, adopted, address, after, adopting, ran, ⟨frame, .pt, missing, draws.drawn⟩,
    (mapping_leaves_other_pages_alone adopts.active adopts.owner safe.ready.served.2
      safe.ready.tree (fun _ holds => safe.ready.kept _ (safe.orderly.keeps_of_holdsBitmaps holds))
      Kernel.tinyRoot.base address .readWrite ran
      fun _ links => fresh_of_linksTo safe outside ran links).1 outside⟩

end FrameManager

end EarlyMemory
