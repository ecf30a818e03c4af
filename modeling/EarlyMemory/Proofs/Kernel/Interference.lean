import EarlyMemory.Proofs.Kernel.Isolation

/-!
# How mappings interfere

Nothing keeps an address from taking the slot of the recursive map. Such an address has an entry
of a table filled, so a page behind that entry appears, and the entry may put a table at a second
place. From then on an entry that is filled below the one place is filled below the other. Nor
does anything keep a table from being freed as a page. It is drawn for the next table that is
missing, and cleared, and the pages that it led to are lost.
-/

namespace EarlyMemory

open AddressSpace (Walkable)
open Hierarchy (shown without)

namespace FrameManager

open RecursiveMap (slot)

variable {root table : Frame} {keeps usable : Frame → Prop} {before after : Paged FrameManager}
  {address : VirtualAddress}

/-! ## Walks that stay at the root -/

theorem translate_of_absent {memory : Memory} {page : VirtualAddress}
    (addressable : memory.IsAddressable) (inside : memory.HasFrame root)
    (absent : (memory.entry root (Level.pml4.index page)).present = false) :
    memory.translate root page = .ok none := by
  have isRoot : (shown root).tableAt memory (Level.pml4.path page) = some root := rfl
  have missing : ∀ level : Level, Level.pml4.depth < level.depth →
      (shown root).tableAt memory (level.path page) = none :=
    fun level => Hierarchy.tableAt_of_absent isRoot absent
  have tables : (shown root).HasTables memory page .pt := by
    intro level _ frame found
    by_cases first : level = .pml4
    · subst first
      exact Option.some.inj found ▸ inside
    · cases found.symm.trans (missing level (Level.depth_lt_of_ne_pml4 first))
  have walked := Hierarchy.walk_eq addressable tables
  rw [Hierarchy.entryAt_leafPath_of_none (missing .pt (by decide))] at walked
  exact Memory.translate_of_walk walked

/-- Whether the walk for an address stays at the root down to the last table. -/
def Circles (memory : Memory) (root : Frame) (address : VirtualAddress) : Prop :=
  ∀ upper : Level, upper.depth < Level.pt.depth → memory.Steps root (upper.index address) root

theorem Circles.tableAt {memory : Memory} (circles : Circles memory root address) (level : Level) :
    (shown root).tableAt memory (level.path address) = some root := by
  induction depth : level.depth generalizing level with
  | zero =>
      cases Level.eq_of_depth_eq (show level.depth = Level.pml4.depth from depth)
      rfl
  | succ count induction =>
      rcases Level.exists_above depth with ⟨upper, upperDepth, _, path⟩
      have deepest := level.depth_le
      have steps := circles upper (by omega)
      rw [path]
      exact Hierarchy.tableAt_cons_eq_some.2 ⟨root, induction upper upperDepth, steps.present,
        steps.frame⟩

theorem circles_pageAt {memory : Memory} {first : TableIndex} (last : TableIndex)
    (installed : RecursiveMap.isInstalled memory root = true)
    (steps : memory.Steps root first root) : Circles memory root (pageAt first slot slot last) := by
  have turn := RecursiveMap.steps_of_isInstalled installed
  have indices := index_pageAt first slot slot last
  intro upper above
  cases upper with
  | pml4 => exact indices.1.symm ▸ steps
  | pdpt => exact indices.2.1.symm ▸ turn
  | pd => exact indices.2.2.1.symm ▸ turn
  | pt => exact absurd above (by decide)

/-- A manager that offers neither its root nor its own pages, whatever its tables are. -/
structure KeepsRoot (root : Frame) (keeps : Frame → Prop) (paged : Paged FrameManager) :
    Prop where
  addressable : paged.memory.IsAddressable
  installed : RecursiveMap.isInstalled paged.memory root = true
  active : paged.source.active = root
  owner : paged.source.root = some root
  ready : paged.source.stage = .ready
  orderly : paged.source.ledger.IsOrderly paged.memory keeps
  offered : ∀ frame, paged.source.ledger.Offers paged.memory frame →
    paged.memory.HasFrame frame ∧ frame.IsLinkable ∧ ¬ keeps frame ∧ frame ≠ root
  kept : ¬ keeps root

namespace KeepsRoot

theorem inside (kept : KeepsRoot root keeps before) : before.memory.HasFrame root :=
  RecursiveMap.hasFrame_of_isInstalled kept.installed

theorem walkable (kept : KeepsRoot root keeps before)
    (circles : Circles before.memory root address) :
    Walkable root (supply before.source) address before
      (before.source.ledger.Offers before.memory) keeps := by
  have onWalk : ∀ {frame}, (shown root).IsOnWalk before.memory address frame → frame = root := by
    intro frame onWalk
    rcases onWalk with ⟨level, found⟩
    exact Option.some.inj (found.symm.trans (circles.tableAt level))
  refine ⟨kept.addressable, kept.installed, fun level _ frame found => ?_,
    ⟨rfl, kept.ready, kept.orderly, fun _ => Iff.rfl⟩, fun frame offered => ?_,
    fun frame isKept walks => kept.kept (onWalk walks ▸ isKept)⟩
  · exact onWalk ⟨level, found⟩ ▸ kept.inside
  · rcases kept.offered frame offered with ⟨isInside, linkable, notKept, other⟩
    exact ⟨isInside, linkable, notKept, other ∘ onWalk⟩

theorem exists_run_map_of_circles (kept : KeepsRoot root keeps before)
    (circles : Circles before.memory root address)
    (absent : (before.memory.entry root (Level.pt.index address)).present = false)
    (target : PhysicalAddress) (rights : Rights) :
    ∃ after, (FrameManager.map target address rights).run before = (.done (), after) ∧
      after.memory = before.memory.setEntry root (Level.pt.index address)
        (.leaf (target.page .small) rights) ∧ KeepsRoot root keeps after := by
  have walkable := kept.walkable circles
  have mapped := AddressSpace.run_map_direct_of_found target rights kept.addressable
    walkable.tables (circles.tableAt .pt)
  rw [Memory.presentEntry_eq_none absent] at mapped
  rcases exists_run_map walkable kept.active kept.owner mapped with ⟨after, ran, memory, source⟩
  rw [AddressSpace.memory_filledPaged] at memory
  rw [AddressSpace.source_filledPaged] at source
  have agrees := Memory.agreesOutside_setEntry before.memory root (Level.pt.index address)
    (.leaf (target.page .small) rights)
  have installed := RecursiveMap.isInstalled_setEntry_of_absent
    (.leaf (target.page .small) rights) absent kept.installed
  rw [← memory] at agrees installed
  have missed : ∀ frame, keeps frame → ¬ frame = root := fun frame isKept same =>
    kept.kept (same ▸ isKept)
  rcases kept.orderly.of_agrees agrees missed with ⟨orderly, free⟩
  refine ⟨after, ran, memory, agrees.isAddressable_iff.2 kept.addressable, installed, ?_, ?_, ?_,
    ?_, fun frame offered => ?_, kept.kept⟩
  · rw [source]
    exact kept.active
  · rw [source]
    exact kept.owner
  · rw [source]
    exact kept.ready
  · rw [source]
    exact orderly
  · rw [source] at offered
    rcases kept.offered frame ⟨offered.1, (free frame).1 offered.2⟩ with ⟨isInside, rest⟩
    exact ⟨(agrees.hasFrame_iff frame).2 isInside, rest⟩

end KeepsRoot

/-- The page behind an entry of the root, and then behind the slot at every further level. -/
def pageBehind (index : TableIndex) : VirtualAddress :=
  pageAt index slot slot slot

theorem pageKey_pageBehind_ne {index : TableIndex} (outside : index ≠ slot) (level : Level) :
    (pageBehind index).pageKey ≠ (RecursiveMap.tableAddress level address).pageKey := by
  refine pageKey_ne_tableAddress ?_ level address
  rwa [pageBehind, (index_pageAt ..).1]

/-- An entry of the root that is filled with the root makes the page behind it appear. -/
theorem KeepsRoot.exists_run_map_behind (kept : KeepsRoot root keeps before)
    (circles : Circles before.memory root address)
    (absent : (before.memory.entry root (Level.pt.index address)).present = false) :
    ∃ after, (FrameManager.map root.base address .readWrite).run before = (.done (), after) ∧
      after.memory = before.memory.setEntry root (Level.pt.index address) (.leaf root .readWrite) ∧
      KeepsRoot root keeps after ∧ after.memory.Steps root (Level.pt.index address) root ∧
      before.memory.translate root (pageBehind (Level.pt.index address)) = .ok none ∧
      after.memory.translate root (pageBehind (Level.pt.index address)) ≠ .ok none := by
  rcases kept.exists_run_map_of_circles circles absent root.base .readWrite with
    ⟨after, ran, memory, still⟩
  have isRoot : root.base.page .small = root := Page.page_base root
  rw [isRoot] at memory
  have entry := Memory.entry_setEntry_same before.memory root (Level.pt.index address)
    (.leaf root .readWrite) kept.inside
  rw [← memory] at entry
  have steps : after.memory.Steps root (Level.pt.index address) root := by
    refine ⟨still.inside, ?_, ?_⟩
    · rw [entry, PageEntry.present_leaf]
    · rw [entry, PageEntry.frame_leaf (RecursiveMap.isLinkable_of_isInstalled kept.installed)]
  rcases index_pageAt (Level.pt.index address) slot slot slot with ⟨first, second, third, last⟩
  have turn := RecursiveMap.steps_of_isInstalled still.installed
  refine ⟨after, ran, memory, still, steps, translate_of_absent kept.addressable kept.inside ?_,
    fun nowhere => ?_⟩
  · rwa [pageBehind, first]
  · have resolved := Memory.resolve_of_steps still.addressable (first.symm ▸ steps)
      (second.symm ▸ turn) (third.symm ▸ turn) (last.symm ▸ turn)
    rw [Memory.resolve, ← pageBehind, nowhere] at resolved
    cases resolved

theorem Adopts.keepsRoot {capacity : Nat} {sorting : Region.Sorting}
    {table : RegionTable capacity sorting} {layout : Ledger.Layout} {host : PhysicalAddress}
    {used : Nat} (adopts : Adopts root table layout host used after) :
    KeepsRoot root (layout.Occupies host) after where
  addressable := adopts.ready.addressable
  installed := adopts.ready.served.2
  active := adopts.active
  owner := adopts.owner
  ready := adopts.ready.supplied.2.ready
  orderly := adopts.ready.supplied.2.orderly
  offered frame offered := by
    rcases adopts.ready.offered frame offered with ⟨inside, linkable, unused, notKept⟩
    exact ⟨inside, linkable, notKept, fun same => unused (same ▸ Hierarchy.isTable_root)⟩
  kept isKept := adopts.ready.kept root isKept Hierarchy.isTable_root

theorem exists_tinyTurned : ∃ installed adopted turned keeps, ∃ index next : TableIndex,
    (adopt Kernel.tinyTable.regions).run installed = (.done (), adopted) ∧
    adopted.source.stage = .ready ∧ index ≠ slot ∧ next ≠ slot ∧ next ≠ index ∧
    (FrameManager.map Kernel.tinyRoot.base (pageAt slot slot slot index) .readWrite).run adopted =
      (.done (), turned) ∧
    adopted.memory.translate Kernel.tinyRoot (pageBehind index) = .ok none ∧
    turned.memory.translate Kernel.tinyRoot (pageBehind index) ≠ .ok none ∧
    KeepsRoot Kernel.tinyRoot keeps turned ∧
    turned.memory.Steps Kernel.tinyRoot index Kernel.tinyRoot ∧
    (turned.memory.entry Kernel.tinyRoot next).present = false := by
  rcases exists_tinyUp with ⟨installed, adopted, layout, host, _, _, adopting, adopts, frames, _⟩
  have tree := adopts.ready.tree
  have isRoot : (without Kernel.tinyRoot slot).tableAt adopted.memory [] =
      some Kernel.tinyRoot := rfl
  rcases exists_absent_entry tree isRoot (by decide) Hierarchy.owns_nil 0
    (by rw [frames]; decide) with ⟨index, _, low, absent⟩
  rcases exists_absent_entry tree isRoot (by decide) Hierarchy.owns_nil 17
    (by rw [frames]; decide) with ⟨next, above, high, absentNext⟩
  rw [frames] at low high
  have slotVal : slot.val = 510 := by decide
  have outside : index ≠ slot := Fin.ne_of_val_ne (by omega)
  have different : next ≠ index := Fin.ne_of_val_ne (by omega)
  have kept := adopts.keepsRoot
  have circles := circles_pageAt index kept.installed
    (RecursiveMap.steps_of_isInstalled kept.installed)
  have last := (index_pageAt slot slot slot index).2.2.2
  rcases kept.exists_run_map_behind circles (last.symm ▸ absent) with
    ⟨turned, ran, memory, still, steps, hidden, appears⟩
  rw [last] at memory steps hidden appears
  refine ⟨installed, adopted, turned, layout.Occupies host, index, next, adopting, kept.ready,
    outside, Fin.ne_of_val_ne (by omega), different, ran, hidden, appears, still, steps, ?_⟩
  rw [memory, Memory.entry_setEntry_other _ _ _ _ _ _ (.inr different)]
  exact absentNext

/-- Filling an entry of the root through the recursive slot makes a page behind it appear, which
is no page of the window. -/
theorem mapping_in_the_slot_alters_another_page :
    ∃ installed adopted after, ∃ address page : VirtualAddress,
      (adopt Kernel.tinyTable.regions).run installed = (.done (), adopted) ∧
      adopted.source.stage = .ready ∧
      (FrameManager.map Kernel.tinyRoot.base address .readWrite).run adopted = (.done (), after) ∧
      page.pageKey ≠ address.pageKey ∧
      (∀ level : Level, page.pageKey ≠ (RecursiveMap.tableAddress level address).pageKey) ∧
      adopted.memory.translate Kernel.tinyRoot page = .ok none ∧
      after.memory.translate Kernel.tinyRoot page ≠ .ok none := by
  rcases exists_tinyTurned with ⟨installed, adopted, turned, _, index, _, adopting, ready, outside,
    _, _, ran, hidden, appears, _⟩
  refine ⟨installed, adopted, turned, _, pageBehind index, adopting, ready, ran, ?_,
    pageKey_pageBehind_ne outside, hidden, appears⟩
  apply pageKey_ne_of_index_ne .pml4
  rwa [pageBehind, (index_pageAt ..).1, (index_pageAt ..).1]

/-- Once a table stands at two places, so does an entry that is filled below the one of them. -/
theorem mapping_below_a_shared_table_alters_another_page :
    ∃ installed adopted turned after, ∃ within address page : VirtualAddress,
      (adopt Kernel.tinyTable.regions).run installed = (.done (), adopted) ∧
      (FrameManager.map Kernel.tinyRoot.base within .readWrite).run adopted = (.done (), turned) ∧
      turned.source.stage = .ready ∧ Level.pml4.index address ≠ slot ∧
      (FrameManager.map Kernel.tinyRoot.base address .readWrite).run turned = (.done (), after) ∧
      page.pageKey ≠ address.pageKey ∧
      (∀ level : Level, page.pageKey ≠ (RecursiveMap.tableAddress level address).pageKey) ∧
      turned.memory.translate Kernel.tinyRoot page = .ok none ∧
      after.memory.translate Kernel.tinyRoot page ≠ .ok none := by
  rcases exists_tinyTurned with ⟨installed, adopted, turned, _, index, next, adopting, _, outside,
    outsideNext, different, turning, _, _, kept, steps, absent⟩
  rcases index_pageAt index slot slot next with ⟨first, _, _, last⟩
  have circles := circles_pageAt next kept.installed steps
  rcases kept.exists_run_map_behind circles (last.symm ▸ absent) with
    ⟨after, ran, _, _, _, hidden, appears⟩
  rw [last] at hidden appears
  refine ⟨installed, adopted, turned, after, _, _, pageBehind next, adopting, turning, kept.ready,
    first.symm ▸ outside, ran, ?_, pageKey_pageBehind_ne outsideNext, hidden, appears⟩
  apply pageKey_ne_of_index_ne .pml4
  rwa [pageBehind, (index_pageAt ..).1, first]

/-! ## Tables that are freed -/

/-- What is left behind if the last table was drawn for a page that was mapped, and freed. -/
structure FreesTable (root : Frame) (managed : Set Frame) (keeps : Frame → Prop)
    (table frame : Frame) (page : VirtualAddress) (before freed : Paged FrameManager) : Prop where
  source : freed.source = before.source
  accounts : AccountsFor managed keeps freed
  usable : (spaceBelow root).IsUsable freed.memory
  kept : ∀ other, keeps other → ¬ (spaceBelow root).hierarchy.IsTable freed.memory other
  found : (spaceBelow root).hierarchy.tableAt freed.memory (Level.pd.path page) = some table
  drawn : (spaceBelow root).hierarchy.tableAt freed.memory (Level.pt.path page) = some frame
  mapped : (spaceBelow root).hierarchy.entryAt freed.memory page.leafPath ≠ none
  others : ∀ index, index ≠ Level.pd.index page →
    freed.memory.entry table index = before.memory.entry table index
  offers : ∀ other, before.source.ledger.Offers freed.memory other ↔
    before.source.ledger.Offers before.memory other
  lowest : ∀ other, before.source.ledger.Offers before.memory other →
    frame.number ≤ other.number
  offered : ∀ other, before.source.ledger.Offers before.memory other →
    freed.memory.HasFrame other ∧ other.IsLinkable ∧ ¬ keeps other ∧
      (other ≠ frame → ¬ (spaceBelow root).hierarchy.IsTable freed.memory other)
  drew : before.source.ledger.Offers before.memory frame

theorem DrawsTable.entryAt_ne_none {managed : Set Frame} {frame : Frame} {page : VirtualAddress}
    {leaf : PageEntry} {mapped : Paged FrameManager}
    (draws : DrawsTable root managed keeps usable table frame page leaf before mapped)
    (present : leaf.present = true) :
    (spaceBelow root).hierarchy.entryAt mapped.memory page.leafPath ≠ none := by
  rw [Address.leafPath, Hierarchy.entryAt_cons_of_some draws.drawn,
    Memory.presentEntry_eq_of_present (by rw [draws.leaf, present])]
  exact Option.some_ne_none _

theorem DrawsTable.exists_run_free {managed : Set Frame} {frame : Frame} {page : VirtualAddress}
    {leaf : PageEntry} {mapped : Paged FrameManager}
    (draws : DrawsTable root managed keeps usable table frame page leaf before mapped)
    (accounts : AccountsFor managed keeps before) :
    ∃ freed, (FrameManager.free frame).run mapped = (.done (), freed) ∧
      Marks frame false mapped freed (.done ()) := by
  cases draws.accounts.looksUp frame with
  | missed unmanaged => exact absurd (accounts.isFree_iff.1 draws.offered.2).1 unmanaged
  | found _ _ _ located =>
      rcases exists_run_setBusy false draws.accounts.orderly located with ⟨freed, freeing⟩
      have marks := marks_of_setBusy draws.accounts.orderly freeing
      rw [← run_free draws.accounts.ready] at freeing
      exact ⟨freed, freeing, marks⟩

theorem DrawsTable.exists_freesTable {managed : Set Frame} {frame : Frame} {page : VirtualAddress}
    {leaf : PageEntry} {mapped : Paged FrameManager}
    (draws : DrawsTable root managed keeps usable table frame page leaf before mapped)
    (safe : Kernel.IsSafe root before.source keeps usable [] [] before)
    (accounts : AccountsFor managed keeps before) (outside : Level.pml4.index page ≠ slot)
    (present : leaf.present = true) :
    ∃ freed, (FrameManager.free frame).run mapped = (.done (), freed) ∧
      FreesTable root managed keeps table frame page before freed := by
  have leads : (spaceBelow root).hierarchy.Leads page :=
    Hierarchy.leads_without.2 outside
  rcases draws.exists_run_free accounts with ⟨freed, freeing, marks⟩
  rcases draws.safe.offers_of_marks marks with ⟨agrees, source, _, offers⟩
  have missed : ∀ other, (spaceBelow root).hierarchy.IsTable mapped.memory other →
      ¬ keeps other := fun other isTable isKept => draws.safe.ready.kept other isKept isTable
  rcases draws.safe.ready.usable.of_agrees agrees missed with ⟨usableFreed, grows⟩
  have unchanged : ∀ other, (spaceBelow root).hierarchy.IsTable freed.memory other →
      (spaceBelow root).hierarchy.IsTable mapped.memory other :=
    fun other isTable => (grows.tables other isTable).resolve_right id
  have isTable := leads.isTable draws.found
  have offersMapped := draws.offers
  rw [draws.source] at offersMapped
  refine ⟨freed, freeing, source.trans draws.source, (draws.accounts.free freeing).1, usableFreed,
    fun other isKept isOther => draws.safe.ready.kept other isKept (unchanged other isOther),
    grows.kept _ table Level.pd.length_path_le (leads.owns_path .pd) draws.found,
    grows.kept _ frame Level.pt.length_path_le (leads.owns_path .pt) draws.drawn, ?_, ?_, ?_,
    draws.lowest, ?_, draws.offered⟩
  · rw [grows.leaves _ (Address.length_leafPath page) leads.owns_leafPath]
    exact draws.entryAt_ne_none present
  · intro index other
    rw [agrees.entry_eq (missed table isTable), draws.others index other]
  · intro other
    rw [offers other]
    by_cases same : other = frame
    · subst same
      simp [draws.offered, draws.offered.1]
    · rw [if_neg same]
      exact (offersMapped other).trans (and_iff_left same)
  · intro other isOffered
    have spareOther := safe.isSpare isOffered
    refine ⟨(agrees.hasFrame_iff other).2 ((draws.agrees.hasFrame_iff other).2
      spareOther.inside), spareOther.linkable, spareOther.unkept, fun different isOther => ?_⟩
    exact (draws.safe.isSpare ((offersMapped other).2 ⟨isOffered, different⟩)).unused
      (unchanged other isOther)

namespace FreesTable

variable {managed : Set Frame} {frame : Frame} {page : VirtualAddress} {freed : Paged FrameManager}
  (frees : FreesTable root managed keeps table frame page before freed)

include frees

theorem translate_ne_none : freed.memory.translate root page ≠ .ok none := by
  have ownPath : page.leafPath = page.leafPath ++ List.replicate 0 slot := (List.append_nil _).symm
  have nonempty : page.leafPath ≠ [] :=
    List.ne_nil_of_length_eq_add_one (Address.length_leafPath page)
  have translated := Memory.translate_eq_tableAt frees.usable.addressable frees.usable.tree
    frees.usable.served.2 page ownPath
  intro nowhere
  rw [translated, Except.ok.injEq, Option.map_eq_none_iff,
    Hierarchy.tableAt_eq_map_entryAt _ _ nonempty, Option.map_eq_none_iff] at nowhere
  exact frees.mapped nowhere

/-- Next to the page the manager works as it should: its table for the page is on offer, but it is
not on the walk. -/
theorem walkable (outside : Level.pml4.index page ≠ slot)
    (path : Level.pd.path address = Level.pd.path page)
    (different : Level.pd.index address ≠ Level.pd.index page) :
    Walkable root (supply freed.source) address freed (freed.source.ledger.Offers freed.memory)
      keeps := by
  have leads : (spaceBelow root).hierarchy.Leads page :=
    Hierarchy.leads_without.2 outside
  have first : Level.pml4.index address = Level.pml4.index page :=
    (List.cons.inj (List.cons.inj path).2).1
  have leadsNext : (spaceBelow root).hierarchy.Leads address :=
    Hierarchy.leads_without.2 (first.symm ▸ outside)
  refine frees.accounts.walkable frees.usable leadsNext frees.kept fun other offered => ?_
  rw [frees.source] at offered
  rcases frees.offered other ((frees.offers other).1 offered) with
    ⟨inside, linkable, notKept, unused⟩
  refine ⟨inside, linkable, notKept, fun onWalk => ?_⟩
  by_cases same : other = frame
  · -- The frame stands at the end of another path.
    rcases onWalk with ⟨level, leadsTo⟩
    have samePath := frees.usable.tree.unique _ _ other level.length_path_le
      (leadsNext.owns_path level) ((Hierarchy.tableAt_eq_shown ..).trans leadsTo)
      Level.pt.length_path_le (leads.owns_path .pt) (same ▸ frees.drawn)
    have depth := congrArg List.length samePath
    rw [Level.length_path, Level.length_path] at depth
    cases Level.eq_of_depth_eq depth
    exact different (List.cons.inj samePath).1
  · exact unused same (isTable_of_isOnWalk leadsNext onWalk)

/-- A page is lost if the table that was drawn for it is freed and another page is mapped next
to it: that page needs a table too, and it is given the same frame. -/
theorem exists_lost (active : before.source.active = root) (owner : before.source.root = some root)
    (outside : Level.pml4.index page ≠ slot) (path : Level.pd.path address = Level.pd.path page)
    (different : Level.pd.index address ≠ Level.pd.index page)
    (absent : (before.memory.entry table (Level.pd.index address)).present = false)
    (apart : Level.pt.index page ≠ Level.pt.index address) (target : PhysicalAddress)
    (rights : Rights) :
    ∃ after, (FrameManager.map target address rights).run freed = (.done (), after) ∧
      after.memory.translate root page = .ok none := by
  have leads : (spaceBelow root).hierarchy.Leads page :=
    Hierarchy.leads_without.2 outside
  have absentNext : (freed.memory.entry table (Level.pd.index address)).present = false := by
    rw [frees.others _ different, absent]
  have foundNext : (shown root).tableAt freed.memory (Level.pd.path address) = some table := by
    rw [path]
    exact (Hierarchy.tableAt_eq_shown ..).symm.trans frees.found
  have drew : freed.source.ledger.Offers freed.memory frame := by
    rw [frees.source]
    exact (frees.offers frame).2 frees.drew
  rcases exists_drawsLast frees.accounts (frees.walkable outside path different)
    (frees.source ▸ active) (frees.source ▸ owner) foundNext absentNext ⟨frame, drew⟩ target rights
    with ⟨other, after, ran, offered, lowest, _, draws⟩
  rw [frees.source] at offered
  have same : other = frame := Page.ext (Nat.le_antisymm (lowest frame drew)
    (frees.lowest other ((frees.offers other).1 offered)))
  subst same
  exact ⟨after, ran, draws.translate_of_drawn frees.usable frees.kept leads absentNext frees.drawn
    apart⟩

end FreesTable

/-- A table that is freed may be drawn for another page, and is cleared. -/
theorem mapping_onto_a_freed_table_alters_another_page :
    ∃ installed adopted mapped freed after, ∃ page address : VirtualAddress, ∃ table : Frame,
      (adopt Kernel.tinyTable.regions).run installed = (.done (), adopted) ∧
      (FrameManager.map Kernel.tinyRoot.base page .readWrite).run adopted = (.done (), mapped) ∧
      (FrameManager.free table).run mapped = (.done (), freed) ∧
      freed.source.stage = .ready ∧ Level.pml4.index address ≠ slot ∧
      (FrameManager.map Kernel.tinyRoot.base address .readWrite).run freed = (.done (), after) ∧
      page.pageKey ≠ address.pageKey ∧
      (∀ level : Level, page.pageKey ≠ (RecursiveMap.tableAddress level address).pageKey) ∧
      freed.memory.translate Kernel.tinyRoot page ≠ .ok none ∧
      after.memory.translate Kernel.tinyRoot page = .ok none := by
  rcases exists_tinyNeighbours with ⟨installed, adopted, layout, host, used, table, page, address,
    adopting, adopts, accounts, outside, outsideNext, found, absent, path, absentNext, different,
    apart⟩
  rcases exists_drawsTable adopts.isSafe accounts outside found absent
    ⟨_, Kernel.tinyFrame_isOffered adopts⟩ Kernel.tinyRoot.base .readWrite with
    ⟨frame, mapped, mapping, draws⟩
  rcases draws.exists_freesTable adopts.isSafe accounts outside (PageEntry.present_leaf ..) with
    ⟨freed, freeing, frees⟩
  rcases frees.exists_lost adopts.active adopts.owner outside path different absentNext apart
    Kernel.tinyRoot.base .readWrite with ⟨after, ran, lost⟩
  exact ⟨installed, adopted, mapped, freed, after, page, address, frame, adopting, mapping, freeing,
    frees.accounts.ready, outsideNext, ran, pageKey_ne_of_index_ne .pt apart,
    fun level => pageKey_ne_tableAddress outside level address, frees.translate_ne_none, lost⟩

end FrameManager

end EarlyMemory
