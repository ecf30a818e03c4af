import EarlyMemory.Proofs.Firmware.Extent
import EarlyMemory.Proofs.Kernel.Safety
import EarlyMemory.Proofs.Loader.Footprint
import EarlyMemory.Proofs.Loader.Integrity
import EarlyMemory.Proofs.Loader.Upkeep

/-!
# What the loader built stays

An image behind the last slot of the root leaves the slot before it, and all pages behind
its end, as they were. So the kernel finds room for its recursive map and for its ledger,
and taking over is refused only where no region can host the ledger. Whatever the loader
mapped is mapped as before, and no byte of the image is written.
-/

namespace EarlyMemory

def lastSlotStart : Nat :=
  0xFFFFFF8000000000

theorem Address.index_of_last {address : VirtualAddress} (last : lastSlotStart ≤ address.value) :
    Level.pml4.index address ≠ RecursiveMap.slot := by
  have bound := address.isLt
  unfold lastSlotStart at last
  intro same
  have same := congrArg Fin.val same
  rw [RecursiveMap.val_slot, Level.val_index] at same
  simp only [Level.shift, Nat.shiftRight_eq_div_pow, Nat.reduceShiftLeft] at same bound
  omega

theorem Address.val_pageKey_of_last {address : VirtualAddress}
    (last : lastSlotStart ≤ address.value) :
    address.pageKey.val + 0xFFFF000000000 = address.value / 4096 := by
  have bound := address.isLt
  unfold lastSlotStart at last
  simp only [pageKey, Nat.reduceShiftLeft] at bound ⊢
  omega

namespace Loader

variable {capacity : Nat} {sorting : Region.Sorting} {root : Frame}
  {created loaded : Paged (RegionTable capacity sorting)} {image : Executable}
  {kernel : KernelImage} {address : VirtualAddress}

/-- What is known of a loader that loaded one image behind the last slot and nothing else. -/
structure LoadsLast (root : Frame) (image : Executable) (kernel : KernelImage)
    (created loaded : Paged (RegionTable capacity sorting)) : Prop where
  identity : ∃ last, Identity root last 512 created
  describes : Describes image kernel
  places : Places root image 0 image.tableLength created loaded
  reaches : ReachesOnly root (IsSegmentPage image 0 image.tableLength) created.memory loaded.memory
  high : ∀ index < image.tableLength, (image.headerAt index).isLoadable = true →
    lastSlotStart ≤ (image.headerAt index).address

namespace LoadsLast

variable (loads : LoadsLast root image kernel created loaded)

include loads

theorem bounds {page : VirtualAddress} (isPage : IsSegmentPage image 0 image.tableLength page) :
    lastSlotStart ≤ page.value ∧ page.value < kernel.stop.value :=
  isPage.bounds loads.describes (by decide) loads.high

theorem slot_absent : (RecursiveMap.entryOf loaded.memory root).present = false := by
  rcases loads.identity with ⟨last, identity⟩
  exact identity.slot_absent loads.reaches fun page isPage =>
    Address.index_of_last (loads.bounds isPage).1

theorem absent_behind (aligned : address.value % 4096 = 0)
    (behind : kernel.stop.value ≤ address.value) :
    (tables root).entryAt loaded.memory address.leafPath = none := by
  have start := loads.describes.lowest_le_stop loads.high
  have key := Address.val_pageKey_of_last (Nat.le_trans start behind)
  unfold lastSlotStart at start
  by_contra mapped
  rcases loads.identity with ⟨last, identity⟩
  rcases identity.low_or_asked loads.reaches mapped with low | ⟨page, isPage, same⟩
  · omega
  · rcases loads.bounds isPage with ⟨above, below⟩
    have pageKey := Address.val_pageKey_of_last above
    rw [← same] at pageKey
    omega

theorem exists_backed {start : Paged (RegionTable capacity sorting)} {index : Nat}
    (reached : Reached start root loaded) (below : index < image.tableLength)
    (loadable : (image.headerAt index).isLoadable = true)
    (holds : (image.headerAt index).PageHolds address) : ∃ leaf,
      (tables root).entryAt loaded.memory address.leafPath = some leaf ∧
        loaded.source.BacksImage leaf.frame := by
  rcases loads.identity with ⟨last, identity⟩
  have placed := placesImage loads.describes loads.places identity.sound reached.sound
  rcases (placed.headers index below loadable).leaves address holds with ⟨leaf, queried, _⟩
  rw [query_eq reached.sound, Except.ok.injEq] at queried
  have start := loads.high index below loadable
  have above := holds.1
  unfold lastSlotStart at start
  have key := Address.val_pageKey_of_last (show 0xFFFFFF8000000000 ≤ address.value by omega)
  refine ⟨leaf, queried, (reached.backed address leaf queried).resolve_left fun low => ?_⟩
  omega

end LoadsLast

end Loader

namespace Takeover

open Loader (tables LoadsLast)
open FrameManager (IsUnmapped spaceBelow)

variable {capacity : Nat} {sorting : Region.Sorting} {root : Frame}
  {created loaded : Paged (RegionTable capacity sorting)} {image : Executable}
  {kernel : Loader.KernelImage} {address : VirtualAddress} {pages : Nat}

theorem leads_of_last (last : lastSlotStart ≤ address.value) :
    (spaceBelow root).hierarchy.Leads address :=
  Hierarchy.leads_without.2 (Address.index_of_last last)

theorem isUnmapped_of_loadsLast (loads : LoadsLast root image kernel created loaded)
    (tree : (tables root).IsTree loaded.memory)
    (room : kernel.stop.value + 4096 + pages * 4096 < 1 <<< 64) :
    IsUnmapped (spaceBelow root) (kernel.stop.alignUp .small) 0 pages
      (RecursiveMap.install loaded.memory root) := by
  have start := loads.describes.lowest_le_stop loads.high
  simp only [Nat.reduceShiftLeft] at room
  have aligned : kernel.stop.value ≤ (kernel.stop.alignUp .small).value ∧
      (kernel.stop.alignUp .small).value < kernel.stop.value + 4096 := by
    rw [Address.value_alignUp (show _ < 18446744073709551616 by omega)]
    omega
  have value : ∀ position, position < pages →
      ((kernel.stop.alignUp .small).pageAfter position).value =
        (kernel.stop.alignUp .small).value + position * 4096 :=
    fun position below => Address.value_pageAfter
      (show _ < 18446744073709551616 by omega)
  have leads : ∀ position, position < pages →
      (spaceBelow root).hierarchy.Leads ((kernel.stop.alignUp .small).pageAfter position) :=
    fun position below => leads_of_last (by rw [value position below]; omega)
  refine ⟨⟨?_, ?_, fun position _ below => leads position (by omega),
    fun positive => absurd positive (Nat.lt_irrefl 0)⟩, fun position _ below => ?_⟩
  · show _ < 18446744073709551616
    omega
  · show _ ≤ 68719476736
    unfold lastSlotStart at start
    omega
  · rw [Nat.zero_add] at below
    have same := RecursiveMap.sameButSlot_install root loaded.memory
    refine (Hierarchy.entryAt_without tree same _ (Nat.le_of_eq (Address.length_leafPath _))
      (leads position below).owns_leafPath).trans (loads.absent_behind ?_ ?_)
    · exact Address.pageAfter_mod (Address.value_alignUp_mod kernel.stop)
    · rw [value position below]
      omega

/-! ## What stays -/

/-- What a takeover leaves as the loader built it. -/
structure Preserves (root : Frame) (image : Executable) (before after : Memory) : Prop where
  walks : ∀ address leaf, before.walk root address = .ok (some leaf) →
    after.walk root address = .ok (some leaf) ∧
      (spaceBelow root).query after address = .ok (some leaf)
  translates : ∀ address target, before.translate root address = .ok (some target) →
    after.translate root address = .ok (some target) ∧
      (spaceBelow root).translate after address = .ok (some target)
  identity : ∀ address : VirtualAddress, address.value < BootTables.identityBytes →
    before.translate root address = .ok (some (.ofNat address.value))
  image : ∀ index < image.tableLength, (image.headerAt index).isLoadable = true →
    ∀ address, (image.headerAt index).PageHolds address → ∃ target,
      before.translate root address = .ok (some target) ∧
      after.byteAt target.value = before.byteAt target.value

variable {start : Paged (RegionTable capacity sorting)} {layout : Ledger.Layout} {region : Region}
  {host : PhysicalAddress} {before after : Memory} {leaf : PageEntry}

/-- What is mapped while the slot is free is mapped by a slot of its own, and stays. -/
theorem entryAt_of_spares (tree : (tables root).IsTree before)
    (absent : (RecursiveMap.entryOf before root).present = false)
    (spares : FrameManager.Spares root layout host (RecursiveMap.install before root) after)
    (found : (tables root).entryAt before address.leafPath = some leaf) :
    (spaceBelow root).hierarchy.Leads address ∧
      (spaceBelow root).hierarchy.entryAt after address.leafPath = some leaf := by
  have leads : (spaceBelow root).hierarchy.Leads address := by
    intro hidden
    have missing : (tables root).tableAt before (Level.pdpt.path address) = none := by
      have slot : Level.pml4.index address = RecursiveMap.slot := (Option.some.inj hidden).symm
      have none := Memory.presentEntry_eq_none absent
      rw [Level.path, slot]
      exact (Hierarchy.tableAt_cons_of_some rfl).trans (congrArg (Option.map PageEntry.frame) none)
    rw [Hierarchy.entryAt_leafPath_of_none missing] at found
    cases found
  have long := Address.length_leafPath address
  have same := RecursiveMap.sameButSlot_install root before
  have kept := Hierarchy.entryAt_without tree same _ (Nat.le_of_eq long) leads.owns_leafPath
  exact ⟨leads, spares.leaves _ long leads.owns_leafPath leaf (kept.trans found)⟩

theorem byteAt_of_spares {frame : Frame} (sound : Loader.IsSound root loaded)
    (hosts : layout.Hosts region) (member : region ∈ loaded.source.regions)
    (spares : FrameManager.Spares root layout region.start
      (RecursiveMap.install loaded.memory root) after)
    (backs : loaded.source.BacksImage frame) {offset : Nat} (within : offset < 4096) :
    after.byteAt (frame.number * 4096 + offset) =
      loaded.memory.byteAt (frame.number * 4096 + offset) := by
  have notTable : ¬ (tables root).IsTable loaded.memory frame :=
    fun isTable => sound.unmanaged frame isTable backs.manages
  have same := RecursiveMap.sameButSlot_install root loaded.memory
  refine (spares.agrees.byteAt_offset ?_ within).trans
    ((RecursiveMap.agreesOutside_install root loaded.memory).byteAt_offset ?_ within)
  · rintro (isTable | ⟨above, below⟩)
    · exact notTable (Hierarchy.isTable_of_without sound.tree same isTable)
    · exact backs.not_offersFrame sound.table
        ⟨region, member, hosts.available, hosts.high, hosts.holdsPage above below⟩
  · rintro rfl
    exact notTable Hierarchy.isTable_root

theorem preserves_of_spares (loads : LoadsLast root image kernel created loaded)
    (reached : Loader.Reached start root loaded) (hosts : layout.Hosts region)
    (member : region ∈ loaded.source.regions)
    (spares : FrameManager.Spares root layout region.start
      (RecursiveMap.install loaded.memory root) after) :
    Preserves root image loaded.memory after := by
  have sound := reached.sound
  have walks : ∀ address leaf, loaded.memory.walk root address = .ok (some leaf) →
      after.walk root address = .ok (some leaf) ∧
        (spaceBelow root).query after address = .ok (some leaf) := by
    intro address leaf walked
    rw [Loader.walk_eq sound] at walked
    rcases entryAt_of_spares sound.tree loads.slot_absent spares (Except.ok.inj walked) with
      ⟨leads, stays⟩
    have hasTables := spares.tree.hasTables leads .pt
    rw [AddressSpace.query_eq spares.addressable spares.served hasTables, stays]
    refine ⟨?_, rfl⟩
    exact (Hierarchy.walk_eq spares.addressable hasTables).trans (by rw [stays])
  constructor
  · exact walks
  · intro address target translated
    rw [Memory.translate_of_walk (Loader.walk_eq sound address)] at translated
    cases found : (tables root).entryAt loaded.memory address.leafPath with
    | none =>
        rw [found] at translated
        cases translated
    | some leaf =>
        rw [found] at translated
        rcases walks address leaf ((Loader.walk_eq sound address).trans (by rw [found])) with
          ⟨walked, queried⟩
        refine ⟨(Memory.translate_of_walk walked).trans translated, ?_⟩
        rw [AddressSpace.translate, queried]
        exact translated
  · intro address low
    have value : (Address.ofNat address.value : PhysicalAddress).value = address.value :=
      Nat.mod_eq_of_lt address.isLt
    have same : (Address.ofNat address.value : VirtualAddress) = address :=
      Address.ext (Nat.mod_eq_of_lt address.isLt)
    have translated := reached.translate_of_low (value.symm ▸ low)
    rwa [value, same, ← Loader.translate_walked sound] at translated
  · intro index below loadable address holds
    rcases loads.exists_backed reached below loadable holds with ⟨leaf, found, backs⟩
    refine ⟨leaf.frame.join (address.offset .small), ?_, ?_⟩
    · rw [Memory.translate_of_walk (Loader.walk_eq sound address), found, Option.map_some]
    · rw [Loader.value_join_offset]
      exact byteAt_of_spares sound hosts member spares backs (Nat.mod_lt _ (by decide))

/-- Where there is room behind an image, the kernel comes up unless no region can host its
ledger. -/
theorem bringUp_of_loadsLast (loads : LoadsLast root image kernel created loaded)
    (reached : Loader.Reached start root loaded)
    (inside : ∀ frame, loaded.source.Manages frame → lowMemoryEnd.value ≤ frame.number * 4096 →
      loaded.memory.HasFrame frame)
    (built : loaded.source.Built) (bounded : loaded.source.coveredBytes ≤ 1 <<< 65)
    (room : ∀ layout, Ledger.Layout.ofRegions loaded.source.regions = .ok layout →
      kernel.stop.value + 4096 + layout.metadataPages * 4096 < 1 <<< 64) :
    ∃ outcome ready, (bringUp (.describe loaded.source root)).run
        (handedOver loaded root kernel.stop) = (outcome, ready) ∧
      ((∃ bytes, FrameManager.IsHostless loaded.source.regions bytes ∧
          outcome = .refused (.noRegionForMetadata bytes)) ∨
        outcome = .done () ∧ ready.source.stage = .ready ∧
          Preserves root image loaded.memory ready.memory) := by
  have sound := reached.sound
  have newManager : (handedOver loaded root kernel.stop).source.stage = .uninitialized := by
    rw [source_handedOver]
    rfl
  have exists_installed : ∃ installed, (FrameManager.install root).run
      (handedOver loaded root kernel.stop) = (.done (), installed) :=
    FrameManager.exists_run_install sound.addressable sound.tree.root_inside newManager
      loads.slot_absent
  rcases exists_installed with ⟨installed, installing⟩
  rcases prepared_of_install sound reached.linkable inside installing with ⟨prepared, next⟩
  have tree : (tables root).IsTree (handedOver loaded root kernel.stop).memory := sound.tree
  rcases FrameManager.of_run_install tree installing with ⟨memory, isSource⟩
  have memory : installed.memory = RecursiveMap.install loaded.memory root := memory
  have staged : installed.source.stage = .selfMapInstalled := by rw [isSource]
  have unmapped : ∀ layout, Ledger.Layout.ofRegions loaded.source.regions = .ok layout →
      IsUnmapped (spaceBelow root) installed.source.nextVirtual 0 layout.metadataPages
        installed.memory := by
    intro layout planned
    rw [next, memory]
    exact isUnmapped_of_loadsLast loads sound.tree (room layout planned)
  rcases prepared.completes staged built.isArranged.ordered bounded
    (fun layout planned => (unmapped layout planned).toIsLedTo) with
    ⟨outcome, ready, adopting, completes⟩
  cases completes with
  | met hosting below existing =>
      cases ((unmapped _ hosting.chooses.planned).free _ (Nat.zero_le _) (by omega)).symm.trans
        existing
  | hostless hostless =>
      exact ⟨_, _, run_bringUp_of_refused installing adopting, .inl ⟨_, hostless, rfl⟩⟩
  | adopted hosting steps counted =>
      refine ⟨_, _, run_bringUp_of_adopted installing adopting counted, .inr ⟨rfl, rfl, ?_⟩⟩
      have spares := hosting.spares steps
      rw [memory] at spares
      exact preserves_of_spares loads reached hosting.hosts hosting.member spares

end Takeover

namespace Kernel

open Loader (ImageSource KernelImage)

variable {capacity : Nat} {sorting : Region.Sorting} {map : List ReportedRange}
  {kept : List KeptRange} {recorded table : RegionTable capacity sorting} {machine : Machine}
  {root : Frame} {created loaded : Paged (RegionTable capacity sorting)} {kernel : KernelImage}
  {source : ImageSource} {image : Executable}

theorem built_of_loadImage (apart : map.Pairwise ReportedRange.Apart)
    (nonempty : ∀ range ∈ map, 0 < range.length)
    (ingested : (MemoryMap.recordRanges map).run RegionTable.empty = (.done (), recorded))
    (fenced : MemoryMap.Fences recorded kept table)
    (creates : (BootTables.create .long64).run ⟨machine, table⟩ = (.done root, created))
    (ran : (Loader.loadImage root source).run created = (.done kernel, loaded)) :
    loaded.source.Built ∧ loaded.source.coveredBytes ≤ 1 <<< 65 := by
  have stands :=
    RegionTable.standsAllocations_isBuiltOver capacity sorting recorded.coveredBytes
  have start : Paged.AtSource (RegionTable.IsBuiltOver recorded.coveredBytes)
      (⟨machine, table⟩ : Paged (RegionTable capacity sorting)) :=
    ⟨fenced.built (MemoryMap.built_of_recordRanges .empty ingested), fenced.coveredBytes_eq⟩
  have createdOver := (Loader.maintains_create stands .long64).of_run start creates
  rcases (Loader.maintains_loadImage stands source).of_run createdOver ran with ⟨built, covered⟩
  refine ⟨built, ?_⟩
  rw [covered]
  exact MemoryMap.coveredBytes_le_of_recordRanges apart nonempty ingested

/-- The kernel takes over what the loader built without disturbing it. -/
theorem takeover_keeps_what_was_loaded (apart : map.Pairwise ReportedRange.Apart)
    (nonempty : ∀ range ∈ map, 0 < range.length)
    (inside : ∀ frame, ReportedRange.Supplies map frame →
      lowMemoryEnd.value ≤ frame.number * 4096 → machine.memory.HasFrame frame)
    (ingested : (MemoryMap.recordRanges map).run RegionTable.empty = (.done (), recorded))
    (fenced : MemoryMap.Fences recorded kept table)
    (creates : (BootTables.create .long64).run ⟨machine, table⟩ = (.done root, created))
    (bytes : ByteArray) (shift : Nat)
    (shown : ImageSource.view (.buffer bytes shift) machine.memory = image)
    (ran : (Loader.loadImage root (.buffer bytes shift)).run created = (.done kernel, loaded))
    (high : ∀ index < image.tableLength, (image.headerAt index).isLoadable = true →
      lastSlotStart ≤ (image.headerAt index).address)
    (room : ∀ layout, Ledger.Layout.ofRegions loaded.source.regions = .ok layout →
      kernel.stop.value + 4096 + layout.metadataPages * 4096 < 1 <<< 64) :
    ∃ outcome ready, (Takeover.bringUp (.describe loaded.source root)).run
        (Takeover.handedOver loaded root kernel.stop) = (outcome, ready) ∧
      ((∃ required, FrameManager.IsHostless loaded.source.regions required ∧
          outcome = .refused (.noRegionForMetadata required)) ∨
        outcome = .done () ∧ ready.source.stage = .ready ∧
          Takeover.Preserves root image loaded.memory ready.memory) := by
  have respects := fenced.respects (MemoryMap.respects_of_recordRanges apart ingested)
  have isStart := Loader.isStart_of_respects respects inside
  have reached : Loader.Reached ⟨machine, table⟩ root loaded :=
    (Loader.Reaches.image (.created creates) ran).reached isStart
  rcases Loader.identity_of_create isStart creates with ⟨⟨last, identity⟩, _⟩
  -- What a buffer shows is the same in every memory.
  have steady : ∀ memory, ImageSource.view (.buffer bytes shift) memory = image := fun _ => shown
  rcases Loader.loadImage_spec steady identity.sound ran with ⟨describes, places⟩
  have reaches := Loader.reachesOnly_of_loadImage steady identity.sound ran
  have loads : Loader.LoadsLast root image kernel created loaded :=
    ⟨⟨last, identity⟩, describes, places, reaches, high⟩
  rcases built_of_loadImage apart nonempty ingested fenced creates ran with ⟨built, bounded⟩
  exact Takeover.bringUp_of_loadsLast loads reached (hasFrame_of_manages respects inside reached)
    built bounded room

/-! ## An image in the last slot -/

section

open Loader (smallStart smallRoot)

/-- The small executable, linked where the addresses of the last slot start. -/
def lastBytes : ByteArray :=
  ⟨#[0x7F, 0x45, 0x4C, 0x46, 2, 1, 1, 0, 0, 0, 0, 0, 0, 0, 0, 0,
    2, 0, 62, 0, 1, 0, 0, 0, 0, 0, 0, 0, 0x80, 0xFF, 0xFF, 0xFF,
    64, 0, 0, 0, 0, 0, 0, 0, 0, 0, 0, 0, 0, 0, 0, 0,
    0, 0, 0, 0, 64, 0, 56, 0, 1, 0, 0, 0, 0, 0, 0, 0,
    1, 0, 0, 0, 5, 0, 0, 0, 120, 0, 0, 0, 0, 0, 0, 0,
    0, 0, 0, 0, 0x80, 0xFF, 0xFF, 0xFF, 0, 0, 0, 0, 0x80, 0xFF, 0xFF, 0xFF,
    2, 0, 0, 0, 0, 0, 0, 0, 8, 0, 0, 0, 0, 0, 0, 0,
    0, 0x10, 0, 0, 0, 0, 0, 0, 0xEB, 0xFE]⟩

def lastImage : Executable :=
  ⟨lastBytes.size, true, fun index =>
    if inside : index < lastBytes.size then lastBytes.get index inside else 0⟩

def lastSegment : Executable.Segment :=
  ⟨.ofNat lastSlotStart, 120, 2, 8, ⟨true, false, true⟩⟩

set_option maxRecDepth 4000 in
theorem isSingle_lastImage : Loader.IsSingle lastImage lastSegment where
  accepted := by decide +kernel
  one := by decide +kernel
  decoded _ _ := rfl
  valid := ⟨by decide, by decide, by decide, by decide⟩
  entry := by decide +kernel

/-- What is left once the image is loaded: behind its page and the three tables that lead to it
there are eight frames. -/
def lastTable : RegionTable 8 :=
  ⟨[.of .reserved (.ofNat 0x100000) (.ofNat 0x104000),
    .of .allocated (.ofNat 0x104000) (.ofNat 0x105000),
    .of .reserved (.ofNat 0x105000) (.ofNat 0x106000),
    .of .reserved (.ofNat 0x106000) (.ofNat 0x107000),
    .of .reserved (.ofNat 0x107000) (.ofNat 0x108000),
    .of .available (.ofNat 0x108000) (.ofNat 0x110000)]⟩

theorem yields_smallBacked : AddressSpace.Yields
    [⟨0x105, by decide⟩, ⟨0x106, by decide⟩, ⟨0x107, by decide⟩] Loader.smallBacked lastTable :=
  Loader.yields_of_allocateFrame rfl <| Loader.yields_of_allocateFrame rfl <|
    Loader.yields_of_allocateFrame rfl (.nil _)

theorem exists_lastLoaded : ∃ created loaded,
    (BootTables.create .long64).run smallStart = (.done smallRoot, created) ∧
    (Loader.loadImage smallRoot (.buffer lastBytes 0)).run created =
      (.done ⟨lastImage.entry, Loader.highestStop [lastSegment], 1⟩, loaded) ∧
    loaded.source = lastTable := by
  rcases Loader.exists_created with ⟨created, last, creating, identity, source⟩
  have allocated : (RegionTable.allocateAs lastSegment.pages .allocated :
      Operation (RegionTable 8) BootTables.Refusal _).run created.source =
      (.done (some ⟨0x104000, by decide⟩), Loader.smallBacked) := by
    rw [source]
    decide
  rcases Loader.exists_run_loadSegment identity rfl
    (show Level.pml4.below = [.pdpt, .pd, .pt] from rfl) rfl (by decide) allocated
    yields_smallBacked rfl with ⟨backed, loading, tables⟩
  rcases Loader.run_place_of_loaded (.buffer lastBytes 0) identity.sound isSingle_lastImage.valid
    (show 0 < lastSegment.pages by decide) loading with ⟨placed, placing, same⟩
  exact ⟨created, placed, creating, isSingle_lastImage.run_loadImage rfl placing,
    same.trans tables⟩

def lastLayout : Ledger.Layout :=
  ⟨4, 2, 8, 1, 6⟩

theorem lastLayout_isPlanned : Ledger.Layout.ofRegions lastTable.regions = .ok lastLayout :=
  ok_of_toOption (by decide)

theorem lastTable_not_isHostless (bytes : Nat) :
    ¬ FrameManager.IsHostless lastTable.regions bytes := by
  rintro ⟨layout, planned, size, none⟩
  cases lastLayout_isPlanned.symm.trans planned
  have required : lastLayout.requiredBytes = .ok 0x7000 := ok_of_toOption (by decide)
  cases required.symm.trans size
  exact absurd none (by decide)

theorem image_in_last_slot_is_kept : ∃ created loaded ready,
    (BootTables.create .long64).run smallStart = (.done smallRoot, created) ∧
    (Loader.loadImage smallRoot (.buffer lastBytes 0)).run created =
      (.done ⟨lastImage.entry, Loader.highestStop [lastSegment], 1⟩, loaded) ∧
    (Takeover.bringUp (.describe loaded.source smallRoot)).run
      (Takeover.handedOver loaded smallRoot (Loader.highestStop [lastSegment])) =
      (.done (), ready) ∧
    ready.source.stage = .ready ∧
    Takeover.Preserves smallRoot lastImage loaded.memory ready.memory := by
  rcases exists_lastLoaded with ⟨created, loaded, creates, ran, source⟩
  have inside : ∀ frame, ReportedRange.Supplies (Loader.sixteenMap 0x100000) frame →
      lowMemoryEnd.value ≤ frame.number * 4096 → smallStart.machine.memory.HasFrame frame :=
    fun _ supplied _ => supplied.hasFrame (by decide)
  have ingested : (MemoryMap.recordRanges (Loader.sixteenMap 0x100000)).run RegionTable.empty =
      (.done (), smallStart.source) := by
    decide +kernel
  have high : ∀ index < lastImage.tableLength, (lastImage.headerAt index).isLoadable = true →
      lastSlotStart ≤ (lastImage.headerAt index).address := by
    decide +kernel
  have room : ∀ layout, Ledger.Layout.ofRegions loaded.source.regions = .ok layout →
      (Loader.highestStop [lastSegment]).value + 4096 + layout.metadataPages * 4096 < 1 <<< 64 := by
    intro layout planned
    rw [source] at planned
    cases lastLayout_isPlanned.symm.trans planned
    decide
  rcases takeover_keeps_what_was_loaded (by decide) (by decide) inside ingested .nil creates
    lastBytes 0 rfl ran high room with ⟨_, ready, cameUp, ⟨_, hostless, _⟩ | ⟨rfl, stage, keeps⟩⟩
  · rw [source] at hostless
    exact absurd hostless (lastTable_not_isHostless _)
  · exact ⟨created, loaded, ready, creates, ran, cameUp, stage, keeps⟩

end

end Kernel

end EarlyMemory
