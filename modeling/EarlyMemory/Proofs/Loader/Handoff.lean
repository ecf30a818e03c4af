import EarlyMemory.Loader.Handoff
import EarlyMemory.Proofs.Firmware.Reservations
import EarlyMemory.Proofs.Loader.Exactness

/-!
# Reaching the root

The kernel looks for the root of its tables at the frame's own address. The lowest pages
are mapped to themselves and an image is only ever mapped to pages that were allocated
to it, so the tables map their root to itself exactly if it stands in the lowest pages.
Where it stands is up to the firmware: it is the start of the first available region
beyond low memory with room for a table of each level.
-/

namespace EarlyMemory

/-- Whether the tables that were handed over map their root to itself. -/
def BootInfo.ReachesRoot (info : BootInfo) (memory : Memory) : Prop :=
  (BootTables.space (info.root.page .small)).translate memory (.ofNat info.root.value) =
    .ok (some info.root)

theorem Page.page_base (frame : Frame) : frame.base.page .small = frame :=
  Page.ext (Nat.mul_div_cancel _ (by decide))

theorem ReportedRange.Supplies.hasFrame {map : List ReportedRange} {memory : Memory}
    {frame : Frame} (supplied : Supplies map frame)
    (within : ∀ range ∈ map, memory.base.number * 4096 ≤ range.start.value ∧
      range.stop.value ≤ (memory.base.number + memory.frames) * 4096) :
    memory.HasFrame frame := by
  rcases supplied with ⟨range, member, _, above, below⟩
  have within := within range member
  exact ⟨by omega, by omega⟩

namespace Loader

open Operation

variable {capacity : Nat} {sorting : Region.Sorting} {map : List ReportedRange}
  {kept : List KeptRange} {table : RegionTable capacity sorting} {machine : Machine} {root : Frame}
  {start before after : Paged (RegionTable capacity sorting)} {information : BootInformation}
  {address imageStart imageStop : PhysicalAddress} {handoff : Handoff}

theorem isStart_of_respects (respects : MemoryMap.Respects map kept table)
    (inside : ∀ frame, ReportedRange.Supplies map frame →
      lowMemoryEnd.value ≤ frame.number * 4096 → machine.memory.HasFrame frame) :
    IsStart ⟨machine, table⟩ where
  table := respects.sound
  inside frame offered := by
    have reported := respects.reported frame offered.manages
    rcases offered with ⟨region, _, _, high, above, _⟩
    exact inside frame reported (Nat.le_trans high above)

/-- The tables are created in what a firmware leaves whose ranges do not overlap. -/
theorem isStart_of_build (reported : information.ranges = .ok map)
    (apart : map.Pairwise ReportedRange.Apart)
    (inside : ∀ frame, ReportedRange.Supplies map frame →
      lowMemoryEnd.value ≤ frame.number * 4096 → machine.memory.HasFrame frame)
    (builds : (MemoryMap.build information address imageStart imageStop).run .empty =
      (.done (), table)) : IsStart ⟨machine, table⟩ ∧ table.Built := by
  rcases MemoryMap.fences_of_build reported builds with ⟨recorded, kept, recording, fences⟩
  have respects := fences.respects (MemoryMap.respects_of_recordRanges apart recording)
  exact ⟨isStart_of_respects respects inside,
    fences.built (MemoryMap.built_of_recordRanges .empty recording)⟩

/-! ## What is mapped to itself -/

theorem Reached.entryAt_low {page : VirtualAddress} (reached : Reached start root after)
    (low : page.pageKey.val < 512) : ∃ leaf,
    (tables root).entryAt after.memory page.leafPath = some leaf ∧
      leaf.frame.number = page.pageKey.val := by
  have number : ((Address.ofNat (page.pageKey.val * 4096) : PhysicalAddress).page .small).number =
      page.pageKey.val := by
    simp only [Address.page, Address.ofNat, PageSize.bytes, Nat.reduceShiftLeft]
    omega
  have linkable : ((Address.ofNat (page.pageKey.val * 4096) : PhysicalAddress).page
      .small).IsLinkable := by
    unfold Page.IsLinkable
    omega
  refine ⟨_, (reached.lowest page low).trans (if_pos low), ?_⟩
  rw [PageEntry.frame_leaf linkable, number]

theorem value_join_offset {frame : Frame} {page : VirtualAddress} :
    (frame.join (page.offset .small)).value = frame.number * 4096 + page.value % 4096 := by
  simp only [Page.join, Address.offset, PageSize.bytes, Nat.mod_mod]

theorem Reached.translate_of_low {target : PhysicalAddress} (reached : Reached start root after)
    (low : target.value < BootTables.identityBytes) :
    (BootTables.space root).translate after.memory (.ofNat target.value) = .ok (some target) := by
  have identityBytes : BootTables.identityBytes = 512 * 4096 := rfl
  have value : (Address.ofNat target.value : VirtualAddress).value = target.value :=
    Nat.mod_eq_of_lt target.isLt
  have key : (Address.ofNat target.value : VirtualAddress).pageKey.val = target.value / 4096 := by
    simp only [Address.pageKey, value, Nat.reduceShiftLeft]
    omega
  rcases reached.entryAt_low (show _ < 512 by rw [key]; omega) with ⟨leaf, found, number⟩
  rw [translate_eq reached.sound, found, Option.map_some]
  congr 2
  apply Address.ext
  rw [value_join_offset, number, key, value]
  omega

/-- Of the other pages only those of an image can be mapped to themselves. -/
theorem Reached.low_or_backs_of_translate {target : PhysicalAddress}
    (reached : Reached start root after)
    (same : (BootTables.space root).translate after.memory (.ofNat target.value) =
      .ok (some target)) :
    target.value < BootTables.identityBytes ∨ after.source.BacksImage (target.page .small) := by
  have identityBytes : BootTables.identityBytes = 512 * 4096 := rfl
  have value : (Address.ofNat target.value : VirtualAddress).value = target.value :=
    Nat.mod_eq_of_lt target.isLt
  rw [translate_eq reached.sound, Except.ok.injEq, Option.map_eq_some_iff] at same
  rcases same with ⟨leaf, found, joined⟩
  have sum := congrArg Address.value joined
  rw [value_join_offset, value] at sum
  rcases reached.backed _ leaf found with low | backs
  · rcases reached.entryAt_low low with ⟨_, sameLeaf, number⟩
    rw [found, Option.some.injEq] at sameLeaf
    rw [← sameLeaf] at number
    left
    omega
  · have frame : leaf.frame = target.page .small := by
      apply Page.ext
      simp only [Address.page, PageSize.bytes]
      omega
    exact .inr (frame ▸ backs)

theorem Reached.translate_root_iff (reached : Reached start root after) :
    (BootTables.space root).translate after.memory (.ofNat root.base.value) =
        .ok (some root.base) ↔ root.base.value < BootTables.identityBytes := by
  constructor
  · intro same
    apply (reached.low_or_backs_of_translate same).resolve_right
    intro backs
    rw [Page.page_base] at backs
    exact reached.sound.unmanaged root Hierarchy.isTable_root backs.manages
  · exact reached.translate_of_low

/-! ## Where the root stands -/

/-- Whether the first region that can take the tables starts in the lowest pages. -/
def HasLowRoom (table : RegionTable capacity sorting) : Prop :=
  ∃ region ∈ table.regions, region.code = RegionKind.available.code ∧
    lowMemoryEnd.value ≤ region.start.value ∧
    region.start.value < BootTables.identityBytes ∧
    Level.all.length * PageSize.small.bytes ≤ region.length

theorem base_of_allocates {base : PhysicalAddress} {given : RegionTable capacity sorting}
    (built : table.Built)
    (allocates : RegionTable.Allocates table 4 .reserved (some base) given) :
    base.value % 4096 = 0 ∧ (base.value < BootTables.identityBytes ↔ HasLowRoom table) := by
  have bytes : Level.all.length * PageSize.small.bytes = 4 * 4096 := rfl
  cases allocates with
  | carved _ stop host others atStart extent high carves arranged lowest =>
      have member := carves.mem_before.2 (.inl rfl)
      refine ⟨atStart ▸ (built.isWellFormed host member).2.start, ?_, ?_⟩
      · intro low
        have below := carves.stop
        simp only [Region.of] at below
        refine ⟨host, member, carves.available, atStart ▸ high, atStart ▸ low, ?_⟩
        rw [bytes, Region.length, ← atStart]
        omega
      · rintro ⟨region, member, available, above, low, enough⟩
        exact Nat.lt_of_le_of_lt (lowest built.isArranged region member available above enough) low

/-! ## Preparing the kernel's start -/

theorem of_run_findKernel {σ : Type} {before after : σ} {bootModule : BootModule}
    (done : (findKernel information).run before = (.done bootModule, after)) :
    information.hasMemoryMap = .ok true ∧ information.kernelModule? = .ok (some bootModule) ∧
      before = after := by
  rcases of_run_bind done with ⟨mapped, _, checked, done⟩
  rcases of_run_check checked with ⟨hasMap, rfl⟩
  cases mapped with
  | false => cases done
  | true =>
      rcases of_run_bind done with ⟨kernel, _, checked, done⟩
      rcases of_run_check checked with ⟨isKernel, rfl⟩
      cases kernel with
      | none => cases done
      | some found =>
          cases done
          exact ⟨hasMap, isKernel, rfl⟩

theorem run_findKernel {σ : Type} {state : σ} {bootModule : BootModule}
    (hasMap : information.hasMemoryMap = .ok true)
    (kernel : information.kernelModule? = .ok (some bootModule)) :
    (findKernel information).run state = (.done bootModule, state) := by
  simp only [findKernel, hasMap, kernel, run_bind, run_check_ok]
  rfl

structure Prepares (information : BootInformation) (address imageStart imageStop : PhysicalAddress)
    (start : Paged (RegionTable capacity sorting)) (bootModule : BootModule)
    (table : RegionTable capacity sorting) (root : Frame)
    (created : Paged (RegionTable capacity sorting)) : Prop where
  hasMap : information.hasMemoryMap = .ok true
  isKernel : information.kernelModule? = .ok (some bootModule)
  builds : (MemoryMap.build information address imageStart imageStop).run start.source =
    (.done (), table)
  creates : (BootTables.create .long64).run ⟨start.machine, table⟩ = (.done root, created)
  readable : created.memory.requireRange bootModule.start bootModule.length = .ok ()

theorem of_run_prepare
    (done : (prepare information address imageStart imageStop).run start = (.done handoff, after)) :
    ∃ bootModule table root created,
      Prepares information address imageStart imageStop start bootModule table root created ∧
      (loadImage root (.window bootModule.start bootModule.length)).run created =
        (.done handoff.kernel, after) ∧
      handoff.info = .describe after.source root := by
  rcases of_run_bind done with ⟨bootModule, _, finding, done⟩
  rcases of_run_findKernel finding with ⟨hasMap, isKernel, rfl⟩
  rcases of_run_bind done with ⟨_, ⟨machine, table⟩, building, done⟩
  rcases Paged.of_run_onSource (of_run_mapRefusal building) with ⟨builds, rfl⟩
  rcases of_run_bind done with ⟨root, created, creating, done⟩
  rcases of_run_bind done with ⟨_, _, reading, done⟩
  rcases Paged.of_run_inspect reading with ⟨readable, rfl⟩
  rcases of_run_bind done with ⟨kernel, loaded, loading, done⟩
  cases done
  exact ⟨bootModule, table, root, created,
    ⟨hasMap, isKernel, builds, of_run_mapRefusal creating, readable⟩,
    of_run_mapRefusal loading, rfl⟩

theorem run_prepare {bootModule : BootModule} {created : Paged (RegionTable capacity sorting)}
    {kernel : KernelImage}
    (prepares : Prepares information address imageStart imageStop start bootModule table root
      created)
    (loads : (loadImage root (.window bootModule.start bootModule.length)).run created =
      (.done kernel, after)) :
    (prepare information address imageStart imageStop).run start =
      (.done ⟨.describe after.source root, kernel⟩, after) := by
  rw [prepare, run_bind_of_done (run_findKernel prepares.hasMap prepares.isKernel)]
  simp only [run_bind, run_mapRefusal, Paged.run_onSource, prepares.builds, prepares.creates,
    Paged.run_inspect, prepares.readable, loads]
  rfl

/-! ## Whether the kernel reaches the root -/

/-- However the loading of the kernel ends, it does not change where the root is. -/
theorem reachesRoot_iff {created : Paged (RegionTable capacity sorting)} {source : ImageSource}
    {outcome : Outcome Executable.Refusal KernelImage} (isStart : IsStart ⟨machine, table⟩)
    (built : table.Built)
    (creates : (BootTables.create .long64).run ⟨machine, table⟩ = (.done root, created))
    (loads : (loadImage root source).run created = (outcome, after)) :
    (BootInfo.describe after.source root).ReachesRoot after.memory ↔ HasLowRoom table := by
  have reaches : Reaches ⟨machine, table⟩ root after := .image (.created creates) loads
  have mapped := (reaches.reached isStart).translate_root_iff
  rcases of_run_create creates with ⟨base, given, allocated, rfl, _⟩
  rcases RegionTable.allocates_of_allocateAs allocated with ⟨_, ⟨⟩, allocates⟩
  rcases base_of_allocates built allocates with ⟨aligned, low⟩
  -- What is handed over is the base of a frame, which is the address that was allocated.
  have isBase : (base.page .small).base = base := by
    apply Address.ext
    simp only [Page.base, Address.page, PageSize.bytes]
    omega
  have isRoot : (BootInfo.describe after.source (base.page .small)).root = base := isBase
  rwa [isBase, low, ← isRoot] at mapped

/-- The kernel finds its root at the frame's own address exactly if the first region that
can take the tables starts in the lowest pages. -/
theorem root_is_reached_iff (information : BootInformation)
    (address imageStart imageStop : PhysicalAddress) (map : List ReportedRange)
    (machine : Machine) (handoff : Handoff) (after : Paged (RegionTable capacity sorting))
    (reported : information.ranges = .ok map) (apart : map.Pairwise ReportedRange.Apart)
    (inside : ∀ frame, ReportedRange.Supplies map frame →
      lowMemoryEnd.value ≤ frame.number * 4096 → machine.memory.HasFrame frame)
    (prepared : (prepare information address imageStart imageStop).run ⟨machine, .empty⟩ =
      (.done handoff, after)) :
    ∃ table : RegionTable capacity sorting,
      (MemoryMap.build information address imageStart imageStop).run .empty = (.done (), table) ∧
      (handoff.info.ReachesRoot after.memory ↔ HasLowRoom table) := by
  rcases of_run_prepare prepared with ⟨bootModule, table, root, created, prepares, loads, info⟩
  rcases isStart_of_build reported apart inside prepares.builds with ⟨isStart, built⟩
  rw [info]
  exact ⟨table, prepares.builds, reachesRoot_iff isStart built prepares.creates loads⟩

/-! ## Sixteen frames of memory -/

open LittleEndian in
/-- The firmware of a machine with sixteen frames from an address on, all of them available.
The last one holds the kernel module. -/
def sixteenFrames (first : Nat) : BootInformation :=
  ⟨bytes 4 6 ++ bytes 4 40 ++ bytes 4 24 ++ bytes 4 0 ++
    (bytes 8 first ++ bytes 8 0x10000 ++ bytes 4 1 ++ bytes 4 0) ++
    (bytes 4 3 ++ bytes 4 34 ++ bytes 4 (first + 0xF000) ++ bytes 4 (first + 0xF07A) ++
      BootModule.kernelName.toUTF8.data.toList ++ bytes 7 0) ++
    BootInformation.endTag⟩

def sixteenMap (first : Nat) : List ReportedRange :=
  [⟨.ofNat first, 0x10000, 1⟩]

def sixteenTable (first : Nat) : RegionTable 8 :=
  ⟨[.of .available (.ofNat first) (.ofNat (first + 0xF000)),
    .of .reserved (.ofNat (first + 0xF000)) (.ofNat (first + 0x10000))]⟩

def smallModule (first : Nat) : BootModule :=
  ⟨.ofNat (first + 0xF000), .ofNat (first + 0xF07A), BootModule.kernelName⟩

/-- Two places for the frames: at the end of low memory and past the lowest pages. -/
def IsPlace (first : Nat) : Prop :=
  first = 0x100000 ∨ first = 0x300000

structure HoldsModule (first : Nat) (memory : Memory) : Prop where
  place : IsPlace first
  base : memory.base.number = first / 4096
  frames : memory.frames = 16
  content : ∀ index, memory.byteAt (first + 0xF000 + index) = smallImage.byteAt index

def sixteenMemory (first : Nat) : Memory :=
  (Memory.zeroed ((Address.ofNat first).page .small) 16).store (first + 0xF000)
    smallBytes.data.toList

theorem byteAt_smallImage (index : Nat) : smallImage.byteAt index =
    if inside : index < smallBytes.size then smallBytes.get index inside else 0 := by
  dsimp only [smallImage]

variable {first : Nat} {memory : Memory}

theorem holdsModule_sixteenMemory (place : IsPlace first) :
    HoldsModule first (sixteenMemory first) := by
  have base : (Memory.zeroed ((Address.ofNat first).page .small) 16).base.number =
      first / 4096 := by
    rcases place with rfl | rfl <;> decide
  have frames : (Memory.zeroed ((Address.ofNat first).page .small) 16).frames = 16 := rfl
  have length : smallBytes.data.toList.length = smallBytes.size := Array.length_toList
  have size : smallBytes.size = 122 := by decide +kernel
  refine ⟨place, by rw [sixteenMemory, Memory.base_store, base], by rw [sixteenMemory,
    Memory.frames_store, frames], fun index => ?_⟩
  unfold IsPlace at place
  by_cases stored : index < smallBytes.size
  · have inside : (Memory.zeroed ((Address.ofNat first).page .small) 16).Contains
        (first + 0xF000 + index) := by
      rw [Memory.Contains, Memory.sized, Memory.start, base, frames]
      omega
    rw [sixteenMemory, Memory.byteAt_store_same _ _ _ _ (by omega) inside, byteAt_smallImage,
      dif_pos stored]
    exact Array.getElem_toList ..
  · rw [sixteenMemory, Memory.byteAt_store_other _ _ _ _ (by omega), Memory.byteAt_zeroed,
      byteAt_smallImage, dif_neg stored]

-- From here on the memory is known by what it holds, not by how it was written.
attribute [irreducible] sixteenMemory

theorem HoldsModule.contains (holds : HoldsModule first memory) {byte : Nat}
    (above : first ≤ byte) (below : byte < first + 0x10000) : memory.Contains byte := by
  have place := holds.place
  unfold IsPlace at place
  rw [Memory.Contains, Memory.sized, Memory.start, holds.base, holds.frames]
  omega

theorem HoldsModule.isAddressable (holds : HoldsModule first memory) :
    memory.IsAddressable := by
  have place := holds.place
  unfold IsPlace at place
  rw [Memory.IsAddressable, holds.base, holds.frames]
  omega

theorem HoldsModule.hasFrame (holds : HoldsModule first memory)
    {frame : Frame} (supplied : ReportedRange.Supplies (sixteenMap first) frame) :
    memory.HasFrame frame := by
  have place := holds.place
  have start : (ReportedRange.mk (.ofNat first) 0x10000 1).start.value = first := by
    rcases place with rfl | rfl <;> decide
  have stop : (ReportedRange.mk (.ofNat first) 0x10000 1).stop.value = first + 0x10000 := by
    rcases place with rfl | rfl <;> decide
  refine supplied.hasFrame fun range member => ?_
  rw [List.mem_singleton.1 member, start, stop, holds.base, holds.frames]
  unfold IsPlace at place
  omega

theorem offered_below_smallModule (place : IsPlace first) {frame : Frame}
    (offered : (sixteenTable first).OffersFrame frame) :
    frame.number * 4096 + 4096 ≤ first + 0xF000 := by
  have stop : (Address.ofNat (first + 0xF000) : PhysicalAddress).value = first + 0xF000 := by
    rcases place with rfl | rfl <;> decide
  rcases offered with ⟨region, member, available, _, _, below⟩
  simp only [sixteenTable, List.mem_cons, List.not_mem_nil, or_false] at member
  rcases member with rfl | rfl
  · exact Nat.le_trans below (Nat.le_of_eq stop)
  · cases available

theorem start_smallModule (place : IsPlace first) :
    (smallModule first).start.value = first + 0xF000 := by
  rcases place with rfl | rfl <;> decide

theorem length_smallModule (place : IsPlace first) : (smallModule first).length = 122 := by
  rcases place with rfl | rfl <;> decide +kernel

/-- Whatever is written to frames on offer, the module shows the small image. -/
theorem HoldsModule.view (holds : HoldsModule first memory) {after : Memory}
    (agrees : Memory.AgreesOutside (sixteenTable first).OffersFrame memory after) :
    ImageSource.view (.window (smallModule first).start (smallModule first).length) after =
      smallImage := by
  have place := holds.place
  have size : smallBytes.size = 122 := by decide +kernel
  have content : ∀ index, after.byteAt (first + 0xF000 + index) = smallImage.byteAt index := by
    intro index
    rw [agrees.byteAt, holds.content]
    intro frame offered within
    have below := offered_below_smallModule place offered
    unfold Page.Holds at within
    omega
  have aligned : (first + 0xF000) % 8 = 0 := by
    unfold IsPlace at place
    omega
  rw [ImageSource.view, ImageSource.size, start_smallModule place, length_smallModule place,
    aligned, funext content, ← size, BEq.rfl]
  dsimp only [smallImage]

theorem ranges_sixteenFrames (place : IsPlace first) :
    (sixteenFrames first).ranges = .ok (sixteenMap first) := by
  rcases place with rfl | rfl <;> exact ok_of_toOption (by decide +kernel)

theorem run_build_sixteenFrames (place : IsPlace first) :
    (MemoryMap.build (sixteenFrames first) (.ofNat 0x8000) (.ofNat 0x10000)
      (.ofNat 0x18000)).run RegionTable.empty = (.done (), sixteenTable first) := by
  rcases place with rfl | rfl <;> decide +kernel

theorem HoldsModule.isStart (holds : HoldsModule first memory) :
    IsStart ⟨⟨memory, []⟩, sixteenTable first⟩ ∧ (sixteenTable first).Built :=
  isStart_of_build (ranges_sixteenFrames holds.place) (List.pairwise_singleton ..)
    (fun _ supplied _ => holds.hasFrame supplied) (run_build_sixteenFrames holds.place)

def takenTable (first : Nat) : RegionTable 8 :=
  ⟨[.of .reserved (.ofNat first) (.ofNat (first + 0x4000)),
    .of .available (.ofNat (first + 0x4000)) (.ofNat (first + 0xF000)),
    .of .reserved (.ofNat (first + 0xF000)) (.ofNat (first + 0x10000))]⟩

def backedTable (first : Nat) : RegionTable 8 :=
  ⟨[.of .reserved (.ofNat first) (.ofNat (first + 0x4000)),
    .of .allocated (.ofNat (first + 0x4000)) (.ofNat (first + 0x5000)),
    .of .available (.ofNat (first + 0x5000)) (.ofNat (first + 0xF000)),
    .of .reserved (.ofNat (first + 0xF000)) (.ofNat (first + 0x10000))]⟩

theorem HoldsModule.prepares (holds : HoldsModule first memory) :
    ∃ created last,
      Prepares (sixteenFrames first) (.ofNat 0x8000) (.ofNat 0x10000) (.ofNat 0x18000)
        ⟨⟨memory, []⟩, .empty⟩ (smallModule first) (sixteenTable first)
        ((Address.ofNat first).page .small) created ∧
      Identity ((Address.ofNat first).page .small) last 512 created ∧
      created.source = takenTable first ∧
      Memory.AgreesOutside (sixteenTable first).OffersFrame memory created.memory := by
  have place := holds.place
  have hasMap : (sixteenFrames first).hasMemoryMap = .ok true := by
    rcases place with rfl | rfl <;> exact ok_of_toOption (by decide +kernel)
  have isKernel : (sixteenFrames first).kernelModule? = .ok (some (smallModule first)) := by
    rcases place with rfl | rfl <;> exact ok_of_toOption (by decide +kernel)
  have allocated : (RegionTable.allocateAs 4 .reserved :
      Operation (RegionTable 8) BootTables.Refusal _).run (sixteenTable first) =
      (.done (some (.ofNat first)), takenTable first) := by
    rcases place with rfl | rfl <;> decide +kernel
  have addressable := holds.isAddressable
  rcases create_spec (holds.isStart).1 addressable allocated with
    ⟨created, last, creates, identity, source, _, _, agrees⟩
  refine ⟨created, last, ⟨hasMap, isKernel, run_build_sixteenFrames place, creates, ?_⟩, identity,
    source, agrees⟩
  rw [length_smallModule place]
  apply Memory.requireRange_eq_ok (agrees.isAddressable_iff.2 addressable) (by decide)
  intro index below
  rw [start_smallModule place]
  exact (agrees.contains_iff _).2 (holds.contains (by omega) (by omega))

theorem HoldsModule.exists_prepared (holds : HoldsModule first memory) :
    ∃ handoff after, (prepare (sixteenFrames first) (.ofNat 0x8000) (.ofNat 0x10000)
        (.ofNat 0x18000)).run ⟨⟨memory, []⟩, (.empty : RegionTable 8)⟩ =
      (.done handoff, after) := by
  have place := holds.place
  rcases holds.prepares with ⟨created, last, prepares, identity, source, agrees⟩
  obtain ⟨backing, found⟩ : ∃ backing, (RegionTable.allocateAs smallSegment.pages .allocated :
      Operation (RegionTable 8) BootTables.Refusal _).run created.source =
      (.done (some backing), backedTable first) := by
    rw [source]
    exact ⟨.ofNat (first + 0x4000), by rcases place with rfl | rfl <;> decide +kernel⟩
  obtain ⟨frame, handed, given⟩ : ∃ frame handed, (RegionTable.allocateFrame :
      Operation (RegionTable 8) MapError _).run (backedTable first) =
      (.done (some frame), handed) := by
    rcases place with rfl | rfl <;> exact ⟨_, _, rfl⟩
  rcases exists_loaded identity found given with ⟨loaded, loading⟩
  rcases run_place_of_loaded (.window (smallModule first).start (smallModule first).length)
    identity.sound (by rw [ImageSource.size, length_smallModule place]
                       exact isSingle_smallImage.valid)
    (show 0 < smallSegment.pages by decide) loading with ⟨placed, placing, _⟩
  have viewing : (Loader.view (.window (smallModule first).start
      (smallModule first).length)).run created = (.done smallImage, created) := by
    rw [Loader.view, Paged.run_inspect, holds.view agrees]
  exact ⟨_, placed, run_prepare prepares (isSingle_smallImage.run_loadImage viewing placing)⟩

/-- Frames from the end of low memory on are among the lowest pages. -/
theorem root_in_lowest_pages_is_reached :
    ∃ handoff after,
      (prepare (sixteenFrames 0x100000) (.ofNat 0x8000) (.ofNat 0x10000) (.ofNat 0x18000)).run
        ⟨⟨sixteenMemory 0x100000, []⟩, (.empty : RegionTable 8)⟩ = (.done handoff, after) ∧
      handoff.info.ReachesRoot after.memory := by
  have place : IsPlace 0x100000 := .inl rfl
  have holds := holdsModule_sixteenMemory place
  rcases holds.exists_prepared with ⟨handoff, after, prepared⟩
  rcases root_is_reached_iff (sixteenFrames 0x100000) _ _ _ (sixteenMap 0x100000)
    ⟨sixteenMemory 0x100000, []⟩ handoff after (ranges_sixteenFrames place)
    (List.pairwise_singleton ..) (fun _ supplied _ => holds.hasFrame supplied)
    prepared with ⟨table, builds, reached⟩
  rw [run_build_sixteenFrames place] at builds
  cases builds
  exact ⟨handoff, after, prepared, reached.2 ⟨_, List.mem_cons_self, rfl, by decide, by decide,
    by decide⟩⟩

/-- If memory starts at three mebibytes, the kernel's start is prepared all the same, but
the root is not mapped. -/
theorem root_past_lowest_pages_is_not_reached :
    ¬ ∀ (information : BootInformation) (address imageStart imageStop : PhysicalAddress)
      (machine : Machine) (handoff : Handoff) (after : Paged (RegionTable 8)),
      (prepare information address imageStart imageStop).run ⟨machine, .empty⟩ =
        (.done handoff, after) →
      handoff.info.ReachesRoot after.memory := by
  intro claim
  have place : IsPlace 0x300000 := .inr rfl
  have holds := holdsModule_sixteenMemory place
  rcases holds.exists_prepared with ⟨handoff, after, prepared⟩
  have reached := claim _ _ _ _ _ _ _ prepared
  rcases of_run_prepare prepared with ⟨_, table, root, created, prepares, loads, info⟩
  rcases holds.isStart with ⟨isStart, built⟩
  have builds := prepares.builds
  rw [run_build_sixteenFrames place] at builds
  cases builds
  rw [info, reachesRoot_iff isStart built prepares.creates loads] at reached
  rcases reached with ⟨region, member, available, _, low, _⟩
  simp only [sixteenTable, List.mem_cons, List.not_mem_nil, or_false] at member
  rcases member with rfl | rfl
  · exact absurd low (by decide)
  · cases available

end Loader

end EarlyMemory
