import EarlyMemory.Proofs.Loader.Runs
import EarlyMemory.Proofs.Region.Building

/-!
# An image is placed exactly

Once an image is loaded, reading the memory through the tables gives the image back:
every header's file bytes at their addresses, zeros in the rest of its pages, and the
rights it asks for. Pages that were mapped before are not touched, and no two headers
share a page.
-/

namespace EarlyMemory

namespace Executable

def ProgramHeader.PageHolds (header : ProgramHeader) (address : VirtualAddress) : Prop :=
  header.address / 4096 ≤ address.value / 4096 ∧
    address.value / 4096 ≤ (header.address + header.memorySize - 1) / 4096

def ProgramHeader.Covers (header : ProgramHeader) (address : VirtualAddress) : Prop :=
  header.address ≤ address.value ∧ address.value < header.address + header.memorySize

end Executable

namespace Loader

open Operation

variable {capacity : Nat} {sorting : Region.Sorting} {root : Frame}
  {start before after : Paged (RegionTable capacity sorting)} {image : Executable}
  {segment : Executable.Segment} {header : Executable.ProgramHeader} {kernel : KernelImage}
  {address : VirtualAddress}

/-! ## What is claimed of an image -/

/-- A header's part of the image stands in the memory, at addresses that were free. -/
structure PlacesHeader (root : Frame) (image : Executable) (header : Executable.ProgramHeader)
    (before after : Memory) : Prop where
  room : header.address + header.memorySize < 1 <<< 64
  content : ∀ position < header.memorySize, ∃ target,
    (BootTables.space root).translate after (.ofNat (header.address + position)) =
      .ok (some target) ∧
    after.byteAt target.value =
      if position < header.fileSize then image.byteAt (header.offset + position) else 0
  padding : ∀ address, header.PageHolds address → ¬ header.Covers address → ∃ target,
    (BootTables.space root).translate after address = .ok (some target) ∧
    after.byteAt target.value = 0
  leaves : ∀ address, header.PageHolds address → ∃ leaf,
    (BootTables.space root).query after address = .ok (some leaf) ∧
    leaf.present = true ∧ leaf.flag .writable = header.isWritable ∧
    leaf.flag .noExecute = !header.isExecutable
  free : ∀ address other, header.PageHolds address → other.pageKey = address.pageKey →
    (BootTables.space root).query before other = .ok none

/-- Each loadable header is placed, and the kernel is described as what was placed. -/
structure PlacesImage (root : Frame) (image : Executable) (kernel : KernelImage)
    (before after : Memory) : Prop where
  headers : ∀ index < image.tableLength, (image.headerAt index).isLoadable = true →
    PlacesHeader root image (image.headerAt index) before after
  apart : ∀ index other, index < other → other < image.tableLength →
    (image.headerAt index).isLoadable = true → (image.headerAt other).isLoadable = true →
    ∀ left right, (image.headerAt index).PageHolds left → (image.headerAt other).PageHolds right →
      left.pageKey ≠ right.pageKey
  entry : kernel.entry = image.entry
  entryInside : ∃ index < image.tableLength, (image.headerAt index).isLoadable = true ∧
    (image.headerAt index).isExecutable = true ∧ (image.headerAt index).Covers kernel.entry
  stopAbove : ∀ index < image.tableLength, (image.headerAt index).isLoadable = true →
    (image.headerAt index).address + (image.headerAt index).memorySize ≤ kernel.stop.value
  stopReached : ∃ index < image.tableLength, (image.headerAt index).isLoadable = true ∧
    (image.headerAt index).address + (image.headerAt index).memorySize = kernel.stop.value
  segments : kernel.segments =
    ((List.range image.tableLength).filter fun index => (image.headerAt index).isLoadable).length

/-! ## Loaders -/

theorem isStart_of_built (built : start.source.Built)
    (apart : start.source.regions.Pairwise Region.Apart)
    (inside : ∀ region ∈ start.source.regions, region.code = RegionKind.available.code →
      ∀ address, region.Covers address → lowMemoryEnd.value ≤ address →
        start.memory.Contains address) : IsStart start where
  table := built.isSound apart
  inside frame offered := by
    rcases offered with ⟨region, member, available, high, above, below⟩
    have contains := inside region member available (frame.number * 4096) ⟨above, by omega⟩
      (by omega)
    rcases contains with ⟨first, last⟩
    rw [start.memory.sized] at last
    unfold Memory.start at first last
    exact ⟨by omega, by omega⟩

/-! ## Reading a placed segment -/

theorem query_eq (sound : IsSound root after) (address : VirtualAddress) :
    (BootTables.space root).query after.memory address =
      .ok ((tables root).entryAt after.memory address.leafPath) := by
  rw [(sound.ready.denotes rfl address).1, AddressSpace.pages_pageKey]

theorem translate_eq (sound : IsSound root after) (address : VirtualAddress) :
    (BootTables.space root).translate after.memory address =
      .ok (((tables root).entryAt after.memory address.leafPath).map fun leaf =>
        leaf.frame.join (address.offset .small)) := by
  rw [(sound.ready.denotes rfl address).2, AddressSpace.pages_pageKey]

theorem walk_eq (sound : IsSound root after) (address : VirtualAddress) :
    after.memory.walk root address =
      .ok ((tables root).entryAt after.memory address.leafPath) := by
  have walked := Hierarchy.walk_eq sound.addressable
    (sound.tree.hasTables (leads_tables address) .pt)
  exact walked

theorem translate_walked (sound : IsSound root after) (address : VirtualAddress) :
    after.memory.translate root address =
      (BootTables.space root).translate after.memory address := by
  rw [Memory.translate_of_walk (walk_eq sound address), translate_eq sound]

def InPage (segment : Executable.Segment) (index : Nat) (address : VirtualAddress) : Prop :=
  address.value / 4096 = segment.address.value / 4096 + index

theorem leafPath_of_inPage {index : Nat} (inPage : InPage segment index address) :
    address.leafPath = segmentPath segment index := by
  have bound := address.isLt
  unfold InPage at inPage
  refine Address.leafPath_eq_iff.2 (Fin.ext ?_)
  simp only [Address.pageKey, Address.pageAfter, Address.ofNat, Address.value_alignDown,
    Nat.reduceShiftLeft] at bound ⊢
  omega

theorem Placed.absent {index : Nat} (placed : Placed root image segment before after)
    (below : index < segment.pages) (inPage : InPage segment index address) :
    (tables root).entryAt before.memory address.leafPath = none := by
  rcases placed with ⟨_, ⟨_, pages⟩, _⟩
  rw [leafPath_of_inPage inPage]
  exact (pages index below).absent

/-- What reading an address finds: a leaf with the rights and the byte behind it. -/
def ReadsAs (root : Frame) (memory : Memory) (address : VirtualAddress) (rights : Rights)
    (byte : UInt8) : Prop :=
  ∃ frame target, (BootTables.space root).query memory address = .ok (some (.leaf frame rights)) ∧
    (BootTables.space root).translate memory address = .ok (some target) ∧
    memory.byteAt target.value = byte

theorem Placed.reads {index : Nat} (placed : Placed root image segment before after)
    (sound : IsSound root after) (below : index < segment.pages)
    (inPage : InPage segment index address) :
    ReadsAs root after.memory address segment.rights
      (segmentByte image segment (index * 4096 + address.value % 4096)) := by
  rcases placed with ⟨backing, ⟨frames, pages⟩, bytes⟩
  have aligned := frames.aligned
  have within := frames.within
  have limit : physicalLimit.value = 0x10000000000000 := rfl
  have number := number_pageAfter within below
  have linkable : ((backing.pageAfter index).page .small).IsLinkable := by
    unfold Page.IsLinkable
    omega
  have leaf := (pages index below).leaf
  rw [← segmentPath, ← leafPath_of_inPage inPage] at leaf
  refine ⟨(backing.pageAfter index).page .small,
    ((backing.pageAfter index).page .small).join (address.offset .small), ?_, ?_, ?_⟩
  · rw [query_eq sound, leaf]
  · rw [translate_eq sound, leaf, Option.map_some, PageEntry.frame_leaf linkable]
  · have target : (((backing.pageAfter index).page .small).join (address.offset .small)).value =
        backing.value + (index * 4096 + address.value % 4096) := by
      simp only [Page.join, Address.offset, PageSize.bytes, number]
      omega
    rw [target]
    exact bytes _ (by omega)

/-! ## From segments to headers -/

theorem exists_inPage (follows : segment.Follows header) (loadable : 0 < header.memorySize)
    (holds : header.PageHolds address) : ∃ index < segment.pages, InPage segment index address := by
  rcases holds with ⟨above, below⟩
  rw [← follows.address] at above below
  rw [← follows.memorySize] at below loadable
  refine ⟨address.value / 4096 - segment.address.value / 4096, ?_, ?_⟩
  · simp only [Executable.Segment.pages, PageSize.pagesFor, Address.offset, PageSize.bytes]
    omega
  · unfold InPage
    omega

/-- The byte that a header asks for at an address of its pages. -/
def headerByte (image : Executable) (header : Executable.ProgramHeader) (address : Nat) : UInt8 :=
  if header.address ≤ address ∧ address < header.address + header.fileSize then
    image.byteAt (header.offset + (address - header.address))
  else
    0

theorem segmentByte_eq (follows : segment.Follows header) {index : Nat}
    (inPage : InPage segment index address) :
    segmentByte image segment (index * 4096 + address.value % 4096) =
      headerByte image header address.value := by
  unfold InPage at inPage
  unfold segmentByte headerByte
  rw [← follows.address, ← follows.fileSize, ← follows.fileOffset]
  have offset : segment.address.offset .small = segment.address.value % 4096 := rfl
  by_cases inFile : segment.address.value ≤ address.value ∧
    address.value < segment.address.value + segment.fileSize
  · rw [if_pos inFile, if_pos (by omega)]
    congr 1
    omega
  · rw [if_neg inFile, if_neg (by omega)]

theorem Placed.readsHeader (placed : Placed root image segment before after)
    (sound : IsSound root after) (follows : segment.Follows header)
    (loadable : 0 < header.memorySize) (holds : header.PageHolds address) :
    ReadsAs root after.memory address ⟨true, header.isWritable, header.isExecutable⟩
      (headerByte image header address.value) := by
  rcases exists_inPage follows loadable holds with ⟨index, below, inPage⟩
  rw [← segmentByte_eq follows inPage, ← follows.rights]
  exact placed.reads sound below inPage

theorem pageHolds_of_covers (covers : header.Covers address) : header.PageHolds address := by
  rcases covers with ⟨above, below⟩
  exact ⟨Nat.div_le_div_right above, Nat.div_le_div_right (by omega)⟩

theorem placesHeader (placed : Placed root image segment before after)
    (soundBefore : IsSound root before) (soundAfter : IsSound root after)
    (valid : segment.IsValid image.size) (follows : segment.Follows header)
    (loadable : 0 < header.memorySize) :
    PlacesHeader root image header before.memory after.memory := by
  have start := follows.address
  have fileSize := follows.fileSize
  have memorySize := follows.memorySize
  have fits := valid.fits
  have room := valid.room
  constructor
  · omega
  · intro position below
    have value : (Address.ofNat (header.address + position) : VirtualAddress).value =
        header.address + position := Nat.mod_eq_of_lt (by omega)
    have covers : header.Covers (.ofNat (header.address + position)) := ⟨by omega, by omega⟩
    rcases placed.readsHeader soundAfter follows loadable (pageHolds_of_covers covers) with
      ⟨_, target, _, translated, byte⟩
    refine ⟨target, translated, byte.trans ?_⟩
    unfold headerByte
    rw [value, Nat.add_sub_cancel_left]
    by_cases inFile : position < header.fileSize
    · rw [if_pos inFile, if_pos (by omega)]
    · rw [if_neg inFile, if_neg (by omega)]
  · intro address holds outside
    rcases placed.readsHeader soundAfter follows loadable holds with
      ⟨_, target, _, translated, byte⟩
    refine ⟨target, translated, byte.trans (if_neg fun inFile => outside ?_)⟩
    exact ⟨inFile.1, by omega⟩
  · intro address holds
    rcases placed.readsHeader soundAfter follows loadable holds with ⟨frame, _, queried, _, _⟩
    exact ⟨_, queried, PageEntry.present_leaf .., PageEntry.writable_leaf ..,
      PageEntry.noExecute_leaf ..⟩
  · intro address other holds same
    rcases exists_inPage follows loadable holds with ⟨index, below, inPage⟩
    rw [query_eq soundBefore, Address.leafPath_eq_iff.2 same, placed.absent below inPage]

/-! ## The image as a whole -/

theorem length_segmentsOf {index count : Nat}
    (decodes : ∀ position, index ≤ position → position < index + count →
      (image.segmentOf? position).isSome = (image.headerAt position).isLoadable) :
    (image.segmentsOf index count).length =
      ((List.range' index count).filter fun position =>
        (image.headerAt position).isLoadable).length := by
  induction count generalizing index with
  | zero => rfl
  | succ count induction =>
      have first := decodes index (Nat.le_refl _) (by omega)
      have rest := induction fun position (above : index + 1 ≤ position) below =>
        decodes position (by omega) (by omega)
      rw [Executable.segmentsOf_succ, List.length_append, rest, List.range'_succ, List.filter_cons,
        ← first]
      cases image.segmentOf? index <;> simp [Nat.add_comm]

theorem pageKey_eq_iff {left right : VirtualAddress} {leftSegment rightSegment : Executable.Segment}
    {leftIndex rightIndex : Nat} (inLeft : InPage leftSegment leftIndex left)
    (inRight : InPage rightSegment rightIndex right) :
    left.pageKey = right.pageKey ↔
      segmentPath leftSegment leftIndex = segmentPath rightSegment rightIndex := by
  rw [← Address.leafPath_eq_iff, leafPath_of_inPage inLeft, leafPath_of_inPage inRight]

theorem memorySize_pos (loadable : header.isLoadable = true) : 0 < header.memorySize := by
  unfold Executable.ProgramHeader.isLoadable at loadable
  simp only [Bool.and_eq_true, bne_iff_ne] at loadable
  omega

theorem placesImage (describes : Describes image kernel)
    (places : Places root image 0 image.tableLength before after)
    (soundBefore : IsSound root before) (soundAfter : IsSound root after) :
    PlacesImage root image kernel before.memory after.memory := by
  have asked : ∀ index < image.tableLength, (image.headerAt index).isLoadable = true →
      ∃ segment, image.segmentOf? index = some segment := by
    intro index below loadable
    rw [← Option.isSome_iff_exists, describes.decodes index below]
    exact loadable
  have member : ∀ segment ∈ image.segmentsOf 0 image.tableLength,
      ∃ index < image.tableLength, image.segmentOf? index = some segment := by
    intro segment isMember
    rcases List.mem_filterMap.1 isMember with ⟨index, inRange, found⟩
    exact ⟨index, by simpa using List.mem_range'.1 inRange, found⟩
  constructor
  · intro index below loadable
    rcases asked index below loadable with ⟨segment, found⟩
    rcases Executable.of_segmentOf? found with ⟨_, valid, follows⟩
    exact placesHeader (places.placed index (Nat.zero_le _) (by omega) segment found) soundBefore
      soundAfter valid follows (memorySize_pos loadable)
  · intro index other further below loadable loadableOther left right inLeft inRight same
    rcases asked index (by omega) loadable with ⟨segment, found⟩
    rcases asked other below loadableOther with ⟨otherSegment, foundOther⟩
    rcases Executable.of_segmentOf? found with ⟨_, _, follows⟩
    rcases Executable.of_segmentOf? foundOther with ⟨_, _, followsOther⟩
    rcases exists_inPage follows (memorySize_pos loadable) inLeft with
      ⟨leftIndex, leftBelow, leftPage⟩
    rcases exists_inPage followsOther (memorySize_pos loadableOther) inRight with
      ⟨rightIndex, rightBelow, rightPage⟩
    have apart := places.apart index other (Nat.zero_le _) further (by omega) segment otherSegment
      found foundOther
    exact apart leftIndex leftBelow rightIndex rightBelow
      ((pageKey_eq_iff leftPage rightPage).1 same)
  · exact describes.entry
  · rcases describes.entryInside with ⟨segment, isMember, executable, contains⟩
    rcases member segment isMember with ⟨index, below, found⟩
    rcases Executable.of_segmentOf? found with ⟨loadable, _, follows⟩
    rw [follows.rights] at executable
    simp only [Executable.Segment.contains, Bool.and_eq_true, decide_eq_true_eq, follows.address,
      follows.memorySize, ← describes.entry] at contains
    exact ⟨index, below, loadable, executable, contains⟩
  · intro index below loadable
    rcases asked index below loadable with ⟨segment, found⟩
    rcases Executable.of_segmentOf? found with ⟨_, _, follows⟩
    rw [← follows.address, ← follows.memorySize]
    refine describes.stop.above segment (List.mem_filterMap.2 ⟨index, ?_, found⟩)
    exact List.mem_range'.2 ⟨index, by simpa using below⟩
  · rcases describes.stop.reached with ⟨segment, isMember, reached⟩
    rcases member segment isMember with ⟨index, below, found⟩
    rcases Executable.of_segmentOf? found with ⟨loadable, _, follows⟩
    rw [follows.address, follows.memorySize] at reached
    exact ⟨index, below, loadable, reached⟩
  · rw [describes.count, length_segmentsOf fun position _ below =>
      describes.decodes position (by omega), List.range_eq_range']

/-- Loading an image that is done has placed it exactly, whatever the loader loaded before. -/
theorem loadImage_places (start before after : Paged (RegionTable capacity sorting)) (root : Frame)
    (built : start.source.Built) (apart : start.source.regions.Pairwise Region.Apart)
    (inside : ∀ region ∈ start.source.regions, region.code = RegionKind.available.code →
      ∀ address, region.Covers address → lowMemoryEnd.value ≤ address →
        start.memory.Contains address)
    (reaches : Reaches start root before) (bytes : ByteArray) (shift : Nat)
    (kernel : KernelImage)
    (ran : (loadImage root (.buffer bytes shift)).run before = (.done kernel, after)) :
    PlacesImage root (ImageSource.view (.buffer bytes shift) before.memory) kernel
      before.memory after.memory := by
  have sound := reaches.isSound (isStart_of_built built apart inside)
  have soundAfter := (Keeps.loadImage _ _ _ _ sound ran).sound
  rcases loadImage_spec (fun _ => rfl) sound ran with ⟨describes, places⟩
  exact placesImage describes places sound soundAfter

/-! ## A small image -/

/-- An executable of one segment: two file bytes in eight bytes of memory, at two mebibytes. -/
def smallBytes : ByteArray :=
  ⟨#[0x7F, 0x45, 0x4C, 0x46, 2, 1, 1, 0, 0, 0, 0, 0, 0, 0, 0, 0,
    2, 0, 62, 0, 1, 0, 0, 0, 0, 0, 0x20, 0, 0, 0, 0, 0,
    64, 0, 0, 0, 0, 0, 0, 0, 0, 0, 0, 0, 0, 0, 0, 0,
    0, 0, 0, 0, 64, 0, 56, 0, 1, 0, 0, 0, 0, 0, 0, 0,
    1, 0, 0, 0, 5, 0, 0, 0, 120, 0, 0, 0, 0, 0, 0, 0,
    0, 0, 0x20, 0, 0, 0, 0, 0, 0, 0, 0x20, 0, 0, 0, 0, 0,
    2, 0, 0, 0, 0, 0, 0, 0, 8, 0, 0, 0, 0, 0, 0, 0,
    0, 0x10, 0, 0, 0, 0, 0, 0, 0xEB, 0xFE]⟩

def smallImage : Executable :=
  ⟨smallBytes.size, true, fun index =>
    if inside : index < smallBytes.size then smallBytes.get index inside else 0⟩

def smallSegment : Executable.Segment :=
  ⟨.ofNat 0x200000, 120, 2, 8, ⟨true, false, true⟩⟩

def smallKernel : KernelImage :=
  ⟨.ofNat 0x200000, .ofNat 0x200008, 1⟩

def smallRoot : Frame :=
  lowMemoryEnd.page .small

/-- Sixteen cleared frames from the first mebibyte on, all of them available. -/
def smallStart : Paged (RegionTable 8) :=
  ⟨⟨Memory.zeroed smallRoot 16, []⟩,
    ⟨[Region.of .available (.ofNat 0x100000) (.ofNat 0x110000)]⟩⟩

theorem built_smallStart : smallStart.source.Built := by
  have ran : (RegionTable.add .available ⟨0x100000, by decide⟩ ⟨0x110000, by decide⟩).run
      RegionTable.empty = (.done (), smallStart.source) := by
    decide +kernel
  exact .added .empty ran

structure IsSingle (image : Executable) (segment : Executable.Segment) : Prop where
  accepted : image.refusal? = none
  one : image.tableLength = 1
  decoded : ∀ (σ : Type) (state : σ), (image.segmentAt 0 : Operation σ Executable.Refusal _).run
    state = (.done (some segment), state)
  valid : segment.IsValid image.size
  entry : (segment.rights.execute && segment.contains image.entry) = true

namespace IsSingle

variable {source : ImageSource} (single : IsSingle image segment)

include single

theorem run_examine (paged : Paged (RegionTable capacity sorting)) : (examine image).run paged =
    (.done ⟨image.entry, highestStop [segment], 1⟩, paged) := by
  have ends : furthestStop ((some segment).toList ++ []) = .ok (highestStop [segment]) :=
    furthestStop_eq_ok fun other member => by
      rw [List.mem_singleton.1 member]
      exact single.valid.room
  simp only [examine, single.accepted, Executable.segments, single.one, Executable.segmentsFrom,
    run_bind, single.decoded, run_pure, ends, run_check_ok]
  simp [single.entry, run_pure]

theorem run_loadImage {created placed : Paged (RegionTable capacity sorting)}
    (viewing : (view source).run created = (.done image, created))
    (placing : (place root source segment).run created = (.done (), placed)) :
    (loadImage root source).run created =
      (.done ⟨image.entry, highestStop [segment], 1⟩, placed) := by
  have placedAll : (placeFrom root source 0 1).run created = (.done (), placed) := by
    rw [placeFrom, run_bind_of_done viewing, run_bind_of_done (single.decoded _ created)]
    exact (run_bind_of_done placing).trans (run_pure ..)
  rw [loadImage, run_reportRefusal, tryLoadImage, run_bind_of_done viewing,
    run_bind_of_done (single.run_examine created), single.one, run_bind_of_done placedAll]
  exact run_bind_of_done (run_report ..)

end IsSingle

set_option maxRecDepth 4000 in
theorem isSingle_smallImage : IsSingle smallImage smallSegment where
  accepted := by decide +kernel
  one := by decide +kernel
  decoded _ _ := rfl
  valid := ⟨by decide, by decide, by decide, by decide⟩
  entry := by decide +kernel

theorem smallKernel_eq : smallKernel = ⟨smallImage.entry, highestStop [smallSegment], 1⟩ := by
  decide +kernel

theorem contains_smallStart : ∀ region ∈ smallStart.source.regions,
    region.code = RegionKind.available.code → ∀ address, region.Covers address →
      lowMemoryEnd.value ≤ address → smallStart.memory.Contains address := by
  intro region member _ address covers _
  rw [List.mem_singleton.1 member] at covers
  have above : 0x100000 ≤ address := covers.1
  have below : address < 0x110000 := covers.2
  constructor
  · change 0x100 * 4096 ≤ address
    omega
  · rw [Memory.sized]
    change address - 0x100 * 4096 < 16 * 4096
    omega

def smallTables : RegionTable 8 :=
  ⟨[Region.of .reserved (.ofNat 0x100000) (.ofNat 0x104000),
    Region.of .available (.ofNat 0x104000) (.ofNat 0x110000)]⟩

theorem exists_created : ∃ created last,
    (BootTables.create .long64).run smallStart = (.done smallRoot, created) ∧
    Identity smallRoot last 512 created ∧ created.source = smallTables := by
  have allocated : (RegionTable.allocateAs 4 .reserved :
      Operation (RegionTable 8) BootTables.Refusal _).run smallStart.source =
      (.done (some ⟨0x100000, by decide⟩), smallTables) := by
    decide
  have isStart := isStart_of_built built_smallStart (by decide) contains_smallStart
  rcases create_spec isStart (by decide) allocated with ⟨created, last, ran, identity, source, _⟩
  exact ⟨created, last, ran, identity, source⟩

def smallBacked : RegionTable 8 :=
  ⟨[Region.of .reserved (.ofNat 0x100000) (.ofNat 0x104000),
    Region.of .allocated (.ofNat 0x104000) (.ofNat 0x105000),
    Region.of .available (.ofNat 0x105000) (.ofNat 0x110000)]⟩

def smallHanded : RegionTable 8 :=
  ⟨[Region.of .reserved (.ofNat 0x100000) (.ofNat 0x104000),
    Region.of .allocated (.ofNat 0x104000) (.ofNat 0x105000),
    Region.of .reserved (.ofNat 0x105000) (.ofNat 0x106000),
    Region.of .available (.ofNat 0x106000) (.ofNat 0x110000)]⟩

theorem yields_of_allocateFrame {frame : Frame} {frames : List Frame}
    {table next rest : RegionTable capacity sorting}
    (given : (RegionTable.allocateFrame : Operation (RegionTable capacity sorting) MapError _).run
      table = (.done (some frame), next))
    (further : AddressSpace.Yields frames next rest) :
    AddressSpace.Yields (frame :: frames) table rest :=
  .cons (fun _ => Paged.run_onSource_of_run given) further

/-- Given the frames for its page and for the tables that its address does not share with the
lowest one, a segment of one page is loaded. -/
theorem exists_run_loadSegment {last : Frame} {frames : List Frame} {level child : Level}
    {below : List Level} {backing : PhysicalAddress}
    {created : Paged (RegionTable capacity sorting)} {backed handed : RegionTable capacity sorting}
    (identity : Identity root last 512 created)
    (onePage : segment.pages = 1) (next : level.below = child :: below)
    (shared : level.path (segment.address.alignDown .small) = level.path lowest)
    (apart : child.path (segment.address.alignDown .small) ≠ child.path lowest)
    (found : (RegionTable.allocateAs segment.pages .allocated :
      Operation (RegionTable capacity sorting) BootTables.Refusal _).run created.source =
        (.done (some backing), backed))
    (yields : AddressSpace.Yields frames backed handed)
    (enough : frames.length = level.below.length) :
    ∃ loaded, (loadSegment root (segment.address.alignDown .small) segment.pages
        segment.rights).run created = (.done backing, loaded) ∧ loaded.source = handed := by
  have allocated : (Paged.onSource (RegionTable.allocateAs segment.pages .allocated) :
      Operation (Paged (RegionTable capacity sorting)) BootTables.Refusal _).run created =
      (.done (some backing), ⟨created.machine, backed⟩) := Paged.run_onSource_of_run found
  rcases evolves_of_allocateAs identity.sound allocated with ⟨evolves, memory, _⟩
  have linked : (tables root).tableAt created.memory (level.path lowest) ≠ none := by
    intro none
    cases (Hierarchy.tableAt_pt_of_none none).symm.trans identity.spine.found
  rcases Option.ne_none_iff_exists'.1 linked with ⟨table, parent⟩
  rw [← shared, ← memory] at parent
  have missing : (tables root).tableAt (Paged.memory ⟨created.machine, backed⟩)
      (child.path (segment.address.alignDown .small)) = none := by
    rw [memory]
    by_contra present
    rcases Option.ne_none_iff_exists'.1 present with ⟨other, isLinked⟩
    have short : (child.path (segment.address.alignDown .small)).length ≤ 3 := child.length_path_le
    rcases identity.spine.only _ other short isLinked with ⟨upper, same⟩
    have depth := congrArg List.length same
    rw [Level.length_path, Level.length_path] at depth
    cases Level.eq_of_depth_eq depth
    exact apart same
  rcases AddressSpace.run_map_of_yields backing segment.rights evolves.sound.ready
    (leads_tables _) next parent missing yields enough with ⟨mapped, ran, source⟩
  have mapping : (BootTables.map root backing (segment.address.alignDown .small)
      segment.rights : Operation (Paged (RegionTable capacity sorting)) BootTables.Refusal Unit).run
      ⟨created.machine, backed⟩ = (.done (), mapped) := by
    rw [BootTables.map, run_mapRefusal, ran]
  refine ⟨mapped, run_loadSegment allocated ?_, source⟩
  rw [onePage]
  exact run_mapSegment_one mapping

theorem exists_loaded {last frame : Frame} {backing : PhysicalAddress}
    {created : Paged (RegionTable capacity sorting)} {backed handed : RegionTable capacity sorting}
    (identity : Identity root last 512 created)
    (found : (RegionTable.allocateAs smallSegment.pages .allocated :
      Operation (RegionTable capacity sorting) BootTables.Refusal _).run created.source =
        (.done (some backing), backed))
    (given : (RegionTable.allocateFrame : Operation (RegionTable capacity sorting) MapError _).run
      backed = (.done (some frame), handed)) :
    ∃ loaded, (loadSegment root (smallSegment.address.alignDown .small)
      smallSegment.pages smallSegment.rights).run created = (.done backing, loaded) := by
  rcases exists_run_loadSegment identity rfl (show Level.pd.below = [.pt] from rfl) (by decide)
    (by decide) found (yields_of_allocateFrame given (.nil _)) rfl with ⟨loaded, ran, _⟩
  exact ⟨loaded, ran⟩

theorem smallImage_is_placed : ∃ created loaded,
    Reaches smallStart smallRoot created ∧
    (loadImage smallRoot (.buffer smallBytes 0)).run created =
      (.done smallKernel, loaded) ∧
    PlacesImage smallRoot smallImage smallKernel created.memory loaded.memory := by
  rcases exists_created with ⟨created, last, creating, identity, source⟩
  have allocated : (RegionTable.allocateAs smallSegment.pages .allocated :
      Operation (RegionTable 8) BootTables.Refusal _).run created.source =
      (.done (some ⟨0x104000, by decide⟩), smallBacked) := by
    rw [source]
    decide
  have given : (RegionTable.allocateFrame : Operation (RegionTable 8) MapError _).run smallBacked =
      (.done (some ⟨0x105, by decide⟩), smallHanded) := by
    decide
  rcases exists_loaded identity allocated given with ⟨backed, loading⟩
  rcases run_place_of_loaded (.buffer smallBytes 0) identity.sound isSingle_smallImage.valid
    (show 0 < smallSegment.pages by decide) loading with ⟨placed, placing, _⟩
  have reaches : Reaches smallStart smallRoot created := .created creating
  have ran : (loadImage smallRoot (.buffer smallBytes 0)).run created =
      (.done smallKernel, placed) := by
    rw [smallKernel_eq]
    exact isSingle_smallImage.run_loadImage rfl placing
  exact ⟨created, placed, reaches, ran, loadImage_places smallStart created placed _
    built_smallStart (by decide) contains_smallStart reaches smallBytes 0 smallKernel ran⟩

end Loader

end EarlyMemory
