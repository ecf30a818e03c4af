import EarlyMemory.Proofs.Loader.Backing
import EarlyMemory.Proofs.Loader.Headers

/-!
# Placing an image

A segment that was placed has its file bytes at their place in its pages and zeros all
around them. Since its pages are settled from then on, whatever is placed later leaves
them as they are.
-/

namespace EarlyMemory.Loader

open Operation
open Memory (AgreesOutside)

variable {capacity : Nat} {sorting : Region.Sorting} {root : Frame}
  {before middle after : Paged (RegionTable capacity sorting)} {image : Executable}
  {segment : Executable.Segment} {backing : PhysicalAddress}

theorem grows_of_settled {touched : Frame → Prop} {memory : Memory} (sound : IsSound root middle)
    (agrees : AgreesOutside touched middle.memory memory)
    (settled : ∀ frame, touched frame → Settled root middle frame) :
    (tables root).Grows (fun _ => False) middle.memory memory :=
  Hierarchy.grows_of_agrees sound.tree agrees
    fun frame isTable isTouched => (settled frame isTouched).1 isTable

theorem Loads.write {memory : Memory} {history : List VirtualAddress} {touched : Frame → Prop}
    (loads : Loads root before middle)
    (agrees : AgreesOutside touched middle.memory memory)
    (settled : ∀ frame, touched frame →
      before.source.OffersFrame frame ∧ Settled root middle frame) :
    Loads root before ⟨⟨memory, history⟩, middle.source⟩ := by
  have grows := grows_of_settled loads.sound agrees fun frame isTouched =>
    (settled frame isTouched).2
  have unchanged : ∀ frame, (tables root).IsTable memory frame →
      (tables root).IsTable middle.memory frame :=
    fun frame isTable => (grows.tables frame isTable).resolve_right id
  refine ⟨⟨⟨?_, grows.tree, loads.sound.table, ?_, ?_⟩, ?_, ?_, ?_, loads.table⟩, ?_, ?_⟩
  · exact agrees.isAddressable_iff.2 loads.sound.addressable
  · exact fun frame offered => (agrees.hasFrame_iff frame).2 (loads.sound.inside frame offered)
  · exact fun frame isTable => loads.sound.reserved frame (unchanged frame isTable)
  · exact loads.widened.trans (grows.toExtends.mono fun _ impossible => impossible.elim)
  · intro path leaf long found
    exact (grows.leaves path long (owns_tables path)).trans (loads.leaves path leaf long found)
  · exact loads.agrees.trans (agrees.mono fun frame isTouched => .inr (settled frame isTouched).1)
  · intro path leaf long found
    have same := grows.leaves path long (owns_tables path)
    exact loads.targets path leaf long (same.symm.trans found)
  · intro path other leaf otherLeaf long otherLong found otherFound
    have same := grows.leaves path long (owns_tables path)
    have otherSame := grows.leaves other otherLong (owns_tables other)
    exact loads.single path other leaf otherLeaf long otherLong (same.symm.trans found)
      (otherSame.symm.trans otherFound)

theorem Settled.write {memory : Memory} {history : List VirtualAddress} {frame : Frame}
    (settled : Settled root middle frame)
    (grows : (tables root).Grows (fun _ => False) middle.memory memory) :
    Settled root ⟨⟨memory, history⟩, middle.source⟩ frame :=
  ⟨fun isTable => settled.1 ((grows.tables frame isTable).resolve_right id), settled.2⟩

/-! ## One segment -/

/-- The byte that belongs at a position in the pages of a segment. -/
def segmentByte (image : Executable) (segment : Executable.Segment) (position : Nat) : UInt8 :=
  if segment.address.offset .small ≤ position ∧
      position < segment.address.offset .small + segment.fileSize then
    image.byteAt (segment.fileOffset + (position - segment.address.offset .small))
  else
    0

def HoldsBytes (image : Executable) (segment : Executable.Segment) (backing : PhysicalAddress)
    (memory : Memory) : Prop :=
  ∀ position < segment.pages * 4096,
    memory.byteAt (backing.value + position) = segmentByte image segment position

/-- The memory once a segment was cleared and its file bytes were copied. -/
def placedMemory (image : Executable) (segment : Executable.Segment) (backing : PhysicalAddress)
    (memory : Memory) : Memory :=
  (memory.fill backing.value (segment.pages * 4096) 0).store
    (backing.value + segment.address.offset .small)
    (image.load segment.fileOffset segment.fileSize)

theorem Backing.contains {pages position : Nat} (backed : Backing root backing pages before after)
    (sound : IsSound root before) (within : position < pages * 4096) :
    before.memory.Contains (backing.value + position) := by
  have aligned := backed.aligned
  have limit : physicalLimit.value = 0x10000000000000 := rfl
  have bound := backed.within
  rcases Page.exists_within aligned
    (show (backing.value + pages * 4096) % 4096 = 0 by omega) (by omega)
    (show backing.value ≤ backing.value + position by omega) (by omega) with ⟨frame, inside, holds⟩
  have hasFrame := sound.inside frame (backed.offered frame inside).1
  have contains := hasFrame.contains
    (Nat.mod_lt (backing.value + position) (show 0 < 4096 by decide))
  unfold Page.Holds at holds
  rwa [← holds, Nat.mul_comm, Nat.div_add_mod] at contains

theorem holdsBytes_placedMemory {memory : Memory}
    (contains : ∀ position < segment.pages * 4096, memory.Contains (backing.value + position)) :
    HoldsBytes image segment backing (placedMemory image segment backing memory) := by
  intro position within
  have inside := segment.offset_add_le
  have filled : (memory.fill backing.value (segment.pages * 4096) 0).Contains
      (backing.value + position) := by
    rw [Memory.fill, Memory.contains_store]
    exact contains position within
  unfold segmentByte placedMemory
  have length : (image.load segment.fileOffset segment.fileSize).length = segment.fileSize := by
    simp [Executable.load]
  split
  next copied =>
    have place : backing.value + position = backing.value + segment.address.offset .small +
        (position - segment.address.offset .small) := by omega
    rw [place] at filled ⊢
    rw [Memory.byteAt_store_same _ _ _ _ (by omega) filled]
    simp [Executable.load]
  next outside =>
    rw [Memory.byteAt_store_other _ _ _ _ (by omega)]
    exact Memory.byteAt_fill_same _ _ _ _ within (contains position within)

theorem agreesOutside_placedMemory {pagesEnd : Nat} {memory : Memory}
    (fits : segment.fileSize ≤ segment.memorySize) (aligned : backing.value % 4096 = 0)
    (isEnd : pagesEnd = backing.value + segment.pages * 4096)
    (within : pagesEnd ≤ physicalLimit.value) :
    AgreesOutside (Page.Within · backing.value pagesEnd) memory
      (placedMemory image segment backing memory) := by
  have inside := segment.offset_add_le
  have limit : physicalLimit.value = 0x10000000000000 := rfl
  have length : (image.load segment.fileOffset segment.fileSize).length = segment.fileSize := by
    simp [Executable.load]
  have whole : pagesEnd % 4096 = 0 := by omega
  have low : pagesEnd ≤ 1 <<< 64 := by omega
  have filled := Memory.agreesOutside_store_within memory backing.value
    (List.replicate (segment.pages * 4096) 0) aligned whole low (Nat.le_refl _)
    (by rw [List.length_replicate]; omega)
  refine filled.trans (Memory.agreesOutside_store_within _ _ _ aligned whole low (by omega) ?_)
  omega

def Placed (root : Frame) (image : Executable) (segment : Executable.Segment)
    (before after : Paged (RegionTable capacity sorting)) : Prop :=
  ∃ backing, Backs root backing (segment.address.alignDown .small) segment.pages segment.rights
      before after ∧
    HoldsBytes image segment backing after.memory

theorem Settled.byteAt_within {first last position : Nat}
    (settled : ∀ frame : Frame, frame.Within first last → Settled root middle frame)
    (aligned : first % 4096 = 0) (whole : last % 4096 = 0) (low : last ≤ 1 <<< 64)
    (evolves : Evolves root middle after) (below : first + position < last) :
    after.memory.byteAt (first + position) = middle.memory.byteAt (first + position) := by
  rcases Page.exists_within aligned whole low
    (show first ≤ first + position by omega) below with ⟨frame, within, holds⟩
  have same := (settled frame within).byteAt_eq evolves
    (Nat.mod_lt (first + position) (show 0 < 4096 by decide))
  unfold Page.Holds at holds
  rwa [← holds, Nat.mul_comm, Nat.div_add_mod] at same

theorem Placed.evolves (placed : Placed root image segment before middle)
    (evolves : Evolves root middle after) : Placed root image segment before after := by
  rcases placed with ⟨backing, ⟨frames, pages⟩, bytes⟩
  have limit : physicalLimit.value = 0x10000000000000 := rfl
  have aligned := frames.aligned
  have bound := frames.within
  refine ⟨backing, ⟨frames.evolves evolves, fun index below => ?_⟩, fun position below => ?_⟩
  · have page := pages index below
    exact ⟨page.room, page.absent, evolves.leaves _ _ (Address.length_leafPath _) page.leaf⟩
  · rw [← bytes position below]
    exact Settled.byteAt_within (fun frame within => (frames.offered frame within).2) aligned
      (by omega) (by omega) evolves (Nat.add_lt_add_left below _)

theorem overwrite_eq_ok {memory filled : Memory} {address : PhysicalAddress} {count : Nat}
    {byte : UInt8} (written : memory.overwrite address count byte = .ok filled) :
    filled = memory.fill address.value count byte := by
  unfold Memory.overwrite at written
  cases required : memory.requireRange address count with
  | error cause =>
      rw [required] at written
      cases written
  | ok _ =>
      rw [required] at written
      exact (Except.ok.inj written).symm

theorem placed_of_backs (image : Executable) (history : List VirtualAddress)
    (fits : segment.fileSize ≤ segment.memorySize) (sound : IsSound root before)
    (loads : Loads root before middle)
    (backs : Backs root backing (segment.address.alignDown .small) segment.pages segment.rights
      before middle) :
    Loads root before
        ⟨⟨placedMemory image segment backing middle.memory, history⟩, middle.source⟩ ∧
      Placed root image segment before
        ⟨⟨placedMemory image segment backing middle.memory, history⟩, middle.source⟩ := by
  have frames := backs.frames
  have agrees : AgreesOutside
      (Page.Within · backing.value (backing.value + segment.pages * 4096)) middle.memory
      (placedMemory image segment backing middle.memory) :=
    agreesOutside_placedMemory fits frames.aligned rfl frames.within
  have grows := grows_of_settled loads.sound agrees fun frame within =>
    (frames.offered frame within).2
  refine ⟨loads.write agrees frames.offered, backing, ⟨⟨frames.aligned, frames.within, ?_,
    frames.allocated⟩, fun index below => ?_⟩, ?_⟩
  · intro frame within
    rcases frames.offered frame within with ⟨offered, settled⟩
    exact ⟨offered, settled.write grows⟩
  · have page := backs.pages index below
    refine ⟨page.room, page.absent, ?_⟩
    exact (grows.leaves _ (Address.length_leafPath _) (owns_tables _)).trans page.leaf
  · apply holdsBytes_placedMemory
    intro position below
    exact (loads.agrees.contains_iff _).2 (frames.contains sound below)

theorem Backing.overwrite {pages : Nat} (backed : Backing root backing pages before middle)
    (sound : IsSound root before) (evolves : Evolves root before middle) (positive : 0 < pages) :
    ∃ filled, middle.memory.overwrite backing (pages * 4096) 0 = .ok filled := by
  have bound := backed.within
  have limit : physicalLimit.value = 0x10000000000000 := rfl
  have contains : ∀ position < pages * 4096,
      middle.memory.Contains (backing.value + position) := fun position below =>
    (evolves.agrees.contains_iff _).2 (backed.contains sound below)
  have inside := fun (address : PhysicalAddress)
      (isInside : middle.memory.Contains address.value) =>
    Memory.requireInside_eq_ok evolves.sound.addressable isInside
  have last : backing.value + (pages * 4096 - 1) < 1 <<< 64 := by omega
  have required : middle.memory.requireRange backing (pages * 4096) = .ok () := by
    rw [Memory.requireRange, if_pos (by omega), Address.add_eq_ok last]
    simp only [bind, Except.bind]
    rw [inside ⟨_, last⟩ (contains _ (by omega)), inside backing (contains 0 (by omega))]
  refine ⟨middle.memory.fill backing.value (pages * 4096) 0, ?_⟩
  rw [Memory.overwrite, required]
  rfl

/-- Whatever the memory holds by then, the file bytes of a segment are in the image. -/
theorem slice_view {source : ImageSource} (valid : segment.IsValid source.size) (memory : Memory) :
    (source.view memory).slice segment.fileOffset segment.fileSize =
      .ok ((source.view memory).load segment.fileOffset segment.fileSize) :=
  Executable.slice_eq_ok valid.word (by rw [ImageSource.size_view]; exact valid.file)

theorem Backing.multiply_pages {pages : Nat} (backed : Backing root backing pages before after) :
    Word.multiply pages PageSize.small.bytes = .ok (pages * 4096) := by
  have bound := backed.within
  have limit : physicalLimit.value = 0x10000000000000 := rfl
  exact if_pos (show pages * 4096 < 1 <<< 64 by omega)

theorem run_place_of_loaded (source : ImageSource) (sound : IsSound root before)
    (valid : segment.IsValid source.size) (positive : 0 < segment.pages)
    (loaded : (loadSegment root (segment.address.alignDown .small) segment.pages
      segment.rights).run before = (.done backing, middle)) :
    ∃ after, (place root source segment).run before = (.done (), after) ∧
      after.source = middle.source := by
  rcases loadSegment_spec sound loaded with ⟨loads, backs⟩
  have frames := (backs backing rfl).frames
  rcases frames.overwrite sound loads.toEvolves positive with ⟨filled, written⟩
  rw [place, Executable.Segment.pageCount_eq_ok valid.room, run_bind_of_done (run_check_ok ..),
    run_bind, run_mapRefusal, loaded]
  simp only [frames.multiply_pages, run_bind, run_check_ok, Paged.run_alter, view,
    Paged.run_inspect, written, Executable.Segment.requireInside_eq_ok valid.fits,
    slice_view valid, Paged.run_changeMemory, run_report]
  exact ⟨_, rfl, rfl⟩

theorem place_spec {source : ImageSource} {outcome : Outcome Executable.Refusal Unit}
    (valid : segment.IsValid source.size) (sound : IsSound root before)
    (ran : (place root source segment).run before = (outcome, after)) :
    Loads root before after ∧ (outcome = .done () →
      ∃ memory, Placed root (source.view memory) segment before after) := by
  rw [place, Executable.Segment.pageCount_eq_ok valid.room, run_bind_of_done (run_check_ok ..),
    run_bind, run_mapRefusal] at ran
  rcases loaded : (loadSegment root (segment.address.alignDown .small) segment.pages
    segment.rights).run before with ⟨backing | cause | cause, middle⟩
  · rcases loadSegment_spec sound loaded with ⟨loads, backs⟩
    have backed := backs backing rfl
    rw [loaded] at ran
    simp only [backed.frames.multiply_pages, run_bind, run_check_ok, Paged.run_alter, view,
      Paged.run_inspect, Executable.Segment.requireInside_eq_ok valid.fits, slice_view valid] at ran
    cases written : middle.memory.overwrite backing (segment.pages * 4096) 0 with
    | error cause =>
        rw [written] at ran
        cases ran
        exact ⟨loads, by simp⟩
    | ok filled =>
        rw [written] at ran
        simp only [Paged.run_changeMemory, run_report, overwrite_eq_ok written] at ran
        rcases Prod.mk.inj ran with ⟨rfl, rfl⟩
        rcases placed_of_backs (source.view (middle.memory.fill
          backing.value (segment.pages * 4096) 0)) middle.machine.history valid.fits sound loads
            backed with ⟨written, placed⟩
        exact ⟨written, fun _ => ⟨_, placed⟩⟩
  · rw [loaded] at ran
    cases ran
    exact ⟨(loadSegment_spec sound loaded).1, by simp⟩
  · rw [loaded] at ran
    cases ran
    exact ⟨(loadSegment_spec sound loaded).1, by simp⟩

end EarlyMemory.Loader
