import EarlyMemory.Loader.Image
import EarlyMemory.Proofs.Endings

/-!
# What an image asks for

Decoding changes nothing, so each program header of an image that passed the checks stands
for at most one segment, whenever it is read. A segment's file bytes fit its memory and
its memory fits the address space. An image that is accepted has a segment for the entry
point, and its end is the end of the segment that reaches furthest.
-/

namespace EarlyMemory.Executable

open Operation

variable {σ : Type} {image : Executable} {index : Nat} {state after : σ}

def headerAt (image : Executable) (index : Nat) : ProgramHeader :=
  .decode image (image.tableOffset + index * image.tableEntryBytes) .bits64

def segmentOf? (image : Executable) (index : Nat) : Option Segment :=
  if (image.headerAt index).isLoadable then
    Segment.ofHeader? (image.headerAt index) image.size
  else
    none

def segmentsOf (image : Executable) (index count : Nat) : List Segment :=
  (List.range' index count).filterMap image.segmentOf?

theorem segmentsOf_succ (image : Executable) (index count : Nat) :
    image.segmentsOf index (count + 1) =
      (image.segmentOf? index).toList ++ image.segmentsOf (index + 1) count := by
  rw [segmentsOf, List.range'_succ, List.filterMap_cons]
  cases image.segmentOf? index <;> rfl

theorem wordClass_of_accepted (accepted : image.refusal? = none) :
    image.wordClass? = some .bits64 := by
  unfold refusal? at accepted
  split at accepted
  · cases accepted
  split at accepted
  · cases accepted
  split at accepted
  · cases accepted
  cases found : image.wordClass? with
  | none =>
      rw [found] at accepted
      cases accepted
  | some wordClass =>
      rw [found] at accepted
      simp only at accepted
      split at accepted
      · cases accepted
      split at accepted
      · cases accepted
      next supported =>
        simp only [isSupported, found, Bool.not_eq_true', Bool.not_eq_false, Bool.and_eq_true,
          beq_iff_eq] at supported
        exact supported.1.1.1

theorem of_run_programHeader {header : ProgramHeader} (accepted : image.refusal? = none)
    (ran : (image.programHeader index).run state = (.done header, after)) :
    header = image.headerAt index ∧ after = state := by
  simp only [programHeader, wordClass_of_accepted accepted] at ran
  split at ran
  next =>
    rcases of_run_bind ran with ⟨start, _, added, decoding⟩
    rcases of_run_check added with ⟨startSum, rfl⟩
    rcases of_run_bind decoding with ⟨stop, _, added, decoding⟩
    rcases of_run_check added with ⟨stopSum, rfl⟩
    unfold Word.add at startSum
    split at startSum
    · cases startSum
      split at decoding
      · cases decoding
        exact ⟨rfl, rfl⟩
      · cases decoding
    · cases startSum
  next => cases ran

theorem of_run_segmentAt {found : Option Segment} (accepted : image.refusal? = none)
    (ran : (image.segmentAt index).run state = (.done found, after)) :
    found = image.segmentOf? index ∧ after = state ∧
      found.isSome = (image.headerAt index).isLoadable := by
  unfold segmentAt at ran
  rcases of_run_bind ran with ⟨header, _, decoded, checking⟩
  rcases of_run_programHeader accepted decoded with ⟨rfl, rfl⟩
  unfold segmentOf?
  split at checking
  next loadable =>
    rw [if_pos loadable]
    cases fits : Segment.ofHeader? (image.headerAt index) image.size with
    | none =>
        rw [fits] at checking
        cases checking
    | some segment =>
        rw [fits] at checking
        cases checking
        exact ⟨rfl, rfl, loadable.symm⟩
  next skipped =>
    cases checking
    rw [if_neg skipped]
    exact ⟨rfl, rfl, by simpa using skipped⟩

/-- All segments are decoded before any of them is placed. -/
theorem of_run_segmentsFrom {count : Nat} {segments : List Segment}
    (accepted : image.refusal? = none)
    (ran : (image.segmentsFrom index count).run state = (.done segments, after)) :
    segments = image.segmentsOf index count ∧ after = state ∧
      ∀ position, index ≤ position → position < index + count →
        (image.segmentOf? position).isSome = (image.headerAt position).isLoadable := by
  induction count generalizing index segments state with
  | zero =>
      cases ran
      exact ⟨rfl, rfl, fun position above below => by omega⟩
  | succ count induction =>
      rw [segmentsFrom] at ran
      rcases of_run_bind ran with ⟨first, _, ranFirst, continued⟩
      rcases of_run_segmentAt accepted ranFirst with ⟨isFirst, rfl, loadable⟩
      rcases of_run_bind continued with ⟨rest, _, ranRest, collected⟩
      cases collected
      rcases induction ranRest with ⟨rfl, rfl, further⟩
      rw [segmentsOf_succ, isFirst]
      refine ⟨rfl, rfl, fun position above below => ?_⟩
      by_cases here : position = index
      · subst here
        rwa [isFirst] at loadable
      · exact further position (by omega) (by omega)

/-! ## Segments -/

namespace Segment

/-- What the checks on a header guarantee. -/
structure IsValid (segment : Segment) (imageSize : Nat) : Prop where
  file : segment.fileOffset + segment.fileSize ≤ imageSize
  word : segment.fileOffset + segment.fileSize < 1 <<< 64
  fits : segment.fileSize ≤ segment.memorySize
  room : segment.address.value + segment.memorySize < 1 <<< 64

structure Follows (segment : Segment) (header : ProgramHeader) : Prop where
  address : segment.address.value = header.address
  fileOffset : segment.fileOffset = header.offset
  fileSize : segment.fileSize = header.fileSize
  memorySize : segment.memorySize = header.memorySize
  rights : segment.rights = ⟨true, header.isWritable, header.isExecutable⟩

theorem of_ofHeader? {header : ProgramHeader} {imageSize : Nat} {segment : Segment}
    (decoded : ofHeader? header imageSize = some segment) :
    segment.IsValid imageSize ∧ segment.Follows header := by
  unfold ofHeader? at decoded
  split at decoded
  next checks =>
    rcases checks with ⟨file, word, fits, room⟩
    have value : (Address.ofNat header.address : VirtualAddress).value = header.address :=
      Nat.mod_eq_of_lt (by omega)
    cases decoded
    exact ⟨⟨file, word, fits, by rw [value]; exact room⟩, value, rfl, rfl, rfl, rfl⟩
  next => cases decoded

theorem offset_add_le (segment : Segment) :
    segment.address.offset .small + segment.memorySize ≤ segment.pages * 4096 := by
  simp only [pages, PageSize.pagesFor, PageSize.bytes]
  omega

theorem pageCount_eq_ok {segment : Segment}
    (room : segment.address.value + segment.memorySize < 1 <<< 64) :
    segment.pageCount = .ok segment.pages := by
  have offset : segment.address.offset .small ≤ segment.address.value := Nat.mod_le ..
  have fits : Word.add (segment.address.offset .small) segment.memorySize =
      .ok (segment.address.offset .small + segment.memorySize) := if_pos (by omega)
  rw [pageCount, fits]
  rfl

theorem requireInside_eq_ok {segment : Segment} (fits : segment.fileSize ≤ segment.memorySize) :
    segment.requireInside (segment.pages * 4096) = .ok () := by
  have inside := segment.offset_add_le
  exact if_pos (by omega)

end Segment

theorem eq_load_of_slice {offset count : Nat} {content : List UInt8}
    (taken : image.slice offset count = .ok content) : content = image.load offset count := by
  unfold slice Word.add at taken
  split at taken
  · simp only [bind, Except.bind] at taken
    split at taken
    · exact (Except.ok.inj taken).symm
    · cases taken
  · cases taken

theorem slice_eq_ok {offset count : Nat} (word : offset + count < 1 <<< 64)
    (inside : offset + count ≤ image.size) :
    image.slice offset count = .ok (image.load offset count) := by
  have fits : Word.add offset count = .ok (offset + count) := if_pos word
  rw [slice, fits]
  exact if_pos inside

/-- Whatever an image holds, a segment that is read from it went through the checks. -/
theorem isValid_of_run_segmentAt {segment : Segment}
    (ran : (image.segmentAt index).run state = (.done (some segment), after)) :
    segment.IsValid image.size := by
  unfold segmentAt at ran
  rcases of_run_bind ran with ⟨header, _, decoded, checking⟩
  split at checking
  next =>
    cases fits : Segment.ofHeader? header image.size with
    | none =>
        rw [fits] at checking
        cases checking
    | some found =>
        rw [fits] at checking
        cases checking
        exact (Segment.of_ofHeader? fits).1
  next => cases checking

theorem of_segmentOf? {segment : Segment} (asked : image.segmentOf? index = some segment) :
    (image.headerAt index).isLoadable = true ∧ segment.IsValid image.size ∧
      segment.Follows (image.headerAt index) := by
  unfold segmentOf? at asked
  split at asked
  next loadable => exact ⟨loadable, Segment.of_ofHeader? asked⟩
  next => cases asked

theorem isValid_of_mem_segmentsOf {count : Nat} {segment : Segment}
    (member : segment ∈ image.segmentsOf index count) : segment.IsValid image.size := by
  rcases List.mem_filterMap.1 member with ⟨position, _, asked⟩
  exact (of_segmentOf? asked).2.1

end EarlyMemory.Executable

namespace EarlyMemory.Loader

open Operation

variable {capacity : Nat} {sorting : Region.Sorting} {image : Executable}

/-- Whether a segment of a list reaches an address, and none reaches further. -/
structure IsHighestStop (segments : List Executable.Segment) (stop : VirtualAddress) : Prop where
  above : ∀ segment ∈ segments, segment.address.value + segment.memorySize ≤ stop.value
  reached : ∃ segment ∈ segments, segment.address.value + segment.memorySize = stop.value

def highestStop : List Executable.Segment → VirtualAddress
  | [] => ⟨0, by decide⟩
  | segment :: rest =>
      let below := highestStop rest
      .ofNat (max (segment.address.value + segment.memorySize) below.value)

section

variable {first : Executable.Segment} {rest segments : List Executable.Segment}

theorem value_highestStop (room : first.address.value + first.memorySize < 1 <<< 64) :
    (highestStop (first :: rest)).value =
      max (first.address.value + first.memorySize) (highestStop rest).value := by
  have below := (highestStop rest).isLt
  change max _ _ % _ = _
  exact Nat.mod_eq_of_lt (by omega)

theorem furthestStop_eq_ok
    (room : ∀ segment ∈ segments, segment.address.value + segment.memorySize < 1 <<< 64) :
    furthestStop segments = .ok (highestStop segments) := by
  induction segments with
  | nil => rfl
  | cons first rest induction =>
      rw [List.forall_mem_cons] at room
      have ends : first.stop = .ok ⟨first.address.value + first.memorySize, room.1⟩ :=
        dif_pos room.1
      rw [furthestStop, ends, induction room.2]
      refine congrArg Except.ok (Address.ext ?_)
      rw [value_highestStop room.1]
      split
      next further => exact (Nat.max_eq_left further).symm
      next further => exact (Nat.max_eq_right (Nat.le_of_not_le further)).symm

theorem isHighestStop (nonempty : segments ≠ [])
    (room : ∀ segment ∈ segments, segment.address.value + segment.memorySize < 1 <<< 64) :
    IsHighestStop segments (highestStop segments) := by
  induction segments with
  | nil => exact absurd rfl nonempty
  | cons first rest induction =>
      have value := @value_highestStop first rest (room first List.mem_cons_self)
      by_cases last : rest = []
      · subst last
        have zero : (highestStop []).value = 0 := rfl
        rw [zero] at value
        constructor
        · intro segment member
          rw [List.mem_singleton.1 member, value]
          omega
        · exact ⟨first, List.mem_cons_self, by omega⟩
      · rcases induction last fun segment member => room segment (List.mem_cons_of_mem _ member)
            with ⟨above, segment, member, reached⟩
        constructor
        · intro other otherMember
          rcases List.mem_cons.1 otherMember with rfl | isRest
          · omega
          · have := above other isRest
            omega
        · by_cases further : first.address.value + first.memorySize ≤ (highestStop rest).value
          · exact ⟨segment, List.mem_cons_of_mem _ member, by omega⟩
          · exact ⟨first, List.mem_cons_self, by omega⟩

end

/-- What an image that is accepted is described as. -/
structure Describes (image : Executable) (kernel : KernelImage) : Prop where
  accepted : image.refusal? = none
  decodes : ∀ index < image.tableLength,
    (image.segmentOf? index).isSome = (image.headerAt index).isLoadable
  entry : kernel.entry = image.entry
  entryInside : ∃ segment ∈ image.segmentsOf 0 image.tableLength,
    segment.rights.execute = true ∧ segment.contains image.entry = true
  stop : IsHighestStop (image.segmentsOf 0 image.tableLength) kernel.stop
  count : kernel.segments = (image.segmentsOf 0 image.tableLength).length

theorem of_run_examine {paged after : Paged (RegionTable capacity sorting)} {kernel : KernelImage}
    (ran : (examine image).run paged = (.done kernel, after)) :
    Describes image kernel ∧ after = paged := by
  unfold examine at ran
  cases accepted : image.refusal? with
  | some cause =>
      rw [accepted] at ran
      cases ran
  | none =>
      rw [accepted] at ran
      rcases of_run_bind ran with ⟨segments, _, decoded, checking⟩
      rcases Executable.of_run_segmentsFrom accepted decoded with ⟨rfl, rfl, decodes⟩
      have room : ∀ segment ∈ image.segmentsOf 0 image.tableLength,
          segment.address.value + segment.memorySize < 1 <<< 64 :=
        fun segment member => (Executable.isValid_of_mem_segmentsOf member).room
      rw [furthestStop_eq_ok room, run_bind_of_done (run_check_ok ..)] at checking
      split at checking
      · cases checking
      next nonempty =>
        split at checking
        · cases checking
        next inside =>
          rcases of_run_pure checking with ⟨rfl, rfl⟩
          have someEntry : ∃ segment ∈ image.segmentsOf 0 image.tableLength,
              segment.rights.execute = true ∧ segment.contains image.entry = true := by
            simpa using inside
          exact ⟨⟨accepted, fun index below => decodes index (Nat.zero_le _) (by omega), rfl,
            someEntry, isHighestStop (by simpa using nonempty) room, rfl⟩, rfl⟩

end EarlyMemory.Loader
