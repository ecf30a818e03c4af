import EarlyMemory.Proofs.Loader.Headers
import EarlyMemory.Proofs.Maintenance
import EarlyMemory.Proofs.Region.Requests

/-!
# Which images are accepted

An image is checked against a list of demands before its first page is taken, and it is
rejected for the first one it does not meet. The demands are stated on its bytes: on its
header, on each program header in turn, and on all of them together. Whatever meets them
is decoded a second time when it is placed, and the bytes being the same, nothing new is
found wrong with it.
-/

namespace EarlyMemory.Executable

open Operation

variable {σ : Type} {image : Executable}

/-! ## Checks in a row -/

/-- A demand on an image, and what an image is rejected for that does not meet it. -/
structure Check where
  passes : Bool
  refusal : Refusal

/-- What the first check in a row that fails rejects for. -/
def firstFailure? (checks : List Check) : Option Refusal :=
  (checks.find? fun check => !check.passes).map Check.refusal

section

variable {check : Check} {checks left right : List Check} {cause : Refusal}

@[simp] theorem firstFailure?_nil : firstFailure? [] = none :=
  rfl

theorem firstFailure?_cons_of_passes (passes : check.passes = true) :
    firstFailure? (check :: checks) = firstFailure? checks := by
  simp [firstFailure?, passes]

theorem firstFailure?_cons_of_fails (fails : check.passes = false) :
    firstFailure? (check :: checks) = some check.refusal := by
  simp [firstFailure?, fails]

theorem firstFailure?_cons : firstFailure? (check :: checks) =
    if check.passes then firstFailure? checks else some check.refusal := by
  cases passes : check.passes
  · exact firstFailure?_cons_of_fails passes
  · exact firstFailure?_cons_of_passes passes

theorem firstFailure?_append :
    firstFailure? (left ++ right) = (firstFailure? left).or (firstFailure? right) := by
  induction left with
  | nil => rfl
  | cons check rest induction =>
      rw [List.cons_append, firstFailure?_cons, firstFailure?_cons, induction]
      split <;> rfl

theorem firstFailure?_eq_none :
    firstFailure? checks = none ↔ ∀ check ∈ checks, check.passes = true := by
  simp [firstFailure?]

end

/-! ## What is demanded of an image -/

/-- Whether the file bytes lie in an image of a size and the memory in the address space. -/
def ProgramHeader.Fits (header : ProgramHeader) (imageSize : Nat) : Prop :=
  header.offset + header.fileSize ≤ imageSize ∧ header.offset + header.fileSize < 1 <<< 64 ∧
    header.fileSize ≤ header.memorySize ∧ header.address + header.memorySize < 1 <<< 64

instance (header : ProgramHeader) (imageSize : Nat) : Decidable (header.Fits imageSize) :=
  inferInstanceAs (Decidable (_ ∧ _))

/-- Whether the header asks for memory that can be executed and holds an address. -/
def ProgramHeader.Enters (header : ProgramHeader) (address : Nat) : Prop :=
  header.isLoadable = true ∧ header.isExecutable = true ∧
    header.address ≤ address ∧ address < header.address + header.memorySize

instance (header : ProgramHeader) (address : Nat) : Decidable (header.Enters address) :=
  inferInstanceAs (Decidable (_ ∧ _))

def headers (image : Executable) : List ProgramHeader :=
  (List.range image.tableLength).map image.headerAt

def tableStop (image : Executable) : Nat :=
  image.number 32 8 + 56 * image.number 56 2

/-- The images that a loader takes. -/
structure IsAcceptable (image : Executable) : Prop where
  aligned : image.aligned = true
  size : 64 ≤ image.size
  magic : image.load 0 4 = [0x7F, 0x45, 0x4C, 0x46]
  wordClass : image.number 4 1 = 2
  littleEndian : image.number 5 1 = 1
  machine : image.number 18 2 = 62
  linked : image.number 16 2 = 2
  entryBytes : image.number 54 2 = 56
  tableAligned : image.number 32 8 % 8 = 0
  tableInside : image.tableStop ≤ image.size ∧ image.tableStop < 1 <<< 64
  tablePlaced : image.number 56 2 ≠ 0 → image.number 32 8 ≠ 0
  fits : ∀ header ∈ image.headers, header.isLoadable = true → header.Fits image.size
  loads : ∃ header ∈ image.headers, header.isLoadable = true
  entry : ∃ header ∈ image.headers, header.Enters (image.number 24 8)

def formatChecks (image : Executable) : List Check :=
  [⟨image.aligned, .misaligned⟩,
    ⟨16 ≤ image.size, .invalid .shortIdentification⟩,
    ⟨image.load 0 4 == magic, .invalid .noMagic⟩,
    ⟨image.number 4 1 == 1 || image.number 4 1 == 2, .invalid .invalidClass⟩,
    ⟨(if image.number 4 1 = 1 then 52 else 64) ≤ image.size, .invalid .shortHeader⟩,
    ⟨image.number 4 1 == 2 && image.number 5 1 == 1 && image.number 18 2 == 62 &&
      image.number 16 2 == 2, .unsupportedFormat⟩,
    ⟨image.number 54 2 == 56 && image.number 32 8 % 8 == 0 &&
      (image.tableStop ≤ image.size ∧ image.tableStop < 1 <<< 64), .invalid .tableOutOfBounds⟩]

def headerChecks (image : Executable) (header : ProgramHeader) : List Check :=
  [⟨image.number 32 8 != 0, .invalid .noProgramHeaders⟩,
    ⟨!header.isLoadable || header.Fits image.size,
      .segmentOutOfBounds (.ofNat header.address)⟩]

def segmentChecks (image : Executable) : List Check :=
  [⟨image.headers.any ProgramHeader.isLoadable, .noSegments⟩,
    ⟨image.headers.any fun header => header.Enters (image.number 24 8),
      .entryOutsideImage image.entry⟩]

/-- All checks, in the order they are made. -/
def checks (image : Executable) : List Check :=
  image.formatChecks ++ image.headers.flatMap image.headerChecks ++ image.segmentChecks

theorem number_lt (image : Executable) (offset width : Nat) :
    image.number offset width < 1 <<< (8 * width) := by
  have bound := LittleEndian.value_lt (image.load offset width)
  rwa [load, List.length_map, List.length_range] at bound

theorem isAcceptable_iff : image.IsAcceptable ↔ firstFailure? image.checks = none := by
  rw [firstFailure?_eq_none]
  simp only [checks, formatChecks, headerChecks, segmentChecks, List.forall_mem_append,
    List.forall_mem_cons, List.forall_mem_flatMap, List.any_eq_true, decide_eq_true_eq,
    Bool.and_eq_true, Bool.or_eq_true, Bool.not_eq_true', beq_iff_eq, bne_iff_ne, ne_eq]
  constructor
  · intro acceptable
    have long := acceptable.size
    have placed : ∀ header ∈ image.headers, image.number 32 8 ≠ 0 := by
      intro header member
      rcases List.mem_map.1 member with ⟨index, below, _⟩
      exact acceptable.tablePlaced (Nat.ne_of_gt (Nat.zero_lt_of_lt (List.mem_range.1 below)))
    refine ⟨⟨⟨acceptable.aligned, by omega, acceptable.magic, .inr acceptable.wordClass, ?_,
      ⟨⟨⟨acceptable.wordClass, acceptable.littleEndian⟩, acceptable.machine⟩, acceptable.linked⟩,
      ⟨⟨acceptable.entryBytes, acceptable.tableAligned⟩, acceptable.tableInside⟩, by simp⟩,
      fun header member => ⟨placed header member, ?_, by simp⟩⟩,
      acceptable.loads, acceptable.entry, by simp⟩
    · rw [if_neg (by rw [acceptable.wordClass]; decide)]
      exact long
    · cases loadable : header.isLoadable with
      | false => exact .inl rfl
      | true => exact .inr (acceptable.fits header member loadable)
  · rintro ⟨⟨⟨aligned, _, magic, _, long, ⟨⟨⟨wordClass, littleEndian⟩, machine⟩, linked⟩,
      ⟨⟨entryBytes, tableAligned⟩, tableInside⟩, _⟩, each⟩, loads, entry, _⟩
    rw [if_neg (by rw [wordClass]; decide)] at long
    refine ⟨aligned, long, magic, wordClass, littleEndian, machine, linked, entryBytes,
      tableAligned, tableInside, fun some => ?_, fun header member loadable => ?_, loads, entry⟩
    · have first : image.headerAt 0 ∈ image.headers :=
        List.mem_map_of_mem (List.mem_range.2 (Nat.pos_of_ne_zero some))
      exact (each _ first).1
    · rcases (each header member).2.1 with skipped | fits
      · cases skipped.symm.trans loadable
      · exact fits

/-! ## How an image is checked -/

theorem isSupported_eq (image : Executable) : image.isSupported =
    (image.number 4 1 == 2 && image.number 5 1 == 1 && image.number 18 2 == 62 &&
      image.number 16 2 == 2) := by
  have same : (image.wordClass? == some .bits64) = (image.number 4 1 == 2) := by
    unfold wordClass?
    split <;> simp_all
  rw [isSupported, same]

theorem tableIsInside_eq (image : Executable) : image.tableIsInside =
    (image.number 54 2 == 56 && image.number 32 8 % 8 == 0 &&
      (image.tableStop ≤ image.size ∧ image.tableStop < 1 <<< 64)) := by
  have stop : image.number 54 2 = 56 →
      image.number 56 2 * image.number 54 2 + image.number 32 8 = image.tableStop := by
    intro entryBytes
    rw [entryBytes, tableStop]
    omega
  rw [Bool.eq_iff_iff, tableIsInside, tableEntryBytes, tableOffset, tableLength]
  simp only [WordClass.programHeaderBytes, Bool.and_eq_true, beq_iff_eq, decide_eq_true_eq]
  constructor
  · rintro ⟨⟨⟨entryBytes, aligned⟩, word⟩, inside⟩
    rw [stop entryBytes] at word inside
    exact ⟨⟨entryBytes, aligned⟩, inside, word⟩
  · rintro ⟨⟨entryBytes, aligned⟩, inside, word⟩
    rw [stop entryBytes]
    exact ⟨⟨⟨entryBytes, aligned⟩, word⟩, inside⟩

theorem wordClass?_eq_none : image.wordClass? = none ↔
    (image.number 4 1 == 1 || image.number 4 1 == 2) = false := by
  unfold wordClass?
  split <;> simp_all

theorem headerBytes_of_wordClass {wordClass : WordClass}
    (found : image.wordClass? = some wordClass) :
    wordClass.headerBytes = if image.number 4 1 = 1 then 52 else 64 := by
  unfold wordClass? at found
  split at found
  next narrow =>
    cases found
    rw [if_pos narrow, WordClass.headerBytes]
  next wide =>
    cases found
    rw [if_neg (by rw [wide]; decide), WordClass.headerBytes]
  next => cases found

theorem refusal?_eq (image : Executable) : image.refusal? = firstFailure? image.formatChecks := by
  unfold refusal? formatChecks identificationBytes
  simp only [firstFailure?_cons, ← isSupported_eq, ← tableIsInside_eq]
  by_cases aligned : image.aligned = true
  case neg => simp [aligned]
  by_cases long : 16 ≤ image.size
  case neg => simp [aligned, long, Nat.lt_of_not_le long]
  by_cases magical : image.load 0 4 = magic
  case neg => simp [aligned, Nat.not_lt_of_le long, magical]
  have short := Nat.not_lt_of_le long
  cases found : image.wordClass? with
  | none => simp [aligned, short, long, magical, wordClass?_eq_none.1 found]
  | some wordClass =>
      have known : (image.number 4 1 == 1 || image.number 4 1 == 2) = true := by
        rw [← Bool.not_eq_false, ← wordClass?_eq_none, found]
        exact Option.some_ne_none _
      rw [← headerBytes_of_wordClass found]
      simp only [aligned, short, long, magical, known, Bool.not_true, Bool.false_eq_true, if_false,
        decide_true, if_true, BEq.rfl, ne_eq, not_true_eq_false]
      by_cases headed : wordClass.headerBytes ≤ image.size
      · simp only [headed, Nat.not_lt_of_le headed, decide_true, if_true, if_false]
        cases image.isSupported <;> cases image.tableIsInside <;> rfl
      · simp only [headed, Nat.lt_of_not_le headed, decide_false, if_true, Bool.false_eq_true,
          if_false]

/-! ## How program headers are read -/

variable {index count : Nat} {α : Type}

def unlessFailed (failure : Option Refusal) (value : α) : Outcome Refusal α :=
  match failure with
  | some cause => .refused cause
  | none => .done value

theorem of_accepted (accepted : image.refusal? = none) :
    image.tableEntryBytes = 56 ∧ image.tableOffset % 8 = 0 ∧
      image.tableStop ≤ image.size ∧ image.tableStop < 1 <<< 64 := by
  rw [refusal?_eq, firstFailure?_eq_none] at accepted
  simp only [formatChecks, List.forall_mem_cons] at accepted
  rcases accepted with ⟨_, _, _, _, _, _, table, _⟩
  simp only [Bool.and_eq_true, beq_iff_eq, decide_eq_true_eq] at table
  exact ⟨table.1.1, table.1.2, table.2⟩

theorem run_programHeader (accepted : image.refusal? = none) (inside : index < image.tableLength)
    (state : σ) : (image.programHeader index).run state =
      (if image.tableOffset = 0 then .refused (.invalid .noProgramHeaders)
        else .done (image.headerAt index), state) := by
  rcases of_accepted accepted with ⟨entryBytes, aligned, within, word⟩
  have stops : image.tableStop = image.tableOffset + 56 * image.tableLength := rfl
  by_cases missing : image.tableOffset = 0
  · rw [if_pos missing, programHeader, missing, if_neg (by omega), run_refuse]
  · have starts : Word.add image.tableOffset (index * 56) =
        .ok (image.tableOffset + index * 56) := if_pos (by omega)
    have ends : Word.add (image.tableOffset + index * 56) 56 =
        .ok (image.tableOffset + index * 56 + 56) := if_pos (by omega)
    have decodable : image.tableOffset + index * 56 + 56 ≤ image.size ∧
        WordClass.programHeaderBytes .bits64 ≤ 56 ∧ (image.tableOffset + index * 56) % 8 = 0 :=
      ⟨by omega, Nat.le_refl _, by omega⟩
    rw [if_neg missing, programHeader, entryBytes,
      if_pos ⟨inside, Nat.pos_of_ne_zero missing, by decide⟩, starts,
      run_bind_of_done (run_check_ok ..), ends, run_bind_of_done (run_check_ok ..)]
    simp only [wordClass_of_accepted accepted]
    rw [if_pos decodable, run_pure, headerAt, entryBytes]

theorem ofHeader?_of_not_fits {header : ProgramHeader} {imageSize : Nat}
    (outside : ¬ header.Fits imageSize) : Segment.ofHeader? header imageSize = none :=
  if_neg outside

theorem exists_ofHeader? {header : ProgramHeader} {imageSize : Nat}
    (fits : header.Fits imageSize) :
    ∃ segment, Segment.ofHeader? header imageSize = some segment :=
  ⟨_, if_pos fits⟩

theorem run_segmentAt (accepted : image.refusal? = none) (inside : index < image.tableLength)
    (state : σ) : (image.segmentAt index).run state =
      (unlessFailed (firstFailure? (image.headerChecks (image.headerAt index)))
        (image.segmentOf? index), state) := by
  have offset : image.number 32 8 = image.tableOffset := rfl
  rw [segmentAt, run_bind, run_programHeader accepted inside, headerChecks, firstFailure?_cons,
    firstFailure?_cons, firstFailure?_nil, offset, segmentOf?]
  by_cases missing : image.tableOffset = 0
  · simp [missing, unlessFailed]
  by_cases loadable : (image.headerAt index).isLoadable = true
  · by_cases fits : (image.headerAt index).Fits image.size
    · rcases exists_ofHeader? fits with ⟨segment, decoded⟩
      simp only [missing, if_false, loadable, if_true, decoded, fits, run_pure, bne_iff_ne, ne_eq,
        not_false_eq_true, Bool.not_true, decide_true, Bool.or_true, unlessFailed]
    · simp only [missing, if_false, loadable, if_true, ofHeader?_of_not_fits fits, fits, run_refuse,
        bne_iff_ne, ne_eq, not_false_eq_true, Bool.not_true, decide_false, Bool.or_false,
        Bool.false_eq_true, unlessFailed]
  · simp [missing, loadable, unlessFailed]

/-- The segments are read up to the first header that fails a check. -/
theorem run_segmentsFrom (accepted : image.refusal? = none)
    (inside : index + count ≤ image.tableLength) (state : σ) :
    (image.segmentsFrom index count).run state =
      (unlessFailed (firstFailure?
        (((List.range' index count).map image.headerAt).flatMap image.headerChecks))
        (image.segmentsOf index count), state) := by
  induction count generalizing index with
  | zero => rfl
  | succ count induction =>
      rw [segmentsFrom, run_bind, run_segmentAt accepted (by omega), List.range'_succ,
        List.map_cons, List.flatMap_cons, firstFailure?_append, segmentsOf_succ]
      cases firstFailure? (image.headerChecks (image.headerAt index)) with
      | some cause => rfl
      | none =>
          simp only [unlessFailed, Option.none_or]
          rw [run_bind, induction (by omega)]
          cases firstFailure?
            (((List.range' (index + 1) count).map image.headerAt).flatMap image.headerChecks) <;>
            rfl

/-! ## What the segments are -/

theorem of_headerChecks {header : ProgramHeader}
    (passed : firstFailure? (image.headers.flatMap image.headerChecks) = none)
    (member : header ∈ image.headers) :
    firstFailure? (image.headerChecks header) = none ∧
      (header.isLoadable = true → header.Fits image.size) := by
  simp only [firstFailure?_eq_none, List.forall_mem_flatMap] at passed ⊢
  refine ⟨passed header member, fun loadable => ?_⟩
  have check := passed header member ⟨_, .segmentOutOfBounds (.ofNat header.address)⟩
    (List.mem_cons_of_mem _ List.mem_cons_self)
  simpa [loadable] using check

theorem exists_segment_iff {property : Segment → Prop} {asked : ProgramHeader → Prop}
    (fits : ∀ header ∈ image.headers, header.isLoadable = true → header.Fits image.size)
    (same : ∀ segment header, segment.Follows header → (property segment ↔ asked header)) :
    (∃ segment ∈ image.segmentsOf 0 image.tableLength, property segment) ↔
      ∃ header ∈ image.headers, header.isLoadable = true ∧ asked header := by
  constructor
  · rintro ⟨segment, member, holds⟩
    rcases List.mem_filterMap.1 member with ⟨index, listed, decoded⟩
    rw [← List.range_eq_range'] at listed
    rcases of_segmentOf? decoded with ⟨loadable, _, follows⟩
    exact ⟨_, List.mem_map_of_mem listed, loadable, (same segment _ follows).1 holds⟩
  · rintro ⟨header, member, loadable, holds⟩
    rcases exists_ofHeader? (fits header member loadable) with ⟨segment, decoded⟩
    rcases List.mem_map.1 member with ⟨index, listed, rfl⟩
    have isSegment : image.segmentOf? index = some segment := by
      rw [segmentOf?, if_pos loadable, decoded]
    rw [List.range_eq_range'] at listed
    exact ⟨segment, List.mem_filterMap.2 ⟨index, listed, isSegment⟩,
      (same segment _ (of_segmentOf? isSegment).2.2).2 holds⟩

theorem value_entry (image : Executable) : image.entry.value = image.number 24 8 :=
  Nat.mod_eq_of_lt (image.number_lt 24 8)

theorem isEmpty_segmentsOf
    (fits : ∀ header ∈ image.headers, header.isLoadable = true → header.Fits image.size) :
    (image.segmentsOf 0 image.tableLength).isEmpty =
      !image.headers.any ProgramHeader.isLoadable := by
  have loads : (∃ segment ∈ image.segmentsOf 0 image.tableLength, True) ↔
      ∃ header ∈ image.headers, header.isLoadable = true ∧ True :=
    exists_segment_iff fits fun _ _ _ => Iff.rfl
  simp only [and_true] at loads
  cases any : image.headers.any ProgramHeader.isLoadable with
  | false =>
      have none : ¬ ∃ header ∈ image.headers, header.isLoadable = true := by simpa using any
      rw [← loads] at none
      exact List.isEmpty_iff.2 (List.eq_nil_iff_forall_not_mem.2 fun segment member =>
        none ⟨segment, member⟩)
  | true =>
      rcases loads.2 (List.any_eq_true.1 any) with ⟨segment, member⟩
      exact List.isEmpty_eq_false_iff.2 (List.ne_nil_of_mem member)

theorem any_enters
    (fits : ∀ header ∈ image.headers, header.isLoadable = true → header.Fits image.size) :
    ((image.segmentsOf 0 image.tableLength).any fun segment =>
      segment.rights.execute && segment.contains image.entry) =
      image.headers.any fun header => header.Enters (image.number 24 8) := by
  rw [Bool.eq_iff_iff]
  simp only [List.any_eq_true, decide_eq_true_eq]
  apply exists_segment_iff fits
  intro segment header follows
  simp only [Segment.contains, Bool.and_eq_true, decide_eq_true_eq, value_entry, follows.rights,
    follows.address, follows.memorySize]

end EarlyMemory.Executable

namespace EarlyMemory.Loader

open Operation
open Executable (Check firstFailure? unlessFailed)

variable {capacity : Nat} {sorting : Region.Sorting} {root : Frame} {image : Executable}
  {source : ImageSource}

/-- An image is described as its segments make it, or rejected for its first failure. -/
theorem run_examine (image : Executable) (before : Paged (RegionTable capacity sorting)) :
    (examine image).run before = (unlessFailed (firstFailure? image.checks)
      ⟨image.entry, highestStop (image.segmentsOf 0 image.tableLength),
        (image.segmentsOf 0 image.tableLength).length⟩, before) := by
  rw [Executable.checks, Executable.firstFailure?_append, Executable.firstFailure?_append,
    ← Executable.refusal?_eq, examine]
  cases accepted : image.refusal? with
  | some cause => rfl
  | none =>
      rw [Option.none_or, Executable.segments, run_bind,
        Executable.run_segmentsFrom accepted (by omega), ← List.range_eq_range',
        show (List.range image.tableLength).map image.headerAt = image.headers from rfl]
      cases failure : firstFailure? (image.headers.flatMap image.headerChecks) with
      | some cause => rfl
      | none =>
          have fits : ∀ header ∈ image.headers, header.isLoadable = true →
              header.Fits image.size :=
            fun header member => (Executable.of_headerChecks failure member).2
          have room : ∀ segment ∈ image.segmentsOf 0 image.tableLength,
              segment.address.value + segment.memorySize < 1 <<< 64 :=
            fun segment member => (Executable.isValid_of_mem_segmentsOf member).room
          simp only [unlessFailed, furthestStop_eq_ok room, run_bind, run_check_ok,
            Executable.isEmpty_segmentsOf fits, Executable.any_enters fits, Option.none_or,
            Executable.segmentChecks, Executable.firstFailure?_cons,
            Executable.firstFailure?_nil]
          cases image.headers.any Executable.ProgramHeader.isLoadable <;>
            cases image.headers.any fun header => decide (header.Enters (image.number 24 8)) <;> rfl

/-! ## Reading an image again -/

/-- The causes that have to do with the machine and not with the image. -/
def ConcernsBacking (cause : Executable.Refusal) : Prop :=
  ∃ reason, reason ≠ .unsupportedMode ∧ cause = .backing reason

theorem refusesOnly_allocateAs {pages : Nat} {kind : RegionKind} {ε : Type} {allowed : ε → Prop} :
    (RegionTable.allocateAs pages kind :
      Operation (RegionTable capacity sorting) ε _).RefusesOnly allowed := by
  intro table cause refused
  rcases RegionTable.allocates_of_allocateAs (Prod.ext refused rfl) with ⟨_, done, _⟩
  cases done

theorem refusesOnly_map {target : PhysicalAddress} {address : VirtualAddress} {rights : Rights} :
    (BootTables.map root target address rights :
      Operation (Paged (RegionTable capacity sorting)) _ _).RefusesOnly (· ≠ .unsupportedMode) :=
  .mapRefusal fun _ impossible => by cases impossible

theorem refusesOnly_mapSegment {backing : PhysicalAddress} {address : VirtualAddress}
    {rights : Rights} (index remaining : Nat) :
    (mapSegment root backing address rights index remaining :
      Operation (Paged (RegionTable capacity sorting)) _ _).RefusesOnly (· ≠ .unsupportedMode) := by
  induction remaining generalizing index with
  | zero => exact .pure
  | succ remaining induction =>
      exact .bind .check fun _ => .bind .check fun _ => .bind .check fun _ =>
        .bind (.reportRefusal refusesOnly_map) fun _ => induction (index + 1)

theorem refusesOnly_loadSegment {address : VirtualAddress} {pages : Nat} {rights : Rights} :
    (loadSegment root address pages rights :
      Operation (Paged (RegionTable capacity sorting)) _ _).RefusesOnly (· ≠ .unsupportedMode) := by
  refine .bind (Paged.refusesOnly_onSource refusesOnly_allocateAs) fun answer => ?_
  cases answer with
  | none => exact .bind .report fun _ => .refuse (by decide)
  | some backing =>
      exact .bind (refusesOnly_mapSegment 0 pages) fun _ => .bind .report fun _ => .pure

theorem refusesOnly_place {segment : Executable.Segment} :
    (place root source segment :
      Operation (Paged (RegionTable capacity sorting)) _ _).RefusesOnly ConcernsBacking :=
  .bind .check fun _ =>
    .bind (.rename refusesOnly_loadSegment fun reason other => ⟨reason, other, rfl⟩) fun _ =>
    .bind .check fun _ => .bind Paged.refusesOnly_alter fun _ => .bind .check fun _ =>
    .bind Paged.refusesOnly_inspect fun _ => .bind .check fun _ =>
    .bind Paged.refusesOnly_changeMemory fun _ => .report

/-- What passed its checks once passes them again, as long as its bytes are the same. -/
theorem refusesOnly_placeFrom {index count : Nat}
    (steady : ∀ memory, source.view memory = image) (accepted : image.refusal? = none)
    (passed : firstFailure? (image.headers.flatMap image.headerChecks) = none)
    (inside : index + count ≤ image.tableLength) :
    (placeFrom root source index count :
      Operation (Paged (RegionTable capacity sorting)) _ _).RefusesOnly ConcernsBacking := by
  induction count generalizing index with
  | zero => exact .pure
  | succ count induction =>
      have listed : image.headerAt index ∈ image.headers :=
        List.mem_map_of_mem (List.mem_range.2 (by omega))
      intro before cause refused
      rw [placeFrom, view, run_bind, Paged.run_inspect, steady] at refused
      simp only at refused
      rw [run_bind, Executable.run_segmentAt accepted (by omega),
        (Executable.of_headerChecks passed listed).1] at refused
      simp only [unlessFailed] at refused
      cases asked : image.segmentOf? index with
      | none =>
          rw [asked] at refused
          exact induction (by omega) before cause refused
      | some segment =>
          rw [asked] at refused
          exact RefusesOnly.bind refusesOnly_place (fun _ => induction (by omega)) before cause
            refused

/-- An image is accepted exactly if it meets every demand. One that does not is rejected for
the first check it fails, and nothing is changed then. One that does is not rejected for its
own sake any more. -/
theorem loadImage_validates (before : Paged (RegionTable capacity sorting)) (root : Frame)
    (bytes : ByteArray) (shift : Nat) :
    let source := ImageSource.buffer bytes shift
    let image := source.view before.memory
    (image.IsAcceptable ↔ firstFailure? image.checks = none) ∧
      (image.IsAcceptable ↔ ∃ kernel, (examine image).run before = (.done kernel, before)) ∧
      (∀ cause, firstFailure? image.checks = some cause →
        (loadImage root source).run before = (.refused cause, before)) ∧
      (image.IsAcceptable → ∀ cause, ((loadImage root source).run before).1 = .refused cause →
        ConcernsBacking cause) := by
  intro source image
  have viewing : (view source).run before = (.done image, before) := rfl
  refine ⟨Executable.isAcceptable_iff, ?_, fun cause failure => ?_, fun acceptable cause => ?_⟩
  · rw [Executable.isAcceptable_iff, run_examine]
    cases firstFailure? image.checks with
    | none => exact ⟨fun _ => ⟨_, rfl⟩, fun _ => rfl⟩
    | some cause =>
        constructor
        · intro impossible
          cases impossible
        · rintro ⟨kernel, ran⟩
          cases ran
  · have rejected : (examine image).run before = (.refused cause, before) := by
      rw [run_examine, failure, unlessFailed]
    rw [loadImage, run_reportRefusal, tryLoadImage, run_bind_of_done viewing,
      run_bind_of_refused rejected]
  · have passed := Executable.isAcceptable_iff.1 acceptable
    have described : ∃ kernel, (examine image).run before = (.done kernel, before) :=
      ⟨_, by rw [run_examine, passed, unlessFailed]⟩
    rcases described with ⟨kernel, examining⟩
    rw [Executable.checks, Executable.firstFailure?_append, Executable.firstFailure?_append,
      ← Executable.refusal?_eq, Option.or_eq_none_iff, Option.or_eq_none_iff] at passed
    have placing : (placeFrom root source 0 image.tableLength :
        Operation (Paged (RegionTable capacity sorting)) _ _).RefusesOnly ConcernsBacking :=
      refusesOnly_placeFrom (fun _ => rfl) passed.1.1 passed.1.2 (Nat.le_of_eq (Nat.zero_add _))
    rw [loadImage, run_reportRefusal, tryLoadImage, run_bind_of_done viewing,
      run_bind_of_done examining]
    exact RefusesOnly.bind placing (fun _ => .bind .report fun _ => .pure) before cause

end EarlyMemory.Loader
