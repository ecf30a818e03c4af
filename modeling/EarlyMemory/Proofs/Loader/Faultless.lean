import EarlyMemory.Proofs.Loader.Exactness
import EarlyMemory.Proofs.Loader.Footprint
import EarlyMemory.Proofs.Loader.Validation

/-!
# Loading an image never faults

Whatever an image holds, loading it is done or refused. What its headers ask for is checked
once, before the first page is taken: from then on every address is below the end of a
segment, which the address space has, and every part of the image and of the backing pages
that is copied lies inside. What backs the pages is below the physical limit, so addresses
in it do not overflow either. The tables stand in the memory all along.
-/

namespace EarlyMemory.Loader

open Operation

variable {capacity : Nat} {sorting : Region.Sorting} {root : Frame}
  {before : Paged (RegionTable capacity sorting)} {image : Executable} {source : ImageSource}
  {segment : Executable.Segment}

theorem faultless_map (target : PhysicalAddress) (address : VirtualAddress) (rights : Rights)
    (sound : IsSound root before) :
    (BootTables.map root target address rights :
      Operation (Paged (RegionTable capacity sorting)) _ _).FaultlessAt before := by
  rcases AddressSpace.map_spec target rights sound.ready (leads_tables address) with
    ⟨outcome, after, _, ran, _, maps⟩
  refine .mapRefusal fun cause faults => ?_
  rw [ran] at faults
  cases faults
  cases maps

theorem faultless_mapSegment {backing : PhysicalAddress} {address : VirtualAddress}
    (rights : Rights) {index remaining : Nat} (sound : IsSound root before)
    (backed : ∀ position < index + remaining, backing.value + position * 4096 < 1 <<< 64)
    (room : ∀ position < index + remaining, address.value + position * 4096 < 1 <<< 64) :
    (mapSegment root backing address rights index remaining :
      Operation (Paged (RegionTable capacity sorting)) _ _).FaultlessAt before := by
  induction remaining generalizing index before with
  | zero => exact .pure
  | succ remaining induction =>
      rw [FaultlessAt, run_mapSegment_succ (backed index (by omega)) (room index (by omega))]
      refine FaultlessAt.bind (faultless_map _ _ rights sound) ?_
      intro _ middle mapped
      refine induction (evolves_of_map sound mapped).1.sound ?_ ?_
      · intro position below
        exact backed position (by omega)
      · intro position below
        exact room position (by omega)

theorem faultless_allocateAs (pages : Nat) (kind : RegionKind) {ε : Type} :
    (Paged.onSource (RegionTable.allocateAs pages kind) :
      Operation (Paged (RegionTable capacity sorting)) ε _).FaultlessAt before := by
  rcases RegionTable.allocateAs_spec (ε := ε) before.source pages kind with
    ⟨given, table, allocated, _⟩
  exact .of_done (Paged.run_onSource_of_run allocated)

theorem faultless_loadSegment {address : VirtualAddress} {pages : Nat} (rights : Rights)
    (sound : IsSound root before)
    (room : ∀ position < pages, address.value + position * 4096 < 1 <<< 64) :
    (loadSegment root address pages rights :
      Operation (Paged (RegionTable capacity sorting)) _ _).FaultlessAt before := by
  refine .bind (faultless_allocateAs pages .allocated) fun answer middle allocated => ?_
  rcases evolves_of_allocateAs sound allocated with ⟨evolves, _, backs⟩
  cases answer with
  | none => exact .bind .report fun _ _ _ => .refuse
  | some backing =>
      have within := (backs backing rfl).within
      have limit : physicalLimit.value = 0x10000000000000 := rfl
      have backed : ∀ position < 0 + pages, backing.value + position * 4096 < 1 <<< 64 := by
        intro position below
        omega
      refine .bind (faultless_mapSegment rights evolves.sound backed ?_) fun _ _ _ =>
        .bind .report fun _ _ _ => .pure
      intro position below
      exact room position (by omega)

/-- What was checked of a segment is all that placing it needs. -/
theorem faultless_place (valid : segment.IsValid source.size) (some : 0 < segment.memorySize)
    (sound : IsSound root before) :
    (place root source segment :
      Operation (Paged (RegionTable capacity sorting)) _ _).FaultlessAt before := by
  have positive : 0 < segment.pages := by
    simp only [Executable.Segment.pages, PageSize.pagesFor, PageSize.bytes]
    omega
  have room : ∀ position < segment.pages,
      (segment.address.alignDown .small).value + position * 4096 < 1 <<< 64 := by
    intro position below
    rw [Address.value_alignDown]
    exact Nat.lt_trans (value_segmentPage valid.room below).2 valid.room
  have loading := faultless_loadSegment segment.rights sound room
  rcases ending : (loadSegment root (segment.address.alignDown .small) segment.pages
    segment.rights).run before with ⟨backing | cause | cause, middle⟩
  · rcases run_place_of_loaded source sound valid positive ending with ⟨after, placed, _⟩
    exact .of_done placed
  · intro fault faults
    rw [place, Executable.Segment.pageCount_eq_ok valid.room, run_bind_of_done (run_check_ok ..),
      run_bind, run_mapRefusal, ending] at faults
    cases faults
  · exact absurd (congrArg Prod.fst ending) (loading cause)

theorem faultless_placeFrom {index count : Nat} (steady : ∀ memory, source.view memory = image)
    (accepted : image.refusal? = none)
    (passed : Executable.firstFailure? (image.headers.flatMap image.headerChecks) = none)
    (inside : index + count ≤ image.tableLength) (sound : IsSound root before) :
    (placeFrom root source index count :
      Operation (Paged (RegionTable capacity sorting)) _ _).FaultlessAt before := by
  induction count generalizing index before with
  | zero => exact .pure
  | succ count induction =>
      have listed : image.headerAt index ∈ image.headers :=
        List.mem_map_of_mem (List.mem_range.2 (by omega))
      have viewing : (view source).run before = (.done image, before) := by
        rw [view, Paged.run_inspect, steady]
      have asking : (image.segmentAt index).run before =
          (.done (image.segmentOf? index), before) := by
        rw [Executable.run_segmentAt accepted (by omega),
          (Executable.of_headerChecks passed listed).1, Executable.unlessFailed]
      rw [placeFrom, FaultlessAt, run_bind_of_done viewing, run_bind_of_done asking]
      cases asked : image.segmentOf? index with
      | none => exact induction (by omega) sound
      | some segment =>
          rcases Executable.of_segmentOf? asked with ⟨loadable, valid, follows⟩
          rw [size_of_steady steady] at valid
          have some : 0 < segment.memorySize := by
            rw [follows.memorySize]
            exact memorySize_pos loadable
          refine FaultlessAt.bind (faultless_place valid some sound) fun _ middle placed => ?_
          exact induction (by omega) (place_spec valid sound placed).1.sound

theorem faultless_loadImage (steady : ∀ memory, source.view memory = image)
    (sound : IsSound root before) :
    (loadImage root source :
      Operation (Paged (RegionTable capacity sorting)) _ _).FaultlessAt before := by
  have viewing : (view source).run before = (.done image, before) := by
    rw [view, Paged.run_inspect, steady]
  refine .reportRefusal fun fault => ?_
  rw [tryLoadImage, run_bind_of_done viewing, run_bind, run_examine]
  cases failure : Executable.firstFailure? image.checks with
  | some cause =>
      intro faults
      cases faults
  | none =>
      rw [Executable.checks, Executable.firstFailure?_append, Executable.firstFailure?_append,
        ← Executable.refusal?_eq, Option.or_eq_none_iff, Option.or_eq_none_iff] at failure
      have inside : 0 + image.tableLength ≤ image.tableLength := Nat.le_of_eq (Nat.zero_add _)
      exact FaultlessAt.bind (faultless_placeFrom steady failure.1.1 failure.1.2 inside sound)
        (fun _ _ _ => .bind .report fun _ _ _ => .pure) fault

/-- Whatever bytes it is given, aligned or not, a loader that has loaded anything before loads
them as an image or refuses them. -/
theorem loadImage_never_faults (start before : Paged (RegionTable capacity sorting)) (root : Frame)
    (built : start.source.Built) (apart : start.source.regions.Pairwise Region.Apart)
    (inside : ∀ region ∈ start.source.regions, region.code = RegionKind.available.code →
      ∀ address, region.Covers address → lowMemoryEnd.value ≤ address →
        start.memory.Contains address)
    (reaches : Reaches start root before) (bytes : ByteArray) (shift : Nat) :
    (∃ kernel, ((loadImage root (.buffer bytes shift)).run before).1 = .done kernel) ∨
      ∃ cause, ((loadImage root (.buffer bytes shift)).run before).1 = .refused cause :=
  (faultless_loadImage (fun _ => rfl)
    (reaches.isSound (isStart_of_built built apart inside))).done_or_refused

/-- The small executable, linked so that it ends at the last address. -/
def topBytes : ByteArray :=
  ⟨#[0x7F, 0x45, 0x4C, 0x46, 2, 1, 1, 0, 0, 0, 0, 0, 0, 0, 0, 0,
    2, 0, 62, 0, 1, 0, 0, 0, 0xF0, 0xFF, 0xFF, 0xFF, 0xFF, 0xFF, 0xFF, 0xFF,
    64, 0, 0, 0, 0, 0, 0, 0, 0, 0, 0, 0, 0, 0, 0, 0,
    0, 0, 0, 0, 64, 0, 56, 0, 1, 0, 0, 0, 0, 0, 0, 0,
    1, 0, 0, 0, 5, 0, 0, 0, 120, 0, 0, 0, 0, 0, 0, 0,
    0xF0, 0xFF, 0xFF, 0xFF, 0xFF, 0xFF, 0xFF, 0xFF,
    0xF0, 0xFF, 0xFF, 0xFF, 0xFF, 0xFF, 0xFF, 0xFF,
    2, 0, 0, 0, 0, 0, 0, 0, 15, 0, 0, 0, 0, 0, 0, 0,
    0, 0x10, 0, 0, 0, 0, 0, 0, 0xEB, 0xFE]⟩

def topImage : Executable :=
  ⟨topBytes.size, true, fun index =>
    if inside : index < topBytes.size then topBytes.get index inside else 0⟩

theorem isAcceptable_topImage : topImage.IsAcceptable :=
  Executable.isAcceptable_iff.2 (by decide +kernel)

/-- An image at the very end of the address space passes every check, and loading it does not
fault. -/
theorem image_at_the_top_never_faults : ∃ created,
    Reaches smallStart smallRoot created ∧
    (ImageSource.view (.buffer topBytes 0) created.memory).IsAcceptable ∧
    ((∃ kernel, ((loadImage smallRoot (.buffer topBytes 0)).run created).1 = .done kernel) ∨
      ∃ cause, ((loadImage smallRoot (.buffer topBytes 0)).run created).1 = .refused cause) := by
  rcases exists_created with ⟨created, last, creating, _⟩
  have reaches : Reaches smallStart smallRoot created := .created creating
  exact ⟨created, reaches, isAcceptable_topImage, loadImage_never_faults smallStart created
    smallRoot built_smallStart (by decide) contains_smallStart reaches topBytes 0⟩

end EarlyMemory.Loader
