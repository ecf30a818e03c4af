import EarlyMemory.Proofs.Loader.Placement

/-!
# Loading an image

The image is decoded before its first page is taken. Placing its segments one after
another keeps the ones placed before: each new segment maps pages that were not mapped,
backed by frames that were still on offer.
-/

namespace EarlyMemory.Loader

open Operation

variable {capacity : Nat} {sorting : Region.Sorting} {root : Frame}
  {before middle after : Paged (RegionTable capacity sorting)} {image : Executable}
  {source : ImageSource} {segment : Executable.Segment}

/-! ## However loading ends -/

namespace Keeps

theorem programHeader (image : Executable) (index : Nat) :
    Keeps root (image.programHeader index :
      Operation (Paged (RegionTable capacity sorting)) Executable.Refusal _) := by
  unfold Executable.programHeader
  dsimp only
  split
  · refine bind check fun start => bind check fun stop => ?_
    split
    · exact check
    · split <;> split <;> first | exact check | exact of_run_eq fun _ => rfl
  · exact of_run_eq fun _ => rfl

theorem segmentAt (image : Executable) (index : Nat) :
    Keeps root (image.segmentAt index :
      Operation (Paged (RegionTable capacity sorting)) Executable.Refusal _) := by
  apply bind (programHeader image index)
  intro header
  split
  · split <;> exact of_run_eq fun _ => rfl
  · exact of_run_eq fun _ => rfl

theorem segmentsFrom (image : Executable) (index remaining : Nat) :
    Keeps root (image.segmentsFrom index remaining :
      Operation (Paged (RegionTable capacity sorting)) Executable.Refusal _) := by
  induction remaining generalizing index with
  | zero => exact of_run_eq fun _ => rfl
  | succ remaining induction =>
      refine bind (segmentAt image index) fun first => bind (induction (index + 1)) fun rest => ?_
      exact of_run_eq fun _ => rfl

theorem examine (image : Executable) :
    Keeps root (examine image :
      Operation (Paged (RegionTable capacity sorting)) Executable.Refusal KernelImage) := by
  unfold Loader.examine
  split
  · exact of_run_eq fun _ => rfl
  · apply bind (segmentsFrom image 0 image.tableLength)
    intro segments
    refine bind check fun stop => ?_
    split
    · exact of_run_eq fun _ => rfl
    · split <;> exact of_run_eq fun _ => rfl

theorem view (source : ImageSource) :
    Keeps root (view source :
      Operation (Paged (RegionTable capacity sorting)) Executable.Refusal Executable) :=
  of_run_eq fun _ => rfl

theorem placeFrom (source : ImageSource) (index remaining : Nat) :
    Keeps root (placeFrom root source index remaining :
      Operation (Paged (RegionTable capacity sorting)) Executable.Refusal Unit) := by
  induction remaining generalizing index with
  | zero => exact of_run_eq fun _ => rfl
  | succ remaining induction =>
      apply bind_of_done (view source)
      intro image _ _ viewing
      rcases Paged.of_run_inspect viewing with ⟨isView, _⟩
      apply bind_of_done (segmentAt image index)
      intro found _ _ ran
      cases found with
      | none => exact induction (index + 1)
      | some segment =>
          have valid := Executable.isValid_of_run_segmentAt ran
          rw [← Except.ok.inj isView, source.size_view] at valid
          refine bind ?_ fun _ => induction (index + 1)
          exact fun _ _ _ sound placed => (place_spec valid sound placed).1

theorem loadImage (source : ImageSource) :
    Keeps root (loadImage root source :
      Operation (Paged (RegionTable capacity sorting)) Executable.Refusal KernelImage) := by
  refine reportRefusal (bind (view source) fun image => ?_)
  refine bind (examine image) fun kernel => bind (placeFrom source 0 image.tableLength) fun _ => ?_
  exact of_run_eq fun _ => rfl

theorem loadSegment (address : VirtualAddress) (pages : Nat) (rights : Rights) :
    Keeps root (loadSegment root address pages rights :
      Operation (Paged (RegionTable capacity sorting)) BootTables.Refusal PhysicalAddress) :=
  fun _ _ _ sound ran => (loadSegment_spec sound ran).1

end Keeps

/-! ## Placing segment after segment -/

theorem Backing.earlier {backing : PhysicalAddress} {pages : Nat}
    (backed : Backing root backing pages middle after) (first : Evolves root before middle) :
    Backing root backing pages before after where
  aligned := backed.aligned
  within := backed.within
  offered frame within := by
    rcases backed.offered frame within with ⟨offered, settled⟩
    exact ⟨first.table.offers frame offered, settled⟩
  allocated := backed.allocated

theorem Placed.earlier (placed : Placed root image segment middle after)
    (first : Evolves root before middle) : Placed root image segment before after := by
  rcases placed with ⟨backing, ⟨frames, pages⟩, bytes⟩
  refine ⟨backing, ⟨frames.earlier first, fun index below => ?_⟩, bytes⟩
  have page := pages index below
  exact ⟨page.room, first.absent (Address.length_leafPath _) page.absent, page.leaf⟩

def segmentPath (segment : Executable.Segment) (page : Nat) : TablePath :=
  ((segment.address.alignDown .small).pageAfter page).leafPath

def PagesApart (left right : Executable.Segment) : Prop :=
  ∀ first < left.pages, ∀ second < right.pages,
    segmentPath left first ≠ segmentPath right second

theorem Placed.pagesApart {other : Executable.Segment}
    (placed : Placed root image segment before middle)
    (further : Placed root image other middle after) : PagesApart segment other := by
  rcases placed with ⟨_, ⟨_, pages⟩, _⟩
  rcases further with ⟨_, ⟨_, furtherPages⟩, _⟩
  intro first firstBelow second secondBelow same
  have leaf := (pages first firstBelow).leaf
  have absent := (furtherPages second secondBelow).absent
  unfold segmentPath at same
  rw [← same, leaf] at absent
  cases absent

/-- What the headers from an index on ask for stands in place. -/
structure Places (root : Frame) (image : Executable) (index count : Nat)
    (before after : Paged (RegionTable capacity sorting)) : Prop where
  placed : ∀ position, index ≤ position → position < index + count →
    ∀ segment, image.segmentOf? position = some segment → Placed root image segment before after
  apart : ∀ position other, index ≤ position → position < other → other < index + count →
    ∀ left right, image.segmentOf? position = some left → image.segmentOf? other = some right →
      PagesApart left right

theorem places_of_skipped {count : Nat} (skipped : image.segmentOf? index = none)
    (rest : Places root image (index + 1) count before after) :
    Places root image index (count + 1) before after := by
  constructor
  · intro position above below segment asked
    have different : position ≠ index := by
      rintro rfl
      rw [skipped] at asked
      cases asked
    exact rest.placed position (by omega) (by omega) segment asked
  · intro position other above further below left right asked askedOther
    have different : position ≠ index := by
      rintro rfl
      rw [skipped] at asked
      cases asked
    exact rest.apart position other (by omega) further (by omega) left right asked askedOther

theorem places_of_placed {index count : Nat} (asked : image.segmentOf? index = some segment)
    (placed : Placed root image segment before middle) (first : Evolves root before middle)
    (second : Evolves root middle after)
    (rest : Places root image (index + 1) count middle after) :
    Places root image index (count + 1) before after := by
  constructor
  · intro position above below other askedOther
    by_cases here : position = index
    · subst here
      rw [asked] at askedOther
      cases askedOther
      exact placed.evolves second
    · exact (rest.placed position (by omega) (by omega) other askedOther).earlier first
  · intro position other above further below left right askedLeft askedRight
    by_cases here : position = index
    · subst here
      rw [asked] at askedLeft
      cases askedLeft
      exact placed.pagesApart (rest.placed other (by omega) (by omega) right askedRight)
    · exact rest.apart position other (by omega) further (by omega) left right askedLeft askedRight

theorem size_of_steady (steady : ∀ memory, source.view memory = image) :
    image.size = source.size := by
  rw [← steady (Memory.zeroed ⟨0, by decide⟩ 0), source.size_view]

/-- Placing the segments from an index on passes over the first header or places its segment,
and then places the others. The image has to be the same each time it is read. -/
theorem of_run_placeFrom_succ {index count : Nat}
    (steady : ∀ memory, source.view memory = image) (accepted : image.refusal? = none)
    (ran : (placeFrom root source index (count + 1)).run before = (.done (), after)) :
    (image.segmentOf? index = none ∧
      (placeFrom root source (index + 1) count).run before = (.done (), after)) ∨
    ∃ segment middle, image.segmentOf? index = some segment ∧ segment.IsValid source.size ∧
      (place root source segment).run before = (.done (), middle) ∧
      (placeFrom root source (index + 1) count).run middle = (.done (), after) := by
  rw [placeFrom] at ran
  rcases of_run_bind ran with ⟨viewed, _, viewing, ran⟩
  rw [view, Paged.run_inspect, steady] at viewing
  rcases viewing with ⟨rfl, rfl⟩
  rcases of_run_bind ran with ⟨found, _, asking, ran⟩
  rcases Executable.of_run_segmentAt accepted asking with ⟨isFound, rfl, _⟩
  cases found with
  | none => exact .inl ⟨isFound.symm, ran⟩
  | some segment =>
      rcases of_run_bind ran with ⟨_, middle, placing, continued⟩
      have valid := (Executable.of_segmentOf? isFound.symm).2.1
      rw [size_of_steady steady] at valid
      exact .inr ⟨segment, middle, isFound.symm, valid, placing, continued⟩

theorem placeFrom_spec {index count : Nat} (steady : ∀ memory, source.view memory = image)
    (accepted : image.refusal? = none) (sound : IsSound root before)
    (ran : (placeFrom root source index count).run before = (.done (), after)) :
    Places root image index count before after := by
  induction count generalizing index before with
  | zero => exact ⟨fun position above below => by omega, fun position other _ _ below => by omega⟩
  | succ count induction =>
      rcases of_run_placeFrom_succ steady accepted ran with
        ⟨skipped, continued⟩ | ⟨segment, middle, asked, valid, placing, continued⟩
      · exact places_of_skipped skipped (induction sound continued)
      · rcases place_spec valid sound placing with ⟨first, placed⟩
        rcases placed rfl with ⟨memory, placed⟩
        rw [steady] at placed
        have second := Keeps.placeFrom source (index + 1) count _ _ _ first.sound continued
        exact places_of_placed asked placed first.toEvolves second.toEvolves
          (induction first.sound continued)

theorem of_run_loadImage {kernel : KernelImage} (steady : ∀ memory, source.view memory = image)
    (ran : (loadImage root source).run before = (.done kernel, after)) :
    Describes image kernel ∧
      (placeFrom root source 0 image.tableLength).run before = (.done (), after) := by
  rw [loadImage, run_reportRefusal, tryLoadImage] at ran
  rcases of_run_bind ran with ⟨viewed, _, viewing, examining⟩
  rw [view, Paged.run_inspect, steady] at viewing
  rcases viewing with ⟨rfl, rfl⟩
  rcases of_run_bind examining with ⟨described, _, examined, placingAll⟩
  rcases of_run_examine examined with ⟨describes, rfl⟩
  rcases of_run_bind placingAll with ⟨_, reached, placing, reporting⟩
  cases reporting
  exact ⟨describes, placing⟩

theorem loadImage_spec {kernel : KernelImage} (steady : ∀ memory, source.view memory = image)
    (sound : IsSound root before)
    (ran : (loadImage root source).run before = (.done kernel, after)) :
    Describes image kernel ∧ Places root image 0 image.tableLength before after := by
  rcases of_run_loadImage steady ran with ⟨describes, placing⟩
  exact ⟨describes, placeFrom_spec steady describes.accepted sound placing⟩

end EarlyMemory.Loader
