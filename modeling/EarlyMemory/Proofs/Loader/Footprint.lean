import EarlyMemory.Proofs.Frames.History
import EarlyMemory.Proofs.Loader.BootTables
import EarlyMemory.Proofs.Loader.Loading
import EarlyMemory.Proofs.Paging.NewTables
import EarlyMemory.Proofs.Paging.Window
import EarlyMemory.Proofs.Words

/-!
# What an image leaves in the tables

A loader links no table and maps no page but on the way to the pages that it was asked for.
So beyond the pages of an image's segments the tables are as they were, and what stood on
no way to such a page is as free as before.
-/

namespace EarlyMemory.Loader

open Operation
open Memory (AgreesOutside)

variable {capacity : Nat} {sorting : Region.Sorting} {root : Frame}
  {before middle after : Paged (RegionTable capacity sorting)} {source : ImageSource}
  {image : Executable} {segment : Executable.Segment} {asked further wider : VirtualAddress → Prop}

theorem suffix_leafPath (level : Level) (address : VirtualAddress) :
    level.path address <:+ address.leafPath := by
  cases level
  · exact List.nil_suffix
  · exact ⟨[_, _, _], rfl⟩
  · exact ⟨[_, _], rfl⟩
  · exact ⟨[_], rfl⟩

/-- Nothing is linked or mapped beyond what was before, but on the way to certain addresses. -/
def ReachesOnly (root : Frame) (asked : VirtualAddress → Prop) (before after : Memory) : Prop :=
  ∀ path : TablePath, path.length ≤ 4 → (tables root).tableAt after path ≠ none →
    (tables root).tableAt before path ≠ none ∨ ∃ address, asked address ∧ path <:+ address.leafPath

namespace ReachesOnly

theorem refl (memory : Memory) : ReachesOnly root asked memory memory :=
  fun _ _ linked => .inl linked

theorem trans {before middle after : Memory} (first : ReachesOnly root asked before middle)
    (second : ReachesOnly root further middle after)
    (covered : ∀ address, asked address ∨ further address → wider address) :
    ReachesOnly root wider before after := by
  intro path short linked
  rcases second path short linked with linked | ⟨address, isAsked, onTheWay⟩
  · rcases first path short linked with linked | ⟨address, isAsked, onTheWay⟩
    · exact .inl linked
    · exact .inr ⟨address, covered address (.inl isAsked), onTheWay⟩
  · exact .inr ⟨address, covered address (.inr isAsked), onTheWay⟩

theorem mono {before after : Memory} (reaches : ReachesOnly root asked before after)
    (covered : ∀ address, asked address → wider address) :
    ReachesOnly root wider before after :=
  fun path short linked => (reaches path short linked).imp_right fun ⟨address, isAsked, onTheWay⟩ =>
    ⟨address, covered address isAsked, onTheWay⟩

end ReachesOnly

theorem reachesOnly_of_map {target : PhysicalAddress} {address : VirtualAddress} {rights : Rights}
    (sound : IsSound root before)
    (ran : (BootTables.map root target address rights).run before = (.done (), after)) :
    ReachesOnly root (· = address) before.memory after.memory := by
  intro path short linked
  by_cases leaf : path.length = 4
  · have nonempty : path ≠ [] := fun empty => by simp [empty] at leaf
    rw [Hierarchy.tableAt_eq_map_entryAt _ _ nonempty] at linked ⊢
    cases found : (tables root).entryAt after.memory path with
    | none =>
        rw [found] at linked
        exact absurd rfl linked
    | some entry =>
        rcases (evolves_of_map sound ran).2.1 path entry leaf found with earlier | ⟨rfl, _⟩
        · rw [earlier]
          exact .inl (by simp)
        · exact .inr ⟨address, rfl, List.suffix_rfl⟩
  · rcases AddressSpace.map_adds (RegionTable.flushesNothing capacity sorting) sound.ready
      (leads_tables address) (of_run_mapRefusal ran) with ⟨levels, _, links, _⟩
    by_cases isNew : ∃ level ∈ levels, path = level.path address
    · rcases isNew with ⟨level, _, rfl⟩
      exact .inr ⟨address, rfl, suffix_leafPath level address⟩
    · rw [links.others path (by omega) (owns_tables path)
        fun level member same => isNew ⟨level, member, same⟩] at linked
      exact .inl linked

def IsPageFrom (start : VirtualAddress) (index count : Nat) (page : VirtualAddress) : Prop :=
  ∃ position, index ≤ position ∧ position < index + count ∧ page = start.pageAfter position

theorem reachesOnly_of_mapSegment {backing : PhysicalAddress} {address : VirtualAddress}
    {rights : Rights} {index remaining : Nat} (sound : IsSound root before)
    (ran : (mapSegment root backing address rights index remaining).run before =
      (.done (), after)) :
    ReachesOnly root (IsPageFrom address index remaining) before.memory after.memory := by
  induction remaining generalizing index before with
  | zero =>
      cases ran
      exact .refl _
  | succ remaining induction =>
      rcases of_run_mapSegment_succ ran with ⟨_, middle, mapped, continued⟩
      have first := reachesOnly_of_map sound mapped
      refine first.trans (induction (evolves_of_map sound mapped).1.sound continued) ?_
      rintro page (rfl | ⟨position, above, below, rfl⟩)
      · exact ⟨index, Nat.le_refl _, by omega, rfl⟩
      · exact ⟨position, by omega, by omega, rfl⟩

theorem reachesOnly_of_loadSegment {backing : PhysicalAddress} {address : VirtualAddress}
    {pages : Nat} {rights : Rights} (sound : IsSound root before)
    (ran : (loadSegment root address pages rights).run before = (.done backing, after)) :
    ReachesOnly root (IsPageFrom address 0 pages) before.memory after.memory := by
  rw [loadSegment] at ran
  rcases of_run_bind ran with ⟨answer, allocated, allocating, ran⟩
  rcases evolves_of_allocateAs sound allocating with ⟨evolves, memory, _⟩
  cases answer with
  | none =>
      rcases of_run_bind ran with ⟨_, _, _, refused⟩
      cases refused
  | some base =>
      rcases of_run_bind ran with ⟨_, mapped, mapping, ran⟩
      rcases of_run_bind ran with ⟨_, _, reporting, ran⟩
      cases reporting
      cases ran
      rw [← memory]
      exact reachesOnly_of_mapSegment evolves.sound mapping

theorem of_run_place (valid : segment.IsValid source.size) (sound : IsSound root before)
    (ran : (place root source segment).run before = (.done (), after)) :
    ∃ backing loaded, (loadSegment root (segment.address.alignDown .small) segment.pages
        segment.rights).run before = (.done backing, loaded) ∧
      AgreesOutside (Page.Within · backing.value (backing.value + segment.pages * 4096))
        loaded.memory after.memory := by
  rw [place, Executable.Segment.pageCount_eq_ok valid.room,
    run_bind_of_done (run_check_ok ..)] at ran
  rcases of_run_bind ran with ⟨backing, loaded, loading, ran⟩
  have loading := of_run_mapRefusal loading
  rcases of_run_bind ran with ⟨bytes, _, multiplied, ran⟩
  rcases of_run_check multiplied with ⟨product, rfl⟩
  rcases Word.of_multiply product with ⟨rfl, _⟩
  rcases of_run_bind ran with ⟨_, filled, filling, ran⟩
  rcases Paged.of_run_alter filling with ⟨written, _⟩
  rcases of_run_bind ran with ⟨_, _, checked, ran⟩
  rcases of_run_check checked with ⟨_, rfl⟩
  rcases of_run_bind ran with ⟨view, _, viewing, ran⟩
  rcases Paged.of_run_inspect viewing with ⟨_, rfl⟩
  rcases of_run_bind ran with ⟨content, _, taken, ran⟩
  rcases of_run_check taken with ⟨isContent, rfl⟩
  cases Executable.eq_load_of_slice isContent
  rcases of_run_bind ran with ⟨_, stored, storing, ran⟩
  rcases Paged.of_run_changeMemory storing with ⟨memory, _⟩
  cases ran
  have frames := ((loadSegment_spec sound loading).2 backing rfl).frames
  have isPlaced : after.memory = placedMemory view segment backing loaded.memory := by
    rw [overwrite_eq_ok written] at memory
    exact memory
  rw [isPlaced]
  exact ⟨backing, loaded, loading,
    agreesOutside_placedMemory valid.fits frames.aligned rfl frames.within⟩

theorem reachesOnly_of_place (valid : segment.IsValid source.size) (sound : IsSound root before)
    (ran : (place root source segment).run before = (.done (), after)) :
    ReachesOnly root (IsPageFrom (segment.address.alignDown .small) 0 segment.pages)
      before.memory after.memory := by
  rcases of_run_place valid sound ran with ⟨backing, loaded, loading, agrees⟩
  rcases loadSegment_spec sound loading with ⟨loads, backs⟩
  have frames := (backs backing rfl).frames
  -- The pages of the segment are no tables, so writing to them links nothing.
  have same : ∀ table index, (tables root).IsTable loaded.memory table →
      after.memory.entry table index = loaded.memory.entry table index :=
    fun table index isTable =>
      agrees.entry_eq (fun within => (frames.offered table within).2.1 isTable) index
  intro path short linked
  rw [Hierarchy.tableAt_congr same path short (owns_tables path)] at linked
  exact reachesOnly_of_loadSegment sound loading path short linked

def IsSegmentPage (image : Executable) (index count : Nat) (page : VirtualAddress) : Prop :=
  ∃ position, index ≤ position ∧ position < index + count ∧
    ∃ segment, image.segmentOf? position = some segment ∧
      IsPageFrom (segment.address.alignDown .small) 0 segment.pages page

theorem IsSegmentPage.later {index count : Nat} {page : VirtualAddress}
    (isPage : IsSegmentPage image (index + 1) count page) :
    IsSegmentPage image index (count + 1) page := by
  rcases isPage with ⟨position, above, below, further⟩
  exact ⟨position, by omega, by omega, further⟩

theorem reachesOnly_of_placeFrom {index count : Nat}
    (steady : ∀ memory, source.view memory = image) (accepted : image.refusal? = none)
    (sound : IsSound root before)
    (ran : (placeFrom root source index count).run before = (.done (), after)) :
    ReachesOnly root (IsSegmentPage image index count) before.memory after.memory := by
  induction count generalizing index before with
  | zero =>
      cases ran
      exact .refl _
  | succ count induction =>
      rcases of_run_placeFrom_succ steady accepted ran with
        ⟨_, continued⟩ | ⟨segment, middle, asked, valid, placing, continued⟩
      · exact (induction sound continued).mono fun page => IsSegmentPage.later
      · have first := reachesOnly_of_place valid sound placing
        have soundMiddle := (place_spec valid sound placing).1.sound
        refine first.trans (induction soundMiddle continued) ?_
        rintro page (isPage | isPage)
        · exact ⟨index, Nat.le_refl _, by omega, segment, asked, isPage⟩
        · exact isPage.later

theorem reachesOnly_of_loadImage {kernel : KernelImage}
    (steady : ∀ memory, source.view memory = image) (sound : IsSound root before)
    (ran : (loadImage root source).run before = (.done kernel, after)) :
    ReachesOnly root (IsSegmentPage image 0 image.tableLength) before.memory after.memory := by
  rcases of_run_loadImage steady ran with ⟨describes, placing⟩
  exact reachesOnly_of_placeFrom steady describes.accepted sound placing

/-! ## Where an image lies -/

theorem value_segmentPage {position : Nat}
    (room : segment.address.value + segment.memorySize < 1 <<< 64)
    (below : position < segment.pages) :
    ((segment.address.alignDown .small).pageAfter position).value =
        segment.address.value / 4096 * 4096 + position * 4096 ∧
      segment.address.value / 4096 * 4096 + position * 4096 <
        segment.address.value + segment.memorySize := by
  simp only [Executable.Segment.pages, PageSize.pagesFor, Address.offset, PageSize.bytes] at below
  have inside : segment.address.value / 4096 * 4096 + position * 4096 <
      segment.address.value + segment.memorySize := by omega
  have start := Address.value_alignDown segment.address
  refine ⟨?_, inside⟩
  rw [Address.value_pageAfter (by omega)]
  omega

variable {kernel : KernelImage} {lowest : Nat}

/-- An image whose segments start at an address or above lies between it and its end. -/
theorem IsSegmentPage.bounds {page : VirtualAddress} (describes : Describes image kernel)
    (whole : lowest % 4096 = 0)
    (high : ∀ index < image.tableLength, (image.headerAt index).isLoadable = true →
      lowest ≤ (image.headerAt index).address)
    (isPage : IsSegmentPage image 0 image.tableLength page) :
    lowest ≤ page.value ∧ page.value < kernel.stop.value := by
  rcases isPage with ⟨index, _, below, segment, asked, position, _, inside, rfl⟩
  rcases Executable.of_segmentOf? asked with ⟨loadable, valid, follows⟩
  rcases value_segmentPage valid.room (by omega : position < segment.pages) with ⟨value, before⟩
  have start := high index (by omega) loadable
  have isMember : segment ∈ image.segmentsOf 0 image.tableLength :=
    List.mem_filterMap.2 ⟨index, List.mem_range'.2 ⟨index, by omega⟩, asked⟩
  have above := describes.stop.above segment isMember
  rw [← follows.address] at start
  omega

theorem Describes.lowest_le_stop (describes : Describes image kernel)
    (high : ∀ index < image.tableLength, (image.headerAt index).isLoadable = true →
      lowest ≤ (image.headerAt index).address) : lowest ≤ kernel.stop.value := by
  rcases describes.stop.reached with ⟨segment, member, reached⟩
  rcases List.mem_filterMap.1 member with ⟨index, inRange, asked⟩
  rcases Executable.of_segmentOf? asked with ⟨loadable, _, follows⟩
  have start := high index (by simpa using List.mem_range'.1 inRange) loadable
  rw [← follows.address] at start
  omega

/-! ## Beyond the identity map -/

variable {last : Frame} {created loaded : Paged (RegionTable capacity sorting)}
  {address : VirtualAddress}

/-- Beyond the identity map nothing is mapped but what was asked for. -/
theorem Identity.low_or_asked (identity : Identity root last 512 created)
    (reaches : ReachesOnly root asked created.memory loaded.memory)
    (mapped : (tables root).entryAt loaded.memory address.leafPath ≠ none) :
    address.pageKey.val < 512 ∨ ∃ page, asked page ∧ address.pageKey = page.pageKey := by
  have linked : ∀ memory : Memory, (tables root).tableAt memory address.leafPath =
      ((tables root).entryAt memory address.leafPath).map PageEntry.frame :=
    fun memory => Hierarchy.tableAt_eq_map_entryAt _ memory (by simp [Address.leafPath])
  have reached := reaches address.leafPath (Nat.le_of_eq address.length_leafPath)
  rw [linked, linked, ← AddressSpace.pages_pageKey created.memory, identity.pages] at reached
  rcases reached (by simpa using mapped) with low | ⟨page, isAsked, suffix⟩
  · left
    by_contra beyond
    exact low (by rw [identityPages, if_neg beyond]; rfl)
  · have same := suffix.eq_of_length (by simp)
    exact .inr ⟨page, isAsked, Address.leafPath_eq_iff.1 same⟩

/-- The slot of the recursive map is free unless a page behind it was asked for. -/
theorem Identity.slot_absent (identity : Identity root last 512 created)
    (reaches : ReachesOnly root asked created.memory loaded.memory)
    (clear : ∀ page, asked page → Level.pml4.index page ≠ RecursiveMap.slot) :
    (RecursiveMap.entryOf loaded.memory root).present = false := by
  cases present : (RecursiveMap.entryOf loaded.memory root).present with
  | false => rfl
  | true =>
      have linked : (tables root).tableAt loaded.memory [RecursiveMap.slot] ≠ none := by
        rw [Hierarchy.tableAt_cons_eq_some.2 ⟨root, rfl, present, rfl⟩]
        exact Option.some_ne_none _
      rcases reaches _ (by decide) linked with earlier | ⟨page, isAsked, suffix⟩
      · rcases Option.ne_none_iff_exists'.1 earlier with ⟨table, found⟩
        rcases identity.spine.only _ table (by decide) found with ⟨upper, same⟩
        cases upper <;> exact absurd same (by decide)
      · have first := List.suffix_of_suffix_length_le suffix (suffix_leafPath .pdpt page)
          (Nat.le_refl 1)
        exact absurd (List.head_eq_of_cons_eq (first.eq_of_length rfl)).symm (clear page isAsked)

end EarlyMemory.Loader
