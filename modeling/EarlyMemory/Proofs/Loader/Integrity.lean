import EarlyMemory.Proofs.Loader.Exactness

/-!
# Integrity of the loaded hierarchy

However a load ends, it may leave part of a segment mapped and tables linked for it. Even
then tables stand on reserved pages, what is mapped beyond the lowest pages is backed by
allocated pages, and no page is put to two of these uses or stays available.
-/

namespace EarlyMemory

namespace Region

variable {region : Region} {frame : Frame}

theorem holdsPage_of_covers {address : Nat} (whole : region.IsWhole) (holds : frame.Holds address)
    (covers : region.Covers address) : region.HoldsPage frame := by
  have start := whole.start
  have stop := whole.stop
  unfold Page.Holds at holds
  unfold HoldsPage Page.Within
  rcases covers with ⟨above, below⟩
  omega

end Region

namespace Loader

variable {capacity : Nat} {sorting : Region.Sorting} {root : Frame}
  {start after paged : Paged (RegionTable capacity sorting)}

/-- A page beyond the lowest ones, which are mapped to themselves, has a leaf. -/
def IsLoaded (root : Frame) (memory : Memory) (address : VirtualAddress) (leaf : PageEntry) :
    Prop :=
  512 ≤ address.pageKey.val ∧ (tables root).entryAt memory address.leafPath = some leaf

def IsInUse (root : Frame) (memory : Memory) (frame : Frame) : Prop :=
  (tables root).IsTable memory frame ∨
    ∃ address leaf, IsLoaded root memory address leaf ∧ leaf.frame = frame

structure IsIntact (root : Frame) (paged : Paged (RegionTable capacity sorting)) : Prop where
  tree : (tables root).IsTree paged.memory
  reserved : ∀ frame, (tables root).IsTable paged.memory frame → paged.source.IsReserved frame
  allocated : ∀ address leaf, IsLoaded root paged.memory address leaf →
    paged.source.BacksImage leaf.frame
  single : ∀ address leaf other otherLeaf, IsLoaded root paged.memory address leaf →
    IsLoaded root paged.memory other otherLeaf → leaf.frame = otherLeaf.frame →
    address.pageKey = other.pageKey
  unavailable : ∀ frame, IsInUse root paged.memory frame → ∀ region ∈ paged.source.regions,
    region.code = RegionKind.available.code → ∀ address, frame.Holds address →
    ¬ region.Covers address

theorem Reached.backsImage (reached : Reached start root after) {address : VirtualAddress}
    {leaf : PageEntry} (loaded : IsLoaded root after.memory address leaf) :
    after.source.BacksImage leaf.frame :=
  (reached.backed address leaf loaded.2).resolve_left (Nat.not_lt.2 loaded.1)

theorem Reached.isIntact (reached : Reached start root after) : IsIntact root after where
  tree := reached.sound.tree
  reserved := reached.sound.reserved
  allocated _ _ := reached.backsImage
  single address leaf other otherLeaf loaded otherLoaded same :=
    reached.single address other leaf otherLeaf loaded.1 otherLoaded.1 loaded.2 otherLoaded.2 same
  unavailable frame inUse region member available address holds covers := by
    have table := reached.sound.table
    -- A region of another code holds the page, so the available one does not.
    obtain ⟨holder, isHolder, code, holderHolds⟩ : ∃ holder ∈ after.source.regions,
        holder.code ≠ region.code ∧ holder.HoldsPage frame := by
      rcases inUse with isTable | ⟨page, leaf, loaded, rfl⟩
      · rcases reached.sound.reserved frame isTable with ⟨holder, isHolder, code, within⟩
        exact ⟨holder, isHolder, by rw [code, available]; decide, within⟩
      · rcases reached.backsImage loaded with ⟨holder, isHolder, code, within⟩
        exact ⟨holder, isHolder, by rw [code, available]; decide, within⟩
    have regionHolds := Region.holdsPage_of_covers (table.whole region member) holds covers
    have same := table.eq_of_holdsPage member isHolder (Region.isManaged_of_available available)
      regionHolds holderHolds
    exact code (congrArg Region.code same).symm

/-- Whatever was loaded and however each load ended, the hierarchy is a tree on reserved
frames, every page loaded has an allocated frame of its own, and none of these frames is
available. -/
theorem reached_hierarchy_is_intact (start after : Paged (RegionTable capacity sorting))
    (root : Frame) (built : start.source.Built) (apart : start.source.regions.Pairwise Region.Apart)
    (inside : ∀ region ∈ start.source.regions, region.code = RegionKind.available.code →
      ∀ address, region.Covers address → lowMemoryEnd.value ≤ address →
        start.memory.Contains address)
    (reaches : Reaches start root after) : IsIntact root after :=
  (reaches.reached (isStart_of_built built apart inside)).isIntact

theorem smallSegment_leaves_intact : ∃ loaded, Reaches smallStart smallRoot loaded ∧
    (∃ leaf, IsLoaded smallRoot loaded.memory smallSegment.address leaf) ∧
    IsIntact smallRoot loaded := by
  rcases exists_created with ⟨created, last, creating, identity, source⟩
  have allocated : (RegionTable.allocateAs smallSegment.pages .allocated :
      Operation (RegionTable 8) BootTables.Refusal _).run created.source =
      (.done (some ⟨0x104000, by decide⟩), smallBacked) := by
    rw [source]
    decide
  have given : (RegionTable.allocateFrame : Operation (RegionTable 8) MapError _).run smallBacked =
      (.done (some ⟨0x105, by decide⟩), smallHanded) := by
    decide
  rcases exists_loaded identity allocated given with ⟨loaded, ran⟩
  have backs := (loadSegment_spec identity.sound ran).2 _ rfl
  have page := (backs.pages 0 (by decide)).leaf
  have reaches : Reaches smallStart smallRoot loaded := .segment (.created creating) ran
  exact ⟨loaded, reaches, ⟨_, by decide, page⟩, reached_hierarchy_is_intact smallStart loaded
    smallRoot built_smallStart (by decide) contains_smallStart reaches⟩

end Loader

end EarlyMemory
