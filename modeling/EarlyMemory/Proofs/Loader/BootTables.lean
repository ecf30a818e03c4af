import EarlyMemory.Proofs.Loader.Backing
import EarlyMemory.Proofs.Paging.Laying
import EarlyMemory.Proofs.Paging.Refinement

/-!
# The first tables

The bootstrap tables are four frames in a row that were on offer. Each is linked before it
is cleared, and once the last of them is cleared they are the whole tree. The region table
holds them as reserved, so the kernel will not manage them.
-/

namespace EarlyMemory.Loader

open Operation
open AddressSpace (Linking linkedMemory)
open Memory (AgreesOutside)

variable {capacity : Nat} {sorting : Region.Sorting} {root frame next : Frame} {level child : Level}
  {below : List Level} {memory : Memory} {start before after : Paged (RegionTable capacity sorting)}

/-- The address whose walk takes the first entry of each table. -/
def lowest : VirtualAddress :=
  .ofNat 0

theorem index_lowest (level : Level) : level.index lowest = 0 := by
  cases level <;> rfl

/-- The tables stand on the walk for the lowest address only. -/
structure Spine (root : Frame) (memory : Memory) (level : Level) (last : Frame) : Prop where
  tree : (tables root).IsTree memory
  found : (tables root).tableAt memory (level.path lowest) = some last
  only : ∀ path : TablePath, ∀ frame, path.length ≤ 3 →
    (tables root).tableAt memory path = some frame → ∃ upper : Level, path = upper.path lowest
  between : ∀ frame, (tables root).IsTable memory frame → Page.Between root (last.number + 1) frame

/-- The tables so far, down to an empty one. -/
structure Chain (root : Frame) (memory : Memory) (level : Level) (last : Frame) : Prop
    extends Spine root memory level last where
  empty : ∀ index, (memory.entry last index).present = false

theorem chain_of_emptyRoot (inside : memory.HasFrame root)
    (empty : ∀ index, (memory.entry root index).present = false) :
    Chain root memory .pml4 root := by
  have emptyRoot : ∀ index, (tables root).hidden ≠ some index →
      (memory.entry (tables root).root index).present = false := fun index _ => empty index
  refine ⟨⟨Hierarchy.isTree_of_emptyRoot inside emptyRoot, Hierarchy.tableAt_nil, ?_, ?_⟩, empty⟩
  · intro path frame _ found
    rw [Hierarchy.tableAt_of_emptyRoot emptyRoot path (owns_tables path)] at found
    split at found
    next isRoot => exact ⟨.pml4, isRoot⟩
    next => cases found
  · intro frame isTable
    have isRoot : frame = root := Hierarchy.isTable_of_emptyRoot emptyRoot isTable
    rw [isRoot]
    exact ⟨Nat.le_refl _, Nat.lt_succ_self _⟩

theorem chain_of_clearedRoot (inside : memory.HasFrame root) :
    Chain root (memory.clearTable root) .pml4 root := by
  have cleared := Memory.agreesOutside_clearTable memory root
  apply chain_of_emptyRoot ((cleared.hasFrame_iff root).2 inside)
  intro index
  rw [Memory.entry_clearTable_same memory root inside]
  exact PageEntry.present_zero

theorem Chain.grow (chain : Chain root memory level frame) (further : level.below = child :: below)
    (above : root.number ≤ frame.number) (number : next.number = frame.number + 1)
    (inside : memory.HasFrame next) (linkable : next.IsLinkable) :
    Chain root ((memory.setEntry frame 0 (.table next)).clearTable next) child next := by
  have unused : ¬ (tables root).IsTable memory next := by
    intro isTable
    have := (chain.between next isTable).2
    omega
  have linking : Linking (BootTables.space root) memory lowest level child frame next :=
    ⟨chain.tree, leads_tables lowest, ⟨below, further⟩, chain.found, chain.empty _, inside,
      linkable, unused⟩
  have linked : linkedMemory memory lowest level frame next =
      memory.setEntry frame 0 (.table next) := by
    rw [linkedMemory, index_lowest]
  have grows := linking.grows
  have found := linking.tableAt_cleared
  have stays : (memory.setEntry frame 0 (.table next)).HasFrame next :=
    ((Memory.agreesOutside_setEntry ..).hasFrame_iff next).2 inside
  rw [linked] at grows found
  have length : (child.path lowest).length ≤ 3 := child.length_path_le
  refine ⟨⟨grows.tree, found, fun path other short leads => ?_, fun other isTable => ?_⟩,
    fun index => ?_⟩
  · -- The tree tells a path by its frame, which is the new one or an old one.
    rcases grows.tables other ⟨path, short, owns_tables path, leads⟩ with
      ⟨old, oldShort, owns, oldLeads⟩ | rfl
    · have same := grows.tree.unique path old other short (owns_tables path) leads oldShort owns
        (grows.kept old other oldShort owns oldLeads)
      rw [same]
      exact chain.only old other oldShort oldLeads
    · exact ⟨child, grows.tree.unique path (child.path lowest) other short (owns_tables path) leads
        length (owns_tables _) found⟩
  · rcases grows.tables other isTable with old | rfl
    · have := chain.between other old
      unfold Page.Between at this ⊢
      omega
    · unfold Page.Between
      omega
  · have cleared := Memory.entry_clearTable_same (memory.setEntry frame 0 (.table next)) next
      stays index
    rw [cleared]
    exact PageEntry.present_zero

/-! ## Linking -/

theorem of_reach_direct {address : VirtualAddress} {table : Frame}
    (reached : TableAccess.direct.reach memory level address frame = .ok table) :
    table = frame ∧ memory.IsAddressable := by
  cases required : memory.requireFrame frame with
  | error cause =>
      simp only [TableAccess.reach, bind, Except.bind, required] at reached
      cases reached
  | ok _ =>
      simp only [TableAccess.reach, bind, Except.bind, pure, Except.pure, required] at reached
      cases reached
      exact ⟨rfl, (Memory.of_requireInside required).1⟩

theorem run_reach_direct {ε : Type} {address : VirtualAddress}
    (addressable : before.memory.IsAddressable) (inside : before.memory.HasFrame frame) :
    (Paged.inspect fun memory => TableAccess.direct.reach memory level address frame :
      Operation (Paged (RegionTable capacity sorting)) ε _).run before = (.done frame, before) := by
  rw [Paged.run_inspect]
  simp only [TableAccess.reach, bind, Except.bind, pure, Except.pure,
    Memory.requireFrame_eq_ok addressable inside]

structure Links (root frame : Frame) (count : Nat)
    (before after : Paged (RegionTable capacity sorting)) : Prop where
  chain : ∃ last : Frame, last.number + 1 = frame.number + count ∧
    Chain root after.memory .pt last
  agrees : AgreesOutside (Page.Between frame (frame.number + count)) before.memory after.memory
  source : after.source = before.source

theorem link_cons (frame : Frame) (level : Level) (below : List Level) :
    (BootTables.link frame (level :: below) :
      Operation (Paged (RegionTable capacity sorting)) BootTables.Refusal Unit) = (do
        let table ← Paged.inspect fun memory =>
          TableAccess.direct.reach memory level ⟨0, by decide⟩ frame
        Paged.changeMemory fun memory => memory.clearTable table
        if level.next?.isSome then
          let next ← check (frame.advance 1)
          Paged.changeMemory fun memory => memory.setEntry table 0 (.table next)
          BootTables.link next below) :=
  rfl

theorem link_spec (addressable : before.memory.IsAddressable) (further : level.below = below)
    (above : root.number ≤ frame.number)
    (chain : Chain root (before.memory.clearTable frame) level frame)
    (offered : ∀ other, Page.Between frame (frame.number + (below.length + 1)) other →
      before.memory.HasFrame other ∧ other.IsLinkable) :
    ∃ after, (BootTables.link frame (level :: below)).run before = (.done (), after) ∧
      Links root frame (below.length + 1) before after := by
  induction below generalizing level frame before with
  | nil =>
      cases Level.eq_pt_of_below_eq_nil further
      have inside := (offered frame ⟨Nat.le_refl _, by omega⟩).1
      rcases Paged.exists_run_changeMemory
        (ε := BootTables.Refusal) (fun memory => memory.clearTable frame) before with
          ⟨cleared, change, clearedEq, source⟩
      have touched := Memory.agreesOutside_clearTable before.memory frame
      rw [← clearedEq] at chain touched
      refine ⟨cleared, ?_, ⟨frame, rfl, chain⟩, touched.mono ?_, source⟩
      · rw [link_cons, run_bind_of_done (run_reach_direct addressable inside),
          run_bind_of_done change]
        rfl
      · rintro other rfl
        exact ⟨Nat.le_refl _, Nat.lt_succ_self _⟩
  | cons child below induction =>
      simp only [List.length_cons] at offered ⊢
      rcases offered frame ⟨Nat.le_refl _, by omega⟩ with ⟨inside, linkable⟩
      obtain ⟨following, advanced, number⟩ : ∃ following : Frame,
          frame.advance 1 = .ok following ∧ following.number = frame.number + 1 := by
        unfold Page.IsLinkable at linkable
        exact ⟨_, Page.advance_eq_ok (by omega), rfl⟩
      rcases Paged.exists_run_changeMemory
        (ε := BootTables.Refusal) (fun memory => memory.clearTable frame) before with
          ⟨cleared, clearing, clearedEq, clearedSource⟩
      rcases Paged.exists_run_changeMemory
        (ε := BootTables.Refusal) (fun memory => memory.setEntry frame 0 (.table following)) cleared
          with ⟨linked, linking, linkedEq, linkedSource⟩
      have touched : AgreesOutside (· = frame) before.memory linked.memory := by
        rw [linkedEq, clearedEq]
        exact (Memory.agreesOutside_clearTable ..).trans (Memory.agreesOutside_setEntry ..)
      have offeredNext : ∀ other,
          Page.Between following (following.number + (below.length + 1)) other →
          linked.memory.HasFrame other ∧ other.IsLinkable := by
        intro other between
        unfold Page.Between at between
        rcases offered other (by unfold Page.Between; omega) with ⟨otherInside, otherLinkable⟩
        exact ⟨(touched.hasFrame_iff other).2 otherInside, otherLinkable⟩
      rcases offeredNext following ⟨Nat.le_refl _, by omega⟩ with ⟨nextInside, nextLinkable⟩
      have grown : Chain root (linked.memory.clearTable following) child following := by
        rw [linkedEq, clearedEq]
        refine chain.grow further above number ?_ nextLinkable
        rw [← clearedEq]
        rw [linkedEq] at nextInside
        exact ((Memory.agreesOutside_setEntry ..).hasFrame_iff _).1 nextInside
      rcases induction (touched.isAddressable_iff.2 addressable)
        (Level.below_eq_cons further).1 (by omega) grown offeredNext with ⟨after, ran, rest⟩
      have next : level.next?.isSome = true := by
        cases level <;> first | rfl | cases further
      rcases rest.chain with ⟨last, lastNumber, lastChain⟩
      refine ⟨after, ?_, ⟨⟨last, by omega, lastChain⟩, ?_, ?_⟩⟩
      · rw [link_cons, run_bind_of_done (run_reach_direct addressable inside),
          run_bind_of_done clearing, if_pos next, advanced,
          run_bind_of_done (run_check_ok ..), run_bind_of_done linking, ran]
      · refine (touched.mono ?_).trans (rest.agrees.mono ?_)
        · rintro other rfl
          exact ⟨Nat.le_refl _, by omega⟩
        · intro other between
          unfold Page.Between at between ⊢
          omega
      · exact rest.source.trans (linkedSource.trans clearedSource)

/-! ## The first mebibytes -/

def identityPages (count : Nat) : PageMap := fun key =>
  if key.val < count then
    some (.leaf ((Address.ofNat (key.val * 4096) : PhysicalAddress).page .small) .all)
  else
    none

structure MapsLowest (root last : Frame) (count : Nat) (memory : Memory) : Prop where
  addressable : memory.IsAddressable
  spine : Spine root memory .pt last
  pages : (BootTables.space root).pages memory = identityPages count

structure Identity (root last : Frame) (count : Nat)
    (paged : Paged (RegionTable capacity sorting)) : Prop where
  sound : IsSound root paged
  spine : Spine root paged.memory .pt last
  pages : (BootTables.space root).pages paged.memory = identityPages count

theorem Spine.extend {after : Memory} (spine : Spine root memory level frame)
    (widened : (tables root).Extends (fun _ => False) memory after) :
    Spine root after level frame where
  tree := widened.tree
  found := widened.kept _ _ level.length_path_le (owns_tables _) spine.found
  only path other short leads := by
    rcases (widened.tables other ⟨path, short, owns_tables path, leads⟩).resolve_right id with
      ⟨old, oldShort, owns, oldLeads⟩
    have same := widened.tree.unique path old other short (owns_tables path) leads oldShort owns
      (widened.kept old other oldShort owns oldLeads)
    rw [same]
    exact spine.only old other oldShort oldLeads
  between other isTable := spine.between other ((widened.tables other isTable).resolve_right id)

theorem path_identity {count : Nat} (below : count < 512) :
    Level.pt.path (.ofNat (count * 4096)) = Level.pt.path lowest := by
  simp only [Level.path, List.cons.injEq, and_true, Fin.ext_iff, Level.val_index, Level.shift,
    Address.ofNat, lowest, Nat.reduceShiftLeft, Nat.shiftRight_eq_div_pow]
  omega

theorem mapsLowest_of_map {count : Nat} (maps : MapsLowest root frame count before.memory)
    (below : count < 512) :
    ∃ after, (BootTables.map root (.ofNat (count * 4096)) (.ofNat (count * 4096)) .all :
        Operation (Paged (RegionTable capacity sorting)) BootTables.Refusal Unit).run before =
        (.done (), after) ∧
      MapsLowest root frame (count + 1) after.memory ∧ after.source = before.source ∧
      AgreesOutside (· = frame) before.memory after.memory := by
  have key : (Address.ofNat (count * 4096) : VirtualAddress).pageKey.val = count := by
    simp only [Address.pageKey, Address.ofNat, Nat.reduceShiftLeft]
    omega
  have found := maps.spine.found
  rw [← path_identity below] at found
  have absent : (tables root).entryAt before.memory
      (Address.ofNat (count * 4096) : VirtualAddress).leafPath = none := by
    rw [← AddressSpace.pages_pageKey, maps.pages]
    exact if_neg (by omega)
  have mapped := AddressSpace.run_map_direct_of_found (.ofNat (count * 4096)) .all
    maps.addressable (maps.spine.tree.hasTables (leads_tables _) .pt) found
  rw [Address.leafPath, Hierarchy.entryAt_cons_of_some found] at absent
  rw [absent] at mapped
  have filling : (BootTables.space root).Filling before.memory (.ofNat (count * 4096)) frame :=
    ⟨maps.spine.tree, leads_tables _, found⟩
  have agrees : AgreesOutside (· = frame) before.memory
      ((BootTables.space root).filledPaged before (.ofNat (count * 4096)) (.ofNat (count * 4096))
        .all frame).memory := by
    rw [AddressSpace.memory_filledPaged]
    exact Memory.agreesOutside_setEntry ..
  refine ⟨_, ?_, ⟨agrees.isAddressable_iff.2 maps.addressable, ?_, ?_⟩,
    AddressSpace.source_filledPaged before, agrees⟩
  · rw [BootTables.map, run_mapRefusal]
    exact mapped ▸ rfl
  · rw [AddressSpace.memory_filledPaged]
    exact maps.spine.extend (filling.widens (PageEntry.present_leaf ..))
  · funext other
    have before := congrFun maps.pages other
    unfold AddressSpace.pages at before ⊢
    rw [AddressSpace.memory_filledPaged, filling.leaves (PageEntry.present_leaf ..) _
      (Address.length_leafPath _) (owns_tables _), before]
    have same : (Address.ofPageKey other).leafPath =
        (Address.ofNat (count * 4096) : VirtualAddress).leafPath ↔ other.val = count := by
      rw [Address.leafPath_eq_iff, Address.pageKey_ofPageKey, Fin.ext_iff, key]
    unfold identityPages
    by_cases here : other.val = count
    · rw [if_pos (same.2 here), if_pos (by omega), here]
    · rw [if_neg (here ∘ same.1)]
      by_cases low : other.val < count
      · rw [if_pos low, if_pos (by omega)]
      · rw [if_neg low, if_neg (by omega)]

theorem mapsLowest_of_mapIdentity {count remaining : Nat} (room : count + remaining ≤ 512)
    (maps : MapsLowest root frame count before.memory) :
    ∃ after, (BootTables.mapIdentity root count remaining).run before = (.done (), after) ∧
      MapsLowest root frame (count + remaining) after.memory ∧ after.source = before.source ∧
      AgreesOutside (· = frame) before.memory after.memory := by
  induction remaining generalizing count before with
  | zero => exact ⟨before, rfl, maps, rfl, .refl _⟩
  | succ remaining induction =>
      rcases mapsLowest_of_map maps (by omega) with ⟨middle, mapped, further, source, agrees⟩
      rcases induction (by omega) further with ⟨after, ran, last, sourceAfter, agreesAfter⟩
      refine ⟨after, ?_, ?_, sourceAfter.trans source, agrees.trans agreesAfter⟩
      · rw [BootTables.mapIdentity]
        exact (run_bind_of_done mapped).trans ran
      · rwa [Nat.add_assoc, Nat.add_comm 1 remaining] at last

/-! ## The tables as created -/

/-- What the tables are built from: the memory on offer lies in the machine. -/
structure IsStart (start : Paged (RegionTable capacity sorting)) : Prop where
  table : start.source.IsSound
  inside : ∀ frame, start.source.OffersFrame frame → start.memory.HasFrame frame

theorem Chain.mapsLowest (chain : Chain root memory .pt frame)
    (addressable : memory.IsAddressable) : MapsLowest root frame 0 memory where
  addressable := addressable
  spine := chain.toSpine
  pages := by
    funext key
    have parent : (tables root).tableAt memory (Level.pt.path (Address.ofPageKey key)) = none ∨
        (tables root).tableAt memory (Level.pt.path (Address.ofPageKey key)) = some frame := by
      cases leads : (tables root).tableAt memory (Level.pt.path (Address.ofPageKey key)) with
      | none => exact .inl rfl
      | some other =>
          rcases chain.only _ other (Nat.le_refl _) leads with ⟨upper, same⟩
          have depth := congrArg List.length same
          rw [Level.length_path, Level.length_path] at depth
          rw [same, ← Level.eq_of_depth_eq depth, chain.found] at leads
          exact .inr leads.symm
    change (tables root).entryAt memory (Address.ofPageKey key).leafPath = none
    rcases parent with missing | found
    · exact Hierarchy.entryAt_leafPath_of_none missing
    · rw [Address.leafPath, Hierarchy.entryAt_cons_of_some found,
        Memory.presentEntry_eq_none (chain.empty _)]

abbrev IsTableFrame (root : Frame) : Frame → Prop :=
  Page.Between root (root.number + 4)

theorem isLinkable_of_allocates {source table : RegionTable capacity sorting}
    {base : PhysicalAddress} (whole : ∀ region ∈ source.regions, region.IsWhole)
    (allocates : RegionTable.Allocates source 4 .reserved (some base) table) :
    ∀ frame, IsTableFrame (base.page .small) frame → frame.IsLinkable := by
  cases allocates with
  | carved _ stop host others atStart extent high carves =>
      have hostWhole := whole host (carves.mem_before.2 (.inl rfl))
      have taken := RegionTable.isWhole_of_allocates .reserved hostWhole atStart extent carves.stop
      have aligned : base.value % 4096 = 0 := taken.start
      have within : stop.value ≤ physicalLimit.value := taken.within
      have limit : physicalLimit.value = 0x10000000000000 := rfl
      have number : (base.page .small).number = base.value / 4096 := rfl
      intro frame between
      unfold IsTableFrame Page.Between at between
      unfold Page.IsLinkable
      omega

/-- What creating the tables on four frames in a row leaves behind, whatever the frames held. -/
structure Creates (root last : Frame) (start after : Paged (RegionTable capacity sorting)) :
    Prop where
  number : last.number + 1 = root.number + 4
  maps : MapsLowest root last 512 after.memory
  agrees : AgreesOutside (IsTableFrame root) start.memory after.memory

theorem run_allocateTables {answer : Option PhysicalAddress} {table : RegionTable capacity sorting}
    (allocated : (RegionTable.allocateAs 4 .reserved :
      Operation (RegionTable capacity sorting) BootTables.Refusal _).run start.source =
      (.done answer, table)) :
    (Paged.onSource (RegionTable.allocate Level.all.length) :
      Operation (Paged (RegionTable capacity sorting)) BootTables.Refusal _).run start =
      (.done answer, ⟨start.machine, table⟩) :=
  Paged.run_onSource_of_run allocated

theorem create_of_frames {base : PhysicalAddress} {table : RegionTable capacity sorting}
    (addressable : start.memory.IsAddressable)
    (allocated : (RegionTable.allocateAs 4 .reserved :
      Operation (RegionTable capacity sorting) BootTables.Refusal _).run start.source =
      (.done (some base), table))
    (frames : ∀ frame, IsTableFrame (base.page .small) frame →
      start.memory.HasFrame frame ∧ frame.IsLinkable) :
    ∃ after last, (BootTables.create .long64).run start = (.done (base.page .small), after) ∧
      after.source = table ∧ Creates (base.page .small) last start after := by
  have readable : (Paged.memory ⟨start.machine, table⟩).IsAddressable := addressable
  have offered : ∀ frame, IsTableFrame (base.page .small) frame →
      (Paged.memory ⟨start.machine, table⟩).HasFrame frame ∧ frame.IsLinkable := frames
  have isRoot := (offered (base.page .small) ⟨Nat.le_refl _, by omega⟩).1
  rcases link_spec readable (show Level.pml4.below = [.pdpt, .pd, .pt] from rfl) (Nat.le_refl _)
    (chain_of_clearedRoot isRoot) offered with ⟨linked, linking, links⟩
  rcases links.chain with ⟨last, lastNumber, chain⟩
  rcases mapsLowest_of_mapIdentity (show 0 + 512 ≤ 512 by decide)
    (chain.mapsLowest (links.agrees.isAddressable_iff.2 readable)) with
    ⟨after, mapping, mapped, source, agrees⟩
  refine ⟨after, last, ?_, source.trans links.source,
    ⟨lastNumber, mapped, links.agrees.trans (agrees.mono ?_)⟩⟩
  · rw [BootTables.create, run_bind_of_done (run_allocateTables allocated)]
    exact (run_bind_of_done linking).trans ((run_bind_of_done (run_report ..)).trans
      ((run_bind_of_done mapping).trans (run_bind_of_done (run_report ..))))
  · rintro _ rfl
    exact ⟨by omega, by omega⟩

theorem Creates.identity {base stop : PhysicalAddress} {host : Region} {others : List Region}
    {last : Frame} (creates : Creates (base.page .small) last start after)
    (isStart : IsStart start) (extent : stop.value = base.value + 4 * 4096)
    (atStart : base = host.start) (high : lowMemoryEnd.value ≤ host.start.value)
    (carves : RegionTable.Carves start.source after.source (Region.of .reserved base stop) host
      others) : Identity (base.page .small) last 512 after := by
  have number : (base.page .small).number = base.value / 4096 := rfl
  have hostWhole := isStart.table.whole host (carves.mem_before.2 (.inl rfl))
  have whole := RegionTable.isWhole_of_allocates .reserved hostWhole atStart extent carves.stop
  have aligned : base.value % 4096 = 0 := whole.start
  have other : RegionKind.reserved.code ≠ RegionKind.available.code := by decide
  have precedes := carves.precedes isStart.table other high
  refine ⟨⟨creates.maps.addressable, creates.maps.spine.tree, carves.isSound isStart.table whole,
    ?_, ?_⟩, creates.maps.spine, creates.maps.pages⟩
  · intro frame offered
    exact (creates.agrees.hasFrame_iff frame).2
      (isStart.inside frame (precedes.offers frame offered))
  · intro frame isTable
    have between := creates.maps.spine.between frame isTable
    have := creates.number
    refine ⟨_, carves.taken_mem, rfl, ?_⟩
    unfold Page.Between at between
    change base.value ≤ _ ∧ _ ≤ stop.value
    omega

/-- If four frames are found in a row, they become the tables and the lowest pages are
mapped to themselves. Nothing is written but to frames on offer. -/
theorem create_spec {base : PhysicalAddress} {table : RegionTable capacity sorting}
    (isStart : IsStart start) (addressable : start.memory.IsAddressable)
    (allocated : (RegionTable.allocateAs 4 .reserved :
      Operation (RegionTable capacity sorting) BootTables.Refusal _).run start.source =
      (.done (some base), table)) :
    ∃ after last, (BootTables.create .long64).run start = (.done (base.page .small), after) ∧
      Identity (base.page .small) last 512 after ∧ after.source = table ∧
      start.source.Precedes table ∧ (base.page .small).IsLinkable ∧
      AgreesOutside start.source.OffersFrame start.memory after.memory := by
  rcases RegionTable.allocates_of_allocateAs allocated with ⟨_, ⟨⟩, allocates⟩
  have linkable := isLinkable_of_allocates isStart.table.whole allocates
  cases allocates with
  | carved _ stop host others atStart extent high carves =>
      have hostWhole := isStart.table.whole host (carves.mem_before.2 (.inl rfl))
      have aligned : base.value % 4096 = 0 := atStart ▸ hostWhole.start
      have number : (base.page .small).number = base.value / 4096 := rfl
      have fromStart : lowMemoryEnd.value ≤ host.start.value := atStart ▸ high
      have below := carves.stop
      have fromHost := carves.start
      simp only [Region.of] at below fromHost
      have offers : ∀ frame, IsTableFrame (base.page .small) frame →
          start.source.OffersFrame frame := by
        intro frame between
        unfold IsTableFrame Page.Between at between
        exact ⟨host, carves.mem_before.2 (.inl rfl), carves.available, fromStart, by omega,
          by omega⟩
      rcases create_of_frames addressable allocated fun frame between =>
        ⟨isStart.inside frame (offers frame between), linkable frame between⟩ with
        ⟨after, last, ran, rfl, creates⟩
      have other : RegionKind.reserved.code ≠ RegionKind.available.code := by decide
      exact ⟨after, last, ran, creates.identity isStart extent atStart fromStart carves, rfl,
        carves.precedes isStart.table other fromStart, linkable _ ⟨Nat.le_refl _, by omega⟩,
        creates.agrees.mono offers⟩

theorem of_run_create (ran : (BootTables.create .long64).run start = (.done root, after)) :
    ∃ base table, (RegionTable.allocateAs 4 .reserved :
        Operation (RegionTable capacity sorting) BootTables.Refusal _).run start.source =
          (.done (some base), table) ∧
      root = base.page .small ∧ start.memory.IsAddressable := by
  rcases RegionTable.allocateAs_spec (ε := BootTables.Refusal) start.source 4 .reserved with
    ⟨answer, table, allocated, _⟩
  rw [BootTables.create, run_bind_of_done (run_allocateTables allocated)] at ran
  cases answer with
  | none => cases ran
  | some base =>
      -- The first access to the tables shows that the memory can be accessed at all.
      rcases of_run_bind ran with ⟨_, linked, linking, remaining⟩
      rw [Level.all, link_cons] at linking
      rcases of_run_bind linking with ⟨_, _, reading, _⟩
      rcases of_run_bind remaining with ⟨_, _, _, remaining⟩
      rcases of_run_bind remaining with ⟨_, _, _, remaining⟩
      rcases of_run_bind remaining with ⟨_, _, _, ending⟩
      exact ⟨base, table, allocated, (of_run_pure ending).1.symm,
        (of_reach_direct (Paged.of_run_inspect reading).1).2⟩

theorem identity_of_create (isStart : IsStart start)
    (ran : (BootTables.create .long64).run start = (.done root, after)) :
    (∃ last, Identity root last 512 after) ∧ start.source.Precedes after.source ∧
      root.IsLinkable ∧ AgreesOutside start.source.OffersFrame start.memory after.memory := by
  rcases of_run_create ran with ⟨base, table, allocated, rfl, addressable⟩
  rcases create_spec isStart addressable allocated with
    ⟨_, last, same, identity, source, precedes, linkable, agrees⟩
  rw [ran] at same
  cases same
  exact ⟨⟨last, identity⟩, source ▸ precedes, linkable, agrees⟩

end EarlyMemory.Loader
