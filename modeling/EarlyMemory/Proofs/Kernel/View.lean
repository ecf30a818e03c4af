import EarlyMemory.Proofs.Kernel.Bookkeeping

/-!
# The kernel's view of the loader's regions

A manager that took over regions is ready and lists the runs of those regions. What it tells
of a page is what the regions say of it, except that the frames of its ledger and of the
tables that map the ledger are busy from the start. The ledger is mapped read-write at the
addresses that the manager was about to map to.
-/

namespace EarlyMemory

open Operation

namespace Region

variable {regions : List Region} {region other left right : Region} {page : Frame}

theorem Precedes.not_holdsPage (precedes : left.Precedes right) (holds : left.HoldsPage page) :
    ¬ right.HoldsPage page := by
  rcases holds with ⟨leftAbove, leftBelow⟩
  rintro ⟨rightAbove, rightBelow⟩
  have lower : left.Covers (page.number * 4096) := ⟨leftAbove, by omega⟩
  have higher : right.Covers (page.number * 4096) := ⟨rightAbove, by omega⟩
  exact Nat.lt_irrefl _ (precedes _ _ lower higher)

theorem eq_of_holdsPage (sorted : regions.Pairwise Precedes) (member : region ∈ regions)
    (holds : region.HoldsPage page) (otherMember : other ∈ regions)
    (otherHolds : other.HoldsPage page) : region = other := by
  induction sorted with
  | nil => cases member
  | cons ahead _ induction =>
      rcases List.mem_cons.1 member with rfl | later
      · rcases List.mem_cons.1 otherMember with rfl | otherLater
        · rfl
        · exact absurd otherHolds ((ahead other otherLater).not_holdsPage holds)
      · rcases List.mem_cons.1 otherMember with rfl | otherLater
        · exact absurd holds ((ahead region later).not_holdsPage otherHolds)
        · exact induction later otherLater

end Region

namespace Run

variable {runs : List Run}

structure IsListedAs (run : Run) (descriptor : Descriptor) : Prop where
  base : descriptor.base = run.base
  pages : run.pages = .ok descriptor.pages
  kind : descriptor.kind = run.kind

theorem planned_lists (offset : Nat) (wellFormed : ∀ run ∈ runs, run.IsWellFormed) :
    List.Forall₂ IsListedAs runs (planned offset runs) := by
  induction runs generalizing offset with
  | nil => exact .nil
  | cons run rest induction =>
      rw [List.forall_mem_cons] at wellFormed
      exact .cons ⟨rfl, pages_eq_ok wellFormed.1.proper, rfl⟩ (induction _ wellFormed.2)

theorem exists_planned_among_iff {regions : List Region} (property : KernelKind → Prop)
    (aligned : ∀ region ∈ regions, region.IsPageAligned) (page : Frame) :
    (∃ descriptor ∈ planned 0 (ofRegions regions),
        property descriptor.kind ∧ descriptor.HoldsPage page) ↔
      ∃ region ∈ regions, property region.kernelKind ∧ region.HoldsPage page := by
  constructor
  · rintro ⟨descriptor, member, ofKind, holds⟩
    rcases (exists_planned_iff aligned).1 ⟨descriptor, member, rfl, holds⟩ with
      ⟨region, isRegion, sameKind, holds⟩
    exact ⟨region, isRegion, sameKind ▸ ofKind, holds⟩
  · rintro ⟨region, isRegion, ofKind, holds⟩
    rcases (exists_planned_iff aligned).2 ⟨region, isRegion, rfl, holds⟩ with
      ⟨descriptor, member, sameKind, holds⟩
    exact ⟨descriptor, member, sameKind ▸ ofKind, holds⟩

end Run

namespace FrameManager

variable {regions : List Region} {region : Region} {layout : Ledger.Layout} {root page : Frame}
  {strip left : FrameStrip} {used : Nat}
  {before mapped opened marked after : Paged FrameManager}

/-! ## What is taken over -/

/-- How many of the frames behind the ledger become tables while it is mapped. -/
def TakesTables (layout : Ledger.Layout) (region : Region) (before : Paged FrameManager)
    (used : Nat) : Prop :=
  ∃ strip address left mapped, earlyFrames region.start layout = .ok strip ∧
    (Paged.lending strip (mapBeyond region.start layout.metadataPages .readWrite)).run before =
      (.done (address, left), mapped) ∧
    left.used = .ok used

/-- What has to hold once the recursive map is installed, before regions are taken over. -/
structure IsInstalled (root : Frame) (regions : List Region) (paged : Paged FrameManager) :
    Prop where
  addressable : paged.memory.IsAddressable
  tree : (spaceBelow root).hierarchy.IsTree paged.memory
  served : (spaceBelow root).IsServed paged.memory
  active : paged.source.active = root
  owner : paged.source.root = some root
  /-- A manager starts at a page boundary when it is created. -/
  aligned : paged.source.nextVirtual.value % 4096 = 0
  unmanaged : ∀ frame, (spaceBelow root).hierarchy.IsTable paged.memory frame →
    frame ∉ managedPages regions
  /-- The frames of the ledger, and those that tables are taken from, are there. -/
  inside : ∀ layout region, Chooses regions layout region → ∀ frame : Frame,
    region.start.value ≤ frame.number * 4096 →
    frame.number * 4096 <
      region.start.value + (layout.metadataPages + layout.tableFrames) * 4096 →
    paged.memory.HasFrame frame
  /-- No page of the ledger is mapped through the recursive slot. -/
  clear : ∀ layout region, Chooses regions layout region → ∀ index < layout.metadataPages,
    Level.pml4.index (paged.source.nextVirtual.pageAfter index) ≠ RecursiveMap.slot

theorem IsInstalled.admits (installed : IsInstalled root regions before)
    (chooses : Chooses regions layout region) (hosts : layout.Hosts region)
    (member : region ∈ regions) : Admits root layout region.start before where
  addressable := installed.addressable
  tree := installed.tree
  served := installed.served
  active := installed.active
  owner := installed.owner
  aligned := installed.aligned
  hostAligned := hosts.whole.start
  frames frame above below :=
    ⟨installed.inside layout region chooses frame above below, hosts.isLinkable above below,
      fun isTable => installed.unmanaged frame isTable
        ⟨region, member, .inl hosts.available, hosts.holdsPage above below⟩⟩

theorem IsInstalled.leads (installed : IsInstalled root regions before)
    (chooses : Chooses regions layout region) : ∀ index < layout.metadataPages,
      (spaceBelow root).hierarchy.Leads (before.source.nextVirtual.pageAfter index) :=
  fun index below =>
    Hierarchy.leads_without.2 (installed.clear layout region chooses index below)

theorem Prepared.isInstalled {capacity : Nat} {sorting : Region.Sorting}
    {table : RegionTable capacity sorting} (prepared : Prepared root table before)
    (clear : ∀ layout, Ledger.Layout.ofRegions table.regions = .ok layout →
      ∀ index < layout.metadataPages,
        Level.pml4.index (before.source.nextVirtual.pageAfter index) ≠ RecursiveMap.slot) :
    IsInstalled root table.regions before where
  addressable := prepared.addressable
  tree := prepared.tree
  served := prepared.served
  active := prepared.active
  owner := prepared.owner
  aligned := prepared.aligned
  unmanaged frame isTable managed := prepared.unmanaged frame isTable (mem_managedPages.1 managed)
  inside layout region chooses frame above below := by
    rcases chooses.found with ⟨bytes, size, found⟩
    rcases Ledger.Layout.hosts_of_find prepared.wellFormed size found with ⟨member, hosts⟩
    exact ((prepared.admits hosts member).frames frame above below).1
  clear layout region chooses := clear layout chooses.planned

/-! ## What is known afterwards -/

/-- Whether a page lies in a region that is free to use. -/
def IsAvailable (regions : List Region) (page : Frame) : Prop :=
  ∃ region ∈ regions, region.code = RegionKind.available.code ∧ region.HoldsPage page

/-- Whether a page lies in a region that the kernel leaves alone, of whatever code. -/
def IsUnavailable (regions : List Region) (page : Frame) : Prop :=
  ∃ region ∈ regions, (region.code ≠ RegionKind.available.code ∧
    region.code ≠ RegionKind.allocated.code) ∧ region.HoldsPage page

/-- Whether a page holds the ledger at a host, or one of the tables taken from behind it. -/
def IsOwn (layout : Ledger.Layout) (host : PhysicalAddress) (used : Nat) (page : Frame) : Prop :=
  IsAmong (host.page .small) 0 (layout.metadataPages + used) page

/-- What a manager that took over regions knows of them. -/
structure Views (root : Frame) (regions : List Region) (layout : Ledger.Layout)
    (host : PhysicalAddress) (used : Nat) (before after : Paged FrameManager) : Prop where
  ready : after.source.stage = .ready
  listed : List.Forall₂ Run.IsListedAs (Run.ofRegions regions) (descriptors after)
  busy : ∀ page, ((isBusy page).run after).1 = .done true ↔
    IsAllocated regions page ∨ IsOwn layout host used page
  free : ∀ page, ((isBusy page).run after).1 = .done false ↔
    IsAvailable regions page ∧ ¬ IsOwn layout host used page
  notAvailable : ∀ page, ((isBusy page).run after).1 = .refused (.notAvailable page.base) ↔
    IsUnavailable regions page
  outOfRange : ∀ page, ((isBusy page).run after).1 = .refused (.outOfRange page.base) ↔
    ¬ ∃ region ∈ regions, region.HoldsPage page
  mapped : ∀ index < layout.metadataPages,
    (spaceBelow root).query after.memory (before.source.nextVirtual.pageAfter index) =
      .ok (some (.leaf ((host.pageAfter index).page .small) .readWrite))
  cursor : after.source.nextVirtual.value =
    before.source.nextVirtual.value + layout.metadataPages * 4096

theorem mem_managedPages_iff_or :
    page ∈ managedPages regions ↔ IsAvailable regions page ∨ IsAllocated regions page := by
  simp only [managedPages, IsAvailable, IsAllocated, Set.mem_ofPred_eq, or_and_right, and_or_left,
    exists_or]

theorem IsAvailable.not_isAllocated (sorted : regions.Pairwise Region.Precedes)
    (available : IsAvailable regions page) : ¬ IsAllocated regions page := by
  rcases available with ⟨region, member, code, holds⟩
  rintro ⟨other, isOther, otherCode, otherHolds⟩
  cases Region.eq_of_holdsPage sorted member holds isOther otherHolds
  rw [code] at otherCode
  exact absurd otherCode (by decide)

namespace Settles

variable (settles : Settles root regions layout region.start strip left used before mapped opened
  marked)

include settles

theorem used_le : used ≤ layout.tableFrames := by
  have count := used_eq settles.maps.start settles.isUsed
  have within := settles.maps.within
  have stop := settles.behind.stop
  omega

theorem isAvailable_of_isOwn (hosts : layout.Hosts region) (member : region ∈ regions)
    (own : IsOwn layout region.start used page) : IsAvailable regions page := by
  have few := settles.used_le
  have aligned := hosts.whole.start
  have first : (region.start.page .small).number = region.start.value / 4096 := rfl
  rcases own with ⟨above, below⟩
  exact ⟨region, member, hosts.available, hosts.holdsPage (by omega) (by omega)⟩

theorem isFree_iff (aligned : ∀ region ∈ regions, region.IsPageAligned) (page : Frame) :
    marked.source.ledger.IsFree marked.memory page ↔ page ∈ managedPages regions ∧
      ¬ (IsAllocated regions page ∨ IsOwn layout region.start used page) := by
  rw [settles.withdraws.free, settles.opens.isFree_iff aligned, mem_managedPages]
  rfl

theorem query_eq (admits : Admits root layout region.start before)
    (leads : ∀ index < layout.metadataPages,
      (spaceBelow root).hierarchy.Leads (before.source.nextVirtual.pageAfter index))
    {index : Nat} (below : index < layout.metadataPages) :
    (spaceBelow root).query marked.memory (before.source.nextVirtual.pageAfter index) =
      .ok (some (.leaf ((region.start.pageAfter index).page .small) .readWrite)) := by
  rcases settles.maps.grows admits settles.behind
    (settles.opens.agrees.trans settles.withdraws.agrees) with ⟨addressable, served, grows⟩
  have lead := leads index below
  have kept := grows.leaves _ (Address.length_leafPath _) (lead.owns_leafPath)
  rw [AddressSpace.query_eq addressable served (grows.tree.hasTables lead .pt), kept,
    settles.maps.leaves index below]

theorem nextVirtual_eq : marked.source.nextVirtual.value =
    before.source.nextVirtual.value + layout.metadataPages * 4096 := by
  rcases settles.maps.manager with ⟨next, source, value⟩
  rw [settles.withdraws.source, settles.opens.source, source]
  exact value

theorem views (wellFormed : ∀ region ∈ regions, region.IsWellFormed)
    (sorted : regions.Pairwise Region.Precedes) (hosts : layout.Hosts region)
    (member : region ∈ regions) (admits : Admits root layout region.start before)
    (leads : ∀ index < layout.metadataPages,
      (spaceBelow root).hierarchy.Leads (before.source.nextVirtual.pageAfter index)) :
    Views root regions layout region.start used before
      ⟨marked.machine, { marked.source with stage := .ready }⟩ := by
  have aligned : ∀ region ∈ regions, region.IsPageAligned :=
    fun region isRegion => (wellFormed region isRegion).2.isPageAligned
  have accounts := accountsFor_of_withdraws aligned sorted settles.opens settles.withdraws
  have recorded : marked.source.ledger.descriptors marked.memory =
      Run.planned 0 (Run.ofRegions regions) :=
    settles.withdraws.recorded.trans settles.opens.recorded
  have free := settles.isFree_iff aligned
  refine
    { ready := rfl
      listed := ?listed
      busy := fun page => ?busy
      free := fun page => ?free
      notAvailable := fun page => ?notAvailable
      outOfRange := fun page => ?outOfRange
      mapped := fun index below => settles.query_eq admits leads below
      cursor := settles.nextVirtual_eq }
  case listed =>
    change List.Forall₂ _ _ (marked.source.ledger.descriptors marked.memory)
    rw [recorded]
    exact Run.planned_lists 0 fun run isRun => (Run.mem_ofRegions aligned isRun).1
  case busy =>
    have managed : IsAllocated regions page ∨ IsOwn layout region.start used page →
        page ∈ managedPages regions := by
      rintro (allocated | own)
      · exact mem_managedPages_iff_or.2 (.inr allocated)
      · exact mem_managedPages_iff_or.2 (.inl (settles.isAvailable_of_isOwn hosts member own))
    refine accounts.mem_busyPages_iff.trans ((and_congr_right' (not_congr (free page))).trans ?_)
    tauto
  case free =>
    have exclusive : IsAvailable regions page → ¬ IsAllocated regions page :=
      fun available => available.not_isAllocated sorted
    refine accounts.run_isBusy_eq_false_iff.trans ((free page).trans ?_)
    rw [mem_managedPages_iff_or]
    tauto
  case notAvailable =>
    have unmanaged : IsUnavailable regions page ↔
        ∃ region ∈ regions, region.kernelKind ≠ .available ∧ region.HoldsPage page := by
      refine exists_congr fun region => and_congr_right' (and_congr_left' ?_)
      rw [← not_or]
      exact not_congr Region.isManaged_iff.symm
    rw [accounts.run_isBusy_eq_notAvailable_iff, unmanaged,
      ← Run.exists_planned_among_iff (· ≠ .available) aligned, ← recorded]
    rfl
  case outOfRange =>
    have held := Run.exists_planned_among_iff (fun _ => True) aligned page
    simp only [true_and] at held
    rw [accounts.run_isBusy_eq_outOfRange_iff, ← held, ← recorded]
    rfl

end Settles

/-- A manager that took over the loader's regions knows them as they are: its runs are theirs,
each page is told busy, free, not available or out of range as they and its own frames have
it, and its ledger is mapped where it was about to map. -/
theorem adopted_manager_views_regions (wellFormed : ∀ region ∈ regions, region.IsWellFormed)
    (sorted : regions.Pairwise Region.Precedes) (installed : IsInstalled root regions before)
    (done : (adopt regions).run before = (.done (), after)) :
    ∃ layout region used, Chooses regions layout region ∧
      TakesTables layout region before used ∧
      Views root regions layout region.start used before after := by
  rcases of_run_adopt done with ⟨layout, region, address, strip, left, mapped, opened, allocated,
    marked, steps, rfl⟩
  rcases steps.found with ⟨bytes, size, found⟩
  rcases Ledger.Layout.hosts_of_find wellFormed size found with ⟨member, hosts⟩
  have chooses : Chooses regions layout region := ⟨steps.planned, bytes, size, found⟩
  have admits := installed.admits chooses hosts member
  have leads := installed.leads chooses
  have separate := (Run.pairwise_precedes sorted).imp Run.Precedes.separate
  rcases steps.settles wellFormed separate member admits leads with ⟨used, settles⟩
  exact ⟨layout, region, used, chooses,
    ⟨strip, address, left, mapped, steps.behind, steps.maps, settles.isUsed⟩,
    settles.views wellFormed sorted hosts member admits leads⟩

theorem tinyTable_is_viewed : ∃ before after layout region used,
    (∀ region ∈ Kernel.tinyTable.regions, region.IsWellFormed) ∧
    Kernel.tinyTable.regions.Pairwise Region.Precedes ∧
    IsInstalled Kernel.tinyRoot Kernel.tinyTable.regions before ∧
    (adopt Kernel.tinyTable.regions).run before = (.done (), after) ∧
    TakesTables layout region before used ∧
    Views Kernel.tinyRoot Kernel.tinyTable.regions layout region.start used before after := by
  rcases Kernel.exists_tinyTakenOver with ⟨before, after, prepared, next, done⟩
  have inOrder : Kernel.tinyTable.regions.Pairwise fun left right =>
      left.stop.value ≤ right.start.value := by decide
  have sorted := inOrder.imp Region.precedes_of_stop_le
  have start : Kernel.tinyEnd.alignUp .small = Kernel.tinyEnd := by decide
  have clear := Kernel.tinyEnd_isClear
  rw [start, ← next] at clear
  have installed := prepared.isInstalled clear
  rcases adopted_manager_views_regions prepared.wellFormed sorted installed done with
    ⟨layout, region, used, _, takes, views⟩
  exact ⟨before, after, layout, region, used, prepared.wellFormed, sorted, installed, done, takes,
    views⟩

end FrameManager

end EarlyMemory
