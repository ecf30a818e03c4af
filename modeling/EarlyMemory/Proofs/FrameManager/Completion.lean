import EarlyMemory.Proofs.FrameManager.Adoption
import EarlyMemory.Proofs.FrameManager.Spanning
import EarlyMemory.Proofs.Ledger.Counting
import EarlyMemory.Proofs.Ledger.Sizing

/-!
# Taking over to the end

Where a ledger has room behind the image, taking over the loader's regions comes to its end
unless no region can host the ledger or a page behind the image is mapped already: the frames
behind the ledger are enough for its tables, the ledger opens where it was mapped, and every
page that is marked is found in it.
-/

namespace EarlyMemory.FrameManager

open Operation
open Memory (AgreesOutside)
open Region (Measure)

variable {capacity : Nat} {sorting : Region.Sorting} {table : RegionTable capacity sorting}
  {layout : Ledger.Layout} {region : Region} {root : Frame} {regions : List Region}
  {strip left : FrameStrip} {before mapped opened after : Paged FrameManager}
  {host : PhysicalAddress} {page : Frame} {bytes : Nat}

theorem Opens.exists_located (opens : Opens layout host regions before opened)
    (wellFormed : ∀ region ∈ regions, region.IsWellFormed) (ordered : Region.IsOrdered regions)
    (separate : regions.Pairwise Region.Separate)
    (held : ∃ region ∈ regions, region.IsManaged ∧ region.HoldsPage page) :
    ∃ descriptor bit,
      opened.source.ledger.locate opened.memory page = .ok (.bit descriptor bit) := by
  have aligned : ∀ region ∈ regions, region.IsPageAligned :=
    fun region member => (wellFormed region member).2.isPageAligned
  have clears : (Run.planned 0 (Run.ofRegions regions)).Pairwise Descriptor.Clears :=
    Run.pairwise_clears_planned (fun run member => (Run.mem_ofRegions aligned member).1)
      (Run.pairwise_clears ordered separate)
  rw [← opens.recorded] at clears
  have planned := (Run.exists_planned_iff aligned).2 held
  rw [← opens.recorded] at planned
  rcases planned with ⟨descriptor, member, available, holds⟩
  exact ⟨descriptor, _,
    Ledger.locate_of_clears opens.orderly.wellFormed clears member available holds⟩

theorem exists_earlyFrames (hosts : layout.Hosts region) :
    ∃ strip, earlyFrames region.start layout = .ok strip := by
  have room := hosts.room
  have within := hosts.whole.within
  have limit : physicalLimit.value = 0x10000000000000 := rfl
  have product : Word.multiply layout.metadataPages PageSize.small.bytes =
      .ok (layout.metadataPages * 4096) :=
    if_pos (show _ * 4096 < 18446744073709551616 by omega)
  have below : region.start.value + layout.metadataPages * 4096 < 1 <<< 64 := by
    simp only [Nat.reduceShiftLeft]
    omega
  have advanced : ((region.start.pageAfter layout.metadataPages).page .small).number +
      layout.tableFrames < 1 <<< 52 := by
    simp only [Address.page, PageSize.bytes, Address.value_pageAfter below, Nat.reduceShiftLeft]
    omega
  rw [earlyFrames, product]
  simp only [bind, Except.bind, Address.add_eq_pageAfter below, FrameStrip.create,
    Page.advance_eq_ok advanced]
  exact ⟨_, rfl⟩

theorem fits_of_hasFrame {memory : Memory}
    (room : host.value + layout.metadataPages * 4096 < 1 <<< 64)
    (inside : ∀ frame, layout.Occupies host frame → memory.HasFrame frame) :
    layout.Fits host memory := by
  intro offset below
  have low : (host.value + offset) / 4096 < 1 <<< 52 := by
    simp only [Nat.reduceShiftLeft] at room ⊢
    omega
  have contains := (inside ⟨(host.value + offset) / 4096, low⟩ ⟨offset, below, rfl⟩).contains
    (Nat.mod_lt (host.value + offset) (show 0 < 4096 by decide))
  rwa [Nat.mul_comm, Nat.div_add_mod] at contains

/-- The ledger of the regions, and the region that hosts it. -/
structure Chooses (regions : List Region) (layout : Ledger.Layout) (region : Region) : Prop where
  planned : Ledger.Layout.ofRegions regions = .ok layout
  found : ∃ bytes, layout.requiredBytes = .ok bytes ∧
    regions.find? (canHost bytes) = some region

/-- A region that a manager can take as the host of a ledger, which can be mapped behind the
image unless something else is there already. -/
structure Hosting (root : Frame) (regions : List Region) (layout : Ledger.Layout)
    (region : Region) (strip : FrameStrip) (before : Paged FrameManager) : Prop where
  wellFormed : ∀ region ∈ regions, region.IsWellFormed
  ordered : Region.IsOrdered regions
  separate : regions.Pairwise Region.Separate
  chooses : Chooses regions layout region
  early : earlyFrames region.start layout = .ok strip
  admits : Admits root layout region.start before
  ledTo : IsLedTo (spaceBelow root) before.source.nextVirtual 0 layout.metadataPages
    before.memory

namespace Hosting

variable {address : VirtualAddress} (hosting : Hosting root regions layout region strip before)

include hosting

theorem member : region ∈ regions := by
  rcases hosting.chooses.found with ⟨_, _, found⟩
  exact List.mem_of_find?_eq_some found

theorem hosts : layout.Hosts region := by
  rcases hosting.chooses.found with ⟨_, size, found⟩
  exact (Ledger.Layout.hosts_of_find hosting.wellFormed size found).2

theorem pageAligned : ∀ region ∈ regions, region.IsPageAligned :=
  fun region isRegion => (hosting.wellFormed region isRegion).2.isPageAligned

theorem behind : IsBehind layout region.start strip :=
  isBehind_of_earlyFrames hosting.hosts.whole.start hosting.early

theorem leads : ∀ index < layout.metadataPages,
    (spaceBelow root).hierarchy.Leads (before.source.nextVirtual.pageAfter index) :=
  fun index below => hosting.ledTo.leads index (Nat.zero_le _) (by omega)

theorem houses : layout.Houses (Run.ofRegions regions) :=
  Ledger.houses_of_ofRegions
    (fun _ isRun => (Run.mem_ofRegions hosting.pageAligned isRun).1) hosting.chooses.planned

theorem separateRuns : (Run.ofRegions regions).Pairwise Run.Separate :=
  Run.pairwise_separate hosting.separate

theorem hostRoom : region.start.value + layout.metadataPages * 4096 < 1 <<< 64 := by
  have start := hosting.behind.start
  have bound := strip.start.isLt
  simp only [PageSize.count, Nat.reduceShiftLeft] at bound ⊢
  omega

/-- The frames behind the ledger are enough for the tables that lead to it, so mapping it ends
only at a page that was mapped already. -/
theorem run_mapping : ∃ outcome mapped,
    (Paged.lending strip (mapBeyond region.start layout.metadataPages .readWrite)).run before =
        (outcome, mapped) ∧
      EndsMapping (spaceBelow root) before.source.nextVirtual 0 layout.metadataPages before.memory
        outcome := by
  have tables := hosting.houses.tables
  have next := congrArg Page.number hosting.behind.next
  have stop := hosting.behind.stop
  rcases run_mapBeyond_of_strip .readWrite hosting.admits.active hosting.admits.owner
    (hosting.admits.ready hosting.behind) hosting.ledTo (Nat.le_of_lt hosting.hostRoom)
    (by omega) with ⟨outcome, ⟨machine, manager, left⟩, mapping, ends⟩
  cases ends with
  | done value free => exact ⟨_, _, Paged.run_lending_of_done mapping, .done _ free⟩
  | met above below existing =>
      exact ⟨_, _, Paged.run_lending_of_refused mapping, .met above below existing⟩

variable (mapping :
  (Paged.lending strip (mapBeyond region.start layout.metadataPages .readWrite)).run before =
    (.done (address, left), mapped))

include mapping

theorem exists_used : ∃ used, left.used = .ok used ∧ used ≤ layout.tableFrames := by
  have admits := hosting.admits
  rcases of_run_mapBeyond admits.active admits.owner (admits.ready hosting.behind) hosting.leads
    (Paged.of_run_lending mapping) with ⟨_, pages⟩
  rcases pages.advances with ⟨_, advances⟩
  rcases advances.ready.supplied with ⟨⟨start, _, above, within⟩, _⟩
  have start : left.start = strip.start := start
  have above : strip.start.number ≤ left.next.number := above
  have within : left.next.number ≤ strip.stop.number := within
  have length := hosting.behind.stop
  refine ⟨left.next.number - strip.start.number, ?_, by omega⟩
  rw [FrameStrip.used, Page.since, Word.subtract, start, if_pos above]

theorem exists_opened : ∃ opened,
    (openLedger address region.start layout regions).run mapped = (.done (), opened) ∧
      Opens layout region.start regions mapped opened := by
  have admits := hosting.admits
  have aligned := hosting.pageAligned
  have planned := hosting.chooses.planned
  have room := hosting.ledTo.room
  rw [Nat.zero_add] at room
  rcases admits.mapsLedger hosting.behind hosting.leads mapping with ⟨rfl, maps⟩
  rcases Run.exists_mem_ofRegions hosting.member
    (hosting.wellFormed region hosting.member).1 with ⟨run, isRun, _⟩
  have some := hosting.houses.pos (List.ne_nil_of_mem isRun)
  have fits := fits_of_hasFrame hosting.hostRoom fun frame occupied =>
    (maps.hasFrame frame).2 (admits.of_occupies occupied).1
  have inRow := maps.mapsInRow admits hosting.behind hosting.leads
  rcases exists_run_openLedger aligned admits.aligned admits.hostAligned maps.addressable
    planned some room (Nat.le_of_lt hosting.hostRoom) inRow fits with ⟨opened, opening⟩
  rcases of_run_openLedger aligned hosting.separateRuns planned opening with
    ⟨start, resolved, opens⟩
  have first := inRow 0 some
  rw [Address.pageAfter_zero, Address.pageAfter_zero] at first
  cases first.symm.trans resolved
  exact ⟨opened, opening, opens⟩

omit mapping in
theorem isManaged_of_isAmong {used : Nat} (few : used ≤ layout.tableFrames)
    (among : IsAmong (region.start.page .small) 0 (layout.metadataPages + used) page) :
    ∃ region ∈ regions, region.IsManaged ∧ region.HoldsPage page := by
  have start := hosting.hosts.whole.start
  have first : (region.start.page .small).number = region.start.value / 4096 := rfl
  rcases among with ⟨above, below⟩
  exact ⟨region, hosting.member, Region.isManaged_of_available hosting.hosts.available,
    hosting.hosts.holdsPage (by omega) (by omega)⟩

theorem exists_steps : ∃ opened allocated marked,
    Steps regions layout region address strip left before mapped opened allocated marked := by
  have aligned := hosting.pageAligned
  rcases hosting.exists_opened mapping with ⟨opened, opening, opens⟩
  have located : ∀ page, (∃ region ∈ regions, region.IsManaged ∧ region.HoldsPage page) →
      ∃ descriptor bit, opened.source.ledger.locate opened.memory page =
        .ok (.bit descriptor bit) :=
    fun page => opens.exists_located hosting.wellFormed hosting.ordered hosting.separate
  rcases exists_run_markAllocated aligned opens.orderly (fun page allocated => by
    rcases allocated with ⟨holder, isHolder, code, holds⟩
    exact located page ⟨holder, isHolder, Region.isManaged_iff.2 (.inr code), holds⟩) with
    ⟨allocated, marksAllocated⟩
  have one := of_run_markAllocated aligned opens.orderly marksAllocated
  rcases hosting.exists_used mapping with ⟨used, isUsed, few⟩
  have hostRoom := hosting.hosts.room
  have within := hosting.hosts.whole.within
  have limit : physicalLimit.value = 0x10000000000000 := rfl
  have own : Word.add layout.metadataPages used = .ok (layout.metadataPages + used) :=
    if_pos (show _ < 18446744073709551616 by omega)
  have low : (region.start.page .small).number + 0 + (layout.metadataPages + used) < 1 <<< 52 := by
    simp only [Address.page, PageSize.bytes, Nat.reduceShiftLeft]
    omega
  have ownLocated : ∀ page,
      IsAmong (region.start.page .small) 0 (layout.metadataPages + used) page →
      ∃ descriptor bit, allocated.source.ledger.locate allocated.memory page =
        .ok (.bit descriptor bit) := by
    intro page among
    rcases located page (hosting.isManaged_of_isAmong few among) with ⟨descriptor, bit, isLocated⟩
    exact ⟨descriptor, bit, (Ledger.locate_congr one.recorded page).trans isLocated⟩
  rcases exists_run_markPages one.orderly low ownLocated with ⟨marked, marksOwn⟩
  exact ⟨opened, allocated, marked, hosting.chooses.planned, hosting.chooses.found, hosting.early,
    mapping, opening, marksAllocated, used, _, isUsed, own, marksOwn⟩

end Hosting

/-- Whether no region can host the ledger of the regions, which takes so many bytes. -/
def IsHostless (regions : List Region) (bytes : Nat) : Prop :=
  ∃ layout, Ledger.Layout.ofRegions regions = .ok layout ∧ layout.requiredBytes = .ok bytes ∧
    regions.find? (canHost bytes) = none

theorem IsHostless.bytes_eq {other : Nat} (hostless : IsHostless regions bytes)
    (again : IsHostless regions other) : bytes = other := by
  rcases hostless with ⟨layout, planned, size, _⟩
  rcases again with ⟨_, isPlanned, isSize, _⟩
  cases planned.symm.trans isPlanned
  exact Except.ok.inj (size.symm.trans isSize)

theorem Chooses.not_isHostless (chooses : Chooses regions layout region) :
    ¬ IsHostless regions bytes := by
  rintro ⟨_, planned, size, none⟩
  rcases chooses with ⟨isPlanned, _, isSize, found⟩
  cases isPlanned.symm.trans planned
  cases isSize.symm.trans size
  cases found.symm.trans none

/-- How taking over regions ends where their ledger has room behind the image. -/
inductive Completes (root : Frame) (regions : List Region) (before : Paged FrameManager) :
    Outcome Refusal Unit → Paged FrameManager → Prop
  | hostless {bytes : Nat} (hostless : IsHostless regions bytes) :
      Completes root regions before (.refused (.noRegionForMetadata bytes)) before
  | met {layout : Ledger.Layout} {region : Region} {strip : FrameStrip} {index : Nat}
      {leaf : PageEntry} {mapped : Paged FrameManager}
      (hosting : Hosting root regions layout region strip before)
      (below : index < layout.metadataPages)
      (existing : (spaceBelow root).hierarchy.entryAt before.memory
        (before.source.nextVirtual.pageAfter index).leafPath = some leaf)
      (mapping : (Paged.lending strip
        (mapBeyond region.start layout.metadataPages .readWrite)).run before =
          (.refused (.map (.alreadyMapped (before.source.nextVirtual.pageAfter index)
            leaf.frame.base)), mapped)) :
      Completes root regions before (.refused (.map (.alreadyMapped
        (before.source.nextVirtual.pageAfter index) leaf.frame.base))) mapped
  | adopted {layout : Ledger.Layout} {region : Region} {address : VirtualAddress}
      {strip left : FrameStrip} {mapped opened allocated marked : Paged FrameManager} {free : Nat}
      (hosting : Hosting root regions layout region strip before)
      (steps : Steps regions layout region address strip left before mapped opened allocated
        marked)
      (counted : freePageCount ⟨marked.machine, { marked.source with stage := .ready }⟩ =
        .ok free)
      (unmapped : ∀ index < layout.metadataPages, (spaceBelow root).hierarchy.entryAt
        before.memory (before.source.nextVirtual.pageAfter index).leafPath = none) :
      Completes root regions before (.done ())
        ⟨marked.machine, { marked.source with stage := .ready }⟩

theorem run_adopt_of_hostless (staged : before.source.stage = .selfMapInstalled)
    (hostless : IsHostless regions bytes) :
    (adopt regions).run before = (.refused (.noRegionForMetadata bytes), before) := by
  rcases hostless with ⟨layout, planned, size, none⟩
  rw [adopt, run_bind_of_done (run_current before), run_bind_of_done (run_requireStage staged),
    run_bind_of_done (run_reportUnknown ..), planned, run_bind_of_done (run_check_ok ..),
    size, run_bind_of_done (run_check_ok ..), none]
  exact (run_bind_of_done (run_report ..)).trans (run_refuse ..)

theorem Hosting.run_adopt_of_refused {cause : Refusal}
    (hosting : Hosting root regions layout region strip before)
    (staged : before.source.stage = .selfMapInstalled)
    (mapping : (Paged.lending strip
      (mapBeyond region.start layout.metadataPages .readWrite)).run before =
        (.refused cause, mapped)) :
    (adopt regions).run before = (.refused cause, mapped) := by
  rcases hosting.chooses.found with ⟨bytes, size, found⟩
  rw [adopt, run_bind_of_done (run_current before), run_bind_of_done (run_requireStage staged),
    run_bind_of_done (run_reportUnknown ..), hosting.chooses.planned,
    run_bind_of_done (run_check_ok ..), size, run_bind_of_done (run_check_ok ..), found]
  simp only [hosting.early]
  rw [run_bind_of_done (run_check_ok ..), run_bind_of_refused mapping]

/-- Taking over is refused for want of a host, or because a page behind the image is mapped
already, and for nothing else. -/
theorem run_adopt_completes (wellFormed : ∀ region ∈ regions, region.IsWellFormed)
    (ordered : Region.IsOrdered regions) (separate : regions.Pairwise Region.Separate)
    (bounded : Measure.bytes.total regions ≤ 1 <<< 65)
    (staged : before.source.stage = .selfMapInstalled)
    (admits : ∀ layout region, Chooses regions layout region →
      Admits root layout region.start before)
    (ledTo : ∀ layout region, Chooses regions layout region →
      IsLedTo (spaceBelow root) before.source.nextVirtual 0 layout.metadataPages before.memory) :
    ∃ outcome after, (adopt regions).run before = (outcome, after) ∧
      Completes root regions before outcome after := by
  have aligned : ∀ region ∈ regions, region.IsPageAligned :=
    fun region isRegion => (wellFormed region isRegion).2.isPageAligned
  rcases Ledger.Layout.exists_ofRegions aligned bounded with ⟨layout, bytes, planned, size⟩
  cases found : regions.find? (canHost bytes) with
  | none =>
      have hostless : IsHostless regions bytes := ⟨layout, planned, size, found⟩
      exact ⟨_, _, run_adopt_of_hostless staged hostless, .hostless hostless⟩
  | some region =>
      have chooses : Chooses regions layout region := ⟨planned, bytes, size, found⟩
      rcases exists_earlyFrames (Ledger.Layout.hosts_of_find wellFormed size found).2 with
        ⟨strip, early⟩
      have hosting : Hosting root regions layout region strip before :=
        ⟨wellFormed, ordered, separate, chooses, early, admits layout region chooses,
          ledTo layout region chooses⟩
      rcases hosting.run_mapping with ⟨outcome, mapped, mapping, ends⟩
      cases ends with
      | met _ below existing =>
          exact ⟨_, _, hosting.run_adopt_of_refused staged mapping,
            .met hosting (by omega) existing mapping⟩
      | done value free =>
          rcases hosting.exists_steps mapping with ⟨opened, allocated, marked, steps⟩
          rcases steps.settles wellFormed hosting.separateRuns hosting.member hosting.admits
            hosting.leads with ⟨used, settles⟩
          have counted := Ledger.freePageCount_eq_ok settles.withdraws.orderly
          exact ⟨_, _, steps.run_adopt staged counted, .adopted hosting steps counted
            fun index below => free index (Nat.zero_le _) (by omega)⟩

theorem Prepared.completes (prepared : Prepared root table before)
    (staged : before.source.stage = .selfMapInstalled)
    (ordered : Region.IsOrdered table.regions)
    (bounded : Measure.bytes.total table.regions ≤ 1 <<< 65)
    (ledTo : ∀ layout, Ledger.Layout.ofRegions table.regions = .ok layout →
      IsLedTo (spaceBelow root) before.source.nextVirtual 0 layout.metadataPages before.memory) :
    ∃ outcome after, (adopt table.regions).run before = (outcome, after) ∧
      Completes root table.regions before outcome after := by
  refine run_adopt_completes prepared.wellFormed ordered prepared.sound.separate bounded staged
    (fun layout region chooses => ?_) fun layout region chooses => ledTo layout chooses.planned
  rcases chooses.found with ⟨bytes, size, found⟩
  rcases Ledger.Layout.hosts_of_find prepared.wellFormed size found with ⟨member, hosts⟩
  exact prepared.admits hosts member

/-! ## What stays -/

/-- What a takeover leaves of the memory: the leaves stay, and nothing is written but tables
and the frames of the host that the ledger and its tables take. -/
structure Spares (root : Frame) (layout : Ledger.Layout) (host : PhysicalAddress)
    (before after : Memory) : Prop where
  addressable : after.IsAddressable
  tree : (spaceBelow root).hierarchy.IsTree after
  served : (spaceBelow root).IsServed after
  leaves : ∀ path : TablePath, path.length = 4 → (spaceBelow root).hierarchy.Owns path →
    ∀ leaf, (spaceBelow root).hierarchy.entryAt before path = some leaf →
      (spaceBelow root).hierarchy.entryAt after path = some leaf
  agrees : AgreesOutside
    (fun frame => (spaceBelow root).hierarchy.IsTable before frame ∨
      host.value ≤ frame.number * 4096 ∧
        frame.number * 4096 < host.value + (layout.metadataPages + layout.tableFrames) * 4096)
    before after

theorem Hosting.spares {address : VirtualAddress} {allocated marked : Paged FrameManager}
    (hosting : Hosting root regions layout region strip before)
    (steps : Steps regions layout region address strip left before mapped opened allocated
      marked) :
    Spares root layout region.start before.memory marked.memory := by
  have admits := hosting.admits
  have behind := hosting.behind
  rcases steps.settles hosting.wellFormed hosting.separateRuns hosting.member admits
    hosting.leads with ⟨used, _, _, maps, _, opens, withdraws⟩
  rcases of_run_mapBeyond admits.active admits.owner (admits.ready behind) hosting.leads
    (Paged.of_run_lending steps.maps) with ⟨_, pages⟩
  rcases pages.advances with ⟨rest, advances⟩
  have written : AgreesOutside (layout.Occupies region.start) mapped.memory marked.memory :=
    opens.agrees.trans withdraws.agrees
  rcases maps.grows admits behind written with ⟨addressable, served, grows⟩
  have start := behind.start
  have stop := behind.stop
  have aligned := admits.hostAligned
  have next := congrArg Page.number behind.next
  refine ⟨addressable, grows.tree, served, fun path long owns leaf found => ?_, ?_⟩
  · rw [grows.leaves path long owns]
    exact pages.stay path long owns leaf found
  · refine (advances.agrees.mono ?_).trans (written.mono ?_)
    · rintro frame (isTable | ⟨⟨above, below⟩, _⟩ | impossible)
      · exact .inl isTable
      · have above : strip.next.number ≤ frame.number := above
        have below : frame.number < strip.stop.number := below
        exact .inr ⟨by omega, by omega⟩
      · exact impossible.elim
    · rintro frame ⟨offset, below, holds⟩
      unfold Page.Holds at holds
      exact .inr ⟨by omega, by omega⟩

end EarlyMemory.FrameManager
