import EarlyMemory.Proofs.FrameManager.Mapping
import EarlyMemory.Proofs.FrameManager.Marking
import EarlyMemory.Proofs.FrameManager.Opening

/-!
# Taking over the loader's regions

The ledger and the tables that map it come out of one available region above low memory.
Once the ledger is open, the pages of images and the manager's own frames are marked. So a
manager that is done with it offers managed pages only, none of which is a table, backs an
image or holds the ledger.
-/

namespace EarlyMemory

open Operation
open Memory (AgreesOutside)

/-! ## The host -/

namespace Ledger.Layout

variable {layout : Layout} {region : Region} {regions : List Region} {bytes : Nat} {frame : Frame}

/-- What a region that hosts a ledger and the tables to map it has to be. -/
structure Hosts (layout : Layout) (region : Region) : Prop where
  whole : region.IsWhole
  available : region.code = RegionKind.available.code
  high : lowMemoryEnd.value ≤ region.start.value
  room : region.start.value + (layout.metadataPages + layout.tableFrames) * 4096 ≤
    region.stop.value

theorem of_requiredBytes (done : layout.requiredBytes = .ok bytes) :
    bytes = (layout.metadataPages + layout.tableFrames) * 4096 := by
  rw [requiredBytes, totalPages] at done
  cases added : Word.add layout.metadataPages layout.tableFrames with
  | error cause =>
      rw [added] at done
      cases done
  | ok pages =>
      rw [added] at done
      rcases Word.of_add added with ⟨rfl, _⟩
      exact (Word.of_multiply done).1

theorem hosts_of_find (wellFormed : ∀ region ∈ regions, region.IsWellFormed)
    (size : layout.requiredBytes = .ok bytes)
    (found : regions.find? (FrameManager.canHost bytes) = some region) :
    region ∈ regions ∧ layout.Hosts region := by
  have member := List.mem_of_find?_eq_some found
  rcases wellFormed region member with ⟨proper, whole⟩
  have hosts := List.find?_some found
  unfold Region.IsProper at proper
  simp only [FrameManager.canHost, Bool.and_eq_true, decide_eq_true_eq, Region.length,
    of_requiredBytes size] at hosts
  exact ⟨member, whole, Region.hasKind_iff.1 hosts.1.1, hosts.1.2, by omega⟩

theorem Hosts.holdsPage (hosts : layout.Hosts region)
    (above : region.start.value ≤ frame.number * 4096)
    (below : frame.number * 4096 <
      region.start.value + (layout.metadataPages + layout.tableFrames) * 4096) :
    region.HoldsPage frame := by
  have start := hosts.whole.start
  have room := hosts.room
  exact ⟨above, by omega⟩

theorem Hosts.isLinkable (hosts : layout.Hosts region)
    (above : region.start.value ≤ frame.number * 4096)
    (below : frame.number * 4096 <
      region.start.value + (layout.metadataPages + layout.tableFrames) * 4096) :
    frame.IsLinkable := by
  have within := hosts.whole.within
  have limit : physicalLimit.value = 0x10000000000000 := rfl
  have bound : (1 : Nat) <<< 40 = 0x10000000000 := rfl
  have belowStop := (hosts.holdsPage above below).2
  unfold Page.IsLinkable
  omega

theorem Hosts.manages {capacity : Nat} {sorting : Region.Sorting}
    {table : RegionTable capacity sorting} (hosts : layout.Hosts region)
    (member : region ∈ table.regions) (above : region.start.value ≤ frame.number * 4096)
    (below : frame.number * 4096 <
      region.start.value + (layout.metadataPages + layout.tableFrames) * 4096) :
    table.Manages frame :=
  ⟨region, member, Region.isManaged_of_available hosts.available, hosts.holdsPage above below⟩

theorem Houses.pos {runs : List Run} (houses : layout.Houses runs) (some : runs ≠ []) :
    0 < layout.metadataPages := by
  have fits := houses.fits
  have count := houses.count
  have length := List.length_pos_iff.2 some
  unfold descriptorBytes at fits
  omega

end Ledger.Layout

namespace FrameManager

variable {capacity : Nat} {sorting : Region.Sorting} {table : RegionTable capacity sorting}
  {layout : Ledger.Layout} {region : Region} {root : Frame} {strip left : FrameStrip}
  {before mapped after : Paged FrameManager} {address : VirtualAddress} {host : PhysicalAddress}
  {frame : Frame}

/-! ## The tables for the ledger -/

/-- What has to hold of the tables and of the frames from a host on, so that a ledger can be
mapped there. -/
structure Admits (root : Frame) (layout : Ledger.Layout) (host : PhysicalAddress)
    (paged : Paged FrameManager) : Prop where
  addressable : paged.memory.IsAddressable
  tree : (spaceBelow root).hierarchy.IsTree paged.memory
  served : (spaceBelow root).IsServed paged.memory
  active : paged.source.active = root
  owner : paged.source.root = some root
  aligned : paged.source.nextVirtual.value % 4096 = 0
  hostAligned : host.value % 4096 = 0
  frames : ∀ frame : Frame, host.value ≤ frame.number * 4096 →
    frame.number * 4096 < host.value + (layout.metadataPages + layout.tableFrames) * 4096 →
    paged.memory.HasFrame frame ∧ frame.IsLinkable ∧
      ¬ (spaceBelow root).hierarchy.IsTable paged.memory frame

/-- What has to hold once the recursive map is installed, before a table is taken over. -/
structure Prepared (root : Frame) (table : RegionTable capacity sorting)
    (paged : Paged FrameManager) : Prop where
  addressable : paged.memory.IsAddressable
  tree : (spaceBelow root).hierarchy.IsTree paged.memory
  served : (spaceBelow root).IsServed paged.memory
  active : paged.source.active = root
  owner : paged.source.root = some root
  aligned : paged.source.nextVirtual.value % 4096 = 0
  sound : table.IsSound
  inside : ∀ frame, table.Manages frame → lowMemoryEnd.value ≤ frame.number * 4096 →
    paged.memory.HasFrame frame
  unmanaged : ∀ frame, (spaceBelow root).hierarchy.IsTable paged.memory frame →
    ¬ table.Manages frame

theorem Prepared.wellFormed (prepared : Prepared root table before) :
    ∀ region ∈ table.regions, region.IsWellFormed :=
  fun region member => ⟨prepared.sound.proper region member, prepared.sound.whole region member⟩

theorem Prepared.pageAligned (prepared : Prepared root table before) :
    ∀ region ∈ table.regions, region.IsPageAligned :=
  fun region member => (prepared.sound.whole region member).isPageAligned

theorem Prepared.admits (prepared : Prepared root table before) (hosts : layout.Hosts region)
    (member : region ∈ table.regions) : Admits root layout region.start before where
  addressable := prepared.addressable
  tree := prepared.tree
  served := prepared.served
  active := prepared.active
  owner := prepared.owner
  aligned := prepared.aligned
  hostAligned := hosts.whole.start
  frames frame above below := by
    have managed := hosts.manages member above below
    have high := hosts.high
    exact ⟨prepared.inside frame managed (by omega), hosts.isLinkable above below,
      fun isTable => prepared.unmanaged frame isTable managed⟩

/-- The strip of the frames behind a ledger that can be taken as tables. -/
structure IsBehind (layout : Ledger.Layout) (host : PhysicalAddress) (strip : FrameStrip) :
    Prop where
  next : strip.next = strip.start
  start : strip.start.number * 4096 = host.value + layout.metadataPages * 4096
  stop : strip.stop.number = strip.start.number + layout.tableFrames

theorem isBehind_of_earlyFrames (aligned : host.value % 4096 = 0)
    (done : earlyFrames host layout = .ok strip) : IsBehind layout host strip := by
  rw [earlyFrames] at done
  cases product : Word.multiply layout.metadataPages PageSize.small.bytes with
  | error cause =>
      rw [product] at done
      cases done
  | ok bytes =>
  rw [product] at done
  simp only [bind, Except.bind] at done
  cases sum : host.add bytes with
  | error cause =>
      rw [sum] at done
      cases done
  | ok behind =>
  rw [sum] at done
  simp only [FrameStrip.create, bind, Except.bind, pure, Except.pure] at done
  cases advanced : (behind.page .small).advance layout.tableFrames with
  | error cause =>
      rw [advanced] at done
      cases done
  | ok stop =>
      rw [advanced] at done
      cases done
      rcases Word.of_multiply product with ⟨rfl, _⟩
      have value : behind.value = host.value + layout.metadataPages * 4096 :=
        Address.value_of_add sum
      refine ⟨rfl, ?_, Page.of_advance advanced⟩
      change behind.value / 4096 * 4096 = _
      omega

namespace Admits

variable (admits : Admits root layout host before)

include admits

theorem ready (behind : IsBehind layout host strip) :
    (spaceBelow root).Ready (FrameStrip.recordsBetween strip.start strip.stop).supply
      ⟨before.machine, strip⟩ strip.Offers (fun _ => False) where
  addressable := admits.addressable
  tree := admits.tree
  served := admits.served
  supplied := by
    have next := congrArg Page.number behind.next
    have stop := behind.stop
    have within : strip.start.number ≤ strip.next.number ∧
        strip.next.number ≤ strip.stop.number := ⟨by omega, by omega⟩
    exact ⟨⟨rfl, rfl, within⟩, fun _ => Iff.rfl, fun _ impossible => impossible⟩
  offered frame offered := by
    rcases offered with ⟨above, below⟩
    rw [behind.next] at above
    rw [behind.stop] at below
    have start := behind.start
    rcases admits.frames frame (by omega) (by omega) with ⟨inside, linkable, notTable⟩
    exact ⟨inside, linkable, notTable, id⟩
  kept frame impossible := impossible.elim

theorem of_occupies (occupied : layout.Occupies host frame) :
    before.memory.HasFrame frame ∧ frame.IsLinkable ∧
      ¬ (spaceBelow root).hierarchy.IsTable before.memory frame := by
  have hostAligned := admits.hostAligned
  rcases occupied with ⟨offset, below, holds⟩
  unfold Page.Holds at holds
  exact admits.frames frame (by omega) (by omega)

end Admits

/-- What mapping the pages of a ledger leaves behind. -/
structure MapsLedger (root : Frame) (layout : Ledger.Layout) (host : PhysicalAddress)
    (strip left : FrameStrip) (before mapped : Paged FrameManager) : Prop where
  addressable : mapped.memory.IsAddressable
  served : (spaceBelow root).IsServed mapped.memory
  widened : (spaceBelow root).hierarchy.Extends
    (Page.Between strip.start left.next.number) before.memory mapped.memory
  hasFrame : ∀ frame, mapped.memory.HasFrame frame ↔ before.memory.HasFrame frame
  start : left.start = strip.start
  within : left.next.number ≤ strip.stop.number
  manager : ∃ next, mapped.source = { before.source with nextVirtual := next } ∧
    next.value = before.source.nextVirtual.value + layout.metadataPages * 4096
  leaves : ∀ index < layout.metadataPages,
    (spaceBelow root).hierarchy.entryAt mapped.memory
        (before.source.nextVirtual.pageAfter index).leafPath =
      some (.leaf ((host.pageAfter index).page .small) .readWrite)

theorem Admits.mapsLedger (admits : Admits root layout host before)
    (behind : IsBehind layout host strip)
    (clear : ∀ index < layout.metadataPages,
      (spaceBelow root).hierarchy.Leads (before.source.nextVirtual.pageAfter index))
    (done : (Paged.lending strip (mapBeyond host layout.metadataPages .readWrite)).run before =
      (.done (address, left), mapped)) :
    address = before.source.nextVirtual ∧
      MapsLedger root layout host strip left before mapped := by
  rcases of_run_mapBeyond admits.active admits.owner (admits.ready behind) clear
    (Paged.of_run_lending done) with ⟨isAddress, maps⟩
  rcases maps.advances with ⟨rest, advances⟩
  rcases advances.ready.supplied with ⟨⟨start, stop, advanced, within⟩, offers, _⟩
  have behindNext := congrArg Page.number behind.next
  refine ⟨isAddress, advances.ready.addressable, advances.ready.served, ?_,
    advances.agrees.hasFrame_iff, start, within, ?_, ?_⟩
  · apply advances.widened.mono
    intro frame fresh
    rcases fresh with ⟨⟨above, below⟩, gone⟩
    have notLeft : ¬ (left.next.number ≤ frame.number ∧ frame.number < left.stop.number) :=
      fun held => gone ((offers frame).2 held)
    have stopNumber : left.stop.number = strip.stop.number := congrArg Page.number stop
    have aboveNext : strip.next.number ≤ frame.number := above
    have belowStop : frame.number < strip.stop.number := below
    exact ⟨by omega, by omega⟩
  · rcases maps.manager with ⟨next, moved, value⟩
    rw [Nat.zero_add] at value
    exact ⟨next, moved, value⟩
  · exact fun index below => maps.leaves index (Nat.zero_le _) (by omega)

namespace MapsLedger

variable (maps : MapsLedger root layout host strip left before mapped)

include maps

theorem mapsInRow (admits : Admits root layout host before) (behind : IsBehind layout host strip)
    (leads : ∀ index < layout.metadataPages,
      (spaceBelow root).hierarchy.Leads (before.source.nextVirtual.pageAfter index)) :
    MapsInRow mapped.memory mapped.source.active before.source.nextVirtual host
      layout.metadataPages := by
  intro index below
  rcases maps.manager with ⟨next, source, _⟩
  have active : mapped.source.active = root := by
    rw [source]
    exact admits.active
  have hostAligned := admits.hostAligned
  -- The frames behind the ledger have numbers, so its own frames do not wrap around.
  have room : host.value + index * 4096 < 1 <<< 64 := by
    have start := behind.start
    have bound := strip.start.isLt
    simp only [PageSize.count, Nat.reduceShiftLeft] at bound ⊢
    omega
  have number : ((host.pageAfter index).page .small).number * 4096 = host.value + index * 4096 := by
    simp only [Address.page, PageSize.bytes, Address.value_pageAfter room]
    omega
  have linkable := (admits.frames ((host.pageAfter index).page .small) (by omega) (by omega)).2.1
  have found := Hierarchy.resolve_eq maps.addressable
    (maps.widened.tree.hasTables (leads index below) .pt) (maps.leaves index below)
  rw [PageEntry.frame_leaf linkable, Address.join_page_of_aligned
    (Address.pageAfter_mod hostAligned) (Address.pageAfter_mod admits.aligned)] at found
  rw [active]
  exact found

theorem not_isTable_of_occupies (admits : Admits root layout host before)
    (behind : IsBehind layout host strip) (occupied : layout.Occupies host frame) :
    ¬ (spaceBelow root).hierarchy.IsTable mapped.memory frame := by
  intro isTable
  rcases maps.widened.tables frame isTable with old | between
  · exact (admits.of_occupies occupied).2.2 old
  · have start := behind.start
    have above := between.1
    rcases occupied with ⟨offset, below, holds⟩
    unfold Page.Holds at holds
    omega

theorem grows (admits : Admits root layout host before) (behind : IsBehind layout host strip)
    (agrees : AgreesOutside (layout.Occupies host) mapped.memory after.memory) :
    after.memory.IsAddressable ∧ (spaceBelow root).IsServed after.memory ∧
      (spaceBelow root).hierarchy.Grows (fun _ => False) mapped.memory after.memory := by
  have missed : ∀ frame, (spaceBelow root).hierarchy.IsTable mapped.memory frame →
      ¬ layout.Occupies host frame :=
    fun frame isTable occupied => maps.not_isTable_of_occupies admits behind occupied isTable
  refine ⟨agrees.isAddressable_iff.2 maps.addressable, ?_,
    Hierarchy.grows_of_agrees maps.widened.tree agrees missed⟩
  apply maps.served.of_entry_eq
  intro _ _
  exact agrees.entry_eq (missed root Hierarchy.isTable_root) _

end MapsLedger

/-! ## The whole of it -/

section

variable {opened allocated marked : Paged FrameManager} {regions : List Region}

structure Steps (regions : List Region) (layout : Ledger.Layout) (region : Region)
    (address : VirtualAddress) (strip left : FrameStrip)
    (before mapped opened allocated marked : Paged FrameManager) : Prop where
  planned : Ledger.Layout.ofRegions regions = .ok layout
  found : ∃ bytes, layout.requiredBytes = .ok bytes ∧
    regions.find? (canHost bytes) = some region
  behind : earlyFrames region.start layout = .ok strip
  maps : (Paged.lending strip (mapBeyond region.start layout.metadataPages .readWrite)).run
    before = (.done (address, left), mapped)
  opens : (openLedger address region.start layout regions).run mapped = (.done (), opened)
  marksAllocated : (markAllocated regions).run opened = (.done (), allocated)
  marksOwn : ∃ used own, left.used = .ok used ∧ Word.add layout.metadataPages used = .ok own ∧
    (markPages (region.start.page .small) 0 own).run allocated = (.done (), marked)

theorem run_reportUnknown (regions : List Region) (paged : Paged FrameManager) :
    (reportUnknown regions).run paged = (.done (), paged) := by
  induction regions with
  | nil => rfl
  | cons region rest induction =>
      rw [reportUnknown]
      split
      · exact (run_bind_of_done (run_report ..)).trans induction
      · exact induction

theorem of_run_adopt (done : (adopt regions).run before = (.done (), after)) :
    ∃ layout region address strip left mapped opened allocated marked,
      Steps regions layout region address strip left before mapped opened allocated marked ∧
        after = ⟨marked.machine, { marked.source with stage := .ready }⟩ := by
  rw [adopt] at done
  rcases of_run_bind done with ⟨_, _, isCurrent, done⟩
  cases isCurrent
  rcases of_run_bind done with ⟨_, _, staged, done⟩
  rcases of_run_requireStage staged with ⟨_, rfl⟩
  rcases of_run_bind done with ⟨_, _, reporting, done⟩
  rw [run_reportUnknown] at reporting
  cases reporting
  rcases of_run_bind done with ⟨layout, _, checked, done⟩
  rcases of_run_check checked with ⟨planned, rfl⟩
  rcases of_run_bind done with ⟨bytes, _, checked, done⟩
  rcases of_run_check checked with ⟨size, rfl⟩
  split at done
  next =>
    rcases of_run_bind done with ⟨_, _, _, refused⟩
    cases refused
  next region found =>
    rcases of_run_bind done with ⟨strip, _, checked, done⟩
    rcases of_run_check checked with ⟨isStrip, rfl⟩
    rcases of_run_bind done with ⟨⟨address, left⟩, mapped, maps, done⟩
    rcases of_run_bind done with ⟨_, opened, opens, done⟩
    rcases of_run_bind done with ⟨_, allocated, marksAllocated, done⟩
    rcases of_run_bind done with ⟨used, _, checked, done⟩
    rcases of_run_check checked with ⟨isUsed, rfl⟩
    rcases of_run_bind done with ⟨own, _, checked, done⟩
    rcases of_run_check checked with ⟨isOwn, rfl⟩
    rcases of_run_bind done with ⟨_, marked, marks, done⟩
    rcases of_run_bind done with ⟨_, changed, changing, done⟩
    have changedTo := of_run_change changing
    rcases of_run_bind done with ⟨_, _, isState, done⟩
    cases isState
    rcases of_run_bind done with ⟨_, _, checked, done⟩
    rcases of_run_check checked with ⟨_, rfl⟩
    cases done
    exact ⟨layout, region, address, strip, left, mapped, opened, allocated, marked,
      ⟨planned, ⟨bytes, size, found⟩, isStrip, maps, opens, marksAllocated,
        ⟨used, own, isUsed, isOwn, marks⟩⟩, changedTo⟩

theorem Steps.withdraws
    (steps : Steps regions layout region address strip left before mapped opened allocated marked)
    (aligned : ∀ region ∈ regions, region.IsPageAligned)
    (separate : (Run.ofRegions regions).Pairwise Run.Separate) :
    ∃ host used, mapped.memory.resolve mapped.source.active address = .ok host ∧
      left.used = .ok used ∧ Opens layout host regions mapped opened ∧
      Withdraws (layout.Occupies host)
        (fun frame => IsAllocated regions frame ∨
          IsAmong (region.start.page .small) 0 (layout.metadataPages + used) frame)
        opened marked := by
  rcases of_run_openLedger aligned separate steps.planned steps.opens with ⟨host, resolved, opens⟩
  have one := of_run_markAllocated aligned opens.orderly steps.marksAllocated
  rcases steps.marksOwn with ⟨used, own, isUsed, isOwn, marks⟩
  have two := of_run_markPages one.orderly marks
  rcases Word.of_add isOwn with ⟨rfl, _⟩
  exact ⟨host, used, resolved, isUsed, opens, one.trans two fun _ => Iff.rfl⟩

/-- What taking over regions leaves behind where a ledger can be mapped to its host. -/
structure Settles (root : Frame) (regions : List Region) (layout : Ledger.Layout)
    (host : PhysicalAddress) (strip left : FrameStrip) (used : Nat)
    (before mapped opened marked : Paged FrameManager) : Prop where
  houses : layout.Houses (Run.ofRegions regions)
  behind : IsBehind layout host strip
  maps : MapsLedger root layout host strip left before mapped
  isUsed : left.used = .ok used
  opens : Opens layout host regions mapped opened
  withdraws : Withdraws (layout.Occupies host)
    (fun frame => IsAllocated regions frame ∨
      IsAmong (host.page .small) 0 (layout.metadataPages + used) frame) opened marked

theorem Steps.settles
    (steps : Steps regions layout region address strip left before mapped opened allocated marked)
    (wellFormed : ∀ region ∈ regions, region.IsWellFormed)
    (separate : (Run.ofRegions regions).Pairwise Run.Separate) (member : region ∈ regions)
    (admits : Admits root layout region.start before)
    (leads : ∀ index < layout.metadataPages,
      (spaceBelow root).hierarchy.Leads (before.source.nextVirtual.pageAfter index)) :
    ∃ used, Settles root regions layout region.start strip left used before mapped opened
      marked := by
  have aligned : ∀ region ∈ regions, region.IsPageAligned :=
    fun region isRegion => (wellFormed region isRegion).2.isPageAligned
  have houses := Ledger.houses_of_ofRegions
    (fun run isRun => (Run.mem_ofRegions aligned isRun).1) steps.planned
  have behind := isBehind_of_earlyFrames admits.hostAligned steps.behind
  rcases Run.exists_mem_ofRegions member (wellFormed region member).1 with ⟨run, isRun, _⟩
  have some := houses.pos (List.ne_nil_of_mem isRun)
  rcases admits.mapsLedger behind leads steps.maps with ⟨rfl, maps⟩
  have first := maps.mapsInRow admits behind leads 0 some
  rw [Address.pageAfter_zero, Address.pageAfter_zero] at first
  rcases steps.withdraws aligned separate with ⟨host, used, isHost, isUsed, opens, withdraws⟩
  cases first.symm.trans isHost
  exact ⟨used, houses, behind, maps, isUsed, opens, withdraws⟩

theorem Steps.run_adopt {free : Nat} {layout : Ledger.Layout}
    (steps : Steps regions layout region address strip left before mapped opened allocated marked)
    (staged : before.source.stage = .selfMapInstalled)
    (counted : freePageCount ⟨marked.machine, { marked.source with stage := .ready }⟩ = .ok free) :
    (adopt regions).run before =
      (.done (), ⟨marked.machine, { marked.source with stage := .ready }⟩) := by
  rcases steps.found with ⟨bytes, size, found⟩
  rcases steps.marksOwn with ⟨used, own, isUsed, isOwn, marks⟩
  have changed : (change fun manager => { manager with stage := .ready } :
      Operation (Paged FrameManager) Refusal Unit).run marked =
        (.done (), ⟨marked.machine, { marked.source with stage := .ready }⟩) := rfl
  rw [adopt, run_bind_of_done (run_current before), run_bind_of_done (run_requireStage staged),
    run_bind_of_done (run_reportUnknown ..), steps.planned, run_bind_of_done (run_check_ok ..),
    size, run_bind_of_done (run_check_ok ..), found]
  simp only [steps.behind]
  rw [run_bind_of_done (run_check_ok ..), run_bind_of_done steps.maps,
    run_bind_of_done steps.opens, run_bind_of_done steps.marksAllocated]
  simp only [isUsed]
  rw [run_bind_of_done (run_check_ok ..), isOwn, run_bind_of_done (run_check_ok ..),
    run_bind_of_done marks]
  apply (run_bind_of_done changed).trans
  rw [run_bind_of_done (run_state _), counted, run_bind_of_done (run_check_ok ..), run_report]

end

/-- The pages that are busy once everything is marked: those of images and the manager's own. -/
def IsTaken (table : RegionTable capacity sorting) (layout : Ledger.Layout) (host : PhysicalAddress)
    (used : Nat) (frame : Frame) : Prop :=
  table.BacksImage frame ∨ IsAmong (host.page .small) 0 (layout.metadataPages + used) frame

/-- What taking over a table leaves behind. -/
structure Adopts (root : Frame) (table : RegionTable capacity sorting) (layout : Ledger.Layout)
    (host : PhysicalAddress) (used : Nat) (after : Paged FrameManager) : Prop where
  ready : (spaceBelow root).Ready (supply after.source) after
    (after.source.ledger.Offers after.memory) (layout.Occupies host)
  active : after.source.active = root
  owner : after.source.root = some root
  ledger : after.source.ledger = layout.ledger host
  planned : Ledger.Layout.ofRegions table.regions = .ok layout
  houses : layout.Houses (Run.ofRegions table.regions)
  hosted : ∃ region ∈ table.regions, region.start = host ∧ layout.Hosts region
  used_le : used ≤ layout.tableFrames
  offers : ∀ frame, after.source.ledger.Offers after.memory frame ↔
    lowMemoryEnd.value ≤ frame.number * 4096 ∧ table.Manages frame ∧
      ¬ IsTaken table layout host used frame

section

variable {opened marked : Paged FrameManager} {used : Nat}

theorem isTaken_of_occupies (aligned : host.value % 4096 = 0)
    (occupied : layout.Occupies host frame) : IsTaken table layout host used frame := by
  have first : (host.page .small).number = host.value / 4096 := rfl
  rcases occupied with ⟨offset, below, holds⟩
  unfold Page.Holds at holds
  exact .inr ⟨by omega, by omega⟩

theorem used_eq (start : left.start = strip.start) (isUsed : left.used = .ok used) :
    used = left.next.number - strip.start.number := by
  rw [FrameStrip.used, Page.since, Word.subtract, start] at isUsed
  split at isUsed
  next => exact (Except.ok.inj isUsed).symm
  next => cases isUsed

theorem isTaken_of_between (aligned : host.value % 4096 = 0)
    (behind : IsBehind layout host strip) (start : left.start = strip.start)
    (isUsed : left.used = .ok used)
    (between : Page.Between strip.start left.next.number frame) :
    IsTaken table layout host used frame := by
  have first : (host.page .small).number = host.value / 4096 := rfl
  have behindStart := behind.start
  have count := used_eq start isUsed
  rcases between with ⟨above, below⟩
  exact .inr ⟨by omega, by omega⟩

/-- With the ledger open and everything marked, the manager offers no page in use. -/
theorem Prepared.adopts (prepared : Prepared root table before) (hosts : layout.Hosts region)
    (member : region ∈ table.regions)
    (planned : Ledger.Layout.ofRegions table.regions = .ok layout)
    (settles : Settles root table.regions layout region.start strip left used before mapped opened
      marked) :
    Adopts root table layout region.start used
      ⟨marked.machine, { marked.source with stage := .ready }⟩ := by
  rcases settles with ⟨houses, behind, maps, isUsed, opens, withdraws⟩
  have aligned := hosts.whole.start
  have admits := prepared.admits hosts member
  have agrees : AgreesOutside (layout.Occupies region.start) mapped.memory marked.memory :=
    opens.agrees.trans withdraws.agrees
  rcases maps.grows admits behind agrees with ⟨addressable, served, grows⟩
  have unchanged : ∀ frame, (spaceBelow root).hierarchy.IsTable marked.memory frame →
      (spaceBelow root).hierarchy.IsTable mapped.memory frame :=
    fun frame isTable => (grows.tables frame isTable).resolve_right id
  have free : ∀ frame, marked.source.ledger.IsFree marked.memory frame ↔
      table.Manages frame ∧ ¬ IsTaken table layout region.start used frame := by
    intro frame
    rw [withdraws.free, opens.isFree_iff prepared.pageAligned]
    rfl
  rcases maps.manager with ⟨next, mappedSource, _⟩
  have source : marked.source = { before.source with
      nextVirtual := next, ledger := layout.ledger region.start, stage := .bitmapAllocated } := by
    rw [withdraws.source, opens.source, mappedSource]
  refine ⟨⟨addressable, grows.tree, served,
    ⟨rfl, rfl, withdraws.orderly, fun _ => Iff.rfl⟩, ?_, ?_⟩, ?_, ?_, ?_, planned,
    houses, ⟨region, member, rfl, hosts⟩, ?_, ?_⟩
  · rintro frame ⟨high, isFree⟩
    rcases (free frame).1 isFree with ⟨isManaged, notTaken⟩
    refine ⟨?_, isManaged.isLinkable_number prepared.sound, fun isTable => ?_,
      fun occupied => notTaken (isTaken_of_occupies aligned occupied)⟩
    · exact (agrees.hasFrame_iff frame).2 ((maps.hasFrame frame).2
        (prepared.inside frame isManaged high))
    · rcases maps.widened.tables frame (unchanged frame isTable) with old | between
      · exact prepared.unmanaged frame old isManaged
      · exact notTaken (isTaken_of_between aligned behind maps.start isUsed between)
  · exact fun frame occupied isTable =>
      maps.not_isTable_of_occupies admits behind occupied (unchanged frame isTable)
  · change marked.source.active = root
    rw [source]
    exact prepared.active
  · change marked.source.root = some root
    rw [source]
    exact prepared.owner
  · change marked.source.ledger = _
    rw [source]
  · have count := used_eq maps.start isUsed
    have within := maps.within
    have stop := behind.stop
    omega
  · exact fun frame => and_congr_right' (free frame)

/-- Whether a frame is taken as a table while the ledger is mapped. -/
def TakesEarly (regions : List Region) (before : Paged FrameManager) (frame : Frame) : Prop :=
  ∃ layout bytes region strip address left mapped,
    Ledger.Layout.ofRegions regions = .ok layout ∧ layout.requiredBytes = .ok bytes ∧
    regions.find? (canHost bytes) = some region ∧
    earlyFrames region.start layout = .ok strip ∧
    (Paged.lending strip (mapBeyond region.start layout.metadataPages .readWrite)).run before =
      (.done (address, left), mapped) ∧
    Page.Between strip.next left.next.number frame

theorem Steps.of_takesEarly {regions : List Region} {allocated : Paged FrameManager}
    (steps : Steps regions layout region address strip left before mapped opened allocated marked)
    (takes : TakesEarly regions before frame) : Page.Between strip.next left.next.number frame := by
  rcases takes with
    ⟨_, _, _, _, _, _, _, planned, size, found, behind, maps, between⟩
  rcases steps.found with ⟨_, stepsSize, stepsFound⟩
  cases steps.planned.symm.trans planned
  cases stepsSize.symm.trans size
  cases stepsFound.symm.trans found
  cases steps.behind.symm.trans behind
  cases steps.maps.symm.trans maps
  exact between

theorem Prepared.of_run_adopt (prepared : Prepared root table before)
    (clear : ∀ layout, Ledger.Layout.ofRegions table.regions = .ok layout →
      ∀ index < layout.metadataPages,
        (spaceBelow root).hierarchy.Leads (before.source.nextVirtual.pageAfter index))
    (done : (adopt table.regions).run before = (.done (), after)) :
    ∃ layout host used, Adopts root table layout host used after ∧
      ∀ frame, TakesEarly table.regions before frame → IsTaken table layout host used frame := by
  rcases FrameManager.of_run_adopt done with
    ⟨layout, region, address, strip, left, mapped, opened, allocated, marked, steps, rfl⟩
  rcases steps.found with ⟨bytes, size, found⟩
  rcases Ledger.Layout.hosts_of_find prepared.wellFormed size found with ⟨member, hosts⟩
  rcases steps.settles prepared.wellFormed (Run.pairwise_separate prepared.sound.separate) member
    (prepared.admits hosts member) (clear layout steps.planned) with ⟨used, settles⟩
  refine ⟨layout, region.start, used, prepared.adopts hosts member steps.planned settles,
    fun frame takes => ?_⟩
  have between := steps.of_takesEarly takes
  rw [settles.behind.next] at between
  exact isTaken_of_between hosts.whole.start settles.behind settles.maps.start settles.isUsed
    between

end

end FrameManager

end EarlyMemory
