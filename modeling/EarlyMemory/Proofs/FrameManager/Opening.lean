import EarlyMemory.FrameManager.Setup
import EarlyMemory.Proofs.FrameManager.Pages
import EarlyMemory.Proofs.Ledger.Layout
import EarlyMemory.Proofs.Paging.SelfMap

/-!
# Opening the ledger

Once the recursive map is installed the manager reaches the ledger at the address that its
pages are mapped at, so the ledger stands in the frames that were mapped there. It is
cleared and records the runs of the regions in nothing but those frames.
-/

namespace EarlyMemory

open Operation
open Memory (AgreesOutside)

namespace FrameManager

variable {root : Frame} {before after : Paged FrameManager} {expected : Stage}

/-! ## The recursive map -/

theorem of_run_requireStage {F : Type} {manager : FrameManager} {paged reached : Paged F}
    (done : (manager.requireStage expected).run paged = (.done (), reached)) :
    manager.stage = expected ∧ paged = reached := by
  unfold requireStage at done
  split at done
  next same =>
    cases done
    exact ⟨same, rfl⟩
  next => cases done

theorem run_requireStage {F : Type} {manager : FrameManager} {paged : Paged F}
    (staged : manager.stage = expected) :
    (manager.requireStage expected : Operation (Paged F) Refusal Unit).run paged =
      (.done (), paged) := by
  rw [requireStage, if_pos staged, run_pure]

theorem of_run_change {ε : Type} {change : FrameManager → FrameManager}
    (done : (FrameManager.change change : Operation (Paged FrameManager) ε Unit).run before =
      (.done (), after)) : after = ⟨before.machine, change before.source⟩ := by
  cases done
  rfl

/-- How installing the recursive map of a root ends. -/
inductive Installs (root : Frame) (before : Paged FrameManager) :
    Outcome Refusal Unit → Paged FrameManager → Prop
  | kept (first : before.source.stage = .uninitialized)
      (installed : RecursiveMap.isInstalled before.memory root = true) :
      Installs root before (.done ()) ⟨before.machine,
        { before.source with root := some root, stage := .selfMapInstalled }⟩
  | written {after : Paged FrameManager} (first : before.source.stage = .uninitialized)
      (inside : before.memory.HasFrame root)
      (absent : (RecursiveMap.entryOf before.memory root).present = false)
      (memory : after.memory = RecursiveMap.install before.memory root)
      (source : after.source =
        { before.source with root := some root, stage := .selfMapInstalled }) :
      Installs root before (.done ()) after
  | taken (present : (RecursiveMap.entryOf before.memory root).present = true)
      (other : RecursiveMap.isInstalled before.memory root = false) :
      Installs root before
        (.refused (.slotInUse (RecursiveMap.entryOf before.memory root).frame.base)) before
  | late (later : before.source.stage ≠ .uninitialized) :
      Installs root before (.refused (.wrongStage .uninitialized before.source.stage)) before
  | outside {cause : Fault} (missing : before.memory.requireFrame root = .error cause) :
      Installs root before (.fault cause) before

theorem install_spec (root : Frame) (before : Paged FrameManager) :
    Installs root before ((install root).run before).1 ((install root).run before).2 := by
  rw [install, run_bind, Paged.run_inspect]
  cases required : before.memory.requireFrame root with
  | error cause => exact .outside required
  | ok nothing =>
      have inside := Memory.hasFrame_of_requireFrame required
      simp only []
      rw [run_bind_of_done (run_current before)]
      by_cases first : before.source.stage = .uninitialized
      · have staged : (before.source.requireStage .uninitialized :
            Operation (Paged FrameManager) Refusal Unit).run before = (.done (), before) := by
          rw [requireStage, if_pos first, run_pure]
        rw [run_bind_of_done staged, run_bind_of_done (Paged.run_inspect ..)]
        cases installed : RecursiveMap.isInstalled before.memory root with
        | true =>
            rw [if_pos rfl, run_bind_of_done (run_report ..)]
            exact .kept first installed
        | false =>
            rw [if_neg (by simp), run_bind_of_done (Paged.run_inspect ..)]
            cases present : (RecursiveMap.entryOf before.memory root).present with
            | true =>
                rw [if_pos rfl, run_bind_of_done (run_report ..),
                  run_bind_of_refused (run_refuse ..)]
                exact .taken present installed
            | false =>
                rcases Paged.exists_run_changeMemory (ε := Refusal)
                  (fun memory => RecursiveMap.install memory root) before with
                  ⟨written, writing, memory, source⟩
                rw [if_neg (by simp), run_bind_of_done writing]
                exact .written first inside present memory (by rw [← source]; rfl)
      · have staged : (before.source.requireStage .uninitialized :
            Operation (Paged FrameManager) Refusal Unit).run before =
              (.refused (.wrongStage .uninitialized before.source.stage), before) := by
          rw [requireStage, if_neg first, run_refuse]
        rw [run_bind_of_refused staged]
        exact .late first

theorem of_run_install (tree : (Hierarchy.shown root).IsTree before.memory)
    (done : (install root).run before = (.done (), after)) :
    after.memory = RecursiveMap.install before.memory root ∧
      after.source = { before.source with root := some root, stage := .selfMapInstalled } := by
  have installs := install_spec root before
  rw [done] at installs
  cases installs with
  | kept _ installed =>
      rw [Hierarchy.not_isInstalled tree] at installed
      cases installed
  | written _ _ _ memory source => exact ⟨memory, source⟩

theorem exists_run_install (addressable : before.memory.IsAddressable)
    (inside : before.memory.HasFrame root)
    (uninitialized : before.source.stage = .uninitialized)
    (absent : (RecursiveMap.entryOf before.memory root).present = false) :
    ∃ after, (install root).run before = (.done (), after) := by
  have required := Memory.requireFrame_eq_ok addressable inside
  have installs := install_spec root before
  rcases ending : (install root).run before with ⟨outcome, after⟩
  rw [ending] at installs
  change Installs root before outcome after at installs
  cases installs with
  | kept => exact ⟨_, rfl⟩
  | written => exact ⟨after, rfl⟩
  | taken present _ =>
      rw [absent] at present
      cases present
  | late later => exact absurd uninitialized later
  | outside missing =>
      rw [required] at missing
      cases missing

end FrameManager

/-! ## The frames of a ledger -/

namespace Ledger.Layout

variable {layout : Layout} {host : PhysicalAddress} {memory recorded : Memory} {runs : List Run}
  {regions : List Region}

/-- The frames that a ledger at an address takes. -/
def Occupies (layout : Layout) (host : PhysicalAddress) (frame : Frame) : Prop :=
  ∃ offset < layout.metadataPages * 4096, frame.Holds (host.value + offset)

def Fits (layout : Layout) (host : PhysicalAddress) (memory : Memory) : Prop :=
  ∀ offset < layout.metadataPages * 4096, memory.Contains (host.value + offset)

theorem Fits.exists_occupies (fits : layout.Fits host memory) (addressable : memory.IsAddressable)
    {offset : Nat} (below : offset < layout.metadataPages * 4096) :
    ∃ frame : Frame, layout.Occupies host frame ∧ frame.Holds (host.value + offset) := by
  have low := Memory.lt_of_contains addressable (fits offset below)
  refine ⟨⟨(host.value + offset) / 4096, ?_⟩, ⟨offset, below, rfl⟩, rfl⟩
  simp only [PageSize.count]
  omega

theorem Fits.agreesOutside_cleared (fits : layout.Fits host memory)
    (addressable : memory.IsAddressable) :
    AgreesOutside (layout.Occupies host) memory
      (memory.fill host.value (layout.metadataPages * 4096) 0) := by
  apply (Memory.writesWithin_store memory host.value _).agreesOutside
  intro address above below
  rw [List.length_replicate] at below
  rw [show address = host.value + (address - host.value) by omega]
  exact fits.exists_occupies addressable (by omega)

theorem Houses.descriptor_lt (houses : layout.Houses runs) {address : Nat}
    (above : (layout.ledger host).descriptorAddress 0 ≤ address)
    (below : address < (layout.ledger host).descriptorAddress (0 + runs.length)) :
    ∃ offset < layout.metadataPages * 4096, address = host.value + offset := by
  have fits := houses.fits
  rw [houses.count] at fits
  simp only [descriptorAddress, ledger, Nat.zero_add, Nat.zero_mul] at above below
  exact ⟨address - host.value, by omega, by omega⟩

/-- A ledger that was cleared and records the runs is in order. -/
theorem Houses.of_recorded (houses : layout.Houses runs)
    (wellFormed : ∀ run ∈ runs, run.IsWellFormed) (separate : runs.Pairwise Run.Separate)
    (addressable : memory.IsAddressable) (fits : layout.Fits host memory)
    (done : (layout.ledger host).recordRuns
      (memory.fill host.value (layout.metadataPages * 4096) 0) 0 0 runs = .ok recorded) :
    AgreesOutside (layout.Occupies host) memory recorded ∧
      (layout.ledger host).descriptors recorded = Run.planned 0 runs ∧
      (layout.ledger host).IsOrderly recorded (layout.Occupies host) ∧
      ∀ offset < layout.bitmapBytes, recorded.byteAt (host.value + offset) = 0 := by
  have cleared := fits.agreesOutside_cleared addressable
  have room : ∀ address, (layout.ledger host).descriptorAddress 0 ≤ address →
      address < (layout.ledger host).descriptorAddress (0 + runs.length) →
      (memory.fill host.value (layout.metadataPages * 4096) 0).Contains address := by
    intro address above below
    rcases houses.descriptor_lt above below with ⟨offset, within, rfl⟩
    exact (cleared.contains_iff _).2 (fits offset within)
  rcases of_recordRuns wellFormed room (by decide) done with ⟨writes, descriptors⟩
  have stored : AgreesOutside (layout.Occupies host) memory recorded := by
    refine cleared.trans (writes.agreesOutside fun address above below => ?_)
    rcases houses.descriptor_lt above below with ⟨offset, within, rfl⟩
    exact fits.exists_occupies addressable within
  have read : (layout.ledger host).descriptors recorded = Run.planned 0 runs := by
    rw [descriptors_eq]
    change (layout.ledger host).descriptorsFrom _ 0 layout.regionCount = _
    rw [houses.count]
    exact descriptors
  have zeros : ∀ offset < layout.bitmapBytes, recorded.byteAt (host.value + offset) = 0 := by
    intro offset below
    have inFront := houses.inFront
    have room := houses.fits
    rw [writes.byteAt _ (.inl (by simp only [descriptorAddress, ledger]; omega))]
    exact Memory.byteAt_fill_same memory host.value _ 0 (by omega) (fits offset (by omega))
  refine ⟨stored, read, isOrderly_of_planned houses wellFormed separate read ?_ zeros, zeros⟩
  intro offset below
  exact ⟨(stored.contains_iff _).2 (fits offset below), fits.exists_occupies addressable below⟩

end Ledger.Layout

namespace FrameManager

/-! ## The ledger -/

variable {before after : Paged FrameManager} {layout : Ledger.Layout} {regions : List Region}
  {address : VirtualAddress} {host : PhysicalAddress}

structure Opens (layout : Ledger.Layout) (host : PhysicalAddress) (regions : List Region)
    (before after : Paged FrameManager) : Prop where
  agrees : AgreesOutside (layout.Occupies host) before.memory after.memory
  source : after.source =
    { before.source with ledger := layout.ledger host, stage := .bitmapAllocated }
  orderly : after.source.ledger.IsOrderly after.memory (layout.Occupies host)
  recorded : after.source.ledger.descriptors after.memory =
    Run.planned 0 (Run.ofRegions regions)
  clear : ∀ descriptor ∈ after.source.ledger.descriptors after.memory, ∀ bit,
    (after.source.ledger.view after.memory descriptor).isSet bit = false

theorem Opens.isFree_iff (opens : Opens layout host regions before after)
    (aligned : ∀ region ∈ regions, region.IsPageAligned) (frame : Frame) :
    after.source.ledger.IsFree after.memory frame ↔
      ∃ region ∈ regions, region.IsManaged ∧ region.HoldsPage frame := by
  unfold Region.IsManaged
  rw [← Run.exists_planned_iff aligned, ← opens.recorded]
  refine exists_congr fun descriptor => and_congr_right fun member => ?_
  rw [← Descriptor.exists_tracks_iff (opens.orderly.wellFormed descriptor member)]
  exact exists_congr fun index => and_iff_left (opens.clear descriptor member index)

theorem of_locate {memory : Memory} {active : Frame} {count : Nat} {start : PhysicalAddress}
    (located : (TableAccess.recursive active).locate memory address count = .ok start) :
    memory.resolve active address = .ok start ∧ memory.IsAddressable ∧
      ∀ index < count, memory.Contains (start.value + index) := by
  simp only [TableAccess.locate, bind, Except.bind] at located
  cases resolved : memory.resolve active address with
  | error cause =>
      rw [resolved] at located
      cases located
  | ok target =>
  rw [resolved] at located
  simp only at located
  cases limit : address.add count with
  | error cause =>
      rw [limit] at located
      cases located
  | ok stop =>
  rw [limit] at located
  simp only at located
  split at located
  next => cases located
  next =>
    split at located
    next => cases located
    next ranged =>
      cases located
      exact ⟨rfl, Memory.isAddressable_of_requireRange ranged, Memory.of_requireRange ranged⟩

theorem advance_page {space : Space} {address : Address space} {index : Nat}
    (aligned : address.value % 4096 = 0) (room : address.value + index * 4096 < 1 <<< 64) :
    (address.page .small).advance index = .ok ((address.pageAfter index).page .small) ∧
      ((address.pageAfter index).page .small).base = address.pageAfter index := by
  have value := Address.value_pageAfter room
  have number : ((address.pageAfter index).page .small).number =
      (address.page .small).number + index := by
    simp only [Address.page, PageSize.bytes, value]
    omega
  have below := ((address.pageAfter index).page .small).isLt
  rw [number] at below
  refine ⟨(Page.advance_eq_ok below).trans (congrArg _ (Page.ext number.symm)), Address.ext ?_⟩
  simp only [Page.base, Address.page, PageSize.bytes, value]
  omega

/-- Consecutive pages that are mapped to consecutive frames. -/
def MapsInRow (memory : Memory) (active : Frame) (address : VirtualAddress)
    (host : PhysicalAddress) (pages : Nat) : Prop :=
  ∀ index < pages,
    memory.resolve active (address.pageAfter index) = .ok (host.pageAfter index)

theorem requireContiguous_eq_ok {memory : Memory} {active : Frame} {index pages remaining : Nat}
    (aligned : address.value % 4096 = 0) (hostAligned : host.value % 4096 = 0)
    (whole : index + remaining = pages) (room : address.value + pages * 4096 < 1 <<< 64)
    (hostRoom : host.value + pages * 4096 ≤ 1 <<< 64)
    (mapped : MapsInRow memory active address host pages) :
    TableAccess.requireContiguous memory active (host.page .small) (address.page .small) index
      remaining = .ok () := by
  induction remaining generalizing index with
  | zero => rfl
  | succ remaining induction =>
      have hereRoom : address.value + index * 4096 < 1 <<< 64 := Nat.lt_of_le_of_lt (by omega) room
      have nextRoom : address.value + (index + 1) * 4096 < 1 <<< 64 :=
        Nat.lt_of_le_of_lt (by omega) room
      have frameRoom : host.value + index * 4096 < 1 <<< 64 :=
        Nat.lt_of_lt_of_le (by omega) hostRoom
      rcases advance_page hostAligned frameRoom with ⟨expected, expectedBase⟩
      rcases advance_page aligned hereRoom with ⟨current, currentBase⟩
      have last : ((address.pageAfter index).page .small).number + 1 < 1 <<< 52 := by
        simp only [Address.page, PageSize.bytes, Address.value_pageAfter hereRoom]
        simp only [Nat.reduceShiftLeft] at nextRoom ⊢
        omega
      have target := mapped index (by omega)
      rw [TableAccess.requireContiguous, expected, current]
      simp only [bind, Except.bind, currentBase, expectedBase, target, if_true,
        Page.advance_eq_ok last]
      exact induction (by omega)

theorem locate_pages {memory : Memory} {active : Frame} {pages : Nat}
    (addressable : memory.IsAddressable) (some : 0 < pages) (aligned : address.value % 4096 = 0)
    (hostAligned : host.value % 4096 = 0) (room : address.value + pages * 4096 < 1 <<< 64)
    (hostRoom : host.value + pages * 4096 ≤ 1 <<< 64)
    (mapped : MapsInRow memory active address host pages)
    (fits : ∀ offset < pages * 4096, memory.Contains (host.value + offset)) :
    (TableAccess.recursive active).locate memory address (pages * 4096) = .ok host := by
  have first := mapped 0 some
  rw [Address.pageAfter_zero, Address.pageAfter_zero] at first
  have base : (address.page .small).base = address := by
    apply Address.ext
    simp only [Page.base, Address.page, PageSize.bytes]
    omega
  have count : PageSize.small.pagesFor (address.value + pages * 4096 - address.value) = pages := by
    simp only [PageSize.pagesFor, PageSize.bytes]
    omega
  simp only [TableAccess.locate, first, bind, Except.bind, Address.add_eq_ok room, base, count,
    requireContiguous_eq_ok aligned hostAligned (Nat.zero_add pages) room hostRoom mapped,
    Memory.requireRange_eq_ok addressable (Nat.mul_pos some (by decide)) fits]
  rfl

/-- Opening is done only where the ledger is mapped to, whatever the tables look like. -/
theorem of_run_openLedger (aligned : ∀ region ∈ regions, region.IsPageAligned)
    (separate : (Run.ofRegions regions).Pairwise Run.Separate)
    (planned : Ledger.Layout.ofRegions regions = .ok layout)
    (done : (openLedger address host layout regions).run before = (.done (), after)) :
    ∃ start, before.memory.resolve before.source.active address = .ok start ∧
      Opens layout start regions before after := by
  have wellFormed : ∀ run ∈ Run.ofRegions regions, run.IsWellFormed :=
    fun run member => (Run.mem_ofRegions aligned member).1
  have houses := Ledger.houses_of_ofRegions wellFormed planned
  rw [openLedger] at done
  rcases of_run_bind done with ⟨_, _, isCurrent, done⟩
  cases isCurrent
  rcases of_run_bind done with ⟨bytes, _, multiplied, done⟩
  rcases of_run_check multiplied with ⟨product, rfl⟩
  rcases Word.of_multiply product with ⟨rfl, _⟩
  rcases of_run_bind done with ⟨start, _, looked, done⟩
  rcases Paged.of_run_inspect looked with ⟨located, rfl⟩
  rcases of_locate located with ⟨resolved, addressable, fits⟩
  rcases of_run_bind done with ⟨_, filled, filling, done⟩
  rcases Paged.of_run_changeMemory filling with ⟨filledMemory, filledSource⟩
  rcases of_run_bind done with ⟨_, changed, changing, done⟩
  cases of_run_change changing
  rcases of_run_bind done with ⟨_, _, reporting, done⟩
  cases reporting
  rcases Paged.of_run_alter done with ⟨altered, source⟩
  have recorded : (layout.ledger start).recordRuns filled.memory 0 0 (Run.ofRegions regions) =
      .ok after.memory := altered
  rw [filledMemory] at recorded
  rcases houses.of_recorded wellFormed separate addressable fits recorded with
    ⟨agrees, read, orderly, cleared⟩
  have source : after.source = { before.source with
      ledger := layout.ledger start, stage := .bitmapAllocated } := by
    rw [source, ← filledSource]
    rfl
  have ledger : after.source.ledger = layout.ledger start := by rw [source]
  refine ⟨start, resolved, agrees, source, by rwa [ledger], by rwa [ledger], ?_⟩
  rw [ledger, read]
  intro descriptor member bit
  have below := (Run.of_mem_planned member).2.2
  rw [Nat.zero_add, ← houses.bitmaps] at below
  exact Ledger.isSet_view_of_cleared cleared below bit

theorem exists_run_openLedger (pageAligned : ∀ region ∈ regions, region.IsPageAligned)
    (aligned : address.value % 4096 = 0) (hostAligned : host.value % 4096 = 0)
    (addressable : before.memory.IsAddressable)
    (planned : Ledger.Layout.ofRegions regions = .ok layout) (some : 0 < layout.metadataPages)
    (room : address.value + layout.metadataPages * 4096 < 1 <<< 64)
    (hostRoom : host.value + layout.metadataPages * 4096 ≤ 1 <<< 64)
    (mapped : MapsInRow before.memory before.source.active address host layout.metadataPages)
    (fits : layout.Fits host before.memory) :
    ∃ after, (openLedger address host layout regions).run before = (.done (), after) := by
  have whole : ∀ run ∈ Run.ofRegions regions, run.IsWellFormed :=
    fun run member => (Run.mem_ofRegions pageAligned member).1
  have houses := Ledger.houses_of_ofRegions whole planned
  have low := houses.low
  rw [houses.bitmaps] at low
  have located : (Paged.inspect fun memory =>
      before.source.access.locate memory address (layout.metadataPages * 4096) :
      Operation (Paged FrameManager) Refusal PhysicalAddress).run before =
        (.done host, before) := by
    have found := locate_pages addressable some aligned hostAligned room hostRoom mapped fits
    rw [Paged.run_inspect, access, found]
  rcases Paged.exists_run_changeMemory (ε := Refusal)
    (fun memory => memory.fill host.value (layout.metadataPages * 4096) 0) before with
    ⟨filled, filling, _⟩
  have recordable : ∃ recorded, (layout.ledger host).recordRuns filled.memory 0 0
      (Run.ofRegions regions) = .ok recorded :=
    Ledger.exists_recordRuns _ _ whole (by omega)
  rcases recordable with ⟨recorded, recording⟩
  have product : Word.multiply layout.metadataPages PageSize.small.bytes =
      .ok (layout.metadataPages * 4096) :=
    if_pos (Nat.lt_of_le_of_lt (Nat.le_add_left ..) room)
  have altered : ∃ after, (Paged.alter fun memory =>
      (layout.ledger host).recordRuns memory 0 0 (Run.ofRegions regions) :
      Operation (Paged FrameManager) Refusal Unit).run
        ⟨filled.machine, { filled.source with
          ledger := layout.ledger host, stage := .bitmapAllocated }⟩ = (.done (), after) := by
    rw [Paged.run_alter]
    simp only [Paged.memory] at recording ⊢
    rw [recording]
    exact ⟨_, rfl⟩
  rcases altered with ⟨after, altered⟩
  refine ⟨after, (run_bind_of_done (run_current before)).trans ?_⟩
  rw [product]
  exact (run_bind_of_done (run_check_ok ..)).trans ((run_bind_of_done located).trans
    ((run_bind_of_done filling).trans ((run_bind_of_done (run_update ..)).trans
      ((run_bind_of_done (run_report ..)).trans altered))))

end FrameManager

end EarlyMemory
