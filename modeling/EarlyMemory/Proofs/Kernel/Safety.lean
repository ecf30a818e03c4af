import EarlyMemory.Proofs.FrameManager.Completion
import EarlyMemory.Proofs.Kernel.BringUp
import EarlyMemory.Proofs.Kernel.Runs
import EarlyMemory.Proofs.Loader.Handoff

/-!
# No page in use is handed out

From the firmware's map to the kernel's last request: whatever the loader loads and
whatever the kernel does with its manager, a page that is handed out, or taken as a table,
is memory that the firmware reported as available, and nobody else uses it.
-/

namespace EarlyMemory.Kernel

open Operation
open FrameManager (Adopts IsTaken Prepared spaceBelow)
open Loader (isStart_of_respects)

variable {capacity : Nat} {sorting : Region.Sorting} {map : List ReportedRange}
  {kept : List KeptRange} {recorded table : RegionTable capacity sorting} {machine : Machine}
  {root frame : Frame} {loaded : Paged (RegionTable capacity sorting)} {imageEnd : VirtualAddress}
  {ready reached after : Paged FrameManager} {held busy : List Frame}

/-- What is known of a page that nobody uses. -/
structure IsUnused (map : List ReportedRange) (kept : List KeptRange) (root : Frame)
    (loaded : Paged (RegionTable capacity sorting)) (imageEnd : VirtualAddress)
    (held busy : List Frame) (reached : Paged FrameManager) (page : Frame) : Prop where
  reported : ReportedRange.Supplies map page
  high : lowMemoryEnd.value ≤ page.number * 4096
  /-- It is no table, neither the loader's nor one that was linked since. -/
  notTable : ¬ (spaceBelow root).hierarchy.IsTable reached.memory page
  notEarly : ¬ Takeover.TakesEarly loaded root imageEnd page
  /-- No page beyond the identity map is mapped to it by the loader. -/
  notMapped : ∀ address : VirtualAddress, ∀ leaf, 512 ≤ address.pageKey.val →
    (Loader.tables root).entryAt loaded.memory address.leafPath = some leaf → leaf.frame ≠ page
  notBacking : ¬ loaded.source.BacksImage page
  notLedger : ∀ offset < reached.source.ledger.size,
    ¬ page.Holds (reached.source.ledger.start.value + offset)
  missed : ∀ range ∈ kept, range.MissesPage page
  notHeld : page ∉ held
  notBusy : page ∉ busy

theorem hasFrame_of_manages (respects : MemoryMap.Respects map kept table)
    (inside : ∀ frame, ReportedRange.Supplies map frame →
      lowMemoryEnd.value ≤ frame.number * 4096 → machine.memory.HasFrame frame)
    (loads : Loader.Reached ⟨machine, table⟩ root loaded) (frame : Frame)
    (managed : loaded.source.Manages frame) (high : lowMemoryEnd.value ≤ frame.number * 4096) :
    loaded.memory.HasFrame frame := by
  have reported := respects.reported frame (loads.table.manages frame managed)
  exact (loads.hasFrame frame).2 (inside frame reported high)

theorem IsSafe.isUnused {layout : Ledger.Layout} {host : PhysicalAddress} {used : Nat}
    (safe : IsSafe root ready.source (layout.Occupies host)
      (ready.source.ledger.Offers ready.memory) held busy reached)
    (adopts : Adopts root loaded.source layout host used ready)
    (early : ∀ frame, Takeover.TakesEarly loaded root imageEnd frame →
      IsTaken loaded.source layout host used frame)
    (loads : Loader.Reached ⟨machine, table⟩ root loaded)
    (respects : MemoryMap.Respects map kept table)
    (offered : ready.source.ledger.Offers reached.memory frame) :
    IsUnused map kept root loaded imageEnd held busy reached frame := by
  rcases (adopts.offers frame).1 (safe.offered frame offered) with ⟨_, managed, notTaken⟩
  have spare := safe.isSpare offered
  have original := loads.table.manages frame managed
  have notBacking : ¬ loaded.source.BacksImage frame := fun backs => notTaken (.inl backs)
  refine ⟨respects.reported frame original, offered.1, spare.unused,
    fun takes => notTaken (early frame takes), ?_, notBacking, ?_, ?_, ?_, ?_⟩
  · rintro address leaf beyond found rfl
    rcases loads.backed address leaf found with low | backs
    · omega
    · exact notBacking backs
  · intro offset below holds
    rw [safe.source, adopts.ledger] at below holds
    exact spare.unkept ⟨offset, Nat.lt_of_lt_of_le below adopts.houses.fits, holds⟩
  · exact fun range isKept => respects.missed range isKept frame original
  · exact fun isHeld => (safe.held frame isHeld).2.2 offered
  · exact fun isBusy => safe.busy frame isBusy offered

/-- A page that is handed out or becomes a table is unused. -/
theorem handed_out_pages_are_unused (apart : map.Pairwise ReportedRange.Apart)
    (inside : ∀ frame, ReportedRange.Supplies map frame →
      lowMemoryEnd.value ≤ frame.number * 4096 → machine.memory.HasFrame frame)
    (ingested : (MemoryMap.recordRanges map).run RegionTable.empty = (.done (), recorded))
    (fenced : MemoryMap.Fences recorded kept table)
    (loads : Loader.Reaches ⟨machine, table⟩ root loaded)
    (clear : ∀ layout, Ledger.Layout.ofRegions loaded.source.regions = .ok layout →
      ∀ index < layout.metadataPages,
        Level.pml4.index ((imageEnd.alignUp .small).pageAfter index) ≠ RecursiveMap.slot)
    (cameUp : (Takeover.bringUp (.describe loaded.source root)).run
      (Takeover.handedOver loaded root imageEnd) = (.done (), ready))
    (reaches : Reaches ready held busy reached) :
    (∀ page after,
      (FrameManager.allocate : Operation _ FrameManager.Refusal _).run reached =
        (.done (some page), after) →
      IsUnused map kept root loaded imageEnd held busy reached page) ∧
    ∀ target address rights outcome after, Level.pml4.index address ≠ RecursiveMap.slot →
      (FrameManager.map target address rights).run reached = (outcome, after) →
      ∀ path page, path.length ≤ 3 → (spaceBelow root).hierarchy.Owns path →
        (spaceBelow root).hierarchy.tableAt reached.memory path = none →
        (spaceBelow root).hierarchy.tableAt after.memory path = some page →
        IsUnused map kept root loaded imageEnd held busy reached page := by
  have respects := fenced.respects (MemoryMap.respects_of_recordRanges apart ingested)
  have isLoaded := loads.reached (isStart_of_respects respects inside)
  rcases Takeover.adopts_of_bringUp isLoaded.sound isLoaded.linkable
    (hasFrame_of_manages respects inside isLoaded) clear cameUp with
    ⟨layout, host, used, adopts, early⟩
  have safe := reaches.isSafe ⟨adopts.active, adopts.owner, adopts.ready,
    fun _ offered => offered, by simp, by simp⟩
  refine ⟨fun page after ran => ?_, fun target address rights outcome after outside ran => ?_⟩
  · rcases safe.allocate ran with ⟨given, answer, offered, _⟩ | ⟨answer, _⟩
    · cases answer
      exact safe.isUnused adopts early isLoaded respects offered
    · cases answer
  · intro path page short owns missing found
    have widened := (safe.map outside ran).2
    exact safe.isUnused adopts early isLoaded respects
      (widened.fresh_of_new short owns missing found)

/-! ## A small machine -/

/-- Thirteen frames from the first mebibyte on, all of them available. -/
def tinyMap : List ReportedRange :=
  [⟨.ofNat 0x100000, 0xD000, 1⟩]

def tinyKept : KeptRange :=
  ⟨.ofNat 0x10C000, .ofNat 0x10D000⟩

def tinyRoot : Frame :=
  lowMemoryEnd.page .small

def tinyEnd : VirtualAddress :=
  .ofNat 0x200000

def tinyRecorded : RegionTable 8 :=
  ⟨[.of .available (.ofNat 0x100000) (.ofNat 0x10D000)]⟩

def tinyStart : Paged (RegionTable 8) :=
  ⟨⟨Memory.zeroed tinyRoot 16, []⟩,
    ⟨[.of .available (.ofNat 0x100000) (.ofNat 0x10C000),
      .of .reserved (.ofNat 0x10C000) (.ofNat 0x10D000)]⟩⟩

/-- The loader's tables take the first four. -/
def tinyTable : RegionTable 8 :=
  ⟨[.of .reserved (.ofNat 0x100000) (.ofNat 0x104000),
    .of .available (.ofNat 0x104000) (.ofNat 0x10C000),
    .of .reserved (.ofNat 0x10C000) (.ofNat 0x10D000)]⟩

theorem tinyMap_isRecorded : (MemoryMap.recordRanges tinyMap).run RegionTable.empty =
    (.done (), tinyRecorded) := by
  decide +kernel

theorem tinyKept_isFenced : MemoryMap.Fences tinyRecorded [tinyKept] tinyStart.source := by
  have reserves : (RegionTable.reserve tinyKept.start tinyKept.stop).run tinyRecorded =
      (.done (), tinyStart.source) := by
    decide +kernel
  have ran : (MemoryMap.fence "module" tinyKept.start tinyKept.stop).run tinyRecorded =
      (.done (), tinyStart.source) := by
    decide +kernel
  exact .reserved .nil reserves ran

theorem tinyMap_isInside : ∀ frame, ReportedRange.Supplies tinyMap frame →
    lowMemoryEnd.value ≤ frame.number * 4096 → tinyStart.memory.HasFrame frame :=
  fun _ supplied _ => supplied.hasFrame (by decide)

theorem exists_tinyLoaded : ∃ loaded last,
    (BootTables.create .long64).run tinyStart = (.done tinyRoot, loaded) ∧
      Loader.Identity tinyRoot last 512 loaded ∧ loaded.source = tinyTable := by
  have allocated : (RegionTable.allocateAs 4 .reserved :
      Operation (RegionTable 8) BootTables.Refusal _).run tinyStart.source =
        (.done (some ⟨0x100000, by decide⟩), tinyTable) := by
    decide +kernel
  have respects := tinyKept_isFenced.respects
    (MemoryMap.respects_of_recordRanges (by decide) tinyMap_isRecorded)
  have isStart := isStart_of_respects respects tinyMap_isInside
  rcases Loader.create_spec isStart (by decide) allocated with
    ⟨loaded, last, ran, identity, source, _⟩
  exact ⟨loaded, last, ran, identity, source⟩

/-- The root is mapped behind no slot but the first, so there is room for the recursive map. -/
theorem exists_tinyInstalled {last : Frame} {loaded : Paged (RegionTable 8)}
    (identity : Loader.Identity tinyRoot last 512 loaded) :
    ∃ installed, (FrameManager.install tinyRoot).run
      (Takeover.handedOver loaded tinyRoot tinyEnd) = (.done (), installed) := by
  apply FrameManager.exists_run_install identity.sound.addressable
    identity.sound.tree.root_inside rfl
  cases present : (RecursiveMap.entryOf loaded.memory tinyRoot).present with
  | false => exact present
  | true =>
      have found : (Loader.tables tinyRoot).tableAt loaded.memory [RecursiveMap.slot] = some
          (RecursiveMap.entryOf loaded.memory tinyRoot).frame :=
        Hierarchy.tableAt_cons_eq_some.2 ⟨tinyRoot, rfl, present, rfl⟩
      rcases identity.spine.only _ _ (by decide) found with ⟨upper, same⟩
      cases upper <;> exact absurd same (by decide)

def tinyLayout : Ledger.Layout :=
  ⟨3, 1, 8, 1, 6⟩

def tinyHost : Region :=
  .of .available (.ofNat 0x104000) (.ofNat 0x10C000)

theorem tinyLayout_isPlanned : Ledger.Layout.ofRegions tinyTable.regions = .ok tinyLayout :=
  ok_of_toOption (by decide)

theorem tinyBytes : tinyLayout.requiredBytes = .ok 0x7000 :=
  ok_of_toOption (by decide)

theorem tinyHost_isFound :
    tinyTable.regions.find? (FrameManager.canHost 0x7000) = some tinyHost := by
  decide

theorem tinyEnd_isUnmapped {last : Frame} {loaded : Paged (RegionTable 8)} {memory : Memory}
    (identity : Loader.Identity tinyRoot last 512 loaded)
    (installed : memory = RecursiveMap.install loaded.memory tinyRoot) :
    FrameManager.IsUnmapped (spaceBelow tinyRoot) tinyEnd 0 tinyLayout.metadataPages memory := by
  have leads : (spaceBelow tinyRoot).hierarchy.Leads tinyEnd := by
    intro hidden
    exact absurd (Option.some.inj hidden) (by decide)
  have missing : (spaceBelow tinyRoot).hierarchy.tableAt memory (Level.pt.path tinyEnd) = none := by
    rw [installed]
    refine (Hierarchy.tableAt_without identity.sound.tree
      (RecursiveMap.sameButSlot_install tinyRoot loaded.memory) _ (by decide)
      (leads.owns_path .pt)).trans ?_
    cases linked : (Loader.tables tinyRoot).tableAt loaded.memory (Level.pt.path tinyEnd) with
    | none => exact linked
    | some table =>
        rcases identity.spine.only _ table (by decide) linked with ⟨upper, samePath⟩
        cases upper <;> exact absurd samePath (by decide)
  refine ⟨⟨by decide, by decide, fun index _ below => ?_,
    fun positive => absurd positive (Nat.lt_irrefl 0)⟩, fun index _ below => ?_⟩
  all_goals
    cases Nat.lt_one_iff.1 below
    rw [Address.pageAfter_zero]
  · exact leads
  · exact Hierarchy.entryAt_leafPath_of_none missing

theorem exists_tinyAdopted {last : Frame} {loaded : Paged (RegionTable 8)}
    {installed : Paged FrameManager} (identity : Loader.Identity tinyRoot last 512 loaded)
    (prepared : Prepared tinyRoot tinyTable installed)
    (next : installed.source.nextVirtual = tinyEnd)
    (staged : installed.source.stage = .selfMapInstalled)
    (memory : installed.memory = RecursiveMap.install loaded.memory tinyRoot) :
    ∃ adopted free, (FrameManager.adopt tinyTable.regions).run installed = (.done (), adopted) ∧
      FrameManager.freePageCount adopted = .ok free ∧
      adopted.memory.frames = installed.memory.frames := by
  have unmapped : ∀ layout, Ledger.Layout.ofRegions tinyTable.regions = .ok layout →
      FrameManager.IsUnmapped (spaceBelow tinyRoot) installed.source.nextVirtual 0
        layout.metadataPages installed.memory := by
    intro layout planned
    cases tinyLayout_isPlanned.symm.trans planned
    rw [next]
    exact tinyEnd_isUnmapped identity memory
  have ordered : Region.IsOrdered tinyTable.regions := by
    unfold Region.IsOrdered
    decide
  rcases prepared.completes staged ordered (by decide)
    (fun layout planned => (unmapped layout planned).toIsLedTo) with
    ⟨outcome, adopted, ran, completes⟩
  cases completes with
  | met hosting below existing =>
      cases ((unmapped _ hosting.chooses.planned).free _ (Nat.zero_le _) (by omega)).symm.trans
        existing
  | hostless hostless =>
      rcases hostless with ⟨_, planned, size, none⟩
      cases tinyLayout_isPlanned.symm.trans planned
      cases tinyBytes.symm.trans size
      cases tinyHost_isFound.symm.trans none
  | adopted hosting steps counted =>
      exact ⟨_, _, ran, counted, (hosting.spares steps).agrees.frames⟩

theorem exists_tinyStages {last : Frame} {loaded : Paged (RegionTable 8)}
    (identity : Loader.Identity tinyRoot last 512 loaded) (source : loaded.source = tinyTable)
    (linkable : tinyRoot.IsLinkable)
    (inside : ∀ frame, loaded.source.Manages frame → lowMemoryEnd.value ≤ frame.number * 4096 →
      loaded.memory.HasFrame frame) :
    ∃ installed adopted free,
      (FrameManager.install tinyRoot).run (Takeover.handedOver loaded tinyRoot tinyEnd) =
        (.done (), installed) ∧
      Prepared tinyRoot tinyTable installed ∧ installed.source.nextVirtual = tinyEnd ∧
      (FrameManager.adopt tinyTable.regions).run installed = (.done (), adopted) ∧
      FrameManager.freePageCount adopted = .ok free ∧
      adopted.memory.frames = loaded.memory.frames := by
  rcases exists_tinyInstalled identity with ⟨installed, installing⟩
  rcases Takeover.prepared_of_install identity.sound linkable inside installing with
    ⟨prepared, next⟩
  rcases FrameManager.of_run_install identity.sound.tree installing with ⟨memory, isSource⟩
  rw [source] at prepared
  have start : installed.source.nextVirtual = tinyEnd := next.trans (by decide)
  rcases exists_tinyAdopted identity prepared start (by rw [isSource]) memory with
    ⟨adopted, free, adopting, counted, frames⟩
  have same : installed.memory.frames = loaded.memory.frames := by
    rw [memory]
    exact (RecursiveMap.agreesOutside_install ..).frames
  exact ⟨installed, adopted, free, installing, prepared, start, adopting, counted,
    frames.trans same⟩

theorem exists_tinyManaged : ∃ created installed adopted,
    created.source = .create tinyRoot tinyEnd ∧
    (FrameManager.install tinyRoot).run created = (.done (), installed) ∧
    Prepared tinyRoot tinyTable installed ∧ installed.source.nextVirtual = tinyEnd ∧
    (FrameManager.adopt tinyTable.regions).run installed = (.done (), adopted) ∧
    adopted.memory.frames = 16 := by
  rcases exists_tinyLoaded with ⟨loaded, last, creating, identity, source⟩
  have respects := tinyKept_isFenced.respects
    (MemoryMap.respects_of_recordRanges (by decide) tinyMap_isRecorded)
  have isStart := isStart_of_respects respects tinyMap_isInside
  have loads : Loader.Reaches tinyStart tinyRoot loaded := .created creating
  have reached := loads.reached isStart
  have inside := hasFrame_of_manages respects tinyMap_isInside reached
  rcases Loader.identity_of_create isStart creating with ⟨_, _, _, agrees⟩
  rcases exists_tinyStages identity source reached.linkable inside with
    ⟨installed, adopted, _, installing, prepared, start, adopting, _, frames⟩
  exact ⟨_, installed, adopted, Takeover.source_handedOver .., installing, prepared, start,
    adopting, frames.trans agrees.frames⟩

theorem exists_tinyBroughtUp : ∃ created installed adopted,
    created.source = .create tinyRoot tinyEnd ∧
    (FrameManager.install tinyRoot).run created = (.done (), installed) ∧
    Prepared tinyRoot tinyTable installed ∧ installed.source.nextVirtual = tinyEnd ∧
    (FrameManager.adopt tinyTable.regions).run installed = (.done (), adopted) := by
  rcases exists_tinyManaged with
    ⟨created, installed, adopted, isNew, installing, prepared, start, adopting, _⟩
  exact ⟨created, installed, adopted, isNew, installing, prepared, start, adopting⟩

theorem exists_tinyTakenOver : ∃ installed adopted, Prepared tinyRoot tinyTable installed ∧
    installed.source.nextVirtual = tinyEnd ∧
    (FrameManager.adopt tinyTable.regions).run installed = (.done (), adopted) := by
  rcases exists_tinyBroughtUp with ⟨_, installed, adopted, _, _, prepared, start, adopting⟩
  exact ⟨installed, adopted, prepared, start, adopting⟩

theorem exists_tinyReady {last : Frame} {loaded : Paged (RegionTable 8)}
    (identity : Loader.Identity tinyRoot last 512 loaded) (source : loaded.source = tinyTable)
    (linkable : tinyRoot.IsLinkable)
    (inside : ∀ frame, loaded.source.Manages frame → lowMemoryEnd.value ≤ frame.number * 4096 →
      loaded.memory.HasFrame frame) :
    ∃ ready, (Takeover.bringUp (.describe loaded.source tinyRoot)).run
      (Takeover.handedOver loaded tinyRoot tinyEnd) = (.done (), ready) := by
  rcases exists_tinyStages identity source linkable inside with
    ⟨installed, ready, free, installing, _, _, adopting, counted, _⟩
  rw [← source] at adopting
  exact ⟨ready, Takeover.run_bringUp_of_adopted installing adopting counted⟩

theorem tinyEnd_isClear (layout : Ledger.Layout)
    (planned : Ledger.Layout.ofRegions tinyTable.regions = .ok layout) :
    ∀ index < layout.metadataPages,
      Level.pml4.index ((tinyEnd.alignUp .small).pageAfter index) ≠ RecursiveMap.slot := by
  cases tinyLayout_isPlanned.symm.trans planned
  intro index below
  cases Nat.lt_one_iff.1 below
  decide

theorem tinyFrame_isOffered {layout : Ledger.Layout} {host : PhysicalAddress} {used : Nat}
    {ready : Paged FrameManager} (adopts : Adopts tinyRoot tinyTable layout host used ready) :
    ready.source.ledger.Offers ready.memory ⟨0x10B, by decide⟩ := by
  refine (adopts.offers _).2 ⟨by decide, ⟨tinyHost, by decide, rfl, by decide, by decide⟩, ?_⟩
  cases tinyLayout_isPlanned.symm.trans adopts.planned
  rintro (backs | among)
  · rcases backs with ⟨region, member, allocated, _⟩
    have none : ∀ region ∈ tinyTable.regions, region.code ≠ RegionKind.allocated.code := by decide
    exact none region member allocated
  · rcases adopts.hosted with ⟨region, member, rfl, hosts⟩
    have only : ∀ region ∈ tinyTable.regions, region.code = RegionKind.available.code →
        region = tinyHost := by decide
    cases only region member hosts.available
    have few : used ≤ 6 := adopts.used_le
    have below : 0x10B < 0x104 + 0 + (1 + used) := among.2
    omega

theorem tinyFrame_is_handed_out : ∃ loaded ready page after,
    Loader.Reaches tinyStart tinyRoot loaded ∧
    (Takeover.bringUp (.describe loaded.source tinyRoot)).run
      (Takeover.handedOver loaded tinyRoot tinyEnd) = (.done (), ready) ∧
    (FrameManager.allocate : Operation _ FrameManager.Refusal _).run ready =
      (.done (some page), after) ∧
    IsUnused tinyMap [tinyKept] tinyRoot loaded tinyEnd [] [] ready page := by
  rcases exists_tinyLoaded with ⟨loaded, last, creating, identity, source⟩
  have respects := tinyKept_isFenced.respects
    (MemoryMap.respects_of_recordRanges (by decide) tinyMap_isRecorded)
  have loads : Loader.Reaches tinyStart tinyRoot loaded := .created creating
  have reached := loads.reached (isStart_of_respects respects tinyMap_isInside)
  have inside := hasFrame_of_manages respects tinyMap_isInside reached
  rcases exists_tinyReady identity source reached.linkable inside with ⟨ready, cameUp⟩
  have clear := tinyEnd_isClear
  rw [← source] at clear
  rcases Takeover.adopts_of_bringUp reached.sound reached.linkable inside clear cameUp with
    ⟨layout, host, used, adopts, _⟩
  rw [source] at adopts
  rcases adopts.ready.supplied with ⟨_, supplies⟩
  rcases FrameManager.allocate_spec (ε := FrameManager.Refusal) supplies.ready supplies.orderly with
    ⟨answer, after, ran, handsOut⟩
  cases handsOut with
  | dry _ nothing => exact absurd (tinyFrame_isOffered adopts) (nothing _)
  | @page _ _ page _ _ _ _ _ =>
      exact ⟨loaded, ready, page, after, loads, cameUp, ran,
        (handed_out_pages_are_unused (by decide) tinyMap_isInside tinyMap_isRecorded
          tinyKept_isFenced loads clear cameUp .start).1 page after ran⟩

end EarlyMemory.Kernel
