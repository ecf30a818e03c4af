import EarlyMemory.Proofs.FrameManager.Stages
import EarlyMemory.Proofs.Kernel.View

/-!
# How taking over regions ends

Taking over regions that follow each other is done, or it is refused for one of two reasons:
no region can host the ledger, or a page behind the image is mapped already. The frames behind
the ledger never run out, and every page that is marked is found. After a refusal the manager
is at the stage where it was and has no ledger.
-/

namespace EarlyMemory

open Operation
open Region (Measure)

/-! ## Regions that hold nothing -/

namespace Region

variable {regions : List Region} {region : Region}

def nonempty (regions : List Region) : List Region :=
  regions.filter fun region => !region.isEmpty

theorem mem_nonempty : region ∈ nonempty regions ↔ region ∈ regions ∧ region.IsProper := by
  rw [nonempty, List.mem_filter, not_isEmpty_eq, decide_eq_true_iff]

theorem runs_nonempty (regions : List Region) :
    Run.ofRegions (nonempty regions) = Run.ofRegions regions := by
  simp [Run.ofRegions, nonempty, List.filter_filter]

theorem total_le_of_precedes (wellFormed : ∀ region ∈ regions, region.IsWellFormed)
    (sorted : regions.Pairwise Precedes) :
    Measure.bytes.total regions ≤ physicalLimit.value :=
  total_le (fun region member _ => (wellFormed region member).2.within) sorted

end Region

namespace FrameManager

open Region (nonempty mem_nonempty runs_nonempty)

variable {regions : List Region} {region : Region} {layout : Ledger.Layout} {root : Frame}
  {before after : Paged FrameManager} {bytes : Nat} {outcome : Outcome Refusal Unit}

theorem layout_nonempty (regions : List Region) :
    Ledger.Layout.ofRegions (nonempty regions) = Ledger.Layout.ofRegions regions := by
  rw [Ledger.Layout.ofRegions, runs_nonempty]
  rfl

/-- A region that holds nothing hosts no ledger, since the tables alone take some bytes. -/
theorem find?_nonempty (positive : 0 < bytes) :
    (nonempty regions).find? (canHost bytes) = regions.find? (canHost bytes) := by
  rw [nonempty, List.find?_filter]
  congr 1
  funext region
  by_cases empty : region.isEmpty = true
  · have nothing : region.stop.value ≤ region.start.value := by
      simpa [Region.isEmpty] using empty
    have short : ¬ bytes ≤ region.length := by
      unfold Region.length
      omega
    simp [canHost, empty, short]
  · simp [empty]

theorem run_markAllocated_nonempty (regions : List Region) (paged : Paged FrameManager) :
    (markAllocated (nonempty regions)).run paged = (markAllocated regions).run paged := by
  induction regions generalizing paged with
  | nil => rfl
  | cons region rest induction =>
      cases empty : region.isEmpty with
      | true =>
          have dropped : nonempty (region :: rest) = nonempty rest :=
            List.filter_cons_of_neg (by simp [empty])
          have noPages : region.length / PageSize.small.bytes = 0 := by
            have nothing : region.stop.value ≤ region.start.value := by
              simpa [Region.isEmpty] using empty
            rw [Region.length, Nat.sub_eq_zero_of_le nothing]
            rfl
          rw [dropped, induction, markAllocated, noPages]
          split <;> rfl
      | false =>
          have kept : nonempty (region :: rest) = region :: nonempty rest :=
            List.filter_cons_of_pos (by simp [empty])
          rw [kept, markAllocated, markAllocated]
          split
          · exact run_bind_congr fun _ between _ => induction between
          · exact induction paged

theorem requiredBytes_pos (planned : Ledger.Layout.ofRegions regions = .ok layout)
    (aligned : ∀ region ∈ regions, region.IsPageAligned)
    (size : layout.requiredBytes = .ok bytes) : 0 < bytes := by
  have tables := (Ledger.houses_of_ofRegions
    (fun _ isRun => (Run.mem_ofRegions aligned isRun).1) planned).tables
  have some : 0 < Ledger.worstCaseTables layout.metadataPages := Nat.succ_pos _
  rw [Ledger.Layout.of_requiredBytes size]
  omega

theorem chooses_nonempty_iff (aligned : ∀ region ∈ regions, region.IsPageAligned) :
    Chooses (nonempty regions) layout region ↔ Chooses regions layout region := by
  constructor
  · rintro ⟨planned, bytes, size, found⟩
    rw [layout_nonempty] at planned
    rw [find?_nonempty (requiredBytes_pos planned aligned size)] at found
    exact ⟨planned, bytes, size, found⟩
  · rintro ⟨planned, bytes, size, found⟩
    rw [← find?_nonempty (requiredBytes_pos planned aligned size)] at found
    rw [← layout_nonempty] at planned
    exact ⟨planned, bytes, size, found⟩

theorem run_adopt_nonempty (aligned : ∀ region ∈ regions, region.IsPageAligned) :
    (adopt (nonempty regions)).run before = (adopt regions).run before := by
  rw [adopt, adopt, layout_nonempty]
  refine run_bind_congr fun _ current _ => run_bind_congr fun _ staged _ => ?_
  rw [run_bind_of_done (run_reportUnknown ..), run_bind_of_done (run_reportUnknown ..)]
  refine run_bind_congr fun layout _ checked => run_bind_congr fun bytes _ sized => ?_
  rw [find?_nonempty (requiredBytes_pos (of_run_check checked).1 aligned (of_run_check sized).1)]
  cases regions.find? (canHost bytes) with
  | none => rfl
  | some region =>
      refine run_bind_congr fun strip _ _ => run_bind_congr fun ending mapped _ => ?_
      have opening : openLedger ending.1 region.start layout (nonempty regions) =
          openLedger ending.1 region.start layout regions := by
        rw [openLedger, openLedger, runs_nonempty]
      simp only [opening]
      refine run_bind_congr fun _ opened _ => ?_
      rw [run_bind, run_bind, run_markAllocated_nonempty]

theorem managedPages_nonempty (regions : List Region) :
    managedPages (nonempty regions) = managedPages regions := by
  ext page
  constructor
  · rintro ⟨region, member, managed, holds⟩
    exact ⟨region, (mem_nonempty.1 member).1, managed, holds⟩
  · rintro ⟨region, member, managed, holds⟩
    have proper : region.IsProper := Nat.lt_of_le_of_lt holds.1 (Nat.lt_of_lt_of_le
      (Nat.lt_add_of_pos_right (by decide)) holds.2)
    exact ⟨region, mem_nonempty.2 ⟨member, proper⟩, managed, holds⟩

theorem IsInstalled.nonempty (aligned : ∀ region ∈ regions, region.IsPageAligned)
    (installed : IsInstalled root regions before) :
    IsInstalled root (nonempty regions) before where
  addressable := installed.addressable
  tree := installed.tree
  served := installed.served
  active := installed.active
  owner := installed.owner
  aligned := installed.aligned
  unmanaged := by
    rw [managedPages_nonempty]
    exact installed.unmanaged
  inside layout region chooses := installed.inside layout region
    ((chooses_nonempty_iff aligned).1 chooses)
  clear layout region chooses := installed.clear layout region
    ((chooses_nonempty_iff aligned).1 chooses)

theorem metadataPages_le (wellFormed : ∀ region ∈ regions, region.IsWellFormed)
    (sorted : regions.Pairwise Region.Precedes)
    (planned : Ledger.Layout.ofRegions regions = .ok layout) :
    layout.metadataPages ≤ 1 <<< 36 := by
  have covered := Region.total_le_of_precedes wellFormed sorted
  have bounded : Measure.bytes.total regions ≤ 1 <<< 65 := Nat.le_trans covered (by decide)
  rcases Ledger.Layout.exists_ofRegions_le
    (fun region member => (wellFormed region member).2.isPageAligned) bounded with
    ⟨_, isPlanned, _, few⟩
  cases isPlanned.symm.trans planned
  have limit : physicalLimit.value = 0x10000000000000 := rfl
  simp only [Nat.reduceShiftLeft]
  omega

/-! ## Want of a host -/

/-- Whether no available region outside low memory has the bytes that the ledger of the regions
and the tables to map it take. -/
def LacksHost (regions : List Region) (bytes : Nat) : Prop :=
  ∃ layout, Ledger.Layout.ofRegions regions = .ok layout ∧ layout.requiredBytes = .ok bytes ∧
    ∀ region ∈ regions, region.code = RegionKind.available.code →
      lowMemoryEnd.value ≤ region.start.value → region.length < bytes

theorem lacksHost_iff : LacksHost regions bytes ↔ IsHostless regions bytes := by
  refine exists_congr fun layout => and_congr_right' (and_congr_right' ?_)
  rw [List.find?_eq_none]
  refine forall₂_congr fun region _ => ?_
  simp only [canHost, Bool.and_eq_true, decide_eq_true_eq, Region.hasKind_iff, not_and, Nat.not_le,
    and_imp]

theorem lacksHost_nonempty_iff (aligned : ∀ region ∈ regions, region.IsPageAligned) :
    LacksHost (nonempty regions) bytes ↔ LacksHost regions bytes := by
  rw [lacksHost_iff, lacksHost_iff, IsHostless, layout_nonempty]
  refine exists_congr fun layout => and_congr_right fun planned => and_congr_right fun size => ?_
  rw [find?_nonempty (requiredBytes_pos planned aligned size)]

/-! ## Endings -/

/-- What has to hold before regions are taken over, so that what becomes of it is known. -/
structure Awaits (root : Frame) (regions : List Region) (before : Paged FrameManager) :
    Prop where
  whole : ∀ region ∈ regions, region.IsWhole
  sorted : regions.Pairwise Region.Precedes
  installed : IsInstalled root regions before
  staged : before.source.stage = .selfMapInstalled
  /-- A manager is created like this, and each call keeps it. -/
  blank : IsBlankBefore before.source
  /-- The addresses of the ledger, and the one behind them, do not wrap around. -/
  room : ∀ layout region, Chooses regions layout region →
    before.source.nextVirtual.value + layout.metadataPages * 4096 < 1 <<< 64

/-- How taking over regions ends, when it ends so and what it leaves behind. -/
structure Concludes (root : Frame) (regions : List Region) (before : Paged FrameManager)
    (outcome : Outcome Refusal Unit) (after : Paged FrameManager) : Prop where
  ends : outcome = .done () ∨ (∃ bytes, outcome = .refused (.noRegionForMetadata bytes)) ∨
    ∃ address existing, outcome = .refused (.map (.alreadyMapped address existing))
  ready : outcome = .done () → after.source.stage = .ready
  undone : ∀ cause, outcome = .refused cause →
    after.source.stage = .selfMapInstalled ∧ descriptors after = []
  hostless : ∀ bytes, outcome = .refused (.noRegionForMetadata bytes) ↔ LacksHost regions bytes
  unchanged : ∀ bytes, outcome = .refused (.noRegionForMetadata bytes) → after = before
  /-- A page that is met is one that the ledger was about to be mapped at. -/
  met : ∀ address existing, outcome = .refused (.map (.alreadyMapped address existing)) →
    ∃ layout region index leaf, Chooses regions layout region ∧ index < layout.metadataPages ∧
      address = before.source.nextVirtual.pageAfter index ∧
      (spaceBelow root).query before.memory address = .ok (some leaf) ∧
      existing = leaf.frame.base
  unmapped : outcome = .done () → ∀ layout region, Chooses regions layout region →
    ∀ index < layout.metadataPages,
      (spaceBelow root).query before.memory (before.source.nextVirtual.pageAfter index) = .ok none

theorem Concludes.of_nonempty (aligned : ∀ region ∈ regions, region.IsPageAligned)
    (concludes : Concludes root (nonempty regions) before outcome after) :
    Concludes root regions before outcome after := by
  refine
    { ends := concludes.ends
      ready := concludes.ready
      undone := concludes.undone
      hostless := fun bytes => (concludes.hostless bytes).trans (lacksHost_nonempty_iff aligned)
      unchanged := concludes.unchanged
      met := fun address existing refused => ?met
      unmapped := fun done layout region chooses => concludes.unmapped done layout region
        ((chooses_nonempty_iff aligned).2 chooses) }
  rcases concludes.met address existing refused with ⟨layout, region, index, leaf, chooses, found⟩
  exact ⟨layout, region, index, leaf, (chooses_nonempty_iff aligned).1 chooses, found⟩

/-- Whether a manager has installed the recursive map and nothing further. -/
def HasNoLedger (manager : FrameManager) : Prop :=
  manager.stage = .selfMapInstalled ∧ manager.ledger = .empty

theorem standsMoving_hasNoLedger : StandsMoving HasNoLedger :=
  fun _ _ held _ => held

theorem Hosting.query_eq {strip : FrameStrip} {index : Nat}
    (hosting : Hosting root regions layout region strip before)
    (below : index < layout.metadataPages) :
    (spaceBelow root).query before.memory (before.source.nextVirtual.pageAfter index) =
      .ok ((spaceBelow root).hierarchy.entryAt before.memory
        (before.source.nextVirtual.pageAfter index).leafPath) :=
  AddressSpace.query_eq hosting.admits.addressable hosting.admits.served
    (hosting.admits.tree.hasTables (hosting.leads index below) .pt)

theorem HasNoLedger.descriptors_eq_nil (held : HasNoLedger before.source) :
    descriptors before = [] := by
  rw [descriptors, held.2]
  rfl

theorem Completes.concludes (start : HasNoLedger before.source)
    (completes : Completes root regions before outcome after) :
    Concludes root regions before outcome after := by
  cases completes with
  | hostless hostless =>
      refine
        { ends := .inr (.inl ⟨_, rfl⟩)
          ready := nofun
          undone := fun _ _ => ⟨start.1, start.descriptors_eq_nil⟩
          hostless := fun other => ?_
          unchanged := fun _ _ => rfl
          met := nofun
          unmapped := nofun }
      rw [lacksHost_iff]
      constructor
      · intro same
        cases same
        exact hostless
      · intro lacks
        rw [hostless.bytes_eq lacks]
  | @met layout region _ index leaf _ hosting below existing mapping =>
      -- Mapping moves the next virtual address and nothing else of the manager.
      have start : Paged.AtSource HasNoLedger before := start
      have held : HasNoLedger after.source :=
        (Paged.maintains_lending (maintains_mapBeyond standsMoving_hasNoLedger)).of_run start
          mapping
      refine
        { ends := .inr (.inr ⟨_, _, rfl⟩)
          ready := nofun
          undone := fun _ _ => ⟨held.1, held.descriptors_eq_nil⟩
          hostless := fun bytes => ⟨nofun, fun lacks =>
            absurd (lacksHost_iff.1 lacks) hosting.chooses.not_isHostless⟩
          unchanged := nofun
          met := fun address frame refused => ?_
          unmapped := nofun }
      cases refused
      exact ⟨layout, region, index, leaf, hosting.chooses, below, rfl,
        (hosting.query_eq below).trans (congrArg Except.ok existing), rfl⟩
  | adopted hosting _ _ free =>
      refine
        { ends := .inl rfl
          ready := fun _ => rfl
          undone := nofun
          hostless := fun bytes => ⟨nofun, fun lacks =>
            absurd (lacksHost_iff.1 lacks) hosting.chooses.not_isHostless⟩
          unchanged := nofun
          met := nofun
          unmapped := fun _ layout region chooses index below => ?_ }
      cases chooses.planned.symm.trans hosting.chooses.planned
      rw [hosting.query_eq below, free index below]

theorem Awaits.completes (awaits : Awaits root regions before) :
    ∃ outcome after, (adopt (nonempty regions)).run before = (outcome, after) ∧
      Completes root (nonempty regions) before outcome after := by
  have aligned : ∀ region ∈ regions, region.IsPageAligned :=
    fun region member => (awaits.whole region member).isPageAligned
  have wellFormed : ∀ region ∈ nonempty regions, region.IsWellFormed := fun region member =>
    ⟨(mem_nonempty.1 member).2, awaits.whole region (mem_nonempty.1 member).1⟩
  have installed := awaits.installed.nonempty aligned
  have sorted : (nonempty regions).Pairwise Region.Precedes := awaits.sorted.filter _
  have follows : (nonempty regions).Pairwise fun left right =>
      left.stop.value ≤ right.start.value :=
    sorted.imp_of_mem fun left right precedes =>
      precedes.stop_le (wellFormed _ left).1 (wellFormed _ right).1
  have ordered : Region.IsOrdered (nonempty regions) :=
    follows.imp_of_mem fun left _ touching =>
      Nat.le_trans (Nat.le_of_lt (wellFormed _ left).1) touching
  have separate : (nonempty regions).Pairwise Region.Separate :=
    follows.imp fun touching _ => .inl touching
  have bounded : Measure.bytes.total (nonempty regions) ≤ 1 <<< 65 :=
    Nat.le_trans (Region.total_le_of_precedes wellFormed sorted) (by decide)
  refine run_adopt_completes wellFormed ordered separate bounded awaits.staged
    (fun layout region chooses => ?_) fun layout region chooses => ⟨?_, ?_, ?_, ?_⟩
  · rcases chooses.found with ⟨bytes, size, found⟩
    rcases Ledger.Layout.hosts_of_find wellFormed size found with ⟨member, hosts⟩
    exact installed.admits chooses hosts member
  · rw [Nat.zero_add]
    exact awaits.room layout region ((chooses_nonempty_iff aligned).1 chooses)
  · rw [Nat.zero_add]
    exact metadataPages_le wellFormed sorted chooses.planned
  · exact fun position _ below => installed.leads chooses position (by omega)
  · exact fun positive => absurd positive (Nat.lt_irrefl 0)

/-- Consecutive pages are mapped through no more tables than a ledger sets aside for them. So
taking over regions that follow each other ends well, or it is refused because no region can
host the ledger or because a page behind the image is mapped already. A refusal leaves the
manager at its stage and without a ledger; for want of a host nothing changes at all. -/
theorem regions_are_taken_over_or_refused :
    (∀ (start : VirtualAddress) (count : Nat),
      (Level.pml4.below.map fun level => (tablesOnWalks start count level).card).sum ≤
        Ledger.worstCaseTables count) ∧
    ∀ (root : Frame) (regions : List Region) (before : Paged FrameManager),
      Awaits root regions before →
      ∃ outcome after, (adopt regions).run before = (outcome, after) ∧
        Concludes root regions before outcome after := by
  refine ⟨sum_card_tablesOnWalks_le, fun root regions before awaits => ?_⟩
  have aligned : ∀ region ∈ regions, region.IsPageAligned :=
    fun region member => (awaits.whole region member).isPageAligned
  have start : HasNoLedger before.source :=
    ⟨awaits.staged, awaits.blank (by rw [awaits.staged]; decide)⟩
  rcases awaits.completes with ⟨outcome, after, ran, completes⟩
  rw [run_adopt_nonempty aligned] at ran
  exact ⟨outcome, after, ran, (completes.concludes start).of_nonempty aligned⟩

theorem tinyTable_is_taken_over : ∃ before after,
    Awaits Kernel.tinyRoot Kernel.tinyTable.regions before ∧
    (adopt Kernel.tinyTable.regions).run before = (.done (), after) ∧
    Concludes Kernel.tinyRoot Kernel.tinyTable.regions before (.done ()) after := by
  rcases Kernel.exists_tinyBroughtUp with
    ⟨created, before, after, new, installing, prepared, next, done⟩
  have inOrder : Kernel.tinyTable.regions.Pairwise fun left right =>
      left.stop.value ≤ right.start.value := by decide
  have start : Kernel.tinyEnd.alignUp .small = Kernel.tinyEnd := by decide
  have clear := Kernel.tinyEnd_isClear
  rw [start, ← next] at clear
  have blankAtFirst : IsBlankBefore created.source := by
    rw [new]
    exact fun _ => rfl
  have installs := install_spec Kernel.tinyRoot created
  rw [installing] at installs
  have room : ∀ layout region, Chooses Kernel.tinyTable.regions layout region →
      before.source.nextVirtual.value + layout.metadataPages * 4096 < 1 <<< 64 := by
    intro layout region chooses
    cases Kernel.tinyLayout_isPlanned.symm.trans chooses.planned
    rw [next]
    decide
  have awaits : Awaits Kernel.tinyRoot Kernel.tinyTable.regions before :=
    { whole := prepared.sound.whole
      sorted := inOrder.imp Region.precedes_of_stop_le
      installed := prepared.isInstalled clear
      staged := stage_of_run_adopt done
      blank := installs.follows.blank blankAtFirst
      room := room }
  rcases regions_are_taken_over_or_refused.2 _ _ _ awaits with ⟨outcome, reached, ran, concludes⟩
  cases done.symm.trans ran
  exact ⟨before, after, awaits, done, concludes⟩

end FrameManager

end EarlyMemory
