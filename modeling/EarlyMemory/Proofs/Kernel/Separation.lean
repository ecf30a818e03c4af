import EarlyMemory.Proofs.Kernel.View
import EarlyMemory.Proofs.Ledger.Tiling

/-!
# Runs do not share their records

A ledger is sized before it is placed, and its bitmaps are assigned once it is mapped. Both
passes go over the same runs, so the bitmaps that are assigned take up just the bytes that the
layout sets aside. A write to a bit of one run therefore misses the bits of all other runs, and
it misses the descriptors.
-/

namespace EarlyMemory.FrameManager

open Operation

variable {before after paged : Paged FrameManager} {regions : List Region}
  {layout : Ledger.Layout} {start host : PhysicalAddress} {address : VirtualAddress}
  {keeps : Frame → Prop} {descriptor : Descriptor} {bit : Nat} {busy : Bool}

/-! ## Writes to a bit -/

/-- What a write to one bit of a run leaves behind: every other bit and every byte of the
descriptors is what it was. -/
structure WritesOnly (descriptor : Descriptor) (bit : Nat) (busy : Bool)
    (before after : Paged FrameManager) : Prop where
  source : after.source = before.source
  bits : ∀ other ∈ descriptors before, ∀ otherBit,
    (before.source.ledger.view after.memory other).isSet otherBit =
      if other = descriptor ∧ otherBit = bit then busy
      else (before.source.ledger.view before.memory other).isSet otherBit
  records : ∀ address, before.source.ledger.descriptorAddress 0 ≤ address →
    address < before.source.ledger.descriptorAddress before.source.ledger.regionCount →
    after.memory.byteAt address = before.memory.byteAt address

theorem exists_writesOnly (orderly : paged.source.ledger.IsOrderly paged.memory keeps)
    (member : descriptor ∈ descriptors paged) (hasBit : descriptor.HasBit bit) (busy : Bool) :
    ∃ after, (setBit descriptor bit busy : Operation (Paged FrameManager) Refusal Unit).run paged =
        (.done (), after) ∧ WritesOnly descriptor bit busy paged after := by
  rcases exists_run_setBit (ε := Refusal) busy orderly member hasBit with
    ⟨after, ran, memory, source⟩
  refine ⟨after, ran, source, ?_, ?_⟩
  · intro other otherMember otherBit
    rw [memory, Ledger.isSet_view_marked orderly member hasBit busy otherMember]
  · intro address above _
    rw [memory]
    have inFront := (Ledger.offset_lt_size orderly member hasBit).1
    apply (Ledger.writesWithin_marked _ _ descriptor bit busy).byteAt
    unfold Ledger.descriptorAddress at above
    unfold Ledger.bitmapAddress
    omega

/-! ## Ledgers of regions -/

/-- Whether the ledger of a manager records the runs of regions where a layout has room for
them, so that no run shares its bits. -/
structure SetsApart (regions : List Region) (layout : Ledger.Layout)
    (paged : Paged FrameManager) : Prop where
  placed : ∃ start, paged.source.ledger = layout.ledger start
  lists : List.Forall₂ Run.IsListedAs (Run.ofRegions regions) (descriptors paged)
  distinct : (descriptors paged).Nodup
  tiles : Descriptor.Tile 0 layout.bitmapBytes (descriptors paged)
  sizes : ∀ descriptor ∈ descriptors paged, descriptor.bitmapBytes =
    if descriptor.kind = .available then (descriptor.pages + 7) / 8 else 0
  enough : ∀ descriptor ∈ descriptors paged, descriptor.kind = .available →
    descriptor.pages ≤ 8 * descriptor.bitmapBytes
  writes : ∀ descriptor ∈ descriptors paged, ∀ bit < 8 * descriptor.bitmapBytes, ∀ busy,
    ∃ after, (setBit descriptor bit busy : Operation (Paged FrameManager) Refusal Unit).run paged =
      (.done (), after) ∧ WritesOnly descriptor bit busy paged after

theorem setsApart_of_planned (aligned : ∀ region ∈ regions, region.IsPageAligned)
    (sorted : regions.Pairwise Region.Precedes)
    (planned : Ledger.Layout.ofRegions regions = .ok layout)
    (placed : paged.source.ledger = layout.ledger start)
    (orderly : paged.source.ledger.IsOrderly paged.memory keeps)
    (recorded : descriptors paged = Run.planned 0 (Run.ofRegions regions)) :
    SetsApart regions layout paged := by
  have wellFormed : ∀ run ∈ Run.ofRegions regions, run.IsWellFormed :=
    fun run member => (Run.mem_ofRegions aligned member).1
  have sizes : ∀ descriptor ∈ descriptors paged, descriptor.bitmapBytes =
      if descriptor.kind = .available then (descriptor.pages + 7) / 8 else 0 := by
    rw [recorded]
    intro descriptor member
    rcases (Run.of_mem_planned member).1 with ⟨run, _, isPlanned⟩
    exact isPlanned.bitmapBytes_eq
  refine ⟨⟨start, placed⟩, ?_, ?_, ?_, sizes, ?_, ?_⟩
  · rw [recorded]
    exact Run.planned_lists 0 wellFormed
  · rw [recorded]
    exact Run.nodup_planned wellFormed (Run.pairwise_precedes sorted)
  · rw [recorded, (Ledger.houses_of_ofRegions wellFormed planned).bitmaps]
    have tiles := Run.tile_planned 0 (Run.ofRegions regions)
    rwa [Nat.zero_add] at tiles
  · intro descriptor member available
    rw [sizes descriptor member, if_pos available]
    omega
  · intro descriptor member bit within busy
    -- A run of any other kind has no bytes of bitmap, and so no bit to write.
    have available : descriptor.kind = .available := by
      refine Classical.byContradiction fun other => ?_
      rw [sizes descriptor member, if_neg other] at within
      omega
    exact exists_writesOnly orderly member ⟨available, by omega⟩ busy

theorem setsApart_of_openLedger (aligned : ∀ region ∈ regions, region.IsPageAligned)
    (sorted : regions.Pairwise Region.Precedes)
    (planned : Ledger.Layout.ofRegions regions = .ok layout)
    (done : (openLedger address host layout regions).run before = (.done (), after)) :
    SetsApart regions layout after := by
  have separate := (Run.pairwise_precedes sorted).imp Run.Precedes.separate
  rcases of_run_openLedger aligned separate planned done with ⟨start, _, opens⟩
  have placed : after.source.ledger = layout.ledger start := by rw [opens.source]
  exact setsApart_of_planned aligned sorted planned placed opens.orderly opens.recorded

/-- Marking pages changes bits only, so a manager that took over regions keeps the runs apart. -/
theorem setsApart_of_adopt (aligned : ∀ region ∈ regions, region.IsPageAligned)
    (sorted : regions.Pairwise Region.Precedes)
    (planned : Ledger.Layout.ofRegions regions = .ok layout)
    (done : (adopt regions).run before = (.done (), after)) : SetsApart regions layout after := by
  rcases of_run_adopt done with
    ⟨_, region, address, strip, left, mapped, opened, allocated, marked, steps, rfl⟩
  cases steps.planned.symm.trans planned
  have separate := (Run.pairwise_precedes sorted).imp Run.Precedes.separate
  rcases steps.withdraws aligned separate with ⟨start, used, _, _, opens, withdraws⟩
  have placed : marked.source.ledger = layout.ledger start := by
    rw [withdraws.source, opens.source]
  exact setsApart_of_planned aligned sorted planned placed withdraws.orderly
    (withdraws.recorded.trans opens.recorded)

/-- Page-aligned regions that follow each other have a ledger that keeps their runs apart. Sizing
the ledger needs no more than words: there is a descriptor for each run, whole bytes of bitmap
for each run that is available, the descriptors begin at the next boundary behind all of them,
and the pages hold both with less than a page to spare. The runs can always be recorded. Once
they are, and also when everything is taken over, the bitmaps take up the bytes that are set
aside for them one after the other, each of them has a bit for each page of its run, and a write
to any bit changes no other one and no descriptor. -/
theorem ledger_keeps_runs_apart (aligned : ∀ region ∈ regions, region.IsPageAligned)
    (sorted : regions.Pairwise Region.Precedes) :
    ∃ layout, Ledger.Layout.ofRegions regions = .ok layout ∧
      layout.IsTight (Run.ofRegions regions) ∧
      layout.requiredBytes = .ok ((layout.metadataPages + layout.tableFrames) * 4096) ∧
      (∀ start memory, ∃ recorded,
        (layout.ledger start).recordRuns memory 0 0 (Run.ofRegions regions) = .ok recorded) ∧
      (∀ address host before after,
        (openLedger address host layout regions).run before = (.done (), after) →
        SetsApart regions layout after) ∧
      ∀ before after, (adopt regions).run before = (.done (), after) →
        SetsApart regions layout after := by
  have wellFormed : ∀ run ∈ Run.ofRegions regions, run.IsWellFormed :=
    fun run member => (Run.mem_ofRegions aligned member).1
  rcases Ledger.Layout.exists_of_precedes aligned sorted with ⟨layout, bytes, planned, required⟩
  have houses := Ledger.houses_of_ofRegions wellFormed planned
  refine ⟨layout, planned, Ledger.isTight_of_ofRegions wellFormed planned, ?_, ?_, ?_, ?_⟩
  · rw [required, Ledger.Layout.of_requiredBytes required]
  · intro start memory
    refine Ledger.exists_recordRuns memory 0 wellFormed ?_
    rw [Nat.zero_add, ← houses.bitmaps]
    exact houses.low
  · exact fun address host before after done => setsApart_of_openLedger aligned sorted planned done
  · exact fun before after done => setsApart_of_adopt aligned sorted planned done

theorem tinyTable_is_set_apart : ∃ before after,
    (∀ region ∈ Kernel.tinyTable.regions, region.IsPageAligned) ∧
    Kernel.tinyTable.regions.Pairwise Region.Precedes ∧
    (adopt Kernel.tinyTable.regions).run before = (.done (), after) ∧
    SetsApart Kernel.tinyTable.regions Kernel.tinyLayout after := by
  rcases Kernel.exists_tinyTakenOver with ⟨before, after, prepared, _, done⟩
  have inOrder : Kernel.tinyTable.regions.Pairwise fun left right =>
      left.stop.value ≤ right.start.value := by decide
  have sorted := inOrder.imp Region.precedes_of_stop_le
  rcases ledger_keeps_runs_apart prepared.pageAligned sorted with
    ⟨layout, planned, _, _, _, _, adopted⟩
  cases Kernel.tinyLayout_isPlanned.symm.trans planned
  exact ⟨before, after, prepared.pageAligned, sorted, done, adopted before after done⟩

end EarlyMemory.FrameManager
