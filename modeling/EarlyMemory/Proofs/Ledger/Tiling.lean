import EarlyMemory.Proofs.Ledger.Sizing

/-!
# How a ledger is laid out

The bitmaps of all runs take up the first bytes of a ledger, one after the other and as many
bytes as the runs that are available need. The descriptors stand behind them at the next
boundary, and the ledger has no page more than it takes to hold both.
-/

namespace EarlyMemory

/-- Whether the bitmaps of descriptors take up a range of bytes, one after the other. -/
def Descriptor.Tile (start stop : Nat) : List Descriptor → Prop
  | [] => start = stop
  | descriptor :: rest =>
      descriptor.bitmapOffset = start ∧ Tile (start + descriptor.bitmapBytes) stop rest

namespace Run

variable {run : Run} {runs : List Run} {offset : Nat} {descriptor : Descriptor}

theorem tile_planned (offset : Nat) (runs : List Run) :
    Descriptor.Tile offset (offset + bitmapSizes runs) (planned offset runs) := by
  induction runs generalizing offset with
  | nil => rfl
  | cons run rest induction =>
      refine ⟨rfl, ?_⟩
      rw [bitmapSizes_cons, ← Nat.add_assoc]
      exact induction (offset + run.bitmapSize)

theorem bitmapSizes_eq_sum (runs : List Run) :
    bitmapSizes runs =
      ((runs.filter fun run => run.kind = .available).map
        fun run => (run.pageCount + 7) / 8).sum := by
  induction runs with
  | nil => rfl
  | cons run rest induction =>
      rw [bitmapSizes_cons, induction, bitmapSize]
      by_cases available : run.kind = .available
      · rw [if_pos available, List.filter_cons_of_pos (by simpa using available), List.map_cons,
          List.sum_cons]
        rfl
      · rw [if_neg available, List.filter_cons_of_neg (by simpa using available), Nat.zero_add]

theorem IsPlanned.bitmapBytes_eq (isPlanned : run.IsPlanned descriptor) :
    descriptor.bitmapBytes =
      if descriptor.kind = .available then (descriptor.pages + 7) / 8 else 0 := by
  rw [isPlanned.bitmapBytes, isPlanned.kind, isPlanned.pages]
  rfl

theorem nodup_planned (wellFormed : ∀ run ∈ runs, run.IsWellFormed)
    (sorted : runs.Pairwise Precedes) : (planned offset runs).Nodup := by
  have bases : (planned offset runs).Pairwise fun left right =>
      left.base.value < right.base.value :=
    pairwise_planned_of sorted fun run member _ _ left right isPlanned otherPlanned _ precedes => by
      rw [isPlanned.base, otherPlanned.base]
      exact Nat.lt_of_lt_of_le (wellFormed run member).proper precedes
  apply bases.imp
  rintro left _ below rfl
  exact Nat.lt_irrefl _ below

end Run

namespace Ledger

variable {regions : List Region} {layout : Layout}

/-- Whether a layout has the room that the bitmaps and descriptors of runs take, and no page
more. -/
structure Layout.IsTight (layout : Layout) (runs : List Run) : Prop where
  count : layout.regionCount = runs.length
  bitmaps : ∃ pages, (runs.filter fun run => run.kind = .available).mapM Run.pages = .ok pages ∧
    layout.bitmapBytes = (pages.map fun count => (count + 7) / 8).sum
  boundary : IsLeast {offset | 8 ∣ offset ∧ layout.bitmapBytes ≤ offset} layout.descriptorsOffset
  fits : layout.descriptorsOffset + 40 * layout.regionCount ≤ 4096 * layout.metadataPages
  spare : 4096 * layout.metadataPages <
    layout.descriptorsOffset + 40 * layout.regionCount + 4096

theorem isTight_of_ofRegions (wellFormed : ∀ run ∈ Run.ofRegions regions, run.IsWellFormed)
    (done : Layout.ofRegions regions = .ok layout) : layout.IsTight (Run.ofRegions regions) := by
  rcases of_ofRegions wellFormed done with ⟨offset, pages, aligned, _, isPages, rfl⟩
  have counted : ((Run.ofRegions regions).filter fun run => run.kind = .available).mapM Run.pages =
      .ok (((Run.ofRegions regions).filter fun run => run.kind = .available).map Run.pageCount) :=
    mapM_eq_ok fun run member =>
      Run.pages_eq_ok (wellFormed run (List.mem_of_mem_filter member)).proper
  simp only [PageSize.pagesFor, PageSize.bytes, descriptorBytes] at isPages
  refine ⟨rfl, ⟨_, counted, ?_⟩, isLeast_alignUp aligned, ?_, ?_⟩
  · rw [List.map_map]
    exact Run.bitmapSizes_eq_sum _
  · change offset + 40 * (Run.ofRegions regions).length ≤ 4096 * pages
    omega
  · change 4096 * pages < offset + 40 * (Run.ofRegions regions).length + 4096
    omega

/-- Regions that follow each other have a layout, and the size that its host needs is a word. -/
theorem Layout.exists_of_precedes (aligned : ∀ region ∈ regions, region.IsPageAligned)
    (sorted : regions.Pairwise Region.Precedes) :
    ∃ layout bytes, ofRegions regions = .ok layout ∧ layout.requiredBytes = .ok bytes := by
  have below : ∀ region ∈ regions, region.IsProper → region.stop.value ≤ 1 <<< 64 :=
    fun region _ _ => Nat.le_of_lt region.stop.isLt
  exact exists_ofRegions aligned (Nat.le_trans (Region.total_le below sorted) (by decide))

end Ledger

end EarlyMemory
