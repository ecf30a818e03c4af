import EarlyMemory.Firmware.MemoryMap
import EarlyMemory.Proofs.Endings
import EarlyMemory.Proofs.Region.Building

/-!
# Recording the reported ranges

Once every range is recorded the table holds the rounded ranges and nothing else. Of
ranges that do not overlap, rounding makes at most hazards overlap: available memory
loses its partial pages to them.
-/

namespace EarlyMemory

open Operation

namespace ReportedRange

def recorded (range : ReportedRange) : Region :=
  Region.of range.regionKind (RegionTable.rounded range.regionKind range.start range.stop).1
    (RegionTable.rounded range.regionKind range.start range.stop).2

/-- Whether one of the ranges ends where the other one starts, or before. -/
def Apart (left right : ReportedRange) : Prop :=
  left.stop.value ≤ right.start.value ∨ right.stop.value ≤ left.start.value

instance (left right : ReportedRange) : Decidable (left.Apart right) :=
  inferInstanceAs (Decidable (_ ∨ _))

/-- Whether a reported range keeps all of a range of addresses available. -/
def Holds (range : ReportedRange) (first last : Nat) : Prop :=
  range.recorded.code = RegionKind.available.code ∧
    range.recorded.start.value ≤ first ∧ last ≤ range.recorded.stop.value

instance (range : ReportedRange) (first last : Nat) : Decidable (range.Holds first last) :=
  inferInstanceAs (Decidable (_ ∧ _))

end ReportedRange

namespace ReportedRange

open RegionTable (rounded_of_inward rounded_of_outward)

theorem isWhole_recorded (range : ReportedRange) : range.recorded.IsWhole :=
  RegionTable.isWhole_rounded range.regionKind range.start range.stop

theorem regionKind_eq_available {range : ReportedRange} (managed : range.recorded.IsManaged) :
    range.regionKind = .available := by
  have kind : range.recorded.kernelKind = KernelKind.ofRegionKind range.regionKind :=
    Region.kernelKind_of_code rfl
  rw [Region.IsManaged, kind] at managed
  unfold regionKind at managed ⊢
  split at managed <;> first | rfl | cases managed

theorem Apart.recorded {left right : ReportedRange} (apart : left.Apart right)
    (available : left.regionKind = .available) : left.recorded.Apart right.recorded := by
  have inward : left.regionKind.roundsInward = true := by
    rw [available]
    rfl
  rcases rounded_of_inward inward left.start left.stop with ⟨first, last⟩
  unfold ReportedRange.Apart at apart
  unfold ReportedRange.recorded Region.Apart
  cases direction : right.regionKind.roundsInward with
  | true =>
      rcases rounded_of_inward direction right.start right.stop with ⟨otherFirst, otherLast⟩
      simp only [Region.of, first, last, otherFirst, otherLast]
      omega
  | false =>
      rcases rounded_of_outward direction right.start right.stop with ⟨otherFirst, otherLast⟩
      simp only [Region.of, first, last, otherFirst, otherLast]
      omega

theorem Apart.separate {left right : ReportedRange} (apart : left.Apart right) :
    left.recorded.Separate right.recorded := by
  rintro (managed | managed)
  · exact apart.recorded (regionKind_eq_available managed)
  · exact (Apart.recorded (Or.symm apart) (regionKind_eq_available managed)).symm

end ReportedRange

/-! ## The table -/

namespace MemoryMap

variable {capacity : Nat} {sorting : Region.Sorting} {table after : RegionTable capacity sorting}

theorem countRanges_eq (count : Nat) (ranges : List ReportedRange) :
    countRanges count ranges = (do
      recordRanges ranges
      return count + ranges.length :
        Operation (RegionTable capacity sorting) RegionTableError Nat) := by
  induction ranges generalizing count with
  | nil => rfl
  | cons range rest induction =>
      simp only [countRanges, recordRanges, induction, bind_assoc, List.length_cons,
        Nat.add_assoc, Nat.add_comm 1]

theorem ingest_eq (ranges : List ReportedRange) :
    ingest ranges = (do
      recordRanges ranges
      return ranges.length : Operation (RegionTable capacity sorting) RegionTableError Nat) := by
  simp only [ingest, countRanges_eq, Nat.zero_add]

theorem filter_proper {regions : List Region} (proper : ∀ region ∈ regions, region.IsProper) :
    regions.filter (fun region => decide region.IsProper) = regions :=
  List.filter_eq_self.2 fun region member => decide_eq_true (proper region member)

theorem perm_of_add {range : ReportedRange} (proper : ∀ region ∈ table.regions, region.IsProper)
    (done : (RegionTable.add range.regionKind range.start range.stop).run table =
      (.done (), after)) :
    after.regions.Perm
      ((range.recorded :: table.regions).filter fun region => decide region.IsProper) := by
  cases RegionTable.records_of_add done with
  | ignored vanishes =>
      have gone : ¬ range.recorded.IsProper := vanishes
      rw [List.filter_cons_of_neg (by simpa using gone), filter_proper proper]
  | recorded _ perm => exact perm

theorem perm_of_recordRanges {ranges : List ReportedRange}
    (proper : ∀ region ∈ table.regions, region.IsProper)
    (done : (recordRanges ranges).run table = (.done (), after)) :
    after.regions.Perm
      ((ranges.map ReportedRange.recorded ++ table.regions).filter fun region =>
        decide region.IsProper) := by
  induction ranges generalizing table with
  | nil =>
      cases done
      rw [List.map_nil, List.nil_append, filter_proper proper]
  | cons range rest induction =>
      rw [recordRanges] at done
      rcases of_run_bind done with ⟨_, between, added, done⟩
      have first := perm_of_add proper added
      have properBetween : ∀ region ∈ between.regions, region.IsProper := by
        intro region member
        have kept := (first.mem_iff).1 member
        exact of_decide_eq_true (List.mem_filter.1 kept).2
      apply (induction properBetween done).trans
      rw [List.filter_append, List.filter_append, filter_proper properBetween]
      apply (first.append_left _).trans
      rw [← List.filter_append, ← List.filter_append]
      exact List.Perm.filter _ List.perm_middle

theorem perm_of_recordRanges_empty {ranges : List ReportedRange}
    (done : (recordRanges ranges).run (RegionTable.empty : RegionTable capacity sorting) =
      (.done (), after)) :
    after.regions.Perm
      ((ranges.map ReportedRange.recorded).filter fun region => decide region.IsProper) := by
  have perm := perm_of_recordRanges (by simp [RegionTable.empty]) done
  rwa [RegionTable.empty, List.append_nil] at perm

theorem mem_recordRanges {ranges : List ReportedRange} {region : Region}
    (done : (recordRanges ranges).run (RegionTable.empty : RegionTable capacity sorting) =
      (.done (), after)) :
    region ∈ after.regions ↔ region.IsProper ∧ ∃ range ∈ ranges, range.recorded = region := by
  rw [(perm_of_recordRanges_empty done).mem_iff, List.mem_filter, List.mem_map, and_comm,
    decide_eq_true_iff]

theorem isSound_of_recordRanges {ranges : List ReportedRange}
    (apart : ranges.Pairwise ReportedRange.Apart)
    (done : (recordRanges ranges).run (RegionTable.empty : RegionTable capacity sorting) =
      (.done (), table)) : table.IsSound := by
  constructor
  · exact fun region member => ((mem_recordRanges done).1 member).1
  · intro region member
    rcases (mem_recordRanges done).1 member with ⟨_, range, _, rfl⟩
    exact range.isWhole_recorded
  · rw [(perm_of_recordRanges_empty done).pairwise_iff Region.Separate.symm]
    refine List.Pairwise.filter _ (List.pairwise_map.2 ?_)
    exact apart.imp fun isApart => ReportedRange.Apart.separate isApart

/-- A recorded table offers what one of the reported ranges holds. -/
theorem offers_recordRanges {ranges : List ReportedRange}
    (done : (recordRanges ranges).run (RegionTable.empty : RegionTable capacity sorting) =
      (.done (), table)) {first last : Nat} (nonempty : first < last) :
    table.Offers 0 first last ↔ ∃ range ∈ ranges, range.Holds first last := by
  constructor
  · rintro ⟨region, member, available, _, above, below⟩
    rcases (mem_recordRanges done).1 member with ⟨_, range, reported, rfl⟩
    exact ⟨range, reported, available, above, below⟩
  · rintro ⟨range, reported, available, above, below⟩
    have proper : range.recorded.IsProper := by
      unfold Region.IsProper
      omega
    exact ⟨range.recorded, (mem_recordRanges done).2 ⟨proper, range, reported, rfl⟩, available,
      Nat.zero_le _, above, below⟩

end MemoryMap

end EarlyMemory
