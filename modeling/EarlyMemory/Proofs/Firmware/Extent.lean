import EarlyMemory.Proofs.Firmware.Reservations
import EarlyMemory.Proofs.Region.Coverage
import Mathlib.Algebra.BigOperators.Ring.List
import Mathlib.Algebra.Order.BigOperators.Group.List
import Mathlib.Algebra.Order.Ring.Nat

/-!
# How much is recorded

Ranges that do not overlap cover no more than physical memory, and rounding adds less than
two pages to a range that is not empty. Fencing ranges off adds nothing. So what a table
covers is bounded however many ranges the firmware reports.
-/

namespace EarlyMemory

open Region (Measure)

namespace ReportedRange

variable {map : List ReportedRange} {range : ReportedRange} {limit : Nat}

def lengthBelow (limit : Nat) (range : ReportedRange) : Nat :=
  min range.stop.value limit - min range.start.value limit

theorem lengthBelow_succ_of_apart {other : ReportedRange} (apart : range.Apart other)
    (holds : range.start.value ≤ limit ∧ limit < range.stop.value) :
    other.lengthBelow (limit + 1) = other.lengthBelow limit := by
  unfold Apart at apart
  unfold lengthBelow
  omega

/-- One byte more belongs to at most one of the ranges. -/
theorem sum_lengthBelow_succ (apart : map.Pairwise Apart) :
    (map.map (lengthBelow (limit + 1))).sum ≤ (map.map (lengthBelow limit)).sum + 1 := by
  induction map with
  | nil => exact Nat.zero_le _
  | cons range rest induction =>
      rw [List.pairwise_cons] at apart
      rw [List.map_cons, List.map_cons, List.sum_cons, List.sum_cons]
      by_cases holds : range.start.value ≤ limit ∧ limit < range.stop.value
      · have others : rest.map (lengthBelow (limit + 1)) = rest.map (lengthBelow limit) :=
          List.map_congr_left fun other member =>
            lengthBelow_succ_of_apart (apart.1 other member) holds
        have here : range.lengthBelow (limit + 1) ≤ range.lengthBelow limit + 1 := by
          unfold lengthBelow
          omega
        rw [others]
        omega
      · have here : range.lengthBelow (limit + 1) = range.lengthBelow limit := by
          unfold lengthBelow
          omega
        have further := induction apart.2
        omega

theorem sum_lengthBelow_le (apart : map.Pairwise Apart) :
    (map.map (lengthBelow limit)).sum ≤ limit := by
  induction limit with
  | zero =>
      refine Nat.le_of_eq (List.sum_eq_zero fun length member => ?_)
      rcases List.mem_map.1 member with ⟨range, _, rfl⟩
      simp [lengthBelow]
  | succ limit induction =>
      exact Nat.le_trans (sum_lengthBelow_succ apart) (Nat.succ_le_succ induction)

theorem length_recorded_le (nonempty : 0 < range.length) :
    range.recorded.length ≤ 8191 * range.lengthBelow physicalLimit.value := by
  have limit : physicalLimit.value = 0x10000000000000 := rfl
  have start : range.start.value = range.base.value := rfl
  have stop : range.stop.value = min (range.base.value + range.length) 0xFFFFFFFFFFFFFFFF := rfl
  unfold recorded lengthBelow Region.length Region.of
  cases direction : range.regionKind.roundsInward with
  | true =>
      rcases RegionTable.rounded_of_inward direction range.start range.stop with ⟨first, last⟩
      simp only [first, last]
      omega
  | false =>
      rcases RegionTable.rounded_of_outward direction range.start range.stop with ⟨first, last⟩
      simp only [first, last]
      omega

end ReportedRange

namespace MemoryMap

variable {capacity : Nat} {sorting : Region.Sorting} {map : List ReportedRange}
  {kept : List KeptRange} {recorded table : RegionTable capacity sorting}

theorem coveredBytes_of_recordRanges
    (done : (recordRanges map).run RegionTable.empty = (.done (), recorded)) :
    recorded.coveredBytes = (map.map fun range => range.recorded.length).sum := by
  change Measure.bytes.total recorded.regions = _
  rw [Measure.total_perm (perm_of_recordRanges_empty done), Measure.total_filter_isProper,
    Measure.total, List.map_map]
  rfl

theorem coveredBytes_le_of_recordRanges (apart : map.Pairwise ReportedRange.Apart)
    (nonempty : ∀ range ∈ map, 0 < range.length)
    (done : (recordRanges map).run RegionTable.empty = (.done (), recorded)) :
    recorded.coveredBytes ≤ 1 <<< 65 := by
  have rounded : ∀ range ∈ map,
      range.recorded.length ≤ 8191 * range.lengthBelow physicalLimit.value :=
    fun range member => ReportedRange.length_recorded_le (nonempty range member)
  have within : (map.map (ReportedRange.lengthBelow physicalLimit.value)).sum ≤ 0x10000000000000 :=
    ReportedRange.sum_lengthBelow_le apart
  calc recorded.coveredBytes
    _ = (map.map fun range => range.recorded.length).sum := coveredBytes_of_recordRanges done
    _ ≤ (map.map fun range => 8191 * range.lengthBelow physicalLimit.value).sum :=
        List.sum_le_sum rounded
    _ = 8191 * (map.map (ReportedRange.lengthBelow physicalLimit.value)).sum :=
        List.sum_map_mul_left ..
    _ ≤ 8191 * 0x10000000000000 := Nat.mul_le_mul_left _ within
    _ ≤ 1 <<< 65 := by decide

theorem Fences.coveredBytes_eq (fences : Fences recorded kept table) :
    table.coveredBytes = recorded.coveredBytes := by
  induction fences with
  | nil => rfl
  | reserved earlier reserves ran induction =>
      rcases exists_run_reserve ran with ⟨_, reserving⟩
      exact (RegionTable.total_of_reserve Measure.isUniform_bytes reserving).trans induction
  | refused earlier refuses ran induction =>
      rcases exists_run_reserve ran with ⟨_, reserving⟩
      exact (RegionTable.total_of_reserve Measure.isUniform_bytes reserving).trans induction

end MemoryMap

end EarlyMemory
