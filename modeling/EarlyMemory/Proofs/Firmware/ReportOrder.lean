import EarlyMemory.Proofs.Firmware.Ingestion
import EarlyMemory.Proofs.Firmware.Reservations
import EarlyMemory.Proofs.Region.Canonical
import EarlyMemory.Proofs.Region.Tracing

/-!
# The order of the reported ranges

Ranges whose pages are disjoint can be put one after the other in one way only. So it makes
no difference to the table in which order the firmware reports them, nor to whether there is
room for them.
-/

namespace EarlyMemory.MemoryMap

open Operation

variable {capacity count : Nat} {sorting : Region.Sorting}
  {table left right : RegionTable capacity sorting} {ranges others : List ReportedRange}

/-- Whether no address lies in the pages of two of the ranges. -/
def AreDisjoint (ranges : List ReportedRange) : Prop :=
  ranges.Pairwise fun left right =>
    ∀ address, left.recorded.Covers address → ¬ right.recorded.Covers address

theorem AreDisjoint.perm (disjoint : AreDisjoint ranges) (perm : ranges.Perm others) :
    AreDisjoint others :=
  (perm.pairwise_iff fun apart address inRight inLeft => apart address inLeft inRight).1 disjoint

theorem isSequential_of_recordRanges (disjoint : AreDisjoint ranges)
    (done : (recordRanges ranges).run (.empty : RegionTable capacity sorting) = (.done (), table)) :
    Region.IsSequential table.regions := by
  have built := built_of_recordRanges .empty done
  have perm := perm_of_recordRanges_empty done
  refine built.isSequential ?_
  have images : (ranges.map ReportedRange.recorded).Pairwise fun left right =>
      ∀ address, left.Covers address → ¬ right.Covers address := List.pairwise_map.2 disjoint
  rw [perm.pairwise_iff fun {_ _} => Region.Apart.symm]
  refine (images.filter _).imp_of_mem fun isLeft isRight apart => ?_
  exact (Region.apart_iff_not_covers (of_decide_eq_true (List.mem_filter.1 isLeft).2)
    (of_decide_eq_true (List.mem_filter.1 isRight).2)).2 apart

theorem eq_of_recordRanges (disjoint : AreDisjoint ranges) (perm : ranges.Perm others)
    (first : (recordRanges ranges).run (.empty : RegionTable capacity sorting) = (.done (), left))
    (second : (recordRanges others).run (.empty : RegionTable capacity sorting) =
      (.done (), right)) : left = right := by
  have leftPerm := perm_of_recordRanges_empty first
  have rightPerm := perm_of_recordRanges_empty second
  have same := (perm.map ReportedRange.recorded).filter fun region => decide region.IsProper
  have built := built_of_recordRanges .empty first
  exact congrArg RegionTable.mk ((isSequential_of_recordRanges disjoint first).eq_of_perm
    (isSequential_of_recordRanges (disjoint.perm perm) second)
    (fun region member => (built.isWellFormed region member).1)
    (leftPerm.trans (same.trans rightPerm.symm)))

theorem of_run_ingest
    (done : (ingest ranges).run (.empty : RegionTable capacity sorting) = (.done count, table)) :
    count = ranges.length ∧
      (recordRanges ranges).run (.empty : RegionTable capacity sorting) = (.done (), table) := by
  rw [ingest_eq] at done
  rcases of_run_bind done with ⟨_, between, recorded, counted⟩
  rcases of_run_pure counted with ⟨rfl, rfl⟩
  exact ⟨rfl, recorded⟩

theorem outcome_ingest_perm (perm : ranges.Perm others) (capacity : Nat)
    (sorting : Region.Sorting) :
    ((ingest ranges).run (.empty : RegionTable capacity sorting)).1 =
      ((ingest others).run (.empty : RegionTable capacity sorting)).1 := by
  rcases @ingest_reflects capacity sorting ranges with ⟨_, first, _⟩
  rcases @ingest_reflects capacity sorting others with ⟨_, second, _⟩
  rw [first, second, perm.length_eq, perm.countP_eq]

theorem run_ingest_perm (disjoint : AreDisjoint ranges) (perm : ranges.Perm others)
    (done : (ingest ranges).run (.empty : RegionTable capacity sorting) = (.done count, table)) :
    (ingest others).run (.empty : RegionTable capacity sorting) = (.done count, table) := by
  have outcome := outcome_ingest_perm perm capacity sorting
  rw [done] at outcome
  have other := run_eq_of_outcome outcome.symm
  have same := eq_of_recordRanges disjoint perm (of_run_ingest done).2 (of_run_ingest other).2
  rwa [← same] at other

/-- In whichever order the firmware reports ranges whose pages are disjoint, all of them are
ingested into the same table, or there is no room for them in either order. -/
theorem ingest_does_not_depend_on_order (disjoint : AreDisjoint ranges)
    (perm : ranges.Perm others) (capacity : Nat) :
    ((ingest ranges).run (.empty : RegionTable capacity sorting)).1 =
        ((ingest others).run (.empty : RegionTable capacity sorting)).1 ∧
      ∀ count (table : RegionTable capacity sorting),
        (ingest ranges).run .empty = (.done count, table) ↔
          (ingest others).run .empty = (.done count, table) :=
  ⟨outcome_ingest_perm perm capacity sorting, fun _ _ =>
    ⟨run_ingest_perm disjoint perm, run_ingest_perm (disjoint.perm perm) perm.symm⟩⟩

def scattered : List ReportedRange :=
  [⟨.ofNat 0x200000, 0x800, 1⟩, ⟨.ofNat 0x104800, 0x100, 4⟩, ⟨.ofNat 0x100000, 0x4800, 1⟩]

theorem scattered_is_ingested_in_reverse :
    ∃ table : RegionTable 2, (ingest scattered).run .empty = (.done 3, table) ∧
      (ingest scattered.reverse).run .empty = (.done 3, table) := by
  have apart : scattered.Pairwise fun left right => left.recorded.Apart right.recorded := by
    decide
  have disjoint : AreDisjoint scattered := by
    refine apart.imp fun isApart address inLeft inRight => ?_
    unfold Region.Apart at isApart
    unfold Region.Covers at inLeft inRight
    omega
  have done : ((ingest scattered).run (.empty : RegionTable 2)).1 = .done 3 := by
    decide +kernel
  have perm : scattered.Perm scattered.reverse := (List.reverse_perm _).symm
  have ran := run_eq_of_outcome done
  exact ⟨_, ran, ((ingest_does_not_depend_on_order disjoint perm 2).2 3 _).1 ran⟩

end EarlyMemory.MemoryMap
