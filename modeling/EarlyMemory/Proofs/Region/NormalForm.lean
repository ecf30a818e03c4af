import EarlyMemory.Proofs.Region.Granting
import EarlyMemory.Proofs.Region.MaximalRuns
import EarlyMemory.Proofs.Region.Regranting
import EarlyMemory.Proofs.Region.Remerging

/-!
# The normal form of a table

Where no regions overlap, merging gives the only table in order that keeps the entries that are
not available, makes the same memory available and has no two available regions that touch. Where
some do, the order of equal starts decides what is merged the next time.
-/

namespace EarlyMemory

namespace Region

variable {current : Region} {rest regions : List Region}

theorem filter_mergeInto :
    ((current.mergeInto rest).filter fun region => !region.hasKind .available) =
      (current :: rest).filter fun region => !region.hasKind .available := by
  induction rest generalizing current with
  | nil => rfl
  | cons next rest induction =>
      cases touching : current.touches next with
      | true =>
          rcases of_touches touching with ⟨currentAvailable, nextAvailable, _⟩
          rw [mergeInto_of_touches touching, induction]
          simp [hasKind, currentAvailable, nextAvailable]
      | false =>
          rw [mergeInto_of_not_touches touching]
          simp only [List.filter_cons, induction]

theorem filter_mergeTouching (regions : List Region) :
    ((mergeTouching regions).filter fun region => !region.hasKind .available) =
      regions.filter fun region => !region.hasKind .available := by
  cases regions with
  | nil => rfl
  | cons head tail => exact filter_mergeInto

theorem IsMerged.areMaximal (merged : IsMerged regions) (sequential : IsSequential regions)
    (proper : ∀ region ∈ regions, region.IsProper) :
    Run.AreMaximal ((regions.filter fun region => region.hasKind .available).map Run.ofRegion) where
  proper := by
    simp only [List.forall_mem_map]
    exact fun region kept => proper region (List.mem_filter.1 kept).1
  breaks := by
    refine List.pairwise_map.2 ((sequential.filter _).imp_of_mem ?_)
    intro left right isLeft isRight before
    rcases List.mem_filter.1 isLeft with ⟨leftMember, leftAvailable⟩
    rcases List.mem_filter.1 isRight with ⟨rightMember, rightAvailable⟩
    refine ⟨before, fun meet => ?_⟩
    have meet : left.stop = right.start := meet
    have touching : left.touches right = true := by
      simp [touches, leftAvailable, rightAvailable, meet]
    rw [merged left leftMember right rightMember] at touching
    cases touching

end Region

namespace RegionTable

variable {capacity : Nat} {sorting : Region.Sorting}
  {table first second normal : RegionTable capacity sorting}

/-- The available regions of a table, as runs. -/
def availableRuns (table : RegionTable capacity sorting) : List Run :=
  (table.regions.filter fun region => region.hasKind .available).map Run.ofRegion

theorem holdAs_availableRuns_iff {kind : KernelKind} {address : Nat} :
    Run.HoldAs table.availableRuns kind address ↔
      kind = .available ∧ table.IsAvailable address := by
  have kept : ∀ region, region ∈ table.regions.filter (fun region => region.hasKind .available) ↔
      region ∈ table.regions ∧ region.code = RegionKind.available.code := by
    simp only [List.mem_filter, Region.hasKind_iff, implies_true]
  constructor
  · rintro ⟨run, isRun, rfl, holds⟩
    rcases List.mem_map.1 isRun with ⟨region, isKept, rfl⟩
    rcases (kept region).1 isKept with ⟨member, available⟩
    exact ⟨Region.kernelKind_of_code available, region, member, available, holds⟩
  · rintro ⟨rfl, region, member, available, covers⟩
    exact ⟨.ofRegion region, List.mem_map_of_mem ((kept region).2 ⟨member, available⟩),
      Region.kernelKind_of_code available, covers⟩

/-- The available runs and the other entries are all that a table holds. -/
theorem perm_of_availableRuns_eq (runs : first.availableRuns = second.availableRuns)
    (others : first.occupied = second.occupied) : first.regions.Perm second.regions := by
  have restored : ∀ table : RegionTable capacity sorting,
      (table.regions.filter fun region => region.hasKind .available) =
        table.availableRuns.map fun run => .of .available run.base run.stop := by
    intro table
    rw [availableRuns, List.map_map]
    refine (List.map_id _).symm.trans (List.map_congr_left fun region kept => ?_)
    have available := Region.hasKind_iff.1 (List.mem_filter.1 kept).2
    exact Region.mk.injEq .. ▸ ⟨rfl, rfl, available⟩
  have same : (first.regions.filter fun region => region.hasKind .available) =
      second.regions.filter fun region => region.hasKind .available := by
    rw [restored, restored, runs]
  have parts := fun table : RegionTable capacity sorting =>
    List.filter_append_perm (fun region => region.hasKind .available) table.regions
  refine (parts first).symm.trans (.trans ?_ (parts second))
  unfold occupied at others
  rw [same, others]

/-- Whether a table is in order, merged and free of overlaps, and has the same available
memory as another one and the same entries that are not available. -/
structure IsNormalFormOf (normal table : RegionTable capacity sorting) : Prop where
  proper : ∀ region ∈ normal.regions, region.IsProper
  ordered : Region.IsOrdered normal.regions
  apart : normal.regions.Pairwise Region.Apart
  merged : Region.IsMerged normal.regions
  occupied : normal.occupied = table.occupied
  available : ∀ address, normal.IsAvailable address ↔ table.IsAvailable address

theorem IsNormalFormOf.isSequential (isNormal : normal.IsNormalFormOf table) :
    Region.IsSequential normal.regions :=
  .of_isOrdered isNormal.ordered isNormal.apart isNormal.proper

theorem IsNormalFormOf.areMaximal (isNormal : normal.IsNormalFormOf table) :
    Run.AreMaximal normal.availableRuns :=
  isNormal.merged.areMaximal isNormal.isSequential isNormal.proper

theorem IsNormalFormOf.eq (isFirst : first.IsNormalFormOf table)
    (isSecond : second.IsNormalFormOf table) : first = second := by
  have runs : first.availableRuns = second.availableRuns := by
    refine isFirst.areMaximal.eq_of_holdAs_iff isSecond.areMaximal fun kind address => ?_
    rw [holdAs_availableRuns_iff, holdAs_availableRuns_iff, isFirst.available, isSecond.available]
  have perm := perm_of_availableRuns_eq runs (isFirst.occupied.trans isSecond.occupied.symm)
  exact congrArg RegionTable.mk
    (isFirst.isSequential.eq_of_perm isSecond.isSequential isFirst.proper perm)

theorem IsTidy.isNormalFormOf_coalesce (tidy : table.IsTidy) :
    table.coalesce.IsNormalFormOf table := by
  have sequential := tidy.built.isSequential tidy.apart
  have coalesced := regions_coalesce_of_isSequential tidy.isProper sequential
  exact {
    proper := fun region member => (tidy.built.coalesced.isWellFormed region member).1
    ordered := isOrdered_arrange _
    apart := by
      rw [coalesced]
      exact sequential.mergeTouching.imp Or.inl
    merged := by
      rw [coalesced]
      exact Region.isMerged_mergeTouching tidy.isProper sequential
    occupied := by
      rw [occupied, coalesced]
      exact Region.filter_mergeTouching table.regions
    available := fun _ => isAvailable_coalesce_iff tidy.isProper }

theorem IsTidy.isNormalFormOf_iff (tidy : table.IsTidy) :
    normal.IsNormalFormOf table ↔ normal = table.coalesce := by
  constructor
  · exact fun isNormal => isNormal.eq tidy.isNormalFormOf_coalesce
  · rintro rfl
    exact tidy.isNormalFormOf_coalesce

/-- Two regions with one start in front of a third one that the first of them touches, many that
are apart from each other, and two that touch. -/
def crowding : List Request :=
  [.add .available (.ofNat 0x100000) (.ofNat 0x101000),
    .add .available (.ofNat 0x100000) (.ofNat 0x102000),
    .add .available (.ofNat 0x101000) (.ofNat 0x103000)] ++
  (List.range 28).map (fun place =>
    .add .available (.ofNat (0x200000 + 0x2000 * place)) (.ofNat (0x201000 + 0x2000 * place))) ++
  [.add .available (.ofNat 0x238000) (.ofNat 0x239000),
    .add .available (.ofNat 0x239000) (.ofNat 0x23a000)]

def crowded : RegionTable 33 :=
  ((serveAll crowding : Operation (RegionTable 33) Empty _).run .empty).2

end RegionTable

end EarlyMemory
