import EarlyMemory.Proofs.Region.Canonical
import EarlyMemory.Proofs.Region.Refusals

/-!
# Giving back and granting again

What is carved out of a table without overlaps and then given back leaves the table merged,
as if nothing had been carved. The same allocation succeeds again exactly if a run of
available addresses that begins outside low memory is long enough: a region that was merged
with low memory starts too low to be a host, however long it is.
-/

namespace EarlyMemory.RegionTable

open Region (Measure IsSequential)

variable {capacity : Nat} {sorting : Region.Sorting} {ε : Type}
  {table between retyped : RegionTable capacity sorting} {taken host : Region}
  {others rest : List Region} {address base : PhysicalAddress} {pages : Nat}

/-! ## Giving back -/

theorem bytesOf_eq_total (kind : RegionKind) :
    table.bytesOf kind = (Measure.bytes.restrict kind.code).total table.regions := by
  unfold bytesOf
  induction table.regions with
  | nil => rfl
  | cons head tail induction =>
      rw [Measure.total_cons, ← induction]
      by_cases same : head.code = kind.code
      · simp [Measure.restrict, Measure.bytes, Region.hasKind, same]
      · simp [Measure.restrict, Region.hasKind, same]

theorem totalBytes_coalesce (proper : ∀ region ∈ table.regions, region.IsProper)
    (kind : RegionKind) : table.coalesce.totalBytes kind = table.totalBytes kind := by
  apply Word.sum_congr
  change table.coalesce.bytesOf kind = table.bytesOf kind
  rw [bytesOf_eq_total, bytesOf_eq_total, total_coalesce proper]

/-- A table in which a carved part is available again merges into the same as the table that
the part was carved from. -/
theorem Carves.coalesce_of_retyped (carves : Carves table between taken host others)
    (properTable : ∀ region ∈ table.regions, region.IsProper)
    (inTable : IsSequential table.regions)
    (hosted : between.regions.Perm (taken :: rest))
    (changed : retyped.regions.Perm (taken.withKind .available :: rest))
    (inOrder : IsSequential retyped.regions) : retyped.coalesce = table.coalesce := by
  rcases List.append_of_mem (carves.mem_before.2 (.inl rfl)) with ⟨before, after, split⟩
  have proper := properTable
  have sequential := inTable
  rw [split] at proper sequential
  have properBeside : ∀ region ∈ before ++ after, region.IsProper :=
    fun region member => proper region (List.perm_middle.mem_iff.2 (List.mem_cons_of_mem _ member))
  have beside : others.Perm (before ++ after) := by
    have same := carves.hosted.symm
    rw [split] at same
    exact (same.trans List.perm_middle).cons_inv
  have remaining := hosted.symm.trans carves.carved
  rw [List.filter_cons, if_pos (decide_eq_true carves.proper)] at remaining
  have middle : taken.withKind .available =
      { host with start := taken.start, stop := taken.stop } := by
    rw [Region.withKind, ← carves.available]
  have properMiddle : (taken.withKind .available).IsProper := carves.proper
  -- The regions are those of the first table with the carved part cut out of its host.
  have rearranged : retyped.regions.Perm
      (before ++ (host.cutOut taken.start taken.stop ++ after)) := by
    refine .trans ?_ (Region.cutOut_perm _ _ properBeside).symm
    rw [← middle, List.filter_cons, if_pos (decide_eq_true properMiddle)]
    exact changed.trans ((remaining.cons_inv.trans (((beside.cons _).cons _).filter _)).cons _)
  have properRetyped : ∀ region ∈ retyped.regions, region.IsProper := by
    intro region member
    have kept := (rearranged.trans (Region.cutOut_perm _ _ properBeside)).mem_iff.1 member
    exact of_decide_eq_true (List.mem_filter.1 kept).2
  have same := inOrder.eq_of_perm
    (sequential.cutOut carves.proper carves.start carves.stop) properRetyped rearranged
  apply RegionTable.ext
  rw [regions_coalesce_of_isSequential properRetyped inOrder,
    regions_coalesce_of_isSequential properTable inTable, same, split,
    Region.mergeTouching_cutOut carves.proper carves.start carves.stop carves.available]

/-- Only the carved part starts where it does, so giving it back finds it. -/
theorem Carves.run_free (carves : Carves table between taken host others)
    (built : table.Built) (builtBetween : between.Built)
    (apart : table.regions.Pairwise Region.Apart) (reserved : taken.code = RegionKind.reserved.code)
    (inside : address.alignDown .small = taken.start) :
    (free address).run between = (.done (), table.coalesce) := by
  have apartBetween : between.regions.Pairwise Region.Apart :=
    carves.pairwise (fun _ _ => Region.Apart.symm) (fun _ _ isApart => isApart)
      (fun _ isOther => .inl (carves.apart_of_other (built.isSound apart) isOther)) apart
  have sequential := builtBetween.isSequential apartBetween
  rcases free_spec between address with ⟨outcome, after, ran, frees⟩
  rw [ran]
  cases frees with
  | unknown missing =>
      exact absurd inside.symm (missing taken carves.taken_mem reserved)
  | freed retyped found rest hosted isReserved start changed arranged =>
      have isFound := hosted.mem_iff.2 List.mem_cons_self
      have proper := fun region member => (builtBetween.isWellFormed region member).1
      have same := sequential.startApart proper taken carves.taken_mem found isFound
        (inside.symm.trans start.symm)
      subst same
      have parts := List.pairwise_cons.1 ((hosted.pairwise_iff Region.Apart.symm).1 apartBetween)
      have apartRetyped : retyped.regions.Pairwise Region.Apart :=
        (changed.pairwise_iff Region.Apart.symm).2 (List.pairwise_cons.2 ⟨parts.1, parts.2⟩)
      have properRetyped : ∀ region ∈ retyped.regions, region.IsProper := by
        intro region member
        rcases List.mem_cons.1 (changed.mem_iff.1 member) with rfl | isOther
        · exact carves.proper
        · exact proper region (hosted.mem_iff.2 (List.mem_cons_of_mem _ isOther))
      have inOrder := IsSequential.of_isOrdered (arranged builtBetween.isArranged).ordered
        apartRetyped properRetyped
      rw [carves.coalesce_of_retyped (fun region member => (built.isWellFormed region member).1)
        (built.isSequential apart) hosted changed inOrder]

theorem run_free_of_allocate (built : table.Built) (apart : table.regions.Pairwise Region.Apart)
    (granted : (allocate pages : Operation (RegionTable capacity sorting) ε _).run table =
      (.done (some base), between))
    (inside : base.value ≤ address.value ∧ address.value < base.value + 4096) :
    (free address).run between = (.done (), table.coalesce) := by
  rcases allocates_of_allocateAs granted with ⟨_, ⟨⟩, allocates⟩
  cases allocates with
  | carved _ stop host others atStart extent high carves =>
      have aligned := (built.isWellFormed host (carves.mem_before.2 (.inl rfl))).2.start
      rw [← atStart] at aligned
      refine carves.run_free built (built.allocated granted) apart rfl (Address.ext ?_)
      change address.value / 4096 * 4096 = base.value
      omega

/-- Giving back what was given out leaves the table as merging it would have. -/
theorem free_of_allocate_eq_coalesce (built : table.Built)
    (apart : table.regions.Pairwise Region.Apart)
    (granted : (allocate pages : Operation (RegionTable capacity sorting) ε _).run table =
      (.done (some base), between))
    (inside : base.value ≤ address.value ∧ address.value < base.value + 4096) :
    (free address).run between = (.done (), table.coalesce) ∧
      ∀ kind, table.coalesce.totalBytes kind = table.totalBytes kind :=
  ⟨run_free_of_allocate built apart granted inside,
    totalBytes_coalesce fun region member => (built.isWellFormed region member).1⟩

/-- Available memory that was reported as two ranges, with the end of low memory between
them. -/
def straddling : RegionTable 4 :=
  ⟨[.of .available (.ofNat 0) (.ofNat 0x100000),
    .of .available (.ofNat 0x100000) (.ofNat 0x102000)]⟩

def straddlingTaken : RegionTable 4 :=
  ⟨[.of .available (.ofNat 0) (.ofNat 0x100000),
    .of .reserved (.ofNat 0x100000) (.ofNat 0x101000),
    .of .available (.ofNat 0x101000) (.ofNat 0x102000)]⟩

theorem built_straddling : straddling.Built := by
  have first : (add .available (.ofNat 0) (.ofNat 0x100000)).run (empty : RegionTable 4) =
      (.done (), ⟨[.of .available (.ofNat 0) (.ofNat 0x100000)]⟩) := by
    decide +kernel
  have second : (add .available (.ofNat 0x100000) (.ofNat 0x102000)).run
      (⟨[.of .available (.ofNat 0) (.ofNat 0x100000)]⟩ : RegionTable 4) =
        (.done (), straddling) := by
    decide +kernel
  exact (Built.empty.added first).added second

theorem pairwise_apart_straddling : straddling.regions.Pairwise Region.Apart := by
  decide

theorem run_allocate_straddling :
    (allocate 1 : Operation (RegionTable 4) ε _).run straddling =
      (.done (some (.ofNat 0x100000)), straddlingTaken) :=
  rfl

theorem straddling_is_merged_by_free :
    (free (.ofNat 0x100ABC)).run straddlingTaken = (.done (), straddling.coalesce) ∧
      ∀ kind, straddling.coalesce.totalBytes kind = straddling.totalBytes kind :=
  free_of_allocate_eq_coalesce (ε := Empty) built_straddling pairwise_apart_straddling
    run_allocate_straddling (by decide)

/-! ## Granting again -/

/-- Whether addresses from `first` up to `last` are available, and none right before them. -/
def HasRun (table : RegionTable capacity sorting) (first last : Nat) : Prop :=
  ¬ table.IsAvailable (first - 1) ∧
    ∀ address, first ≤ address → address < last → table.IsAvailable address

theorem exists_isHostFor_iff_hasRun (sequential : IsSequential table.regions)
    (merged : Region.IsMerged table.regions) (positive : pages ≠ 0) :
    (∃ region ∈ table.regions, region.IsHostFor pages) ↔
      ∃ start, lowMemoryEnd.value ≤ start ∧ table.HasRun start (start + pages * 4096) := by
  have low : lowMemoryEnd.value = 0x100000 := rfl
  constructor
  · rintro ⟨region, member, available, high, enough⟩
    unfold Region.length at enough
    refine ⟨region.start.value, high, ?_, fun address above below =>
      ⟨region, member, available, above, by omega⟩⟩
    rintro ⟨other, isOther, otherAvailable, covers⟩
    have first : region.Covers (region.start.value - 1 + 1) := ⟨by omega, by omega⟩
    have same := merged.eq_of_covers_succ sequential isOther member otherAvailable available covers
      first
    subst same
    exact absurd covers.1 (by omega)
  · rintro ⟨start, high, begins, run⟩
    rcases exists_region_of_isMerged sequential merged (by omega) run with
      ⟨region, member, available, covers, enough⟩
    have atStart : region.start.value = start := by
      apply Decidable.byContradiction
      intro different
      have above := covers.1
      have below := covers.2
      exact begins ⟨region, member, available, by omega, by omega⟩
    refine ⟨region, member, available, by omega, ?_⟩
    unfold Region.length
    omega

/-- Where low memory does not end in available memory, no region of a run reaches into it. -/
theorem exists_isHostFor_of_run (sequential : IsSequential table.regions)
    (merged : Region.IsMerged table.regions) (positive : pages ≠ 0) {first : Nat}
    (high : lowMemoryEnd.value ≤ first)
    (run : ∀ address, first ≤ address → address < first + pages * 4096 → table.IsAvailable address)
    (fence : ¬ table.IsAvailable (lowMemoryEnd.value - 1)) :
    ∃ region ∈ table.regions, region.IsHostFor pages := by
  have low : lowMemoryEnd.value = 0x100000 := rfl
  rcases exists_region_of_isMerged sequential merged (by omega) run with
    ⟨region, member, available, covers, enough⟩
  unfold Region.Covers at covers
  have outside : lowMemoryEnd.value ≤ region.start.value := Nat.le_of_not_lt fun below =>
    fence ⟨region, member, available, by omega, by omega⟩
  refine ⟨region, member, available, outside, ?_⟩
  unfold Region.length
  omega

theorem hasRun_coalesce_iff (proper : ∀ region ∈ table.regions, region.IsProper)
    {first last : Nat} : table.coalesce.HasRun first last ↔ table.HasRun first last := by
  simp only [HasRun, isAvailable_coalesce_iff proper]

theorem isAvailable_of_allocate
    (granted : (allocate pages : Operation (RegionTable capacity sorting) ε _).run table =
      (.done (some base), between)) :
    lowMemoryEnd.value ≤ base.value ∧ ∀ address, base.value ≤ address →
      address < base.value + pages * 4096 → table.IsAvailable address := by
  rcases allocates_of_allocateAs granted with ⟨_, ⟨⟩, allocates⟩
  rcases allocates.offers.2 base rfl with ⟨region, member, available, _, above, below⟩
  cases allocates with
  | carved _ _ _ _ _ _ high =>
      exact ⟨high, fun address from_base within =>
        ⟨region, member, available, by omega, by omega⟩⟩

/-- What was given out and given back can be given out again exactly if a run of available
addresses that begins outside low memory is long enough. There is one if low memory does not
end in available memory. -/
theorem allocate_again_iff_hasRun (built : table.Built)
    (apart : table.regions.Pairwise Region.Apart)
    (granted : (allocate pages : Operation (RegionTable capacity sorting) ε _).run table =
      (.done (some base), between)) :
    ∃ freed answer after, (free base).run between = (.done (), freed) ∧
      (allocate pages : Operation (RegionTable capacity sorting) ε _).run freed =
        (.done answer, after) ∧
      (answer ≠ none ↔
        ∃ start, lowMemoryEnd.value ≤ start ∧ table.HasRun start (start + pages * 4096)) ∧
      (¬ table.IsAvailable (lowMemoryEnd.value - 1) → answer ≠ none) := by
  have proper := fun region member => (built.isWellFormed region member).1
  have inOrder := built.isSequential apart
  have coalesced := regions_coalesce_of_isSequential proper inOrder
  have sequential := coalesced ▸ inOrder.mergeTouching
  have merged := coalesced ▸ Region.isMerged_mergeTouching proper inOrder
  have regular : ¬ (pages = 0 ∨ 1 <<< 64 ≤ pages * 4096) := by
    intro trivial
    cases granted.symm.trans (run_allocateAs_of_trivial trivial)
  have room : table.coalesce.regions.length < capacity := by
    rcases exists_run_allocateAs (ε := ε) table .reserved regular with ⟨answer, _, ran, vain⟩
    cases granted.symm.trans ran
    rw [coalesced]
    refine Nat.lt_of_le_of_lt Region.length_mergeTouching_le (Nat.lt_of_not_le fun full => ?_)
    cases vain.2 (.inr full)
  have inside : base.value ≤ base.value ∧ base.value < base.value + 4096 :=
    ⟨Nat.le_refl _, Nat.lt_add_of_pos_right (by decide)⟩
  rcases allocateAs_answer (ε := ε) built.coalesced.isArranged room pages .reserved with
    ⟨answer, after, ran, vain, _⟩
  rw [not_or] at regular
  have hosted : answer ≠ none ↔ ∃ region ∈ table.coalesce.regions, region.IsHostFor pages := by
    rw [ne_eq, vain]
    simp only [regular.1, regular.2, false_or, not_forall, not_not, exists_prop]
  refine ⟨_, answer, after, run_free_of_allocate built apart granted inside, ran, ?_, ?_⟩
  · simp only [hosted, ← hasRun_coalesce_iff proper]
    exact exists_isHostFor_iff_hasRun sequential merged regular.1
  · intro fence
    rcases isAvailable_of_allocate granted with ⟨high, run⟩
    simp only [← isAvailable_coalesce_iff proper] at fence run
    exact hosted.2 (exists_isHostFor_of_run sequential merged regular.1 high run fence)

def fenced : RegionTable 4 :=
  ⟨[.of .reserved (.ofNat 0) (.ofNat 0x100000),
    .of .available (.ofNat 0x100000) (.ofNat 0x102000)]⟩

theorem built_fenced : fenced.Built := by
  have first : (add .reserved (.ofNat 0) (.ofNat 0x100000)).run (empty : RegionTable 4) =
      (.done (), ⟨[.of .reserved (.ofNat 0) (.ofNat 0x100000)]⟩) := by
    decide +kernel
  have second : (add .available (.ofNat 0x100000) (.ofNat 0x102000)).run
      (⟨[.of .reserved (.ofNat 0) (.ofNat 0x100000)]⟩ : RegionTable 4) =
        (.done (), fenced) := by
    decide +kernel
  exact (Built.empty.added first).added second

theorem fenced_memory_is_granted_again :
    ∃ base between freed answer after,
      (allocate 2 : Operation (RegionTable 4) Empty _).run fenced =
          (.done (some base), between) ∧
        (free base).run between = (.done (), freed) ∧
        (allocate 2 : Operation (RegionTable 4) Empty _).run freed = (.done answer, after) ∧
        answer ≠ none := by
  have granted : (allocate 2 : Operation (RegionTable 4) Empty _).run fenced =
      (.done (some (.ofNat 0x100000)),
        ⟨[.of .reserved (.ofNat 0) (.ofNat 0x100000),
          .of .reserved (.ofNat 0x100000) (.ofNat 0x102000)]⟩) := by
    decide +kernel
  rcases allocate_again_iff_hasRun built_fenced (by decide) granted with
    ⟨freed, answer, after, given, ran, _, again⟩
  refine ⟨_, _, freed, answer, after, granted, given, ran, again ?_⟩
  simp only [IsAvailable, fenced, List.mem_cons, List.not_mem_nil, or_false, exists_eq_or_imp,
    exists_eq_left]
  decide

/-- A page next to low memory is lost: once it was given back, it is part of a region that
starts too low. -/
theorem straddling_memory_is_lost :
    straddling.Built ∧ straddling.regions.Pairwise Region.Apart ∧
      (allocate 1 : Operation (RegionTable 4) Empty _).run straddling =
        (.done (some (.ofNat 0x100000)), straddlingTaken) ∧
      (free (.ofNat 0x100000)).run straddlingTaken = (.done (), straddling.coalesce) ∧
      (allocate 1 : Operation (RegionTable 4) Empty _).run straddling.coalesce =
        (.done none, straddling.coalesce) :=
  ⟨built_straddling, pairwise_apart_straddling, run_allocate_straddling, by decide +kernel,
    by decide +kernel⟩

end EarlyMemory.RegionTable
