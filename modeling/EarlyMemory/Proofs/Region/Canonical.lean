import EarlyMemory.Proofs.Region.Coverage
import Mathlib.Data.List.Pairwise

/-!
# Merged tables

Regions that lie apart stand one after the other in an ordered table, so the table is known
by which regions it holds. Merging does not depend on where an available region was cut. It
leaves no two touching available regions, so a run of available addresses lies in one region
of a merged table.
-/

namespace EarlyMemory

namespace Region

variable {left right current region : Region} {before after rest regions : List Region}

/-! ## Sequences -/

/-- Whether each region ends before the later ones start. -/
def IsSequential (regions : List Region) : Prop :=
  regions.Pairwise fun left right => left.stop.value ≤ right.start.value

theorem IsSequential.of_isOrdered (ordered : IsOrdered regions) (apart : regions.Pairwise Apart)
    (proper : ∀ region ∈ regions, region.IsProper) : IsSequential regions := by
  refine (ordered.and apart).imp_of_mem ?_
  rintro left right _ isLater ⟨before, isApart⟩
  have properLater := proper right isLater
  unfold IsProper at properLater
  exact isApart.resolve_right (by omega)

/-- No region of a sequence but the first of two reaches an address of the other. -/
theorem IsSequential.apart_of_mem (sequential : IsSequential regions) (isLeft : left ∈ regions)
    (isRight : right ∈ regions) (different : left ≠ right) : left.Apart right := by
  have symmetric : Std.Symm Apart := ⟨fun _ _ => Apart.symm⟩
  have apart : regions.Pairwise Apart := sequential.imp .inl
  exact apart.forall isLeft isRight different

/-- Whether no two different regions start at one address. -/
def StartApart (regions : List Region) : Prop :=
  ∀ left ∈ regions, ∀ right ∈ regions, left.start = right.start → left = right

theorem IsSequential.startApart (sequential : IsSequential regions)
    (proper : ∀ region ∈ regions, region.IsProper) : StartApart regions := by
  intro left isLeft right isRight same
  apply Decidable.byContradiction
  intro different
  have apart := sequential.apart_of_mem isLeft isRight different
  have leftProper := proper left isLeft
  have rightProper := proper right isRight
  unfold Apart at apart
  unfold IsProper at leftProper rightProper
  rw [same] at apart leftProper
  omega

theorem IsSequential.isOrdered (sequential : IsSequential regions)
    (proper : ∀ region ∈ regions, region.IsProper) : IsOrdered regions := by
  refine sequential.imp_of_mem ?_
  intro left right isLeft _ before
  have leftProper := proper left isLeft
  unfold IsProper at leftProper
  omega

theorem IsOrdered.eq_of_perm {other : List Region} (ordered : IsOrdered regions)
    (otherOrdered : IsOrdered other) (startApart : StartApart regions)
    (perm : regions.Perm other) : regions = other := by
  refine perm.eq_of_pairwise ?_ ordered otherOrdered
  intro left right isLeft isRight before after
  exact startApart left isLeft right (perm.mem_iff.2 isRight)
    (Address.ext (Nat.le_antisymm before after))

theorem IsSequential.eq_of_perm {other : List Region} (sequential : IsSequential regions)
    (otherSequential : IsSequential other) (proper : ∀ region ∈ regions, region.IsProper)
    (perm : regions.Perm other) : regions = other :=
  (sequential.isOrdered proper).eq_of_perm
    (otherSequential.isOrdered fun region member => proper region (perm.mem_iff.2 member))
    (sequential.startApart proper) perm

theorem IsSequential.joined (sequential : IsSequential (current :: region :: rest)) :
    IsSequential (current.joined region :: rest) :=
  List.pairwise_cons.2 (List.pairwise_cons.1 (List.pairwise_cons.1 sequential).2)

theorem IsSequential.mergeInto (sequential : IsSequential (current :: rest)) :
    IsSequential (current.mergeInto rest) := by
  induction rest generalizing current with
  | nil => exact sequential
  | cons next rest induction =>
      unfold Region.mergeInto
      split
      next => exact induction sequential.joined
      next =>
        have parts := List.pairwise_cons.1 sequential
        exact List.pairwise_cons.2
          ⟨forall_mem_mergeInto (fun _ _ before _ _ => before) parts.1, induction parts.2⟩

theorem IsSequential.mergeTouching (sequential : IsSequential regions) :
    IsSequential (mergeTouching regions) := by
  cases regions with
  | nil => exact sequential
  | cons head tail => exact sequential.mergeInto

/-! ## Cuts -/

theorem touches_joined (touching : left.touches right = true) :
    current.touches (left.joined right) = current.touches left := by
  rcases of_touches touching with ⟨leftAvailable, rightAvailable, _⟩
  simp only [touches, hasKind, leftAvailable, rightAvailable]

theorem mergeInto_of_touches (touching : current.touches region = true) :
    current.mergeInto (region :: rest) = (current.joined region).mergeInto rest :=
  if_pos touching

theorem mergeInto_of_not_touches (apart : current.touches region = false) :
    current.mergeInto (region :: rest) = current :: region.mergeInto rest :=
  if_neg (Bool.eq_false_iff.1 apart)

/-- Two touching regions merge into the same regions as the one they are joined to. -/
theorem mergeInto_cut (touching : left.touches right = true) :
    current.mergeInto (before ++ left :: right :: after) =
      current.mergeInto (before ++ left.joined right :: after) := by
  induction before generalizing current with
  | nil =>
      simp only [List.nil_append]
      cases reaches : current.touches left with
      | true =>
          have stillTouching : (current.joined left).touches right = true := touching
          rw [mergeInto_of_touches reaches, mergeInto_of_touches stillTouching,
            mergeInto_of_touches ((touches_joined touching).trans reaches)]
      | false =>
          rw [mergeInto_of_not_touches reaches, mergeInto_of_touches touching,
            mergeInto_of_not_touches ((touches_joined touching).trans reaches)]
  | cons next before induction =>
      simp only [List.cons_append]
      rw [mergeInto, mergeInto, induction, induction]

theorem mergeTouching_cut (touching : left.touches right = true) :
    mergeTouching (before ++ left :: right :: after) =
      mergeTouching (before ++ left.joined right :: after) := by
  cases before with
  | nil => exact mergeInto_of_touches touching
  | cons head before => exact mergeInto_cut touching

def cutAt (region : Region) (middle : PhysicalAddress) : List Region :=
  [{ region with stop := middle }, { region with start := middle }].filter
    fun part => decide part.IsProper

theorem mergeTouching_cutAt {middle : PhysicalAddress} (proper : region.IsProper)
    (available : region.code = RegionKind.available.code)
    (above : region.start.value ≤ middle.value) (below : middle.value ≤ region.stop.value) :
    mergeTouching (before ++ (region.cutAt middle ++ after)) =
      mergeTouching (before ++ region :: after) := by
  unfold IsProper at proper
  unfold cutAt IsProper
  by_cases atStart : region.start = middle
  · subst atStart
    simp [proper]
  · by_cases atStop : region.stop = middle
    · subst atStop
      simp [proper]
    · have lowerProper : region.start.value < middle.value :=
        Nat.lt_of_le_of_ne above fun same => atStart (Address.ext same)
      have upperProper : middle.value < region.stop.value :=
        Nat.lt_of_le_of_ne below fun same => atStop (Address.ext same.symm)
      have touching : Region.touches { region with stop := middle }
          { region with start := middle } = true := by
        simp [touches, hasKind, available]
      simp only [List.filter_cons, lowerProper, upperProper, decide_true, if_true, List.filter_nil,
        List.cons_append, List.nil_append]
      exact mergeTouching_cut touching

theorem IsSequential.cutAt {middle : PhysicalAddress}
    (sequential : IsSequential (before ++ region :: after))
    (above : region.start.value ≤ middle.value) (below : middle.value ≤ region.stop.value) :
    IsSequential (before ++ (region.cutAt middle ++ after)) := by
  simp only [IsSequential, List.pairwise_append, List.pairwise_cons, List.forall_mem_cons]
    at sequential
  rcases sequential with ⟨earlier, ⟨ahead, later⟩, across⟩
  have parts : (before ++ (region.cutAt middle ++ after)).Sublist
      (before ++ { region with stop := middle } :: { region with start := middle } :: after) :=
    (List.filter_sublist.append (.refl after)).append_left before
  refine List.Pairwise.sublist parts ?_
  simp only [List.pairwise_append, List.pairwise_cons, List.forall_mem_cons]
  refine ⟨earlier, ⟨⟨Nat.le_refl _, ?_⟩, ahead, later⟩, ?_⟩
  · exact fun other isOther => Nat.le_trans below (ahead other isOther)
  · intro other isOther
    have before := across other isOther
    exact ⟨before.1, Nat.le_trans before.1 above, before.2⟩

/-- The nonempty parts of a region below, within and above a range. -/
def cutOut (region : Region) (first last : PhysicalAddress) : List Region :=
  [{ region with stop := first }, { region with start := first, stop := last },
    { region with start := last }].filter fun part => decide part.IsProper

theorem cuts_of_cutOut {first : PhysicalAddress} (proper : first.value < region.stop.value)
    (last : PhysicalAddress) :
    ∃ lower : List Region,
      region.cutAt first = lower ++ [{ region with start := first }] ∧
        region.cutOut first last = lower ++ cutAt { region with start := first } last := by
  refine ⟨[{ region with stop := first }].filter fun part => decide part.IsProper, ?_, ?_⟩
  · have tailProper : IsProper { region with start := first } := proper
    have tail : ([{ region with start := first }].filter fun part => decide part.IsProper) =
        [{ region with start := first }] := by simp [tailProper]
    exact (List.filter_append [{ region with stop := first }] [_]).trans (congrArg _ tail)
  · exact List.filter_append [{ region with stop := first }]
      [{ region with start := first, stop := last }, { region with start := last }]

section

variable {first last : PhysicalAddress} (nonempty : first.value < last.value)
  (above : region.start.value ≤ first.value) (below : last.value ≤ region.stop.value)

include nonempty above below

theorem mergeTouching_cutOut (available : region.code = RegionKind.available.code) :
    mergeTouching (before ++ (region.cutOut first last ++ after)) =
      mergeTouching (before ++ region :: after) := by
  have beyond : first.value < region.stop.value := Nat.lt_of_lt_of_le nonempty below
  rcases cuts_of_cutOut beyond last with ⟨lower, cut, cutTwice⟩
  calc mergeTouching (before ++ (region.cutOut first last ++ after))
    _ = mergeTouching ((before ++ lower) ++ (cutAt { region with start := first } last ++ after)) :=
        by rw [cutTwice, List.append_assoc, List.append_assoc]
    _ = mergeTouching ((before ++ lower) ++ { region with start := first } :: after) :=
        mergeTouching_cutAt beyond available (Nat.le_of_lt nonempty) below
    _ = mergeTouching (before ++ (region.cutAt first ++ after)) := by
        rw [cut, List.append_assoc, List.append_assoc, List.singleton_append]
    _ = mergeTouching (before ++ region :: after) :=
        mergeTouching_cutAt (Nat.lt_of_le_of_lt above beyond) available above (Nat.le_of_lt beyond)

theorem IsSequential.cutOut (sequential : IsSequential (before ++ region :: after)) :
    IsSequential (before ++ (region.cutOut first last ++ after)) := by
  have beyond : first.value < region.stop.value := Nat.lt_of_lt_of_le nonempty below
  rcases cuts_of_cutOut beyond last with ⟨lower, cut, cutTwice⟩
  have once := sequential.cutAt above (Nat.le_of_lt beyond)
  rw [cut, List.append_assoc, List.singleton_append, ← List.append_assoc] at once
  have twice := once.cutAt (Nat.le_of_lt nonempty) below
  rwa [cutTwice, List.append_assoc, ← List.append_assoc before]

end

theorem cutOut_perm (first last : PhysicalAddress)
    (proper : ∀ other ∈ before ++ after, other.IsProper) :
    (before ++ (region.cutOut first last ++ after)).Perm
      (({ region with start := first, stop := last } :: { region with stop := first } ::
        { region with start := last } :: (before ++ after)).filter fun part =>
          decide part.IsProper) := by
  have kept : ∀ others : List Region, (∀ other ∈ others, other ∈ before ++ after) →
      (others.filter fun part => decide part.IsProper) = others := fun others among =>
    List.filter_eq_self.2 fun other isOther => decide_eq_true (proper other (among other isOther))
  have filtered : before ++ (region.cutOut first last ++ after) =
      (before ++ ([{ region with stop := first }, { region with start := first, stop := last },
        { region with start := last }] ++ after)).filter fun part => decide part.IsProper := by
    rw [List.filter_append, List.filter_append, kept before fun _ => List.mem_append_left _,
      kept after fun _ => List.mem_append_right _]
    rfl
  rw [filtered]
  exact ((List.perm_append_comm_assoc ..).trans (.swap ..)).filter _

/-! ## What is merged -/

/-- Whether no available region ends where another one starts. -/
def IsMerged (regions : List Region) : Prop :=
  ∀ left ∈ regions, ∀ right ∈ regions, left.touches right = false

theorem not_touches_of_ne (different : left.stop.value ≠ right.start.value) :
    left.touches right = false := by
  rw [Bool.eq_false_iff]
  intro touching
  exact different (congrArg Address.value (of_touches touching).2.2)

theorem IsProper.not_touches_self (proper : region.IsProper) : region.touches region = false :=
  not_touches_of_ne (Nat.ne_of_gt proper)

/-- What comes later in a sequence starts behind the current region, and no region that
touches it is joined to one that does not. -/
theorem IsSequential.not_touches_mergeInto
    (proper : ∀ other ∈ current :: region :: rest, other.IsProper)
    (sequential : IsSequential (current :: region :: rest))
    (apart : current.touches region = false) :
    ∀ other ∈ region.mergeInto rest,
      current.touches other = false ∧ other.touches current = false := by
  simp only [List.forall_mem_cons] at proper
  rcases proper with ⟨first, second, others⟩
  have parts := List.pairwise_cons.1 sequential
  have behind : current.stop.value ≤ region.start.value := parts.1 region List.mem_cons_self
  unfold IsProper at first second
  suffices later : ∀ other ∈ region.mergeInto rest, other.IsProper ∧
      current.stop.value ≤ other.start.value ∧ current.touches other = false by
    intro other isOther
    rcases later other isOther with ⟨isProper, beyond, isApart⟩
    unfold IsProper at isProper
    exact ⟨isApart, not_touches_of_ne (by omega)⟩
  refine forall_mem_mergeInto ?_ (List.forall_mem_cons.2 ⟨⟨second, behind, apart⟩, ?_⟩)
  · rintro left right ⟨leftProper, beyond, isApart⟩ ⟨rightProper, _⟩ touching
    exact ⟨leftProper.joined rightProper touching, beyond, (touches_joined touching).trans isApart⟩
  · intro other isOther
    have beyond := (List.pairwise_cons.1 parts.2).1 other isOther
    exact ⟨others other isOther, by omega, not_touches_of_ne (by omega)⟩

theorem isMerged_mergeInto (proper : ∀ region ∈ current :: rest, region.IsProper)
    (sequential : IsSequential (current :: rest)) : IsMerged (current.mergeInto rest) := by
  induction rest generalizing current with
  | nil =>
      have itself := (proper current List.mem_cons_self).not_touches_self
      simpa only [IsMerged, mergeInto, List.mem_singleton, forall_eq] using itself
  | cons next rest induction =>
      have parts := List.forall_mem_cons.1 proper
      have second := List.forall_mem_cons.1 parts.2
      cases touching : current.touches next with
      | true =>
          rw [mergeInto_of_touches touching]
          exact induction (List.forall_mem_cons.2 ⟨parts.1.joined second.1 touching, second.2⟩)
            sequential.joined
      | false =>
          have later := sequential.not_touches_mergeInto proper touching
          have merged := induction parts.2 (List.pairwise_cons.1 sequential).2
          rw [mergeInto_of_not_touches touching]
          simp only [IsMerged, List.forall_mem_cons]
          exact ⟨⟨parts.1.not_touches_self, fun other isOther => (later other isOther).1⟩,
            fun other isOther => ⟨(later other isOther).2, merged other isOther⟩⟩

theorem isMerged_mergeTouching (proper : ∀ region ∈ regions, region.IsProper)
    (sequential : IsSequential regions) : IsMerged (mergeTouching regions) := by
  cases regions with
  | nil => exact nofun
  | cons head tail => exact isMerged_mergeInto proper sequential

theorem IsMerged.eq_of_covers_succ {address : Nat} (merged : IsMerged regions)
    (sequential : IsSequential regions) (isLeft : left ∈ regions) (isRight : right ∈ regions)
    (leftAvailable : left.code = RegionKind.available.code)
    (rightAvailable : right.code = RegionKind.available.code) (leftCovers : left.Covers address)
    (rightCovers : right.Covers (address + 1)) : left = right := by
  apply Decidable.byContradiction
  intro different
  have apart := sequential.apart_of_mem isLeft isRight different
  unfold Apart at apart
  unfold Covers at leftCovers rightCovers
  have meet : left.stop = right.start := Address.ext (by omega)
  have touching : left.touches right = true := by
    simp [touches, hasKind, leftAvailable, rightAvailable, meet]
  rw [merged left isLeft right isRight] at touching
  cases touching

end Region

namespace RegionTable

variable {capacity : Nat} {sorting : Region.Sorting} {table : RegionTable capacity sorting}
  {address first last : Nat}

/-- Where what is merged starts apart, sorting has no choice. -/
theorem regions_coalesce (proper : ∀ region ∈ table.regions, region.IsProper)
    (ordered : Region.IsOrdered table.regions)
    (startApart : Region.StartApart (Region.mergeTouching table.regions)) :
    table.coalesce.regions = Region.mergeTouching table.regions :=
  ((Region.isOrdered_mergeTouching ordered).eq_of_perm (isOrdered_arrange _) startApart
    (coalesce_perm proper).symm).symm

theorem regions_coalesce_of_isSequential (proper : ∀ region ∈ table.regions, region.IsProper)
    (sequential : Region.IsSequential table.regions) :
    table.coalesce.regions = Region.mergeTouching table.regions :=
  regions_coalesce proper (sequential.isOrdered proper) (sequential.mergeTouching.startApart
    (Region.forall_mem_mergeTouching (fun _ _ => .joined) proper))

def IsAvailable (table : RegionTable capacity sorting) (address : Nat) : Prop :=
  ∃ region ∈ table.regions, region.code = RegionKind.available.code ∧ region.Covers address

theorem isAvailable_iff_coverage_pos :
    table.IsAvailable address ↔ 0 < table.coverage RegionKind.available.code address := by
  simp only [IsAvailable, coverage, List.countP_pos_iff, decide_eq_true_iff]

theorem isAvailable_coalesce_iff (proper : ∀ region ∈ table.regions, region.IsProper) :
    table.coalesce.IsAvailable address ↔ table.IsAvailable address := by
  rw [isAvailable_iff_coverage_pos, isAvailable_iff_coverage_pos, ← total_restrict_holding,
    total_coalesce proper, total_restrict_holding]

/-- A run of available addresses lies in one region of a merged table. -/
theorem exists_region_of_isMerged (sequential : Region.IsSequential table.regions)
    (merged : Region.IsMerged table.regions) (nonempty : first < last)
    (run : ∀ address, first ≤ address → address < last → table.IsAvailable address) :
    ∃ region ∈ table.regions, region.code = RegionKind.available.code ∧
      region.Covers first ∧ last ≤ region.stop.value := by
  rcases run first (Nat.le_refl _) nonempty with ⟨region, member, available, covers⟩
  refine ⟨region, member, available, covers, Nat.le_of_not_lt fun short => ?_⟩
  -- Otherwise the region that holds the address where this one ends would hold its last one.
  rcases run region.stop.value (Nat.le_of_lt covers.2) short with
    ⟨next, isNext, nextAvailable, nextCovers⟩
  unfold Region.Covers at covers
  have final : region.Covers (region.stop.value - 1) := ⟨by omega, by omega⟩
  have follows : region.stop.value = region.stop.value - 1 + 1 := by omega
  rw [follows] at nextCovers
  have same := merged.eq_of_covers_succ sequential member isNext available nextAvailable final
    nextCovers
  subst same
  exact absurd nextCovers.2 (by omega)

theorem Built.isSequential (built : table.Built) (apart : table.regions.Pairwise Region.Apart) :
    Region.IsSequential table.regions :=
  .of_isOrdered built.isArranged.ordered apart fun region member =>
    (built.isWellFormed region member).1

end RegionTable

end EarlyMemory
