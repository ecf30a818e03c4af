import EarlyMemory.Proofs.Region.Canonical
import Mathlib.Data.List.Chain

/-!
# Merging again

Merging looks at neighbours only, and then the regions are sorted. If the sort puts two that
touch next to each other, merging again merges them too. Only regions that start at one address
can be moved past each other, so what is left of a table after merging once settles whether
merging again may change anything. The orders that a sort may choose from are given by weights
that refine the starts.
-/

namespace EarlyMemory

namespace Region

variable {left right previous current region : Region} {rest regions merged : List Region}

/-! ## Gaps -/

def HasGaps (regions : List Region) : Prop :=
  regions.IsChain fun left right => left.touches right = false

theorem HasGaps.mergeInto (gaps : HasGaps (current :: rest)) :
    current.mergeInto rest = current :: rest := by
  induction rest generalizing current with
  | nil => rfl
  | cons next rest induction =>
      rcases List.isChain_cons_cons.1 gaps with ⟨apart, further⟩
      rw [mergeInto_of_not_touches apart, induction further]

theorem HasGaps.mergeTouching (gaps : HasGaps regions) : mergeTouching regions = regions := by
  cases regions with
  | nil => rfl
  | cons head tail => exact gaps.mergeInto

theorem HasGaps.foldInto (gaps : HasGaps (current :: rest)) :
    current.foldInto rest = current :: rest := by
  induction rest generalizing current with
  | nil => rfl
  | cons next rest induction =>
      rcases List.isChain_cons_cons.1 gaps with ⟨apart, further⟩
      rw [Region.foldInto, apart, Bool.and_false, if_neg Bool.false_ne_true, induction further]

theorem HasGaps.foldTouching (gaps : HasGaps regions) : foldTouching regions = regions := by
  cases regions with
  | nil => rfl
  | cons head tail => exact gaps.foldInto

/-- A region that does not touch the next one does not touch what that one is joined to. -/
theorem hasGaps_cons_mergeInto (apart : previous.touches current = false) :
    HasGaps (previous :: current.mergeInto rest) := by
  induction rest generalizing previous current with
  | nil => exact List.isChain_cons_cons.2 ⟨apart, .singleton _⟩
  | cons next rest induction =>
      cases touching : current.touches next with
      | true =>
          rw [mergeInto_of_touches touching]
          exact induction ((touches_joined touching).trans apart)
      | false =>
          rw [mergeInto_of_not_touches touching]
          exact List.isChain_cons_cons.2 ⟨apart, induction touching⟩

theorem hasGaps_mergeInto : HasGaps (current.mergeInto rest) := by
  induction rest generalizing current with
  | nil => exact .singleton _
  | cons next rest induction =>
      cases touching : current.touches next with
      | true =>
          rw [mergeInto_of_touches touching]
          exact induction
      | false =>
          rw [mergeInto_of_not_touches touching]
          exact hasGaps_cons_mergeInto touching

theorem hasGaps_mergeTouching (regions : List Region) : HasGaps (mergeTouching regions) := by
  cases regions with
  | nil => exact .nil
  | cons head tail => exact hasGaps_mergeInto

theorem hasGaps_of_length_mergeInto (kept : (current.mergeInto rest).length = rest.length + 1) :
    HasGaps (current :: rest) := by
  induction rest generalizing current with
  | nil => exact .singleton _
  | cons next rest induction =>
      cases touching : current.touches next with
      | true =>
          have fewer : ((current.joined next).mergeInto rest).length ≤ rest.length + 1 :=
            length_mergeInto_le
          rw [mergeInto_of_touches touching, List.length_cons] at kept
          omega
      | false =>
          rw [mergeInto_of_not_touches touching, List.length_cons, List.length_cons] at kept
          exact List.isChain_cons_cons.2 ⟨touching, induction (Nat.succ.inj kept)⟩

theorem hasGaps_of_length_mergeTouching (kept : (mergeTouching regions).length = regions.length) :
    HasGaps regions := by
  cases regions with
  | nil => exact .nil
  | cons head tail => exact hasGaps_of_length_mergeInto kept

/-! ## Orders of equal starts -/

def sortBy (weight : Region → Nat) (regions : List Region) : List Region :=
  regions.mergeSort fun left right => weight left ≤ weight right

def IsWeighed (weight : Region → Nat) (regions : List Region) : Prop :=
  regions.Pairwise fun left right => weight left ≤ weight right

variable {weight : Region → Nat}

theorem sortBy_perm (weight : Region → Nat) (regions : List Region) :
    (sortBy weight regions).Perm regions :=
  List.mergeSort_perm ..

theorem isWeighed_sortBy (weight : Region → Nat) (regions : List Region) :
    IsWeighed weight (sortBy weight regions) := by
  refine (List.pairwise_mergeSort ?_ ?_ regions).imp of_decide_eq_true
  · simp only [decide_eq_true_eq]
    exact fun _ _ _ => Nat.le_trans
  · simp only [Bool.or_eq_true, decide_eq_true_eq]
    exact fun _ _ => Nat.le_total ..

/-- Whether a weight tells regions apart at least as well as their ranks do. -/
def Refines (weight : Region → Nat) : Prop :=
  ∀ left right : Region, weight left ≤ weight right → left.rank ≤ right.rank

theorem IsWeighed.isRanked (weighed : IsWeighed weight regions) (refines : Refines weight) :
    IsRanked regions :=
  weighed.imp fun {left right} before => refines left right before

/-- Among regions of one rank, `first` comes before the others and `last` behind them. -/
def tilt (first last : Region) (region : Region) : Nat :=
  3 * region.rank + if region = first then 0 else if region = last then 2 else 1

variable {first last : Region}

theorem tilt_bounds (first last region : Region) :
    3 * region.rank ≤ tilt first last region ∧ tilt first last region ≤ 3 * region.rank + 2 := by
  unfold tilt
  split
  · omega
  · split <;> omega

theorem refines_tilt (first last : Region) : Refines (tilt first last) := by
  intro left right before
  have above := (tilt_bounds first last left).1
  have below := (tilt_bounds first last right).2
  omega

/-- Sorts by rank, and regions of one rank as they are tilted. -/
def Sorting.tilted (first last : Region) : Sorting where
  sort := sortBy (tilt first last)
  perm := sortBy_perm _
  ordered regions := (isWeighed_sortBy _ regions).isRanked (refines_tilt _ _)

theorem eq_first_of_tilt_le (lighter : tilt first last region ≤ tilt first last first)
    (same : region.rank = first.rank) : region = first := by
  unfold tilt at lighter
  rw [if_pos rfl, same] at lighter
  apply Decidable.byContradiction
  intro different
  rw [if_neg different] at lighter
  split at lighter <;> omega

theorem eq_last_of_tilt_le (different : last ≠ first)
    (heavier : tilt first last last ≤ tilt first last region) (same : region.rank = last.rank) :
    region = last := by
  unfold tilt at heavier
  rw [if_neg different, if_pos rfl, same] at heavier
  apply Decidable.byContradiction
  intro other
  rw [if_neg other] at heavier
  split at heavier <;> omega

/-- Only copies of two regions come between them if they lean to each other and no region starts
between them. -/
theorem eq_of_tilt_le (different : left ≠ right) (leftProper : left.IsProper)
    (rightProper : right.IsProper) (proper : region.IsProper)
    (outside : ¬ (left.start.value < region.start.value ∧ region.start.value < right.start.value))
    (above : tilt right left left ≤ tilt right left region)
    (below : tilt right left region ≤ tilt right left right) : region = left ∨ region = right := by
  have behind := refines_tilt right left left region above
  have ahead := refines_tilt right left region right below
  rw [rank_of_isProper proper, rank_of_isProper leftProper] at behind
  rw [rank_of_isProper proper, rank_of_isProper rightProper] at ahead
  by_cases atLeft : region.start.value = left.start.value
  · refine .inl (eq_last_of_tilt_le different above ?_)
    rw [rank_of_isProper proper, rank_of_isProper leftProper, atLeft]
  · refine .inr (eq_first_of_tilt_le below ?_)
    rw [rank_of_isProper proper, rank_of_isProper rightProper]
    omega

theorem not_hasGaps_of_close (weighed : IsWeighed weight regions) (isLeft : left ∈ regions)
    (isRight : right ∈ regions) (before : weight left < weight right)
    (close : ∀ region ∈ regions, weight left ≤ weight region → weight region ≤ weight right →
      region = left ∨ region = right)
    (touching : left.touches right = true) : ¬ HasGaps regions := by
  intro gaps
  induction regions with
  | nil => cases isLeft
  | cons head tail induction =>
      have later := List.pairwise_cons.1 weighed
      have differ : left ≠ right := fun same => Nat.ne_of_lt before (congrArg weight same)
      by_cases further : left ∈ tail
      · refine induction later.2 further ?_ (fun region member => ?_)
          (List.isChain_of_isChain_cons gaps)
        · rcases List.mem_cons.1 isRight with rfl | isTail
          · exact absurd (later.1 left further) (Nat.not_le_of_lt before)
          · exact isTail
        · exact close region (List.mem_cons_of_mem _ member)
      · have isHead := (List.mem_cons.1 isLeft).resolve_right further
        have isTail := (List.mem_cons.1 isRight).resolve_left fun same =>
          differ (isHead.trans same.symm)
        subst isHead
        cases tail with
        | nil => cases isTail
        | cons next rest =>
            have bound : weight next ≤ weight right := by
              rcases List.mem_cons.1 isTail with rfl | isRest
              · exact Nat.le_refl _
              · exact (List.pairwise_cons.1 later.2).1 right isRest
            rcases close next (by simp) (later.1 next List.mem_cons_self) bound with rfl | rfl
            · exact further List.mem_cons_self
            · rw [(List.isChain_cons_cons.1 gaps).1] at touching
              cases touching

theorem tilt_lt_tilt (different : first ≠ last) (same : first.rank = last.rank) :
    tilt first last first < tilt first last last := by
  simp only [tilt, if_true, if_neg different.symm, same]
  omega

/-- No list can lean to two different regions of one rank. -/
theorem not_isWeighed_tilt (different : left ≠ right) (same : left.rank = right.rank)
    (isLeft : left ∈ regions) (isRight : right ∈ regions)
    (forward : IsWeighed (tilt left right) regions) :
    ¬ IsWeighed (tilt right left) regions := by
  intro backward
  have symmetric : Std.Symm fun first second : Region =>
      ¬ (first = left ∧ second = right) ∧ ¬ (first = right ∧ second = left) :=
    ⟨fun _ _ ⟨direct, turned⟩ => ⟨fun pair => turned pair.symm, fun pair => direct pair.symm⟩⟩
  have never : regions.Pairwise fun first second =>
      ¬ (first = left ∧ second = right) ∧ ¬ (first = right ∧ second = left) := by
    refine (List.Pairwise.and forward backward).imp ?_
    rintro first second ⟨ahead, behind⟩
    constructor
    · rintro ⟨rfl, rfl⟩
      exact Nat.not_lt_of_le behind (tilt_lt_tilt different.symm same.symm)
    · rintro ⟨rfl, rfl⟩
      exact Nat.not_lt_of_le ahead (tilt_lt_tilt different same)
  exact (never.forall isLeft isRight different).1 ⟨rfl, rfl⟩

/-- Sorts regions so that `left` leans to the front, or `right` where they are sorted like that. -/
def sortTurning (left right : Region) (regions : List Region) : List Region :=
  if regions = sortBy (tilt left right) regions then
    sortBy (tilt right left) regions
  else
    sortBy (tilt left right) regions

def Sorting.turning (left right : Region) : Sorting where
  sort := sortTurning left right
  perm regions := by
    unfold sortTurning
    split <;> exact sortBy_perm ..
  ordered regions := by
    unfold sortTurning
    split <;> exact (isWeighed_sortBy _ regions).isRanked (refines_tilt _ _)

theorem sortTurning_ne (different : left ≠ right) (same : left.rank = right.rank)
    (isLeft : left ∈ regions) (isRight : right ∈ regions) :
    sortTurning left right regions ≠ regions := by
  unfold sortTurning
  split
  next inOrder =>
    intro turned
    exact not_isWeighed_tilt different same isLeft isRight (inOrder ▸ isWeighed_sortBy ..)
      (turned ▸ isWeighed_sortBy ..)
  next changes => exact fun kept => changes kept.symm

/-- Whether another region starts between any two that touch. -/
def IsSettled (merged : List Region) : Prop :=
  ∀ left ∈ merged, ∀ right ∈ merged, left.touches right = true →
    ∃ between ∈ merged, left.start.value < between.start.value ∧
      between.start.value < right.start.value

theorem IsSettled.hasGaps (settled : IsSettled merged) (perm : regions.Perm merged)
    (ordered : IsOrdered regions) : HasGaps regions := by
  apply List.isChain_iff_forall_rel_of_append_cons_cons.2
  rintro left right earlier later rfl
  rw [Bool.eq_false_iff]
  intro touching
  rcases settled left (perm.mem_iff.1 (by simp)) right (perm.mem_iff.1 (by simp)) touching with
    ⟨between, member, above, below⟩
  rcases List.pairwise_append.1 ordered with ⟨_, inOrder, across⟩
  rcases List.pairwise_cons.1 inOrder with ⟨_, further⟩
  simp only [← perm.mem_iff, List.mem_append, List.mem_cons] at member
  rcases member with isEarlier | rfl | rfl | isLater
  · have before := across between isEarlier left List.mem_cons_self
    omega
  · omega
  · omega
  · have behind := (List.pairwise_cons.1 further).1 between isLater
    omega

end Region

namespace RegionTable

variable {capacity : Nat} {sorting : Region.Sorting} {table : RegionTable capacity sorting}

theorem isProper_coalesce (proper : ∀ region ∈ table.regions, region.IsProper) :
    ∀ region ∈ table.coalesce.regions, region.IsProper := fun region member =>
  Region.forall_mem_mergeTouching (fun _ _ => .joined) proper region
    ((coalesce_perm proper).mem_iff.1 member)

theorem coalesce_again_perm_iff (proper : ∀ region ∈ table.regions, region.IsProper) :
    table.coalesce.coalesce.regions.Perm table.coalesce.regions ↔
      Region.HasGaps table.coalesce.regions := by
  have again := coalesce_perm (isProper_coalesce proper)
  constructor
  · exact fun same => Region.hasGaps_of_length_mergeTouching (again.symm.trans same).length_eq
  · intro gaps
    rwa [gaps.mergeTouching] at again

theorem coalesce_again_perm_of_isSettled (proper : ∀ region ∈ table.regions, region.IsProper)
    (settled : Region.IsSettled (Region.mergeTouching table.regions)) :
    table.coalesce.coalesce.regions.Perm table.coalesce.regions :=
  (coalesce_again_perm_iff proper).2
    (settled.hasGaps (coalesce_perm proper) (isOrdered_arrange _))

theorem coalesce_again_eq_of_startApart (proper : ∀ region ∈ table.regions, region.IsProper)
    (ordered : Region.IsOrdered table.regions)
    (startApart : Region.StartApart (Region.mergeTouching table.regions)) :
    table.coalesce.coalesce = table.coalesce := by
  have merged := regions_coalesce proper ordered startApart
  have gaps : Region.HasGaps table.coalesce.regions := by
    rw [merged]
    exact Region.hasGaps_mergeTouching _
  apply RegionTable.ext
  rw [regions_coalesce (isProper_coalesce proper) (isOrdered_arrange _), gaps.mergeTouching]
  rwa [gaps.mergeTouching, merged]

theorem regions_coalesce_of_hasGaps (proper : ∀ region ∈ table.regions, region.IsProper)
    (gaps : Region.HasGaps table.regions) :
    table.coalesce.regions = sorting.sort table.regions := by
  rw [coalesce, regions_arrange, gaps.foldTouching]
  refine List.filter_eq_self.2 fun region member => decide_eq_true (proper region ?_)
  exact (sorting.perm _).mem_iff.1 member

theorem coalesce_again_eq_iff (proper : ∀ region ∈ table.regions, region.IsProper) :
    table.coalesce.coalesce = table.coalesce ↔
      Region.HasGaps table.coalesce.regions ∧
        sorting.sort table.coalesce.regions = table.coalesce.regions := by
  constructor
  · intro again
    have gaps : Region.HasGaps table.coalesce.regions := by
      apply (coalesce_again_perm_iff proper).1
      rw [again]
    refine ⟨gaps, ?_⟩
    rw [← regions_coalesce_of_hasGaps (isProper_coalesce proper) gaps, again]
  · rintro ⟨gaps, inOrder⟩
    apply RegionTable.ext
    rw [regions_coalesce_of_hasGaps (isProper_coalesce proper) gaps, inOrder]

/-! ## Sorts that make a difference -/

variable {left right : Region}

/-- A sort that puts one region last and the other first among equals makes them neighbours. -/
theorem not_hasGaps_coalesce_tilted (table : RegionTable capacity (.tilted right left))
    (proper : ∀ region ∈ table.regions, region.IsProper)
    (isLeft : left ∈ Region.mergeTouching table.regions)
    (isRight : right ∈ Region.mergeTouching table.regions) (touching : left.touches right = true)
    (close : ¬ ∃ between ∈ Region.mergeTouching table.regions,
      left.start.value < between.start.value ∧ between.start.value < right.start.value) :
    ¬ Region.HasGaps table.coalesce.regions := by
  have perm := coalesce_perm proper
  have properMerged := Region.forall_mem_mergeTouching (fun _ _ => .joined) proper
  have leftProper := properMerged left isLeft
  have rightProper := properMerged right isRight
  have ascends : left.start.value < right.start.value := by
    rw [← (Region.of_touches touching).2.2]
    exact leftProper
  have different : left ≠ right := fun equal => by
    rw [equal] at ascends
    exact Nat.lt_irrefl _ ascends
  have before : Region.tilt right left left < Region.tilt right left right := by
    have leftBound := (Region.tilt_bounds right left left).2
    have rightBound := (Region.tilt_bounds right left right).1
    rw [Region.rank_of_isProper leftProper] at leftBound
    rw [Region.rank_of_isProper rightProper] at rightBound
    omega
  have weighed : Region.IsWeighed (Region.tilt right left) table.coalesce.regions := by
    rw [coalesce, regions_arrange]
    exact (Region.isWeighed_sortBy _ _).filter _
  refine Region.not_hasGaps_of_close weighed (perm.mem_iff.2 isLeft) (perm.mem_iff.2 isRight)
    before ?_ touching
  intro region member
  have isMerged := perm.mem_iff.1 member
  exact Region.eq_of_tilt_le different leftProper rightProper (properMerged region isMerged)
    fun between => close ⟨region, isMerged, between⟩

theorem coalesce_again_ne_of_turning (table : RegionTable capacity (.turning left right))
    (proper : ∀ region ∈ table.regions, region.IsProper)
    (isLeft : left ∈ Region.mergeTouching table.regions)
    (isRight : right ∈ Region.mergeTouching table.regions) (different : left ≠ right)
    (same : left.start = right.start) : table.coalesce.coalesce ≠ table.coalesce := by
  intro again
  have perm := coalesce_perm proper
  have properMerged := isProper_coalesce proper
  have isLeft := perm.mem_iff.2 isLeft
  have isRight := perm.mem_iff.2 isRight
  refine Region.sortTurning_ne different ?_ isLeft isRight
    ((coalesce_again_eq_iff proper).1 again).2
  rw [Region.rank_of_isProper (properMerged left isLeft),
    Region.rank_of_isProper (properMerged right isRight), same]

def sortedBy (table : RegionTable capacity sorting) (other : Region.Sorting) :
    RegionTable capacity other :=
  ⟨table.regions⟩

theorem isProper_sortedBy (table : RegionTable capacity sorting) {other : Region.Sorting}
    (proper : ∀ region ∈ table.regions, region.IsProper) :
    ∀ region ∈ (table.sortedBy other).regions, region.IsProper :=
  proper

theorem coalesce_again_perm_iff_isSettled (proper : ∀ region ∈ table.regions, region.IsProper) :
    (∀ other, (table.sortedBy other).coalesce.coalesce.regions.Perm
        (table.sortedBy other).coalesce.regions) ↔
      Region.IsSettled (Region.mergeTouching table.regions) := by
  constructor
  · intro same left isLeft right isRight touching
    apply Classical.byContradiction
    intro close
    have gaps := (coalesce_again_perm_iff (table.isProper_sortedBy proper)).1
      (same (.tilted right left))
    exact not_hasGaps_coalesce_tilted (table.sortedBy _) proper isLeft isRight touching close gaps
  · exact fun settled other => coalesce_again_perm_of_isSettled proper settled

theorem coalesce_again_eq_iff_startApart (proper : ∀ region ∈ table.regions, region.IsProper)
    (ordered : Region.IsOrdered table.regions) :
    (∀ other, (table.sortedBy other).coalesce.coalesce = (table.sortedBy other).coalesce) ↔
      Region.StartApart (Region.mergeTouching table.regions) := by
  constructor
  · intro same left isLeft right isRight sameStart
    apply Classical.byContradiction
    intro different
    exact coalesce_again_ne_of_turning (table.sortedBy _) proper isLeft isRight different sameStart
      (same (.turning left right))
  · exact fun startApart other => coalesce_again_eq_of_startApart proper ordered startApart

end RegionTable

end EarlyMemory
