import EarlyMemory.Region.Basic

/-!
# Sorting regions

A table is sorted by start, with what has no length behind everything else. Nothing is said
about the order of regions that start at the same address: `Region.Sorting` asks no more of a
sort than what a table needs, and what is proved of tables holds of every such sort.

The sort that runs inserts the regions of a short table one by one. Of a longer one it keeps an
order that is already there, and otherwise splits the regions at a pivot. Splitting moves
regions past each other, so that equal starts may change places.
-/

namespace EarlyMemory

namespace Region

/-- Where a region stands in a table. -/
def rank (region : Region) : Nat :=
  if region.isEmpty then 1 <<< 64 + region.start.value else region.start.value

/-- A sort by rank. The order of regions of one rank is its own matter. -/
structure Sorting where
  sort : List Region → List Region
  perm (regions : List Region) : (sort regions).Perm regions
  ordered (regions : List Region) :
    (sort regions).Pairwise fun left right => left.rank ≤ right.rank

variable {region pivot : Region} {test : Region → Bool} {regions others : List Region}

/-! ## Insertion -/

/-- Places a region before the first one that does not rank below it. -/
def insert (region : Region) : List Region → List Region
  | [] => [region]
  | head :: tail =>
      if region.rank ≤ head.rank then
        region :: head :: tail
      else
        head :: region.insert tail

def insertAll : List Region → List Region
  | [] => []
  | head :: tail => head.insert (insertAll tail)

theorem insert_perm (region : Region) (regions : List Region) :
    (region.insert regions).Perm (region :: regions) := by
  induction regions with
  | nil => exact .refl _
  | cons head tail induction =>
      unfold insert
      split
      · exact .refl _
      · exact (induction.cons head).trans (.swap ..)

theorem insertAll_perm (regions : List Region) : (insertAll regions).Perm regions := by
  induction regions with
  | nil => exact .refl _
  | cons head tail induction => exact (insert_perm head _).trans (induction.cons head)

def IsRanked (regions : List Region) : Prop :=
  regions.Pairwise fun left right => left.rank ≤ right.rank

theorem isRanked_insert (region : Region) (ranked : IsRanked regions) :
    IsRanked (region.insert regions) := by
  induction regions with
  | nil => exact List.pairwise_singleton ..
  | cons head tail induction =>
      have later := List.pairwise_cons.1 ranked
      unfold insert
      split
      next before =>
        apply List.pairwise_cons.2 ⟨_, ranked⟩
        simp only [List.mem_cons, forall_eq_or_imp]
        exact ⟨before, fun other isOther => Nat.le_trans before (later.1 other isOther)⟩
      next after =>
        apply List.pairwise_cons.2 ⟨_, induction later.2⟩
        simp only [(insert_perm region tail).mem_iff, List.mem_cons, forall_eq_or_imp]
        exact ⟨by omega, later.1⟩

theorem isRanked_insertAll (regions : List Region) : IsRanked (insertAll regions) := by
  induction regions with
  | nil => exact .nil
  | cons head tail induction => exact isRanked_insert head induction

/-! ## Splitting -/

structure Parts where
  lower : List Region
  upper : List Region

/-- The first region goes last. -/
def turn : List Region → List Region
  | [] => []
  | head :: tail => tail ++ [head]

theorem turn_perm (regions : List Region) : (turn regions).Perm regions := by
  cases regions with
  | nil => exact .refl _
  | cons head tail => exact List.perm_append_comm

/-- The next region takes the place of the first upper one, which moves behind the others. -/
def Parts.take (test : Region → Bool) (parts : Parts) (region : Region) : Parts :=
  if test region then
    ⟨parts.lower ++ [region], turn parts.upper⟩
  else
    ⟨parts.lower, region :: turn parts.upper⟩

/-- The place of the first region is kept free, so that one is taken last. -/
def separate (test : Region → Bool) (regions : List Region) : Parts :=
  (turn regions).foldl (Parts.take test) ⟨[], []⟩

structure Parts.Splits (parts : Parts) (test : Region → Bool) (regions : List Region) : Prop where
  perm : (parts.lower ++ parts.upper).Perm regions
  passes : ∀ region ∈ parts.lower, test region = true
  fails : ∀ region ∈ parts.upper, test region = false

theorem Parts.Splits.of_mem_lower {parts : Parts} (splits : parts.Splits test regions) :
    ∀ region ∈ parts.lower, region ∈ regions ∧ test region = true := fun region member =>
  ⟨splits.perm.mem_iff.1 (List.mem_append_left _ member), splits.passes region member⟩

theorem Parts.Splits.of_mem_upper {parts : Parts} (splits : parts.Splits test regions) :
    ∀ region ∈ parts.upper, region ∈ regions ∧ test region = false := fun region member =>
  ⟨splits.perm.mem_iff.1 (List.mem_append_right _ member), splits.fails region member⟩

theorem Parts.Splits.take {parts : Parts} (splits : parts.Splits test regions) (region : Region) :
    (parts.take test region).Splits test (region :: regions) := by
  have turned := turn_perm parts.upper
  unfold Parts.take
  split
  next passes =>
    refine ⟨?_, ?_, fun other isOther => splits.fails other (turned.mem_iff.1 isOther)⟩
    · rw [List.append_assoc, List.singleton_append]
      exact List.perm_middle.trans (((turned.append_left _).trans splits.perm).cons region)
    · simp only [List.mem_append, List.mem_singleton]
      rintro other (isOther | rfl)
      · exact splits.passes other isOther
      · exact passes
  next fails =>
    refine ⟨?_, splits.passes, List.forall_mem_cons.2 ⟨Bool.eq_false_iff.2 fails, ?_⟩⟩
    · exact List.perm_middle.trans (((turned.append_left _).trans splits.perm).cons region)
    · exact fun other isOther => splits.fails other (turned.mem_iff.1 isOther)

theorem Parts.Splits.foldl {parts : Parts} (splits : parts.Splits test regions)
    (others : List Region) :
    (others.foldl (Parts.take test) parts).Splits test (others ++ regions) := by
  induction others generalizing parts regions with
  | nil => exact splits
  | cons head tail induction =>
      have further := induction (splits.take head)
      exact ⟨further.perm.trans List.perm_middle, further.passes, further.fails⟩

theorem separate_splits (test : Region → Bool) (regions : List Region) :
    (separate test regions).Splits test regions := by
  have start : Parts.Splits ⟨[], []⟩ test [] := ⟨.refl _, by simp, by simp⟩
  have splits := start.foldl (turn regions)
  rw [List.append_nil] at splits
  exact ⟨splits.perm.trans (turn_perm regions), splits.passes, splits.fails⟩

/-- The last lower region makes room for the pivot. -/
def bringLast (regions : List Region) : List Region :=
  match regions.getLast? with
  | none => []
  | some last => last :: regions.dropLast

theorem bringLast_perm (regions : List Region) : (bringLast regions).Perm regions := by
  unfold bringLast
  cases found : regions.getLast? with
  | none =>
      rw [List.getLast?_eq_none_iff.1 found]
  | some last =>
      rcases List.getLast?_eq_some_iff.1 found with ⟨front, rfl⟩
      rw [List.dropLast_concat]
      exact (List.perm_append_singleton last front).symm

/-! ## Pivots -/

def medianOf (rankAt : Nat → Nat) (first second third : Nat) : Nat :=
  let below : Bool := rankAt first < rankAt second
  let lowest : Bool := rankAt first < rankAt third
  if below == lowest then
    if (decide (rankAt second < rankAt third)) ^^ below then third else second
  else
    first

/-- The median of three stretches of places, of which each one is found in the same way. -/
def medianAmong (rankAt : Nat → Nat) (first second third width : Nat) : Nat :=
  if 8 ≤ width then
    let part := width / 8
    let among := fun start => medianAmong rankAt start (start + part * 4) (start + part * 7) part
    medianOf rankAt (among first) (among second) (among third)
  else
    medianOf rankAt first second third
termination_by width
decreasing_by all_goals omega

def pivotPlace (regions : List Region) : Nat :=
  let rankAt := fun place => (regions[place]?.map rank).getD 0
  let part := regions.length / 8
  if regions.length < 64 then
    medianOf rankAt 0 (part * 4) (part * 7)
  else
    medianAmong rankAt 0 (part * 4) (part * 7) part

/-- A region of a list and the others; the first region takes its place. -/
def takeOut (place : Nat) (regions : List Region) : Option (Region × List Region) :=
  match regions.drop place with
  | [] => none
  | taken :: later =>
      match regions.take place with
      | [] => some (taken, later)
      | first :: earlier => some (taken, earlier ++ first :: later)

theorem takeOut_perm {place : Nat} (taken : takeOut place regions = some (region, others)) :
    regions.Perm (region :: others) := by
  have whole := List.take_append_drop place regions
  unfold takeOut at taken
  cases later : regions.drop place with
  | nil =>
      rw [later] at taken
      cases taken
  | cons next rest =>
      rw [later] at taken whole
      cases earlier : regions.take place with
      | nil =>
          simp only [earlier, Option.some.injEq, Prod.mk.injEq] at taken
          rw [← whole, earlier, ← taken.1, ← taken.2]
          exact .refl _
      | cons first before =>
          simp only [earlier, Option.some.injEq, Prod.mk.injEq] at taken
          rw [← whole, earlier, ← taken.1, ← taken.2]
          exact List.perm_middle.trans (List.perm_middle.symm.cons next)

/-! ## Sorting -/

/-- Sorts regions of which none ranks below `floor`. Regions that rank as it does are all taken
out at once. After too many pivots what is left is inserted. -/
def sortParts (floor : Option Region) : Nat → List Region → List Region
  | 0, regions => insertAll regions
  | limit + 1, regions =>
      if regions.length ≤ 32 then
        insertAll regions
      else
        match takeOut (pivotPlace regions) regions with
        | none => insertAll regions
        | some (pivot, others) =>
            if floor.any fun low => pivot.rank ≤ low.rank then
              let parts := separate (fun region => region.rank ≤ pivot.rank) others
              bringLast parts.lower ++ pivot :: sortParts none limit parts.upper
            else
              let parts := separate (fun region => region.rank < pivot.rank) others
              sortParts floor limit (bringLast parts.lower) ++
                pivot :: sortParts (some pivot) limit parts.upper

theorem Parts.Splits.perm_of_perm {parts : Parts} {lower upper : List Region}
    (splits : parts.Splits test others) (taken : regions.Perm (pivot :: others))
    (sameLower : lower.Perm parts.lower) (sameUpper : upper.Perm parts.upper) :
    (lower ++ pivot :: upper).Perm regions :=
  (List.perm_middle.trans (((sameLower.append sameUpper).trans splits.perm).cons pivot)).trans
    taken.symm

theorem sortParts_perm (floor : Option Region) (limit : Nat) (regions : List Region) :
    (sortParts floor limit regions).Perm regions := by
  induction limit generalizing floor regions with
  | zero => exact insertAll_perm regions
  | succ limit induction =>
      unfold sortParts
      split
      · exact insertAll_perm regions
      · split
        · exact insertAll_perm regions
        next pivot others taken =>
          have left := takeOut_perm taken
          split
          · exact (separate_splits _ others).perm_of_perm left (bringLast_perm _) (induction ..)
          · exact (separate_splits _ others).perm_of_perm left
              ((induction ..).trans (bringLast_perm _)) (induction ..)

theorem isRanked_append_cons {lower upper : List Region} (lowerRanked : IsRanked lower)
    (upperRanked : IsRanked upper) (below : ∀ region ∈ lower, region.rank ≤ pivot.rank)
    (above : ∀ region ∈ upper, pivot.rank ≤ region.rank) :
    IsRanked (lower ++ pivot :: upper) := by
  refine List.pairwise_append.2 ⟨lowerRanked, List.pairwise_cons.2 ⟨above, upperRanked⟩, ?_⟩
  intro left isLeft right isRight
  have low := below left isLeft
  rcases List.mem_cons.1 isRight with rfl | isUpper
  · exact low
  · exact Nat.le_trans low (above right isUpper)

theorem isRanked_sortParts {floor : Option Region} (limit : Nat)
    (least : ∀ low ∈ floor, ∀ region ∈ regions, low.rank ≤ region.rank) :
    IsRanked (sortParts floor limit regions) := by
  induction limit generalizing floor regions with
  | zero => exact isRanked_insertAll regions
  | succ limit induction =>
      unfold sortParts
      split
      · exact isRanked_insertAll regions
      · split
        · exact isRanked_insertAll regions
        next pivot others taken =>
          have isRegion : ∀ region ∈ others, region ∈ regions := fun region isOther =>
            (takeOut_perm taken).mem_iff.2 (List.mem_cons_of_mem _ isOther)
          split
          next atFloor =>
            -- What is lower has the rank of the pivot, which is that of the floor.
            rcases (Option.any_eq_true ..).1 atFloor with ⟨low, isFloor, bounded⟩
            have bounded := of_decide_eq_true bounded
            have splits := separate_splits (fun region => region.rank ≤ pivot.rank) others
            have lower := splits.of_mem_lower
            have upper := splits.of_mem_upper
            simp only [decide_eq_true_eq, decide_eq_false_iff_not] at lower upper
            refine isRanked_append_cons ?_ (induction (by simp)) ?_ ?_
            · refine List.pairwise_of_forall_mem_list fun first isFirst second isSecond => ?_
              have down := (lower first ((bringLast_perm _).mem_iff.1 isFirst)).2
              have up := least low isFloor second
                (isRegion second (lower second ((bringLast_perm _).mem_iff.1 isSecond)).1)
              omega
            · exact fun region isLower => (lower region ((bringLast_perm _).mem_iff.1 isLower)).2
            · intro region isUpper
              have above := (upper region ((sortParts_perm ..).mem_iff.1 isUpper)).2
              omega
          next =>
            have splits := separate_splits (fun region => region.rank < pivot.rank) others
            have lower := splits.of_mem_lower
            have upper := splits.of_mem_upper
            simp only [decide_eq_true_eq, decide_eq_false_iff_not, Nat.not_lt] at lower upper
            refine isRanked_append_cons (induction ?_) (induction ?_) ?_ ?_
            · intro low isFloor region isLower
              exact least low isFloor region
                (isRegion region (lower region ((bringLast_perm _).mem_iff.1 isLower)).1)
            · rintro low ⟨⟩ region isUpper
              exact (upper region isUpper).2
            · intro region isLower
              have member := (bringLast_perm _).mem_iff.1 ((sortParts_perm ..).mem_iff.1 isLower)
              exact Nat.le_of_lt (lower region member).2
            · exact fun region isUpper => (upper region ((sortParts_perm ..).mem_iff.1 isUpper)).2

/-! ## Order that is there -/

def isRun (relates : Nat → Nat → Bool) : List Region → Bool
  | first :: second :: rest => relates first.rank second.rank && isRun relates (second :: rest)
  | _ => true

theorem pairwise_of_isRun {relates : Nat → Nat → Bool}
    (trans : ∀ first second third, relates first second = true → relates second third = true →
      relates first third = true)
    (run : isRun relates regions = true) :
    regions.Pairwise fun left right => relates left.rank right.rank = true := by
  induction regions with
  | nil => exact .nil
  | cons first rest induction =>
      cases rest with
      | nil => exact List.pairwise_singleton ..
      | cons second rest =>
          rcases Bool.and_eq_true_iff.1 run with ⟨before, further⟩
          have later := induction further
          refine List.pairwise_cons.2 ⟨List.forall_mem_cons.2 ⟨before, fun other isOther => ?_⟩,
            later⟩
          exact trans _ _ _ before ((List.pairwise_cons.1 later).1 other isOther)

/-- A long list that is in order is kept, and one in which every region ranks below the one
before is turned round. -/
def sortAll (regions : List Region) : List Region :=
  if regions.length ≤ 20 then
    insertAll regions
  else if isRun (fun first second => first ≤ second) regions then
    regions
  else if isRun (fun first second => second < first) regions then
    regions.reverse
  else
    sortParts none (2 * (regions.length ||| 1).log2) regions

theorem sortAll_perm (regions : List Region) : (sortAll regions).Perm regions := by
  unfold sortAll
  repeat' split
  · exact insertAll_perm regions
  · exact .refl _
  · exact List.reverse_perm regions
  · exact sortParts_perm ..

theorem isRanked_sortAll (regions : List Region) : IsRanked (sortAll regions) := by
  unfold sortAll
  repeat' split
  · exact isRanked_insertAll regions
  next ascends =>
    refine (pairwise_of_isRun ?_ ascends).imp of_decide_eq_true
    simp only [decide_eq_true_eq]
    omega
  next descends =>
    refine List.pairwise_reverse.2 ((pairwise_of_isRun ?_ descends).imp fun below => ?_)
    · simp only [decide_eq_true_eq]
      omega
    · exact Nat.le_of_lt (of_decide_eq_true below)
  · exact isRanked_sortParts _ (by simp)

def Sorting.partitioning : Sorting where
  sort := sortAll
  perm := sortAll_perm
  ordered := isRanked_sortAll

end Region

end EarlyMemory
