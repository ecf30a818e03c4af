import EarlyMemory.Region.Table

/-!
# What a table holds

The order of a region table does not matter to what it holds, so a table is compared
up to permutation. Carving replaces one region by what is left of it on either side
and by what was taken; pieces without any length vanish. What is stored is ordered by
start and fits the table.
-/

namespace EarlyMemory

namespace Region

def IsOrdered (regions : List Region) : Prop :=
  regions.Pairwise fun left right => left.start.value ≤ right.start.value

theorem isOrdered_iff_map {regions : List Region} : IsOrdered regions ↔
    (regions.map Region.start).Pairwise fun left right => left.value ≤ right.value := by
  rw [List.pairwise_map]
  rfl

def IsProper (region : Region) : Prop :=
  region.start.value < region.stop.value

instance (region : Region) : Decidable region.IsProper :=
  inferInstanceAs (Decidable (_ < _))

theorem not_isEmpty_eq (region : Region) : (!region.isEmpty) = decide region.IsProper := by
  unfold isEmpty IsProper
  by_cases proper : region.start.value < region.stop.value
  · have notBelow : ¬ region.stop.value ≤ region.start.value := by omega
    simp [proper, notBelow]
  · have below : region.stop.value ≤ region.start.value := by omega
    simp [proper, below]

theorem rank_of_isProper {region : Region} (proper : region.IsProper) :
    region.rank = region.start.value := by
  rw [rank, if_neg]
  simpa [isEmpty, IsProper] using proper

theorem IsRanked.takeWhile_eq_filter {regions : List Region} (ranked : IsRanked regions) :
    (regions.takeWhile fun region => !region.isEmpty) =
      regions.filter fun region => decide region.IsProper := by
  simp only [not_isEmpty_eq]
  induction regions with
  | nil => rfl
  | cons head tail induction =>
      have later := List.pairwise_cons.1 ranked
      by_cases proper : head.IsProper
      · simp only [List.takeWhile_cons, List.filter_cons, proper, decide_true, if_true,
          induction later.2]
      · have improper : ∀ region ∈ tail, decide region.IsProper = false := by
          intro region member
          have behind := later.1 region member
          have bound := region.start.isLt
          apply decide_eq_false
          intro isProper
          rw [rank_of_isProper isProper, rank, if_pos (by simpa [isEmpty, IsProper] using proper)]
            at behind
          omega
        rw [List.takeWhile_cons_of_neg (by simp [proper]),
          List.filter_cons_of_neg (by simp [proper]),
          List.filter_eq_nil_iff.2 fun region member => by simp [improper region member]]

/-! ## Search -/

theorem findFirst?_eq_none {test : Region → Bool} {regions : List Region} :
    findFirst? test regions = none ↔ ∀ region ∈ regions, test region = false := by
  induction regions with
  | nil => simp [findFirst?]
  | cons head tail induction =>
      unfold findFirst?
      cases passes : test head with
      | true => simp [passes]
      | false => simp [passes, induction]

theorem findFirst?_eq_some {test : Region → Bool} {regions : List Region} {found : Found}
    (search : findFirst? test regions = some found) :
    regions = found.before ++ found.host :: found.after ∧ test found.host = true := by
  induction regions generalizing found with
  | nil => cases search
  | cons head tail induction =>
      unfold findFirst? at search
      cases passes : test head with
      | true =>
          rw [if_pos passes] at search
          cases search
          exact ⟨rfl, passes⟩
      | false =>
          rw [if_neg (by simp [passes]), Option.map_eq_some_iff] at search
          rcases search with ⟨further, searched, rfl⟩
          rcases induction searched with ⟨split, passesHost⟩
          exact ⟨congrArg (head :: ·) split, passesHost⟩

namespace Found

def others (found : Found) : List Region :=
  found.before ++ found.after

theorem perm_of_findFirst? {test : Region → Bool} {regions : List Region} {found : Found}
    (search : findFirst? test regions = some found) :
    regions.Perm (found.host :: found.others) := by
  rw [(findFirst?_eq_some search).1]
  exact List.perm_middle

/-- What is left of the host in front of an address. -/
def lower (found : Found) (start : PhysicalAddress) : Region :=
  { found.host with stop := start }

def upper (found : Found) (stop : PhysicalAddress) : Region :=
  { found.host with start := stop }

theorem length_carve (found : Found) (kind : RegionKind) (start stop : PhysicalAddress) :
    (found.carve kind start stop).length =
      found.before.length + 1 + found.after.length + found.slotsToCarve start stop := by
  unfold carve slotsToCarve
  by_cases left : found.host.start = start
  · simp [left]
    omega
  · by_cases right : found.host.stop = stop <;> simp [left, right] <;> omega

end Found

/-- The host of a search in an ordered list starts no later than any region it could have
found. -/
theorem start_le_of_findFirst? {test : Region → Bool} {regions : List Region} {found : Found}
    {region : Region} (search : findFirst? test regions = some found)
    (ordered : IsOrdered regions) (member : region ∈ regions) (passes : test region = true) :
    found.host.start.value ≤ region.start.value := by
  induction regions generalizing found with
  | nil => cases search
  | cons head tail induction =>
      have later := List.pairwise_cons.1 ordered
      unfold findFirst? at search
      cases headPasses : test head with
      | true =>
          rw [if_pos headPasses] at search
          cases search
          rcases List.mem_cons.1 member with rfl | isLater
          · exact Nat.le_refl _
          · exact later.1 region isLater
      | false =>
          rw [if_neg (by simp [headPasses]), Option.map_eq_some_iff] at search
          rcases search with ⟨further, searched, rfl⟩
          rcases List.mem_cons.1 member with rfl | isLater
          · simp [headPasses] at passes
          · have earliest := induction searched later.2 isLater
            exact earliest

end Region

namespace RegionTable

variable {capacity : Nat} {sorting : Region.Sorting}

/-- Whether the regions fit the table and come in the order of their starts. -/
structure IsArranged (table : RegionTable capacity sorting) : Prop where
  length_le : table.regions.length ≤ capacity
  ordered : Region.IsOrdered table.regions

theorem regions_arrange (regions : List Region) :
    (arrange regions : RegionTable capacity sorting).regions =
      (sorting.sort regions).filter fun region => decide region.IsProper :=
  Region.IsRanked.takeWhile_eq_filter (sorting.ordered regions)

theorem arrange_perm (regions : List Region) :
    (arrange regions : RegionTable capacity sorting).regions.Perm
      (regions.filter fun region => decide region.IsProper) := by
  rw [regions_arrange]
  exact (sorting.perm regions).filter _

theorem isOrdered_arrange (regions : List Region) :
    Region.IsOrdered (arrange regions : RegionTable capacity sorting).regions := by
  rw [regions_arrange]
  refine ((sorting.ordered regions).filter _).imp_of_mem ?_
  intro left right isLeft isRight before
  rwa [Region.rank_of_isProper (of_decide_eq_true (List.mem_filter.1 isLeft).2),
    Region.rank_of_isProper (of_decide_eq_true (List.mem_filter.1 isRight).2)] at before

theorem isArranged_arrange {regions : List Region} (room : regions.length ≤ capacity) :
    (arrange regions : RegionTable capacity sorting).IsArranged where
  length_le := by
    rw [(arrange_perm regions).length_eq]
    exact Nat.le_trans (List.length_filter_le ..) room
  ordered := isOrdered_arrange regions

theorem run_store {ε : Type} {regions : List Region} (room : regions.length ≤ capacity)
    (table : RegionTable capacity sorting) :
    (store regions : Operation (RegionTable capacity sorting) ε Unit).run table =
      (.done (), arrange regions) := by
  rw [store, if_neg (Nat.not_lt_of_le room)]
  rfl

/-- Whichever sides the host is cut on, both remainders and what was taken are left. -/
theorem arrange_carve_perm {found : Region.Found} (kind : RegionKind)
    (start stop : PhysicalAddress) (available : found.host.code = RegionKind.available.code) :
    (arrange (found.carve kind start stop) : RegionTable capacity sorting).regions.Perm
      ((Region.of kind start stop :: found.lower start :: found.upper stop ::
        found.others).filter fun region => decide region.IsProper) := by
  apply (arrange_perm _).trans
  have gathered : ∀ kept added, (found.before ++ kept :: found.after ++ added).Perm
      (added ++ kept :: found.others) := fun kept added =>
    (List.perm_append_comm).trans (List.perm_middle.append_left added)
  have vanishes : ∀ region : Region, region.start = region.stop →
      decide region.IsProper = false := by
    intro region same
    simp [Region.IsProper, same]
  unfold Region.Found.carve
  split
  next left =>
    have lowerVanishes := vanishes (found.lower start) left
    apply ((gathered _ _).filter _).trans
    change (List.filter _ (_ :: found.upper stop :: _)).Perm _
    simp only [List.filter_cons, lowerVanishes, Bool.false_eq_true, if_false]
    exact .refl _
  · split
    next right =>
      have upperVanishes := vanishes (found.upper stop) right.symm
      apply ((gathered _ _).filter _).trans
      change (List.filter _ (_ :: found.lower start :: _)).Perm _
      simp only [List.filter_cons, upperVanishes, Bool.false_eq_true, if_false]
      exact .refl _
    · have upperEq : Region.of .available stop found.host.stop = found.upper stop := by
        rw [Region.of, ← available]
        rfl
      refine ((gathered _ _).trans ?_).filter _
      rw [upperEq]
      exact (List.Perm.swap (found.lower start) (found.upper stop) found.others).cons _

end RegionTable

end EarlyMemory
