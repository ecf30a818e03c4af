import EarlyMemory.Proofs.Region.Soundness

/-!
# Merging regions

Merging joins an available region with the one that starts where it ends. What holds of
all regions and survives the joining of two holds of all merged regions, and so does a
relation between regions; regions of other kinds stay as they are. Merging keeps the order
of the regions.

The table folds its regions in place, which leaves regions without length behind; those that
are left once they are gone are the merged ones. Sorting may put them in another order where
starts are equal, and nowhere else.
-/

namespace EarlyMemory

namespace Region

variable {holds : Region → Prop} {relation : Region → Region → Prop} {current region : Region}
  {rest regions : List Region}

/-- The region that two touching ones are joined to. -/
abbrev joined (left right : Region) : Region :=
  { right with start := left.start }

def mergeInto (current : Region) : List Region → List Region
  | [] => [current]
  | next :: rest =>
      if current.touches next then
        mergeInto (current.joined next) rest
      else
        current :: mergeInto next rest

def mergeTouching : List Region → List Region
  | [] => []
  | head :: tail => head.mergeInto tail

theorem forall_mem_mergeInto
    (join : ∀ left right, holds left → holds right → left.touches right = true →
      holds (left.joined right))
    (all : ∀ region ∈ current :: rest, holds region) :
    ∀ region ∈ current.mergeInto rest, holds region := by
  induction rest generalizing current with
  | nil => exact all
  | cons next rest induction =>
      rw [List.forall_mem_cons] at all
      rcases all with ⟨first, others⟩
      have second := others next List.mem_cons_self
      unfold mergeInto
      split
      next touching =>
        exact induction (List.forall_mem_cons.2 ⟨join current next first second touching,
          fun other isOther => others other (List.mem_cons_of_mem _ isOther)⟩)
      next => exact List.forall_mem_cons.2 ⟨first, induction others⟩

theorem forall_mem_mergeTouching
    (join : ∀ left right, holds left → holds right → left.touches right = true →
      holds (left.joined right))
    (all : ∀ region ∈ regions, holds region) : ∀ region ∈ mergeTouching regions, holds region := by
  cases regions with
  | nil => exact all
  | cons head tail => exact forall_mem_mergeInto join all

theorem pairwise_mergeInto (symm : ∀ left right, relation left right → relation right left)
    (join : ∀ left right, holds left → holds right → left.touches right = true →
      holds (left.joined right))
    (keep : ∀ left right other, holds left → holds right → holds other →
      left.touches right = true → relation left other → relation right other →
      relation (left.joined right) other)
    (all : ∀ region ∈ current :: rest, holds region)
    (related : (current :: rest).Pairwise relation) :
    (current.mergeInto rest).Pairwise relation := by
  induction rest generalizing current with
  | nil => exact related
  | cons next rest induction =>
      rw [List.forall_mem_cons] at all
      rcases all with ⟨first, others⟩
      have second := others next List.mem_cons_self
      have further : ∀ other ∈ rest, holds other :=
        fun other isOther => others other (List.mem_cons_of_mem _ isOther)
      rw [List.pairwise_cons] at related
      rcases related with ⟨beside, inner⟩
      unfold mergeInto
      split
      next touching =>
        refine induction (List.forall_mem_cons.2 ⟨join current next first second touching,
          further⟩) ?_
        rw [List.pairwise_cons] at inner ⊢
        refine ⟨fun other isOther => ?_, inner.2⟩
        exact keep current next other first second (further other isOther) touching
          (beside other (List.mem_cons_of_mem _ isOther)) (inner.1 other isOther)
      next =>
        have merged : ∀ other ∈ next.mergeInto rest, holds other ∧ relation other current := by
          refine forall_mem_mergeInto ?_ fun other isOther =>
            ⟨others other isOther, symm _ _ (beside other isOther)⟩
          rintro left right ⟨leftHolds, leftBeside⟩ ⟨rightHolds, rightBeside⟩ touching
          exact ⟨join left right leftHolds rightHolds touching,
            keep left right current leftHolds rightHolds first touching leftBeside rightBeside⟩
        exact List.pairwise_cons.2 ⟨fun other isOther => symm _ _ (merged other isOther).2,
          induction others inner⟩

theorem pairwise_mergeTouching (symm : ∀ left right, relation left right → relation right left)
    (join : ∀ left right, holds left → holds right → left.touches right = true →
      holds (left.joined right))
    (keep : ∀ left right other, holds left → holds right → holds other →
      left.touches right = true → relation left other → relation right other →
      relation (left.joined right) other)
    (all : ∀ region ∈ regions, holds region) (related : regions.Pairwise relation) :
    (mergeTouching regions).Pairwise relation := by
  cases regions with
  | nil => exact related
  | cons head tail => exact pairwise_mergeInto symm join keep all related

/-- What is joined starts where the first of its parts does. -/
theorem isOrdered_mergeInto (ordered : IsOrdered (current :: rest)) :
    IsOrdered (current.mergeInto rest) := by
  induction rest generalizing current with
  | nil => exact ordered
  | cons next rest induction =>
      have parts := List.pairwise_cons.1 ordered
      have first := List.forall_mem_cons.1 parts.1
      have second := List.pairwise_cons.1 parts.2
      unfold mergeInto
      split
      next => exact induction (List.pairwise_cons.2 ⟨first.2, second.2⟩)
      next =>
        apply List.pairwise_cons.2 ⟨_, induction parts.2⟩
        exact forall_mem_mergeInto (fun left _ before _ _ => before) parts.1

theorem isOrdered_mergeTouching (ordered : IsOrdered regions) :
    IsOrdered (mergeTouching regions) := by
  cases regions with
  | nil => exact ordered
  | cons head tail => exact isOrdered_mergeInto ordered

theorem length_mergeInto_le : (current.mergeInto rest).length ≤ rest.length + 1 := by
  induction rest generalizing current with
  | nil => exact Nat.le_refl _
  | cons next rest induction =>
      unfold mergeInto
      split
      next => exact Nat.le_succ_of_le induction
      next => exact Nat.succ_le_succ induction

theorem length_mergeTouching_le : (mergeTouching regions).length ≤ regions.length := by
  cases regions with
  | nil => exact Nat.le_refl _
  | cons head tail => exact length_mergeInto_le

theorem mem_mergeInto_of_other (other : region.code ≠ RegionKind.available.code)
    (member : region ∈ current :: rest) : region ∈ current.mergeInto rest := by
  induction rest generalizing current with
  | nil => exact member
  | cons next rest induction =>
      unfold mergeInto
      split
      next touching =>
        simp only [touches, Bool.and_eq_true, hasKind_iff] at touching
        rcases List.mem_cons.1 member with rfl | later
        · exact absurd touching.1.1 other
        · rcases List.mem_cons.1 later with rfl | further
          · exact absurd touching.1.2 other
          · exact induction (List.mem_cons_of_mem _ further)
      next =>
        rcases List.mem_cons.1 member with rfl | later
        · exact List.mem_cons_self
        · exact List.mem_cons_of_mem _ (induction later)

theorem mem_mergeTouching_of_other (other : region.code ≠ RegionKind.available.code)
    (member : region ∈ regions) : region ∈ mergeTouching regions := by
  cases regions with
  | nil => exact member
  | cons head tail => exact mem_mergeInto_of_other other member

theorem of_touches {left right : Region} (touching : left.touches right = true) :
    left.code = RegionKind.available.code ∧ right.code = RegionKind.available.code ∧
      left.stop = right.start := by
  simp only [touches, Bool.and_eq_true, hasKind_iff, beq_iff_eq] at touching
  exact ⟨touching.1.1, touching.1.2, touching.2⟩

theorem IsProper.joined {left right : Region} (leftProper : left.IsProper)
    (rightProper : right.IsProper) (touching : left.touches right = true) :
    (left.joined right).IsProper := by
  unfold IsProper at leftProper
  rw [(of_touches touching).2.2] at leftProper
  exact Nat.lt_trans leftProper rightProper

theorem covers_joined_iff {left right : Region} (touching : left.touches right = true)
    (leftProper : left.IsProper) (rightProper : right.IsProper) {address : Nat} :
    (left.joined right).Covers address ↔ left.Covers address ∨ right.Covers address := by
  have meet := (of_touches touching).2.2
  unfold IsProper at leftProper rightProper
  simp only [Covers]
  rw [meet] at leftProper ⊢
  omega

/-! ## Folding -/

theorem length_foldInto : (current.foldInto rest).length = rest.length + 1 := by
  induction rest generalizing current with
  | nil => rfl
  | cons next rest induction =>
      unfold foldInto
      split <;> rw [List.length_cons, induction, List.length_cons]

theorem length_foldTouching (regions : List Region) :
    (foldTouching regions).length = regions.length := by
  cases regions with
  | nil => rfl
  | cons head tail => exact length_foldInto

theorem filter_foldInto (proper : ∀ region ∈ current :: rest, region.IsProper) :
    ((current.foldInto rest).filter fun region => decide region.IsProper) =
      current.mergeInto rest := by
  induction rest generalizing current with
  | nil => exact List.filter_eq_self.2 fun region member => decide_eq_true (proper region member)
  | cons next rest induction =>
      rw [List.forall_mem_cons, List.forall_mem_cons] at proper
      rcases proper with ⟨first, second, others⟩
      have filled : (!current.isEmpty) = true := by rw [not_isEmpty_eq, decide_eq_true first]
      unfold foldInto mergeInto
      rw [filled, Bool.true_and]
      split
      next touching =>
        have vanishes : ¬ IsProper { current with stop := current.start } := Nat.lt_irrefl _
        rw [List.filter_cons_of_neg (by simp [vanishes])]
        exact induction (List.forall_mem_cons.2 ⟨first.joined second touching, others⟩)
      next =>
        rw [List.filter_cons_of_pos (by simp [first]),
          induction (List.forall_mem_cons.2 ⟨second, others⟩)]

theorem filter_foldTouching (proper : ∀ region ∈ regions, region.IsProper) :
    ((foldTouching regions).filter fun region => decide region.IsProper) =
      mergeTouching regions := by
  cases regions with
  | nil => rfl
  | cons head tail => exact filter_foldInto proper

end Region

namespace RegionTable

variable {capacity : Nat} {sorting : Region.Sorting} {table : RegionTable capacity sorting}

theorem coalesce_perm (proper : ∀ region ∈ table.regions, region.IsProper) :
    table.coalesce.regions.Perm (Region.mergeTouching table.regions) := by
  rw [← Region.filter_foldTouching proper]
  exact arrange_perm _

theorem mem_coalesce_of_other {region : Region}
    (proper : ∀ region ∈ table.regions, region.IsProper)
    (other : region.code ≠ RegionKind.available.code) (member : region ∈ table.regions) :
    region ∈ table.coalesce.regions :=
  (coalesce_perm proper).mem_iff.2 (Region.mem_mergeTouching_of_other other member)

end RegionTable

end EarlyMemory
