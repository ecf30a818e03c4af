import EarlyMemory.Proofs.Region.Merging
import EarlyMemory.Proofs.Region.Requests

/-!
# Building a table

Recorded ranges are clipped and rounded to whole pages. Whatever the loader asks of a
table that was empty at first, its regions are nonempty runs of whole pages in physical
memory, they are ordered by start, and there are no more of them than the table has room
for.
-/

namespace EarlyMemory

/-! ## Rounding -/

namespace Address

theorem value_min (left right : PhysicalAddress) :
    (left.min right).value = Min.min left.value right.value := by
  unfold Address.min
  split <;> omega

theorem value_alignUp_of_le {address : PhysicalAddress}
    (low : address.value ≤ physicalLimit.value) :
    (address.alignUp .small).value = (address.value + 4095) / 4096 * 4096 := by
  have limit : physicalLimit.value = 0x10000000000000 := rfl
  exact value_alignUp (by omega)

end Address

namespace RegionTable

variable {capacity : Nat} {sorting : Region.Sorting} {table after : RegionTable capacity sorting}

theorem rounded_of_inward {kind : RegionKind} (inward : kind.roundsInward = true)
    (start stop : PhysicalAddress) :
    (rounded kind start stop).1.value =
        (min start.value physicalLimit.value + 4095) / 4096 * 4096 ∧
      (rounded kind start stop).2.value = min stop.value physicalLimit.value / 4096 * 4096 := by
  have low := Nat.min_le_right start.value physicalLimit.value
  rw [← Address.value_min] at low
  simp only [rounded, inward, if_true, Address.value_alignDown, Address.value_alignUp_of_le low,
    Address.value_min, and_self]

theorem rounded_of_outward {kind : RegionKind} (outward : kind.roundsInward = false)
    (start stop : PhysicalAddress) :
    (rounded kind start stop).1.value = min start.value physicalLimit.value / 4096 * 4096 ∧
      (rounded kind start stop).2.value =
        (min stop.value physicalLimit.value + 4095) / 4096 * 4096 := by
  have low := Nat.min_le_right stop.value physicalLimit.value
  rw [← Address.value_min] at low
  simp only [rounded, outward, Bool.false_eq_true, if_false, Address.value_alignDown,
    Address.value_alignUp_of_le low, Address.value_min, and_self]

theorem isWhole_rounded (kind : RegionKind) (start stop : PhysicalAddress) :
    (Region.of kind (rounded kind start stop).1 (rounded kind start stop).2).IsWhole := by
  have limit : physicalLimit.value = 0x10000000000000 := rfl
  cases inward : kind.roundsInward with
  | true =>
      rcases rounded_of_inward inward start stop with ⟨first, last⟩
      refine ⟨?_, ?_, ?_⟩ <;> simp only [Region.of, first, last] <;> omega
  | false =>
      rcases rounded_of_outward inward start stop with ⟨first, last⟩
      refine ⟨?_, ?_, ?_⟩ <;> simp only [Region.of, first, last] <;> omega

/-! ## Recording -/

inductive Records (table : RegionTable capacity sorting) (region : Region) :
    Outcome RegionTableError Unit → RegionTable capacity sorting → Prop
  | ignored (vanishes : ¬ region.IsProper) : Records table region (.done ()) table
  | recorded {after : RegionTable capacity sorting} (proper : region.IsProper)
      (perm : after.regions.Perm
        ((region :: table.regions).filter fun region => decide region.IsProper))
      (arranged : after.IsArranged) :
      Records table region (.done ()) after
  | full : Records table region (.refused (.full capacity)) table

theorem run_add_of_vanishing {kind : RegionKind} {start stop : PhysicalAddress}
    (vanishes : (rounded kind start stop).2.value ≤ (rounded kind start stop).1.value) :
    (add kind start stop).run table = (.done (), table) := by
  simp only [add, if_pos vanishes, Operation.run_report]

theorem run_add_of_full {kind : RegionKind} {start stop : PhysicalAddress}
    (proper : (rounded kind start stop).1.value < (rounded kind start stop).2.value)
    (full : capacity < table.regions.length + 1) :
    (add kind start stop).run table = (.refused (.full capacity), table) := by
  simp only [add, if_neg (Nat.not_le_of_lt proper)]
  exact Operation.run_bind_of_refused (run_requireRoom_of_full full)

theorem run_add_of_room {kind : RegionKind} {start stop : PhysicalAddress}
    (proper : (rounded kind start stop).1.value < (rounded kind start stop).2.value)
    (full : ¬ capacity < table.regions.length + 1) :
    (add kind start stop).run table = (.done (), arrange (table.regions ++
      [Region.of kind (rounded kind start stop).1 (rounded kind start stop).2])) := by
  have room : (table.regions ++ [Region.of kind (rounded kind start stop).1
      (rounded kind start stop).2]).length ≤ capacity := by
    rw [List.length_append, List.length_singleton]
    omega
  simp only [add, if_neg (Nat.not_le_of_lt proper)]
  rw [Operation.run_bind_of_done (run_requireRoom full),
    Operation.run_bind_of_done (Operation.run_state table), run_store room]

theorem add_spec (table : RegionTable capacity sorting) (kind : RegionKind)
    (start stop : PhysicalAddress) :
    ∃ outcome after, (add kind start stop).run table = (outcome, after) ∧
      Records table (Region.of kind (rounded kind start stop).1 (rounded kind start stop).2)
        outcome after := by
  by_cases nothing : (rounded kind start stop).2.value ≤ (rounded kind start stop).1.value
  · exact ⟨_, _, run_add_of_vanishing nothing, .ignored (Nat.not_lt_of_le nothing)⟩
  have proper := Nat.lt_of_not_le nothing
  by_cases full : capacity < table.regions.length + 1
  · exact ⟨_, _, run_add_of_full proper full, .full⟩
  · refine ⟨_, _, run_add_of_room proper full, .recorded proper ?_ (isArranged_arrange ?_)⟩
    · exact (arrange_perm _).trans (List.perm_append_comm.filter _)
    · rw [List.length_append, List.length_singleton]
      omega

theorem records_of_add {kind : RegionKind} {start stop : PhysicalAddress}
    {outcome : Outcome RegionTableError Unit}
    (ran : (add kind start stop).run table = (outcome, after)) :
    Records table (Region.of kind (rounded kind start stop).1 (rounded kind start stop).2)
      outcome after := by
  rcases add_spec table kind start stop with ⟨_, _, same, records⟩
  cases ran.symm.trans same
  exact records

end RegionTable

/-! ## Merging -/

namespace Region

/-- Whether a region is a nonempty run of whole pages in physical memory. -/
def IsWellFormed (region : Region) : Prop :=
  region.IsProper ∧ region.IsWhole

theorem IsWellFormed.joined {left right : Region} (leftFormed : left.IsWellFormed)
    (rightFormed : right.IsWellFormed) (touching : left.touches right = true) :
    (left.joined right).IsWellFormed :=
  ⟨leftFormed.1.joined rightFormed.1 touching, leftFormed.2.start, rightFormed.2.stop,
    rightFormed.2.within⟩

end Region

namespace RegionTable

variable {capacity : Nat} {sorting : Region.Sorting}
  {before after table : RegionTable capacity sorting}

theorem isWellFormed_coalesce (wellFormed : ∀ region ∈ table.regions, region.IsWellFormed) :
    ∀ region ∈ table.coalesce.regions, region.IsWellFormed := by
  intro region member
  have merged := (coalesce_perm fun other isOther => (wellFormed other isOther).1).mem_iff.1 member
  exact Region.forall_mem_mergeTouching (fun _ _ => .joined) wellFormed region merged

/-! ## Giving back -/

inductive Frees (table : RegionTable capacity sorting) (address : PhysicalAddress) :
    Outcome RegionTableError Unit → RegionTable capacity sorting → Prop
  | unknown
      (missing : ∀ region ∈ table.regions, region.code = RegionKind.reserved.code →
        region.start ≠ address.alignDown .small) :
      Frees table address (.refused (.unknownReservation (address.alignDown .small))) table
  | freed (retyped : RegionTable capacity sorting) (host : Region) (others : List Region)
      (hosted : table.regions.Perm (host :: others))
      (reserved : host.code = RegionKind.reserved.code)
      (start : host.start = address.alignDown .small)
      (changed : retyped.regions.Perm (host.withKind .available :: others))
      (arranged : table.IsArranged → retyped.IsArranged) :
      Frees table address (.done ()) retyped.coalesce

theorem free_spec (table : RegionTable capacity sorting) (address : PhysicalAddress) :
    ∃ outcome after, (free address).run table = (outcome, after) ∧
      Frees table address outcome after := by
  unfold free
  simp only [Operation.run_bind, Operation.run_state]
  cases search : Region.findFirst? (fun region => region.hasKind .reserved &&
    region.start == address.alignDown .small) table.regions with
  | none =>
      refine ⟨_, _, Operation.run_refuse .., .unknown fun region member reserved same => ?_⟩
      have fails := Region.findFirst?_eq_none.1 search region member
      simp [Region.hasKind, reserved, same] at fails
  | some found =>
      have passes := (Region.findFirst?_eq_some search).2
      simp only [Bool.and_eq_true, Region.hasKind_iff, beq_iff_eq] at passes
      refine ⟨_, _, rfl, .freed ⟨found.retype .available⟩ found.host found.others
        (Region.Found.perm_of_findFirst? search) passes.1 passes.2 List.perm_middle ?_⟩
      have split := (Region.findFirst?_eq_some search).1
      have sameStarts : (found.retype .available).map Region.start =
          table.regions.map Region.start := by
        simp [split, Region.Found.retype, Region.withKind]
      intro arranged
      constructor
      · rw [← List.length_map Region.start, sameStarts, List.length_map]
        exact arranged.length_le
      · rw [Region.isOrdered_iff_map, sameStarts, ← Region.isOrdered_iff_map]
        exact arranged.ordered

theorem frees_of_free {address : PhysicalAddress} {outcome : Outcome RegionTableError Unit}
    (ran : (free address).run table = (outcome, after)) : Frees table address outcome after := by
  rcases free_spec table address with ⟨_, _, same, frees⟩
  cases ran.symm.trans same
  exact frees

/-! ## Tables that were built -/

/-- A table after any requests to an empty one. -/
inductive Built : RegionTable capacity sorting → Prop
  | empty : Built empty
  | added {before after : RegionTable capacity sorting} {kind : RegionKind}
      {start stop : PhysicalAddress} {outcome : Outcome RegionTableError Unit}
      (earlier : Built before)
      (ran : (add kind start stop).run before = (outcome, after)) : Built after
  | reserved {before after : RegionTable capacity sorting} {start stop : PhysicalAddress}
      {outcome : Outcome RegionTableError Unit} (earlier : Built before)
      (ran : (reserve start stop).run before = (outcome, after)) : Built after
  | allocated {before after : RegionTable capacity sorting} {ε : Type} {pages : Nat}
      {kind : RegionKind} {outcome : Outcome ε (Option PhysicalAddress)} (earlier : Built before)
      (ran : (allocateAs pages kind).run before = (outcome, after)) : Built after
  | freed {before after : RegionTable capacity sorting} {address : PhysicalAddress}
      {outcome : Outcome RegionTableError Unit} (earlier : Built before)
      (ran : (free address).run before = (outcome, after)) : Built after
  | coalesced {before : RegionTable capacity sorting} (earlier : Built before) :
      Built before.coalesce

theorem Carves.isWellFormed {taken host : Region} {others : List Region}
    (carves : Carves before after taken host others)
    (wellFormed : ∀ region ∈ before.regions, region.IsWellFormed) (whole : taken.IsWhole) :
    ∀ region ∈ after.regions, region.IsWellFormed :=
  fun _ member => ⟨(carves.mem_after.1 member).2,
    carves.isWhole_of_mem (fun other isOther => (wellFormed other isOther).2) whole member⟩

theorem isWellFormed_of_add {kind : RegionKind} {start stop : PhysicalAddress}
    {outcome : Outcome RegionTableError Unit}
    (wellFormed : ∀ region ∈ before.regions, region.IsWellFormed)
    (ran : (add kind start stop).run before = (outcome, after)) :
    ∀ region ∈ after.regions, region.IsWellFormed := by
  cases records_of_add ran with
  | ignored => exact wellFormed
  | full => exact wellFormed
  | recorded _ perm =>
      intro region member
      rcases List.mem_filter.1 (perm.mem_iff.1 member) with ⟨origin, proper⟩
      rcases List.mem_cons.1 origin with rfl | old
      · exact ⟨of_decide_eq_true proper, isWhole_rounded kind start stop⟩
      · exact wellFormed region old

theorem isWellFormed_of_reserve {start stop : PhysicalAddress}
    {outcome : Outcome RegionTableError Unit}
    (wellFormed : ∀ region ∈ before.regions, region.IsWellFormed)
    (ran : (reserve start stop).run before = (outcome, after)) :
    ∀ region ∈ after.regions, region.IsWellFormed := by
  cases reserves_of_reserve ran with
  | empty => exact wellFormed
  | notContained => exact wellFormed
  | full => exact wellFormed
  | carved host others nonempty carves =>
      have hostWhole := (wellFormed host (carves.mem_before.2 (.inl rfl))).2
      refine carves.isWellFormed wellFormed ⟨?_, Address.value_alignUp_mod stop, ?_⟩
      · exact Nat.mul_mod_left ..
      · exact Nat.le_trans carves.stop hostWhole.within

theorem isWellFormed_of_allocateAs {ε : Type} {pages : Nat} {kind : RegionKind}
    {outcome : Outcome ε (Option PhysicalAddress)}
    (wellFormed : ∀ region ∈ before.regions, region.IsWellFormed)
    (ran : (allocateAs pages kind).run before = (outcome, after)) :
    ∀ region ∈ after.regions, region.IsWellFormed := by
  rcases allocates_of_allocateAs ran with ⟨_, rfl, allocates⟩
  cases allocates with
  | none => exact wellFormed
  | carved base stop host others atStart extent high carves =>
      have hostWhole := (wellFormed host (carves.mem_before.2 (.inl rfl))).2
      exact carves.isWellFormed wellFormed
        (isWhole_of_allocates kind hostWhole atStart extent carves.stop)

theorem isWellFormed_of_free {address : PhysicalAddress} {outcome : Outcome RegionTableError Unit}
    (wellFormed : ∀ region ∈ before.regions, region.IsWellFormed)
    (ran : (free address).run before = (outcome, after)) :
    ∀ region ∈ after.regions, region.IsWellFormed := by
  cases frees_of_free ran with
  | unknown => exact wellFormed
  | freed retyped host others hosted reserved start changed =>
      refine isWellFormed_coalesce fun region member => ?_
      rcases List.mem_cons.1 (changed.mem_iff.1 member) with rfl | isOther
      · have formed := wellFormed host (hosted.mem_iff.2 List.mem_cons_self)
        exact ⟨formed.1, formed.2.start, formed.2.stop, formed.2.within⟩
      · exact wellFormed region (hosted.mem_iff.2 (List.mem_cons_of_mem _ isOther))

theorem Built.isWellFormed (built : table.Built) :
    ∀ region ∈ table.regions, region.IsWellFormed := by
  induction built with
  | empty => simp [RegionTable.empty]
  | added earlier ran induction => exact isWellFormed_of_add induction ran
  | reserved earlier ran induction => exact isWellFormed_of_reserve induction ran
  | allocated earlier ran induction => exact isWellFormed_of_allocateAs induction ran
  | freed earlier ran induction => exact isWellFormed_of_free induction ran
  | coalesced earlier induction => exact isWellFormed_coalesce induction

/-! ### Order -/

theorem isArranged_empty : (empty : RegionTable capacity sorting).IsArranged where
  length_le := Nat.zero_le _
  ordered := .nil

theorem IsArranged.coalesce (arranged : table.IsArranged) : table.coalesce.IsArranged := by
  apply isArranged_arrange
  rw [Region.length_foldTouching]
  exact arranged.length_le

theorem isArranged_of_add {kind : RegionKind} {start stop : PhysicalAddress}
    {outcome : Outcome RegionTableError Unit} (arranged : before.IsArranged)
    (ran : (add kind start stop).run before = (outcome, after)) : after.IsArranged := by
  cases records_of_add ran with
  | ignored => exact arranged
  | full => exact arranged
  | recorded _ _ stored => exact stored

theorem isArranged_of_reserve {start stop : PhysicalAddress}
    {outcome : Outcome RegionTableError Unit} (arranged : before.IsArranged)
    (ran : (reserve start stop).run before = (outcome, after)) : after.IsArranged := by
  cases reserves_of_reserve ran with
  | empty => exact arranged
  | notContained => exact arranged
  | full => exact arranged
  | carved _ _ _ _ stored => exact stored

theorem isArranged_of_allocateAs {ε : Type} {pages : Nat} {kind : RegionKind}
    {outcome : Outcome ε (Option PhysicalAddress)} (arranged : before.IsArranged)
    (ran : (allocateAs pages kind).run before = (outcome, after)) : after.IsArranged := by
  rcases allocates_of_allocateAs ran with ⟨_, rfl, allocates⟩
  cases allocates with
  | none => exact arranged
  | carved _ _ _ _ _ _ _ _ stored => exact stored

theorem isArranged_of_free {address : PhysicalAddress} {outcome : Outcome RegionTableError Unit}
    (arranged : before.IsArranged)
    (ran : (free address).run before = (outcome, after)) : after.IsArranged := by
  cases frees_of_free ran with
  | unknown => exact arranged
  | freed _ _ _ _ _ _ _ retypes => exact (retypes arranged).coalesce

theorem Built.isArranged (built : table.Built) : table.IsArranged := by
  induction built with
  | empty => exact isArranged_empty
  | added earlier ran induction => exact isArranged_of_add induction ran
  | reserved earlier ran induction => exact isArranged_of_reserve induction ran
  | allocated earlier ran induction => exact isArranged_of_allocateAs induction ran
  | freed earlier ran induction => exact isArranged_of_free induction ran
  | coalesced earlier induction => exact induction.coalesce

/-- A table that was built is sound if no two of its regions overlap. -/
theorem Built.isSound (built : table.Built) (apart : table.regions.Pairwise Region.Apart) :
    table.IsSound where
  proper region member := (built.isWellFormed region member).1
  whole region member := (built.isWellFormed region member).2
  separate := by
    refine apart.imp fun isApart => ?_
    exact fun _ => isApart

end RegionTable

end EarlyMemory
