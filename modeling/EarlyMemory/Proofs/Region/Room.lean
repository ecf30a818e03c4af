import EarlyMemory.Proofs.Region.Refusals

/-!
# Room for what is carved

A carving asks for its slots before the pieces without any length are dropped. It leaves one
region more for each side on which something of its host is left, and it asks for one slot at
least. So a carving that uses up its host needs a free slot that it does not keep, and a full
table refuses it.
-/

namespace EarlyMemory

namespace RegionTable

variable {capacity : Nat} {sorting : Region.Sorting} {ε : Type}
  {table before after : RegionTable capacity sorting}

/-- The same regions in another number of slots. -/
def withCapacity (table : RegionTable capacity sorting) (other : Nat) : RegionTable other sorting :=
  ⟨table.regions⟩

theorem regions_withCapacity (table : RegionTable capacity sorting) (other : Nat) :
    (table.withCapacity other).regions = table.regions :=
  rfl

theorem hostOfRange?_withCapacity (table : RegionTable capacity sorting) (other : Nat)
    (first last : PhysicalAddress) :
    (table.withCapacity other).hostOfRange? first last = table.hostOfRange? first last :=
  rfl

theorem hostOfPages?_withCapacity (table : RegionTable capacity sorting) (other pages : Nat) :
    (table.withCapacity other).hostOfPages? pages = table.hostOfPages? pages :=
  rfl

/-- Whether a table has too few slots for a carving that leaves a number of regions. A full
table has none for a carving that uses up its host, though that leaves as many as there were. -/
def LacksRoomFor (table : RegionTable capacity sorting) (left : Nat) : Prop :=
  capacity < left ∨ table.regions.length = capacity ∧ left = capacity

instance (table : RegionTable capacity sorting) (left : Nat) :
    Decidable (table.LacksRoomFor left) :=
  inferInstanceAs (Decidable (_ ∨ _))

/-! ## What a carving leaves -/

theorem Carves.length_eq {taken host : Region} {others : List Region}
    (carves : Carves before after taken host others)
    (proper : ∀ region ∈ before.regions, region.IsProper) :
    after.regions.length = before.regions.length +
      ((if host.start.value < taken.start.value then 1 else 0) +
        if taken.stop.value < host.stop.value then 1 else 0) := by
  have kept : others.filter (fun region => decide region.IsProper) = others :=
    List.filter_eq_self.2 fun region isOther =>
      decide_eq_true (proper region (carves.mem_before.2 (.inr isOther)))
  have takenProper := carves.proper
  have size : before.regions.length = others.length + 1 := carves.hosted.length_eq
  rw [carves.carved.length_eq, size]
  simp only [List.filter_cons, takenProper, kept, decide_true, if_true, decide_eq_true_eq]
  by_cases lower : host.start.value < taken.start.value <;>
    by_cases upper : taken.stop.value < host.stop.value <;>
      simp [Region.IsProper, lower, upper]

/-- A carving asks for the slots of the regions it adds, and for one if it adds none. -/
theorem length_add_slotsToCarve {found : Region.Found} {taken : Region} {others : List Region}
    (carves : Carves before after taken found.host others)
    (proper : ∀ region ∈ before.regions, region.IsProper) :
    before.regions.length + found.slotsToCarve taken.start taken.stop =
      max after.regions.length (before.regions.length + 1) := by
  have above := carves.start
  have below := carves.stop
  simp only [carves.length_eq proper, Region.Found.slotsToCarve, Address.ext_iff]
  split <;> split <;> split <;> omega

theorem lacksRoomFor_iff {capacity other : Nat} {table : RegionTable capacity sorting}
    {after : RegionTable other sorting} {found : Region.Found} {taken : Region}
    {others : List Region} (fits : table.regions.length ≤ capacity)
    (carves : Carves (table.withCapacity other) after taken found.host others)
    (proper : ∀ region ∈ table.regions, region.IsProper) :
    capacity < table.regions.length + found.slotsToCarve taken.start taken.stop ↔
      table.LacksRoomFor after.regions.length := by
  have asked := length_add_slotsToCarve carves proper
  have grown : table.regions.length ≤ after.regions.length := by
    rw [carves.length_eq proper]
    exact Nat.le_add_right ..
  rw [regions_withCapacity] at asked
  rw [asked, LacksRoomFor]
  omega

/-! ## The slots a request needs -/

/-- A reservation that succeeds with enough slots ends the same way with the slots there are,
unless they lack for what it leaves. -/
theorem run_reserve_of_withCapacity {other : Nat} {start stop : PhysicalAddress}
    {after : RegionTable other sorting} (built : table.Built)
    (ran : (reserve start stop).run (table.withCapacity other) = (.done (), after)) :
    (reserve start stop).run table =
      if (start.alignDown .small).value < (stop.alignUp .small).value ∧
          table.LacksRoomFor after.regions.length then
        (.refused (.full capacity), table)
      else
        (.done (), after.withCapacity capacity) := by
  by_cases nonempty : (start.alignDown .small).value < (stop.alignUp .small).value
  · cases search : (table.withCapacity other).hostOfRange? (start.alignDown .small)
      (stop.alignUp .small) with
    | none =>
        rw [run_reserve_of_missing nonempty search] at ran
        cases ran
    | some found =>
        have carves := carves_of_hostOfRange? search nonempty
        rw [run_reserve_of_found nonempty search] at ran
        split at ran
        next => cases ran
        next =>
          cases ran
          have lacks := lacksRoomFor_iff built.isArranged.length_le carves
            fun region member => (built.isWellFormed region member).1
          simp only [Region.of] at lacks
          rw [hostOfRange?_withCapacity] at search
          rw [run_reserve_of_found nonempty search]
          exact if_congr (lacks.trans (and_iff_right nonempty).symm) rfl rfl
  · have nothing := Nat.le_of_not_lt nonempty
    rw [run_reserve_of_empty nothing] at ran ⊢
    cases ran
    rw [if_neg fun both => nonempty both.1]
    rfl

theorem run_allocateAs_of_withCapacity {other pages : Nat} {kind : RegionKind}
    {base : PhysicalAddress} {after : RegionTable other sorting} (built : table.Built)
    (ran : (allocateAs pages kind : Operation (RegionTable other sorting) ε _).run
      (table.withCapacity other) = (.done (some base), after)) :
    (allocateAs pages kind : Operation (RegionTable capacity sorting) ε _).run table =
      if table.LacksRoomFor after.regions.length then
        (.done none, table)
      else
        (.done (some base), after.withCapacity capacity) := by
  by_cases trivial : pages = 0 ∨ 1 <<< 64 ≤ pages * 4096
  · rw [run_allocateAs_of_trivial trivial] at ran
    cases ran
  cases search : (table.withCapacity other).hostOfPages? pages with
  | none =>
      rw [run_allocateAs_of_missing trivial search] at ran
      cases ran
  | some found =>
      have positive := Nat.pos_of_ne_zero (not_or.1 trivial).1
      have carves := carves_of_hostOfPages? kind positive search
      rw [run_allocateAs_of_found kind trivial search] at ran
      split at ran
      next => cases ran
      next =>
        cases ran
        have lacks := lacksRoomFor_iff built.isArranged.length_le carves
          fun region member => (built.isWellFormed region member).1
        simp only [Region.of, slotsToCarve_start] at lacks
        rw [hostOfPages?_withCapacity] at search
        rw [run_allocateAs_of_found kind trivial search]
        exact if_congr lacks rfl rfl

/-- What succeeds with enough slots succeeds with the slots there are, and does the same, unless
it leaves more regions than slots or uses up its host in a full table. -/
theorem carvings_are_refused_for_room (built : table.Built) (other : Nat) :
    (∀ start stop (after : RegionTable other sorting),
      (reserve start stop).run (table.withCapacity other) = (.done (), after) →
      (reserve start stop).run table =
        if (start.alignDown .small).value < (stop.alignUp .small).value ∧
            table.LacksRoomFor after.regions.length then
          (.refused (.full capacity), table)
        else
          (.done (), after.withCapacity capacity)) ∧
    ∀ pages kind base (after : RegionTable other sorting),
      (allocateAs pages kind : Operation (RegionTable other sorting) ε _).run
          (table.withCapacity other) = (.done (some base), after) →
      (allocateAs pages kind : Operation (RegionTable capacity sorting) ε _).run table =
        if table.LacksRoomFor after.regions.length then
          (.done none, table)
        else
          (.done (some base), after.withCapacity capacity) :=
  ⟨fun _ _ _ => run_reserve_of_withCapacity built,
    fun _ _ _ _ => run_allocateAs_of_withCapacity built⟩

def threePages : RegionTable 2 :=
  ⟨[.of .available (.ofNat 0x100000) (.ofNat 0x103000)]⟩

theorem built_threePages : threePages.Built := by
  have added : (add .available (.ofNat 0x100000) (.ofNat 0x103000)).run
      (empty : RegionTable 2) = (.done (), threePages) := by
    decide +kernel
  exact Built.empty.added added

theorem threePages_are_cut_at_an_edge_only :
    (reserve (.ofNat 0x101234) (.ofNat 0x101235)).run threePages =
        (.refused (.full 2), threePages) ∧
      (allocateAs 1 .allocated : Operation (RegionTable 2) Empty _).run threePages =
        (.done (some (.ofNat 0x100000)),
          ⟨[.of .allocated (.ofNat 0x100000) (.ofNat 0x101000),
            .of .available (.ofNat 0x101000) (.ofNat 0x103000)]⟩) := by
  have reserved : (reserve (.ofNat 0x101234) (.ofNat 0x101235)).run (threePages.withCapacity 3) =
      (.done (), ⟨[.of .available (.ofNat 0x100000) (.ofNat 0x101000),
        .of .reserved (.ofNat 0x101000) (.ofNat 0x102000),
        .of .available (.ofNat 0x102000) (.ofNat 0x103000)]⟩) := by
    decide +kernel
  have allocated : (allocateAs 1 .allocated : Operation (RegionTable 3) Empty _).run
      (threePages.withCapacity 3) =
        (.done (some (.ofNat 0x100000)),
          ⟨[.of .allocated (.ofNat 0x100000) (.ofNat 0x101000),
            .of .available (.ofNat 0x101000) (.ofNat 0x103000)]⟩) := by
    decide +kernel
  rcases carvings_are_refused_for_room (ε := Empty) built_threePages 3 with ⟨reserving, allocating⟩
  exact ⟨(reserving _ _ _ reserved).trans (if_pos (by decide +kernel)),
    (allocating _ _ _ _ allocated).trans (if_neg (by decide +kernel))⟩

def onlyPage : RegionTable 1 :=
  ⟨[.of .available (.ofNat 0x100000) (.ofNat 0x101000)]⟩

/-- The page may neither be reserved nor given out, though one slot holds what either leaves. -/
theorem onlyPage_is_refused_for_a_slot_it_leaves_free :
    onlyPage.Built ∧
      (reserve (.ofNat 0x100000) (.ofNat 0x101000)).run (onlyPage.withCapacity 2) =
        (.done (), ⟨[.of .reserved (.ofNat 0x100000) (.ofNat 0x101000)]⟩) ∧
      (reserve (.ofNat 0x100000) (.ofNat 0x101000)).run onlyPage =
        (.refused (.full 1), onlyPage) ∧
      (allocate 1 : Operation (RegionTable 2) Empty _).run (onlyPage.withCapacity 2) =
        (.done (some (.ofNat 0x100000)),
          ⟨[.of .reserved (.ofNat 0x100000) (.ofNat 0x101000)]⟩) ∧
      (allocate 1 : Operation (RegionTable 1) Empty _).run onlyPage = (.done none, onlyPage) := by
  have added : (add .available (.ofNat 0x100000) (.ofNat 0x101000)).run
      (empty : RegionTable 1) = (.done (), onlyPage) := by
    decide +kernel
  exact ⟨Built.empty.added added, by decide +kernel, by decide +kernel, by decide +kernel,
    by decide +kernel⟩

end RegionTable

end EarlyMemory
