import EarlyMemory.Proofs.Region.Coverage

/-!
# Refusals

A table refuses a request, or has nothing to give out, for the reasons it states and for no
others. It is then left as it was.
-/

namespace EarlyMemory

/-- Whether an allocation of pages may be carved from the start of a region. -/
def Region.IsHostFor (region : Region) (pages : Nat) : Prop :=
  region.code = RegionKind.available.code ∧ lowMemoryEnd.value ≤ region.start.value ∧
    pages * 4096 ≤ region.length

namespace RegionTable

variable {capacity : Nat} {sorting : Region.Sorting} {ε : Type}
  {table after : RegionTable capacity sorting} {pages : Nat} {kind : RegionKind}

/-! ## Allocating -/

theorem exists_run_allocateAs (table : RegionTable capacity sorting) (kind : RegionKind)
    (regular : ¬ (pages = 0 ∨ 1 <<< 64 ≤ pages * 4096)) :
    ∃ answer after,
      (allocateAs pages kind : Operation (RegionTable capacity sorting) ε _).run table =
          (.done answer, after) ∧
        (answer = none ↔ (∀ region ∈ table.regions, ¬ region.IsHostFor pages) ∨
          capacity ≤ table.regions.length) := by
  cases search : table.hostOfPages? pages with
  | none =>
      refine ⟨_, _, run_allocateAs_of_missing regular search, iff_of_true rfl (.inl ?_)⟩
      intro region member host
      exact hostOfPages?_eq_none.1 search region member host.1 host.2.1 host.2.2
  | some found =>
      have hosted : ¬ ∀ region ∈ table.regions, ¬ region.IsHostFor pages := by
        intro missing
        have member : found.host ∈ table.regions :=
          (Region.Found.perm_of_findFirst? search).mem_iff.2 List.mem_cons_self
        exact missing found.host member (of_hostOfPages? search)
      have ran := run_allocateAs_of_found (ε := ε) kind regular search
      split at ran
      next full => exact ⟨_, _, ran, iff_of_true rfl (.inr (Nat.le_of_lt_succ full))⟩
      next free =>
        exact ⟨_, _, ran, iff_of_false (Option.some_ne_none _) fun either =>
          either.elim hosted (by omega)⟩

theorem allocateAs_answer (arranged : table.IsArranged) (room : table.regions.length < capacity)
    (pages : Nat) (kind : RegionKind) :
    ∃ answer after,
      (allocateAs pages kind : Operation (RegionTable capacity sorting) ε _).run table =
        (.done answer, after) ∧
      (answer = none ↔ pages = 0 ∨ 1 <<< 64 ≤ pages * 4096 ∨
        ∀ region ∈ table.regions, ¬ region.IsHostFor pages) ∧
      ∀ base, answer = some base →
        (∃ region ∈ table.regions, region.IsHostFor pages ∧ region.start = base) ∧
          ∀ region ∈ table.regions, region.IsHostFor pages →
            base.value ≤ region.start.value := by
  by_cases trivial : pages = 0 ∨ 1 <<< 64 ≤ pages * 4096
  · refine ⟨none, table, run_allocateAs_of_trivial trivial, iff_of_true rfl ?_, nofun⟩
    exact or_assoc.1 (.inl trivial)
  · rcases exists_run_allocateAs (ε := ε) table kind trivial with ⟨answer, after, ran, vain⟩
    refine ⟨answer, after, ran, ?_, ?_⟩
    · rw [vain, ← or_assoc]
      simp only [trivial, Nat.not_le_of_lt room, false_or, or_false]
    · rintro base rfl
      rcases allocates_of_allocateAs ran with ⟨_, ⟨⟩, allocates⟩
      cases allocates with
      | carved _ stop host others atStart extent high carves _ lowest =>
          refine ⟨⟨host, carves.mem_before.2 (.inl rfl), ⟨carves.available, ?_, ?_⟩,
            atStart.symm⟩, ?_⟩
          · rwa [← atStart]
          · have below : stop.value ≤ host.stop.value := carves.stop
            rw [Region.length, ← atStart]
            omega
          · rintro region member ⟨available, isHigh, isEnough⟩
            exact lowest arranged region member available isHigh isEnough

/-! ## The other requests -/

theorem run_reserve_eq_notContained_iff {start stop first last : PhysicalAddress} :
    ((reserve start stop).run table).1 = .refused (.notContained first last) ↔
      first = start.alignDown .small ∧ last = stop.alignUp .small ∧ first.value < last.value ∧
        ¬ ∃ region ∈ table.regions, region.code = RegionKind.available.code ∧
          region.start.value ≤ first.value ∧ last.value ≤ region.stop.value := by
  have held : (∃ region ∈ table.regions, region.code = RegionKind.available.code ∧
      region.start.value ≤ (start.alignDown .small).value ∧
        (stop.alignUp .small).value ≤ region.stop.value) ↔
      table.Offers 0 (start.alignDown .small).value (stop.alignUp .small).value := by
    simp only [Offers, Nat.zero_le, true_and]
  rcases reserve_spec table start stop with ⟨outcome, after, ran, reserves⟩
  rw [ran]
  cases reserves with
  | empty nothing =>
      refine iff_of_false (by simp) ?_
      rintro ⟨atFirst, atLast, nonempty, _⟩
      rw [atFirst, atLast] at nonempty
      omega
  | carved host others _ carves =>
      refine iff_of_false (by simp) ?_
      rintro ⟨atFirst, atLast, _, missing⟩
      apply missing
      rw [atFirst, atLast]
      exact ⟨host, carves.mem_before.2 (.inl rfl), carves.available, carves.start, carves.stop⟩
  | notContained nonempty missing =>
      simp only [Outcome.refused.injEq, RegionTableError.notContained.injEq]
      constructor
      · rintro ⟨atFirst, atLast⟩
        rw [← atFirst, ← atLast]
        exact ⟨rfl, rfl, nonempty, fun found => missing (held.1 found)⟩
      · rintro ⟨atFirst, atLast, _⟩
        exact ⟨atFirst.symm, atLast.symm⟩
  | full offers =>
      refine iff_of_false (by simp) ?_
      rintro ⟨atFirst, atLast, _, missing⟩
      apply missing
      rw [atFirst, atLast]
      exact held.2 offers

theorem run_free_eq_unknownReservation_iff {address start : PhysicalAddress} :
    ((free address).run table).1 = .refused (.unknownReservation start) ↔
      start = address.alignDown .small ∧
        ¬ ∃ region ∈ table.regions, region.code = RegionKind.reserved.code ∧
          region.start = start := by
  rcases free_spec table address with ⟨outcome, after, ran, frees⟩
  rw [ran]
  constructor
  · rintro rfl
    cases frees with
    | unknown missing =>
        refine ⟨rfl, ?_⟩
        rintro ⟨region, member, reserved, same⟩
        exact missing region member reserved same
  · rintro ⟨rfl, missing⟩
    cases frees with
    | unknown => rfl
    | freed _ host _ hosted reserved atStart =>
        exact absurd ⟨host, hosted.mem_iff.2 List.mem_cons_self, reserved, atStart⟩ missing

theorem run_add_eq_full_iff (arranged : table.IsArranged) {start stop : PhysicalAddress}
    {bound : Nat} :
    ((add kind start stop).run table).1 = .refused (.full bound) ↔
      bound = capacity ∧
        (pageSpan kind start.value stop.value).1 < (pageSpan kind start.value stop.value).2 ∧
        table.regions.length = capacity := by
  have fits := arranged.length_le
  rw [pageSpan_eq]
  by_cases proper : (rounded kind start stop).1.value < (rounded kind start stop).2.value
  · by_cases full : capacity < table.regions.length + 1
    · rw [run_add_of_full proper full]
      constructor
      · rintro ⟨⟩
        exact ⟨rfl, proper, by omega⟩
      · rintro ⟨rfl, _, _⟩
        rfl
    · rw [run_add_of_room proper full]
      exact iff_of_false nofun fun reasons => full (by omega)
  · rw [run_add_of_vanishing (Nat.le_of_not_lt proper)]
    exact iff_of_false nofun fun reasons => proper reasons.2.1

/-! ## All requests -/

theorem Serves.eq_of_vain {request : Request} {answer : Answer}
    (serves : Serves table request answer after)
    (vain : (∃ cause, answer = .error cause) ∨
      ∃ pages kind, request.Asks pages kind ∧ answer = .ok none) : after = table := by
  rcases vain with ⟨cause, rfl⟩ | ⟨pages, kind, asks, rfl⟩
  · cases serves
    rfl
  · cases serves with
    | granted _ allocates =>
        cases allocates
        rfl
    | added => cases asks
    | reserved => cases asks
    | freed => cases asks
    | coalesced => cases asks

/-- A table that was built answers every request. What it refuses or cannot give out leaves
it as it was, and it refuses a request or gives out nothing for the stated reasons only. -/
theorem requests_fail_for_stated_reasons (built : table.Built) :
    (∀ request : Request, ∃ answer after,
      (request.serve : Operation (RegionTable capacity sorting) ε Answer).run table =
          (.done answer, after) ∧
        ((∃ cause, answer = .error cause) ∨
          (∃ pages kind, request.Asks pages kind ∧ answer = .ok none) → after = table)) ∧
    (∀ start stop first last,
      ((reserve start stop).run table).1 = .refused (.notContained first last) ↔
        first = start.alignDown .small ∧ last = stop.alignUp .small ∧ first.value < last.value ∧
          ¬ ∃ region ∈ table.regions, region.code = RegionKind.available.code ∧
            region.start.value ≤ first.value ∧ last.value ≤ region.stop.value) ∧
    (table.regions.length < capacity → ∀ pages kind, ∃ answer after,
      (allocateAs pages kind : Operation (RegionTable capacity sorting) ε _).run table =
          (.done answer, after) ∧
        (answer = none ↔ pages = 0 ∨ 1 <<< 64 ≤ pages * 4096 ∨
          ∀ region ∈ table.regions, ¬ region.IsHostFor pages) ∧
        ∀ base, answer = some base →
          (∃ region ∈ table.regions, region.IsHostFor pages ∧ region.start = base) ∧
            ∀ region ∈ table.regions, region.IsHostFor pages →
              base.value ≤ region.start.value) ∧
    (∀ address start, ((free address).run table).1 = .refused (.unknownReservation start) ↔
      start = address.alignDown .small ∧
        ¬ ∃ region ∈ table.regions, region.code = RegionKind.reserved.code ∧
          region.start = start) ∧
    (∀ kind start stop bound, ((add kind start stop).run table).1 = .refused (.full bound) ↔
      bound = capacity ∧
        (pageSpan kind start.value stop.value).1 < (pageSpan kind start.value stop.value).2 ∧
        table.regions.length = capacity) := by
  refine ⟨fun request => ?_, fun _ _ _ _ => run_reserve_eq_notContained_iff,
    allocateAs_answer built.isArranged, fun _ _ => run_free_eq_unknownReservation_iff,
    fun _ _ _ _ => run_add_eq_full_iff built.isArranged⟩
  rcases built.serve (ε := ε) request with ⟨answer, after, ran, _, serves⟩
  exact ⟨answer, after, ran, serves.eq_of_vain⟩

theorem overlapping_regions_are_refused_for_stated_reasons :
    ((reserve ⟨0x1234, by decide⟩ ⟨0x1235, by decide⟩).run overlapping).1 =
        .refused (.notContained ⟨0x1000, by decide⟩ ⟨0x2000, by decide⟩) ∧
      ((free ⟨0x2000, by decide⟩).run overlapping).1 =
        .refused (.unknownReservation ⟨0x2000, by decide⟩) := by
  rcases requests_fail_for_stated_reasons (ε := Empty) built_overlapping with
    ⟨_, reserving, _, freeing, _⟩
  exact ⟨(reserving _ _ _ _).2 (by decide +kernel), (freeing _ _).2 (by decide +kernel)⟩

end RegionTable

end EarlyMemory
