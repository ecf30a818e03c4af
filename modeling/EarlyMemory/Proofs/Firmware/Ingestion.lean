import EarlyMemory.Proofs.Firmware.RecordedMap
import EarlyMemory.Proofs.Region.Coverage

/-!
# What ingesting the memory map keeps

Ingestion clips and rounds every reported range, and its table then says of each page below
the physical limit what the firmware said of it: a page is available only if one available
range holds all of it, and available if one does; no byte of a hazard is lost. Where a
range ends is computed without regard to the last address here. That the end of a range
saturates there makes no difference below the limit.
-/

namespace EarlyMemory

namespace ReportedRange

variable {range : ReportedRange}

/-- Whether a byte is one that the range reports. -/
def Covers (range : ReportedRange) (byte : Nat) : Prop :=
  range.base.value ≤ byte ∧ byte < range.base.value + range.length

/-- Where the whole pages start and end that stand for a range. -/
def span (range : ReportedRange) : Nat × Nat :=
  RegionTable.pageSpan range.regionKind range.base.value (range.base.value + range.length)

/-- Whether anything is left of a range once it is clipped and rounded. -/
def Survives (range : ReportedRange) : Prop :=
  range.span.1 < range.span.2

instance (range : ReportedRange) : Decidable range.Survives :=
  inferInstanceAs (Decidable (_ < _))

theorem span_eq (range : ReportedRange) :
    range.span = (range.recorded.start.value, range.recorded.stop.value) := by
  have clipped : min (range.base.value + range.length) physicalLimit.value =
      min range.stop.value physicalLimit.value := by
    have limit : physicalLimit.value = 0x10000000000000 := rfl
    have saturated : range.stop.value = min (range.base.value + range.length) (1 <<< 64 - 1) := rfl
    omega
  have same : range.span =
      RegionTable.pageSpan range.regionKind range.start.value range.stop.value := by
    unfold span RegionTable.pageSpan
    rw [clipped, start]
  rw [same, RegionTable.pageSpan_eq, recorded, Region.of]

/-- A hazard keeps the last page of physical memory, even if it ends past the last address. -/
example : (ReportedRange.mk (.ofNat 0xffffffffffffff) 0xffffffffffffffff 2).span =
    (0x10000000000000, 0x10000000000000) ∧
    (ReportedRange.mk (.ofNat 0xfffffffffffff) 0xffffffffffffffff 2).span =
      (0xffffffffff000, 0x10000000000000) := by
  decide

theorem survives_iff : range.Survives ↔ range.recorded.IsProper := by
  rw [Survives, span_eq]
  rfl

theorem regionKind_eq_available_iff : range.regionKind = .available ↔ range.kind = 1 := by
  unfold regionKind
  split <;> simp_all

theorem code_recorded : range.recorded.code = range.regionKind.code :=
  rfl

theorem code_recorded_eq_available_iff :
    range.recorded.code = RegionKind.available.code ↔ range.kind = 1 := by
  rw [code_recorded, ← regionKind_eq_available_iff]
  cases range.regionKind <;> decide

/-- An available range is recorded as the pages that it holds all of. -/
theorem covers_recorded_of_available {address : Nat} (available : range.kind = 1) :
    range.recorded.Covers address ↔ address < physicalLimit.value ∧
      ∀ byte, byte / 4096 = address / 4096 → range.Covers byte := by
  have limit : physicalLimit.value = 0x10000000000000 := rfl
  have spans := range.span_eq
  rw [span, RegionTable.pageSpan, if_pos (regionKind_eq_available_iff.2 available),
    Prod.mk.injEq] at spans
  rw [Region.covers_iff, ← spans.1, ← spans.2]
  constructor
  · intro covered
    exact ⟨by omega, fun byte samePage => ⟨by omega, by omega⟩⟩
  · rintro ⟨low, whole⟩
    have first := whole (address / 4096 * 4096) (by omega)
    have last := whole (address / 4096 * 4096 + 4095) (by omega)
    unfold Covers at first last
    omega

/-- A hazard is recorded with all of its bytes that physical memory has. -/
theorem covers_recorded_of_hazard {byte : Nat} (hazard : range.kind ≠ 1)
    (low : byte < physicalLimit.value) (covered : range.Covers byte) :
    range.recorded.Covers byte := by
  have limit : physicalLimit.value = 0x10000000000000 := rfl
  have spans := range.span_eq
  rw [span, RegionTable.pageSpan, if_neg (mt regionKind_eq_available_iff.1 hazard),
    Prod.mk.injEq] at spans
  rw [Region.covers_iff, ← spans.1, ← spans.2]
  unfold Covers at covered
  omega

end ReportedRange

namespace MemoryMap

open Operation

variable {capacity : Nat} {sorting : Region.Sorting} {table after : RegionTable capacity sorting}

/-- What a table says of reported ranges, page by page below the physical limit. -/
structure Reflects (table : RegionTable capacity sorting) (ranges : List ReportedRange) : Prop where
  /-- A page of available memory lies in one range that is available. -/
  conservative : ∀ region ∈ table.regions, region.code = RegionKind.available.code →
    ∀ address, region.Covers address → ∃ range ∈ ranges, range.kind = 1 ∧
      ∀ byte, byte / 4096 = address / 4096 → range.Covers byte
  /-- A page that lies in one range that is available lies in available memory. -/
  complete : ∀ range ∈ ranges, range.kind = 1 → ∀ page, page < physicalLimit.value / 4096 →
    (∀ byte, byte / 4096 = page → range.Covers byte) →
    ∃ region ∈ table.regions, region.code = RegionKind.available.code ∧
      ∀ byte, byte / 4096 = page → region.Covers byte
  /-- Each byte of a hazard lies in a region of its kind. -/
  hazards : ∀ range ∈ ranges, range.kind ≠ 1 →
    ∀ byte, byte < physicalLimit.value → range.Covers byte →
    ∃ region ∈ table.regions, region.code = range.regionKind.code ∧ region.Covers byte

theorem reflects_of_perm {ranges : List ReportedRange}
    (perm : table.regions.Perm
      ((ranges.map ReportedRange.recorded).filter fun region => decide region.IsProper)) :
    Reflects table ranges := by
  have found : ∀ range ∈ ranges, ∀ address, range.recorded.Covers address →
      range.recorded ∈ table.regions := by
    intro range reported address covered
    have proper : range.recorded.IsProper := Nat.lt_of_le_of_lt covered.1 covered.2
    exact perm.mem_iff.2
      (List.mem_filter.2 ⟨List.mem_map_of_mem reported, decide_eq_true proper⟩)
  constructor
  · intro region member available address covered
    rcases List.mem_map.1 (List.mem_filter.1 (perm.mem_iff.1 member)).1 with
      ⟨range, reported, rfl⟩
    have kind := ReportedRange.code_recorded_eq_available_iff.1 available
    exact ⟨range, reported, kind,
      ((ReportedRange.covers_recorded_of_available kind).1 covered).2⟩
  · intro range reported kind page low whole
    have limit : physicalLimit.value = 0x10000000000000 := rfl
    have covered : ∀ byte, byte / 4096 = page → range.recorded.Covers byte := by
      intro byte inPage
      refine (ReportedRange.covers_recorded_of_available kind).2 ⟨by omega, ?_⟩
      rw [inPage]
      exact whole
    exact ⟨range.recorded, found range reported _ (covered (page * 4096) (by omega)),
      ReportedRange.code_recorded_eq_available_iff.2 kind, covered⟩
  · intro range reported kind byte low covered
    have recorded := ReportedRange.covers_recorded_of_hazard kind low covered
    exact ⟨range.recorded, found range reported byte recorded, rfl, recorded⟩

/-! ## How ingestion ends -/

theorem run_add (range : ReportedRange) (proper : ∀ region ∈ table.regions, region.IsProper)
    (fits : table.regions.length ≤ capacity) :
    (∃ after, (RegionTable.add range.regionKind range.start range.stop).run table =
        (.done (), after) ∧ after.regions.length ≤ capacity ∧
        after.regions.length = table.regions.length + if range.Survives then 1 else 0) ∨
      range.Survives ∧ capacity < table.regions.length + 1 ∧
        (RegionTable.add range.regionKind range.start range.stop).run table =
          (.refused (.full capacity), table) := by
  by_cases survives : range.Survives
  · have rounds := ReportedRange.survives_iff.1 survives
    by_cases full : capacity < table.regions.length + 1
    · exact .inr ⟨survives, full, RegionTable.run_add_of_full rounds full⟩
    · have done := RegionTable.run_add_of_room rounds full
      have length := (perm_of_add proper done).length_eq
      rw [List.filter_cons_of_pos (by simpa using rounds), filter_proper proper] at length
      refine .inl ⟨_, done, ?_, ?_⟩
      · rw [length, List.length_cons]
        omega
      · rw [length, if_pos survives, List.length_cons]
  · have vanishes := Nat.le_of_not_lt (mt ReportedRange.survives_iff.2 survives)
    exact .inl ⟨table, RegionTable.run_add_of_vanishing vanishes, fits, by simp [survives]⟩

/-- Ranges are recorded exactly if there is room for all that something is left of. -/
theorem run_recordRanges (ranges : List ReportedRange)
    (proper : ∀ region ∈ table.regions, region.IsProper)
    (fits : table.regions.length ≤ capacity) :
    ∃ after, (recordRanges ranges).run table =
      (if capacity < table.regions.length + ranges.countP (fun range => decide range.Survives)
        then .refused (.full capacity) else .done (), after) := by
  induction ranges generalizing table with
  | nil => exact ⟨table, by rw [if_neg (by simpa using fits)]; rfl⟩
  | cons range rest induction =>
      rw [recordRanges, List.countP_cons]
      rcases run_add range proper fits with
        ⟨between, done, stillFits, length⟩ | ⟨survives, full, refused⟩
      · have properBetween : ∀ region ∈ between.regions, region.IsProper := fun region member =>
          of_decide_eq_true (List.mem_filter.1 ((perm_of_add proper done).mem_iff.1 member)).2
        rcases induction properBetween stillFits with ⟨after, remaining⟩
        refine ⟨after, ?_⟩
        rw [run_bind_of_done done, remaining, length]
        simp only [decide_eq_true_eq, Nat.add_assoc, Nat.add_comm (if range.Survives then 1 else 0)]
      · refine ⟨table, ?_⟩
        rw [run_bind_of_refused refused, if_pos (by simp [survives]; omega)]

/-- Ingestion ends with the number of ranges unless more of them survive clipping and
rounding than the table has room for; then the table is full. Nothing else happens,
whatever the firmware reports. A table that holds all ranges reflects them. -/
theorem ingest_reflects (ranges : List ReportedRange) :
    ∃ table : RegionTable capacity sorting, (ingest ranges).run .empty =
      (if capacity < ranges.countP (fun range => decide range.Survives)
        then .refused (.full capacity) else .done ranges.length, table) ∧
      (ranges.countP (fun range => decide range.Survives) ≤ capacity → Reflects table ranges) := by
  have proper : ∀ region ∈ (RegionTable.empty : RegionTable capacity sorting).regions,
      region.IsProper := by
    simp [RegionTable.empty]
  rcases run_recordRanges ranges proper (Nat.zero_le _) with ⟨table, recording⟩
  have none : (RegionTable.empty : RegionTable capacity sorting).regions.length = 0 := rfl
  rw [none, Nat.zero_add] at recording
  by_cases full : capacity < ranges.countP fun range => decide range.Survives
  · rw [if_pos full] at recording
    refine ⟨table, ?_, fun room => absurd full (Nat.not_lt_of_le room)⟩
    rw [ingest_eq, run_bind_of_refused recording, if_pos full]
  · rw [if_neg full] at recording
    have perm := perm_of_recordRanges proper recording
    rw [RegionTable.empty, List.append_nil] at perm
    refine ⟨table, ?_, fun _ => reflects_of_perm perm⟩
    rw [ingest_eq, run_bind_of_done recording, if_neg full, run_pure]

end MemoryMap

end EarlyMemory
