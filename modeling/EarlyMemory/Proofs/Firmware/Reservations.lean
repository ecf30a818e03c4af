import EarlyMemory.Proofs.Firmware.Fencing
import EarlyMemory.Proofs.Region.Management

/-!
# Reservations on a recorded map

Whatever is managed is memory that the firmware reports as available, and clear of every
range that could be reserved. Reserving, handing out and backing an image only ever take
pages from it.
-/

namespace EarlyMemory

open Operation

/-- Whether the firmware reports all of a page as available. -/
def ReportedRange.Supplies (map : List ReportedRange) (frame : Frame) : Prop :=
  ∃ range ∈ map, range.kind = 1 ∧ frame.Within range.start.value range.stop.value

namespace ReportedRange

theorem kind_of_regionKind {range : ReportedRange} (available : range.regionKind = .available) :
    range.kind = 1 := by
  unfold regionKind at available
  split at available <;> first | assumption | cases available

/-- Rounding inward adds no page. -/
theorem within_of_recorded {range : ReportedRange} {frame : Frame}
    (managed : range.recorded.IsManaged) (holds : range.recorded.HoldsPage frame) :
    range.kind = 1 ∧ frame.Within range.start.value range.stop.value := by
  have available := regionKind_eq_available managed
  have inward : range.regionKind.roundsInward = true := by
    rw [available]
    rfl
  rcases RegionTable.rounded_of_inward inward range.start range.stop with ⟨first, last⟩
  have limit : physicalLimit.value = 0x10000000000000 := rfl
  rcases holds with ⟨above, below⟩
  simp only [recorded, Region.of, first, last] at above below
  refine ⟨kind_of_regionKind available, ?_⟩
  unfold Page.Within
  omega

end ReportedRange

/-- Whether a page shares no page with a range. -/
def KeptRange.MissesPage (range : KeptRange) (frame : Frame) : Prop :=
  range.Misses (frame.number * 4096) (frame.number * 4096 + 4096)

namespace MemoryMap

variable {capacity : Nat} {sorting : Region.Sorting}
  {recorded before after table : RegionTable capacity sorting} {map : List ReportedRange}
  {kept : List KeptRange} {range : KeptRange} {frame : Frame}

/-- What holds of a table that was made from a map, with ranges reserved in it. -/
structure Respects (map : List ReportedRange) (kept : List KeptRange)
    (table : RegionTable capacity sorting) : Prop where
  sound : table.IsSound
  reported : ∀ frame, table.Manages frame → ReportedRange.Supplies map frame
  missed : ∀ range ∈ kept, ∀ frame, table.Manages frame → range.MissesPage frame

theorem Respects.of_manages (respects : Respects map kept before) (sound : after.IsSound)
    (fewer : ∀ frame, after.Manages frame → before.Manages frame) : Respects map kept after where
  sound := sound
  reported frame managed := respects.reported frame (fewer frame managed)
  missed range isKept frame managed := respects.missed range isKept frame (fewer frame managed)

/-! ## The recorded map -/

theorem respects_of_recordRanges (apart : map.Pairwise ReportedRange.Apart)
    (done : (recordRanges map).run (RegionTable.empty : RegionTable capacity sorting) =
      (.done (), recorded)) : Respects map [] recorded where
  sound := isSound_of_recordRanges apart done
  reported frame managed := by
    rcases managed with ⟨region, member, isManaged, holds⟩
    rcases (mem_recordRanges done).1 member with ⟨_, reported, isReported, rfl⟩
    exact ⟨reported, isReported, ReportedRange.within_of_recorded isManaged holds⟩
  missed range none := by cases none

/-! ## Reserving -/

theorem missesPage_of_empty (nothing : range.last ≤ range.first) (frame : Frame) :
    range.MissesPage frame := by
  have first := range.first_mod
  have last := range.last_mod
  unfold KeptRange.MissesPage KeptRange.Misses
  omega

theorem Respects.reserve {outcome : Outcome RegionTableError Unit}
    (respects : Respects map kept before)
    (ran : (RegionTable.reserve range.start range.stop).run before = (outcome, after)) :
    Respects map kept after ∧
      (outcome = .done () → Respects map (range :: kept) after) := by
  cases RegionTable.reserves_of_reserve ran with
  | empty nothing =>
      refine ⟨respects, fun _ => ⟨respects.sound, respects.reported, ?_⟩⟩
      rw [List.forall_mem_cons]
      exact ⟨fun frame _ => missesPage_of_empty nothing frame, respects.missed⟩
  | notContained => exact ⟨respects, by simp⟩
  | full => exact ⟨respects, by simp⟩
  | carved host others nonempty carves =>
      have hostWhole := respects.sound.whole host (carves.mem_before.2 (.inl rfl))
      have sound := carves.isSound respects.sound
        ⟨range.first_mod, range.last_mod, Nat.le_trans carves.stop hostWhole.within⟩
      have unmanaged : ¬ (Region.of .reserved (range.start.alignDown .small)
          (range.stop.alignUp .small)).IsManaged := by
        have code : (Region.of .reserved (range.start.alignDown .small)
          (range.stop.alignUp .small)).code = RegionKind.reserved.code := rfl
        rw [Region.IsManaged, Region.kernelKind_of_code code]
        decide
      have fewer : ∀ frame, after.Manages frame → before.Manages frame :=
        fun frame managed => carves.manages_of_manages managed
      refine ⟨respects.of_manages sound fewer, fun _ => ?_⟩
      refine ⟨sound, (respects.of_manages sound fewer).reported, ?_⟩
      rw [List.forall_mem_cons]
      refine ⟨fun frame managed => ?_, (respects.of_manages sound fewer).missed⟩
      exact carves.apart_of_manages respects.sound unmanaged managed

theorem exists_run_reserve {what : String} {start stop : PhysicalAddress}
    {outcome : Outcome RegionTableError Unit}
    (ran : (fence what start stop).run before = (outcome, after)) :
    ∃ ending, (RegionTable.reserve start stop).run before = (ending, after) := by
  unfold fence at ran
  rw [run_bind, run_attempt] at ran
  rcases reserving : (RegionTable.reserve start stop).run before with
    ⟨value | cause | cause, reserved⟩
  · rw [reserving] at ran
    cases ran
    exact ⟨_, rfl⟩
  · rw [reserving] at ran
    cases cause <;> cases ran <;> exact ⟨_, rfl⟩
  · rw [reserving] at ran
    cases ran
    exact ⟨_, rfl⟩

/-- Calls that fence ranges off on a table, with the ranges that were reserved. -/
inductive Fences (recorded : RegionTable capacity sorting) :
    List KeptRange → RegionTable capacity sorting → Prop
  | nil : Fences recorded [] recorded
  | reserved {before after reserved : RegionTable capacity sorting} {kept : List KeptRange}
      {range : KeptRange} {what : String} {outcome : Outcome RegionTableError Unit}
      (earlier : Fences recorded kept before)
      (reserves : (RegionTable.reserve range.start range.stop).run before =
        (.done (), reserved))
      (ran : (fence what range.start range.stop).run before = (outcome, after)) :
      Fences recorded (range :: kept) after
  | refused {before after : RegionTable capacity sorting} {kept : List KeptRange}
      {range : KeptRange} {what : String} {outcome : Outcome RegionTableError Unit}
      (earlier : Fences recorded kept before)
      (refuses : ((RegionTable.reserve range.start range.stop).run before).1 ≠ .done ())
      (ran : (fence what range.start range.stop).run before = (outcome, after)) :
      Fences recorded kept after

theorem Fences.respects (fences : Fences recorded kept table)
    (respects : Respects map [] recorded) : Respects map kept table := by
  induction fences with
  | nil => exact respects
  | reserved earlier reserves ran induction =>
      rcases exists_run_reserve ran with ⟨_, reserving⟩
      rw [reserves] at reserving
      cases reserving
      exact (induction.reserve reserves).2 rfl
  | refused earlier refuses ran induction =>
      rcases exists_run_reserve ran with ⟨_, reserving⟩
      exact (induction.reserve reserving).1

theorem Fences.built (fences : Fences recorded kept table) (built : recorded.Built) :
    table.Built := by
  induction fences with
  | nil => exact built
  | reserved earlier reserves ran induction =>
      rcases exists_run_reserve ran with ⟨_, reserving⟩
      exact .reserved induction reserving
  | refused earlier refuses ran induction =>
      rcases exists_run_reserve ran with ⟨_, reserving⟩
      exact .reserved induction reserving

/-! ## Building as a whole -/

theorem Fences.fence (fences : Fences recorded kept before) {what : String} (range : KeptRange)
    {outcome : Outcome RegionTableError Unit}
    (ran : (fence what range.start range.stop).run before = (outcome, after)) :
    ∃ more, Fences recorded more after := by
  by_cases done : ((RegionTable.reserve range.start range.stop).run before).1 = .done ()
  · exact ⟨range :: kept, .reserved fences (run_eq_of_outcome done) ran⟩
  · exact ⟨kept, .refused fences done ran⟩

theorem Fences.fenceModules {modules : List (Except Fault BootModule)}
    (fences : Fences recorded kept before)
    (done : (fenceModules modules).run before = (.done (), after)) :
    ∃ more, Fences recorded more after := by
  induction modules generalizing kept before with
  | nil =>
      cases done
      exact ⟨kept, fences⟩
  | cons first rest induction =>
      rcases of_run_fenceModules_cons done with ⟨bootModule, between, rfl, fenced, done⟩
      rcases fences.fence ⟨bootModule.start, bootModule.stop⟩ fenced with ⟨_, further⟩
      exact induction further done

theorem fences_of_build {information : BootInformation}
    {address imageStart imageStop : PhysicalAddress} (reported : information.ranges = .ok map)
    (done : (build information address imageStart imageStop).run before = (.done (), table)) :
    ∃ recorded kept, (recordRanges map).run before = (.done (), recorded) ∧
      Fences recorded kept table := by
  rcases of_run_build done with ⟨_, stop, recorded, fencedImage, fencedInfo, sameMap, recording,
    fencingImage, _, fencingInfo, fencingModules⟩
  rw [reported] at sameMap
  cases sameMap
  rcases Fences.nil.fence ⟨imageStart, imageStop⟩ fencingImage with ⟨_, image⟩
  rcases image.fence ⟨address, stop⟩ fencingInfo with ⟨_, info⟩
  rcases info.fenceModules fencingModules with ⟨kept, modules⟩
  exact ⟨recorded, kept, recording, modules⟩

theorem built_of_recordRanges (built : before.Built)
    (done : (recordRanges map).run before = (.done (), recorded)) : recorded.Built := by
  induction map generalizing before with
  | nil =>
      cases done
      exact built
  | cons range rest induction =>
      rw [recordRanges] at done
      rcases of_run_bind done with ⟨_, between, added, done⟩
      exact induction (.added built added) done

end MemoryMap

end EarlyMemory
