import EarlyMemory.Proofs.Region.Management
import EarlyMemory.Proofs.Region.Building
import EarlyMemory.Region.Run

/-!
# Runs of regions

Merging regions that follow each other keeps runs to whole pages of the memory that the
regions cover. Each page of a run lies in a region of the run's kind, each nonempty region
in a run of its kind. Runs lie apart, or follow each other, as the regions do.
-/

namespace EarlyMemory

namespace Region

structure IsPageAligned (region : Region) : Prop where
  start : region.start.value % 4096 = 0
  stop : region.stop.value % 4096 = 0

theorem IsWhole.isPageAligned {region : Region} (whole : region.IsWhole) :
    region.IsPageAligned :=
  ⟨whole.start, whole.stop⟩

/-- Whether the addresses of one region lie below all those of another one. -/
def Precedes (left right : Region) : Prop :=
  ∀ lower higher, left.Covers lower → right.Covers higher → lower < higher

theorem precedes_of_stop_le {left right : Region} (follows : left.stop.value ≤ right.start.value) :
    left.Precedes right :=
  fun _ _ low high => Nat.lt_of_lt_of_le low.2 (Nat.le_trans follows high.1)

theorem Precedes.stop_le {left right : Region} (precedes : left.Precedes right)
    (leftProper : left.IsProper) (rightProper : right.IsProper) :
    left.stop.value ≤ right.start.value := by
  unfold IsProper at leftProper rightProper
  have last : left.Covers (left.stop.value - 1) := ⟨by omega, by omega⟩
  have first : right.Covers right.start.value := ⟨by omega, by omega⟩
  have below := precedes _ _ last first
  omega

end Region

namespace Run

variable {run left right : Run} {region : Region} {regions : List Region} {frame : Frame}

structure IsWellFormed (run : Run) : Prop where
  proper : run.base.value < run.stop.value
  base : run.base.value % 4096 = 0
  stop : run.stop.value % 4096 = 0

def HoldsPage (run : Run) (frame : Frame) : Prop :=
  frame.Within run.base.value run.stop.value

/-- Runs that can stand in one ledger. -/
def Separate (left right : Run) : Prop :=
  left.kind = .available ∨ right.kind = .available →
    left.stop.value ≤ right.base.value ∨ right.stop.value ≤ left.base.value

theorem Separate.symm (separate : left.Separate right) : right.Separate left :=
  fun available => (separate available.symm).symm

/-- The run of a region that goes on to the end of another one. -/
def through (run : Run) (region : Region) : Run :=
  { run with stop := region.stop }

theorem continuesInto_iff : run.continuesInto region = true ↔
    region.start = run.stop ∧ region.kernelKind = run.kind := by
  simp only [continuesInto, Bool.and_eq_true, beq_iff_eq]

/-- What holds of the first run and of each region, and stays when a run goes on into a
region, holds of all runs. -/
theorem forall_mem_extend {property : Run → Prop} (first : property run)
    (single : ∀ region ∈ regions, property (ofRegion region))
    (merged : ∀ run, ∀ region ∈ regions, property run → run.continuesInto region = true →
      property (run.through region)) : ∀ member ∈ run.extend regions, property member := by
  induction regions generalizing run with
  | nil =>
      intro member isMember
      rwa [List.mem_singleton.1 isMember]
  | cons next rest induction =>
      have later : ∀ region ∈ rest, property (ofRegion region) :=
        fun region isLater => single region (List.mem_cons_of_mem _ isLater)
      have mergedLater : ∀ run, ∀ region ∈ rest, property run →
          run.continuesInto region = true → property (run.through region) :=
        fun run region isLater => merged run region (List.mem_cons_of_mem _ isLater)
      intro member isMember
      unfold extend at isMember
      split at isMember
      next continues =>
        have grown := merged run next List.mem_cons_self first continues
        exact induction grown later mergedLater member isMember
      next =>
        rcases List.mem_cons.1 isMember with rfl | further
        · exact first
        · exact induction (single next List.mem_cons_self) later mergedLater member further

theorem isProper_of_mem_filter (kept : region ∈ regions.filter fun region => !region.isEmpty) :
    region.IsProper := by
  rw [List.mem_filter, Region.not_isEmpty_eq, decide_eq_true_iff] at kept
  exact kept.2

theorem forall_mem_ofRegions (property : Run → Prop)
    (single : ∀ region ∈ regions, region.IsProper → property (ofRegion region))
    (merged : ∀ run, ∀ region ∈ regions, region.IsProper → property run →
      run.continuesInto region = true → property (run.through region)) :
    ∀ member ∈ ofRegions regions, property member := by
  have kept : ∀ region ∈ regions.filter (fun region => !region.isEmpty),
      region ∈ regions ∧ region.IsProper := fun region isKept =>
    ⟨(List.mem_filter.1 isKept).1, isProper_of_mem_filter isKept⟩
  unfold ofRegions
  cases list : regions.filter fun region => !region.isEmpty with
  | nil => simp [ofNonempty]
  | cons first rest =>
      rw [list, List.forall_mem_cons] at kept
      apply forall_mem_extend (single first kept.1.1 kept.1.2)
      · intro region isLater
        exact single region (kept.2 region isLater).1 (kept.2 region isLater).2
      · intro run region isLater
        exact merged run region (kept.2 region isLater).1 (kept.2 region isLater).2

/-! ## Whole pages of the regions -/

theorem isWellFormed_ofRegion (proper : region.IsProper) (aligned : region.IsPageAligned) :
    (ofRegion region).IsWellFormed :=
  ⟨proper, aligned.start, aligned.stop⟩

theorem IsWellFormed.through (wellFormed : run.IsWellFormed) (proper : region.IsProper)
    (aligned : region.IsPageAligned) (continues : run.continuesInto region = true) :
    (run.through region).IsWellFormed := by
  rcases continuesInto_iff.1 continues with ⟨touching, _⟩
  unfold Region.IsProper at proper
  rw [touching] at proper
  exact ⟨Nat.lt_trans wellFormed.proper proper, wellFormed.base, aligned.stop⟩

def IsBacked (regions : List Region) (run : Run) : Prop :=
  ∀ frame, run.HoldsPage frame →
    ∃ region ∈ regions, region.kernelKind = run.kind ∧ region.HoldsPage frame

theorem IsBacked.through (backed : run.IsBacked regions) (wellFormed : run.IsWellFormed)
    (member : region ∈ regions) (continues : run.continuesInto region = true) :
    (run.through region).IsBacked regions := by
  rcases continuesInto_iff.1 continues with ⟨touching, sameKind⟩
  rintro frame ⟨above, below⟩
  have aligned := wellFormed.stop
  have boundary : region.start.value = run.stop.value := congrArg Address.value touching
  by_cases early : frame.number * 4096 + 4096 ≤ run.stop.value
  · exact backed frame ⟨above, early⟩
  · exact ⟨region, member, sameKind, by omega, below⟩

theorem mem_ofRegions (aligned : ∀ region ∈ regions, region.IsPageAligned)
    (member : run ∈ ofRegions regions) : run.IsWellFormed ∧ run.IsBacked regions := by
  refine forall_mem_ofRegions (fun run => run.IsWellFormed ∧ run.IsBacked regions)
    ?_ ?_ run member
  · intro region isRegion proper
    exact ⟨isWellFormed_ofRegion proper (aligned region isRegion),
      fun frame inside => ⟨region, isRegion, rfl, inside⟩⟩
  · rintro run region isRegion proper ⟨wellFormed, backed⟩ continues
    exact ⟨wellFormed.through proper (aligned region isRegion) continues,
      backed.through wellFormed isRegion continues⟩

/-! ## Every region in a run -/

structure Covers (run : Run) (region : Region) : Prop where
  kind : run.kind = region.kernelKind
  base : run.base.value ≤ region.start.value
  stop : region.stop.value ≤ run.stop.value

theorem exists_mem_extend (ordered : run.base.value ≤ run.stop.value)
    (proper : ∀ region ∈ regions, region.IsProper) :
    (∃ member ∈ run.extend regions, member.kind = run.kind ∧ member.base = run.base ∧
      run.stop.value ≤ member.stop.value) ∧
    ∀ region ∈ regions, ∃ member ∈ run.extend regions, member.Covers region := by
  induction regions generalizing run with
  | nil => exact ⟨⟨run, List.mem_singleton_self _, rfl, rfl, Nat.le_refl _⟩, by simp⟩
  | cons next rest induction =>
      rw [List.forall_mem_cons] at proper
      have properNext := proper.1
      unfold Region.IsProper at properNext
      unfold extend
      split
      next continues =>
        rcases continuesInto_iff.1 continues with ⟨touching, sameKind⟩
        have boundary : next.start.value = run.stop.value := congrArg Address.value touching
        have orderedNext : (run.through next).base.value ≤ (run.through next).stop.value := by
          change run.base.value ≤ next.stop.value
          omega
        rcases induction orderedNext proper.2 with ⟨⟨member, isMember, kind, base, stop⟩, others⟩
        have further : next.stop.value ≤ member.stop.value := stop
        have first : member.base.value = run.base.value := congrArg Address.value base
        refine ⟨⟨member, isMember, kind, base, by omega⟩, ?_⟩
        rw [List.forall_mem_cons]
        exact ⟨⟨member, isMember, kind.trans sameKind.symm, by omega, further⟩, others⟩
      next =>
        have orderedNext : (ofRegion next).base.value ≤ (ofRegion next).stop.value :=
          Nat.le_of_lt properNext
        rcases induction orderedNext proper.2 with
          ⟨⟨member, isMember, kind, base, stop⟩, others⟩
        refine ⟨⟨run, List.mem_cons_self, rfl, rfl, Nat.le_refl _⟩, ?_⟩
        rw [List.forall_mem_cons]
        refine ⟨⟨member, List.mem_cons_of_mem _ isMember, kind, ?_, stop⟩, ?_⟩
        · exact Nat.le_of_eq (congrArg Address.value base)
        · intro region isLater
          rcases others region isLater with ⟨other, isOther, covers⟩
          exact ⟨other, List.mem_cons_of_mem _ isOther, covers⟩

theorem exists_mem_ofRegions (member : region ∈ regions) (proper : region.IsProper) :
    ∃ run ∈ ofRegions regions, run.Covers region := by
  have kept : region ∈ regions.filter fun region => !region.isEmpty := by
    refine List.mem_filter.2 ⟨member, ?_⟩
    rw [Region.not_isEmpty_eq]
    exact decide_eq_true proper
  have properKept : ∀ region ∈ regions.filter (fun region => !region.isEmpty),
      region.IsProper := fun region => isProper_of_mem_filter
  unfold ofRegions
  cases list : regions.filter fun region => !region.isEmpty with
  | nil =>
      rw [list] at kept
      cases kept
  | cons first rest =>
      rw [list] at kept
      rw [list, List.forall_mem_cons] at properKept
      have ordered : (ofRegion first).base.value ≤ (ofRegion first).stop.value :=
        Nat.le_of_lt properKept.1
      rcases exists_mem_extend ordered properKept.2 with
        ⟨⟨run, isRun, kind, base, stop⟩, others⟩
      rcases List.mem_cons.1 kept with rfl | isLater
      · exact ⟨run, isRun, kind, Nat.le_of_eq (congrArg Address.value base), stop⟩
      · exact others region isLater

/-! ## Runs apart and in order -/

def Precedes (left right : Run) : Prop :=
  left.stop.value ≤ right.base.value

/-- A relation of runs that stays on either side when a run goes on into a region for which
it holds as well. -/
structure IsCarried (relation : Run → Run → Prop) : Prop where
  left {run other : Run} {region : Region} : relation run other →
    relation (ofRegion region) other → other.base.value < other.stop.value →
    run.continuesInto region = true → relation (run.through region) other
  right {run other : Run} {region : Region} : relation other run →
    relation other (ofRegion region) → other.base.value < other.stop.value →
    run.continuesInto region = true → relation other (run.through region)

theorem Separate.through {other : Run} (first : other.Separate run)
    (second : other.Separate (ofRegion region)) (proper : other.base.value < other.stop.value)
    (continues : run.continuesInto region = true) : other.Separate (run.through region) := by
  rcases continuesInto_iff.1 continues with ⟨touching, sameKind⟩
  intro available
  have boundary : region.start.value = run.stop.value := congrArg Address.value touching
  have apart := first available
  have apartLater := second (available.imp_right fun isAvailable => sameKind.trans isAvailable)
  simp only [ofRegion] at apartLater
  simp only [Run.through]
  omega

theorem isCarried_separate : IsCarried Separate where
  left first second proper continues :=
    (first.symm.through second.symm proper continues).symm
  right first second proper continues := first.through second proper continues

theorem isCarried_precedes : IsCarried Precedes where
  left _ second _ _ := second
  right first _ _ _ := first

/-- Whether a run that is available ends before another one begins. -/
def Clears (left right : Run) : Prop :=
  left.kind = .available → left.Precedes right

theorem isCarried_clears : IsCarried Clears where
  left _ second _ continues available :=
    second ((continuesInto_iff.1 continues).2.trans available)
  right first _ _ _ := first

theorem pairwise_extend {relation : Run → Run → Prop} (carried : IsCarried relation)
    (proper : run.base.value < run.stop.value) (properRegions : ∀ region ∈ regions, region.IsProper)
    (related : regions.Pairwise fun left right => relation (ofRegion left) (ofRegion right))
    (ahead : ∀ region ∈ regions, relation run (ofRegion region)) :
    (run.extend regions).Pairwise relation := by
  induction regions generalizing run with
  | nil => exact List.pairwise_singleton ..
  | cons next rest induction =>
      rw [List.pairwise_cons] at related
      rw [List.forall_mem_cons] at properRegions ahead
      rcases related with ⟨fromNext, relatedRest⟩
      rcases properRegions with ⟨properNext, properRest⟩
      unfold extend
      split
      next continues =>
        rcases continuesInto_iff.1 continues with ⟨touching, _⟩
        have properRun : run.base.value < (run.through next).stop.value := by
          unfold Region.IsProper at properNext
          rw [touching] at properNext
          exact Nat.lt_trans proper properNext
        apply induction properRun properRest relatedRest
        intro region isLater
        exact carried.left (ahead.2 region isLater) (fromNext region isLater)
          (properRest region isLater) continues
      next =>
        refine List.pairwise_cons.2 ⟨?_, induction properNext properRest relatedRest fromNext⟩
        exact forall_mem_extend ahead.1 ahead.2 fun _ region isLater relatedRun continues =>
          carried.right relatedRun (ahead.2 region isLater) proper continues

theorem pairwise_ofRegions {relation : Run → Run → Prop} (carried : IsCarried relation)
    (related : (regions.filter fun region => !region.isEmpty).Pairwise fun left right =>
      relation (ofRegion left) (ofRegion right)) : (ofRegions regions).Pairwise relation := by
  have properKept : ∀ region ∈ regions.filter (fun region => !region.isEmpty),
      region.IsProper := fun region => isProper_of_mem_filter
  unfold ofRegions
  cases list : regions.filter fun region => !region.isEmpty with
  | nil => exact List.Pairwise.nil
  | cons first rest =>
      rw [list, List.pairwise_cons] at related
      rw [list, List.forall_mem_cons] at properKept
      exact pairwise_extend carried properKept.1 properKept.2 related.2 related.1

theorem pairwise_separate (separate : regions.Pairwise Region.Separate) :
    (ofRegions regions).Pairwise Separate :=
  pairwise_ofRegions isCarried_separate (separate.filter _)

theorem pairwise_precedes (sorted : regions.Pairwise Region.Precedes) :
    (ofRegions regions).Pairwise Precedes :=
  pairwise_ofRegions isCarried_precedes ((sorted.filter _).imp_of_mem fun left right precedes =>
    precedes.stop_le (isProper_of_mem_filter left) (isProper_of_mem_filter right))

theorem pairwise_clears (ordered : Region.IsOrdered regions)
    (separate : regions.Pairwise Region.Separate) : (ofRegions regions).Pairwise Clears := by
  refine pairwise_ofRegions isCarried_clears (((ordered.and separate).filter _).imp_of_mem ?_)
  rintro left right _ isLater ⟨before, apart⟩ available
  have proper := isProper_of_mem_filter isLater
  have apart := apart (.inl available)
  unfold Region.IsProper at proper
  unfold Region.Apart at apart
  exact apart.resolve_right (by omega)

theorem Precedes.separate (precedes : left.Precedes right) : left.Separate right :=
  fun _ => .inl precedes

end Run

end EarlyMemory
