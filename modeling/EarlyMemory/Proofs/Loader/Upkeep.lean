import EarlyMemory.Loader.Image
import EarlyMemory.Proofs.Paging.Sources
import EarlyMemory.Proofs.Region.Coverage

/-!
# The region table of a loader

A loader asks its region table for pages and for nothing else. So however it ends, the table
is one that was built by requests, and it covers as many bytes as it did before.
-/

namespace EarlyMemory

open Operation (Maintains)
open Paged (AtSource)

namespace RegionTable

variable {capacity : Nat} {sorting : Region.Sorting} {holds : RegionTable capacity sorting → Prop}

/-- Whether a property stays true whatever pages are asked for. -/
def StandsAllocations (holds : RegionTable capacity sorting → Prop) : Prop :=
  ∀ (ε : Type) (pages : Nat) (kind : RegionKind),
    (allocateAs pages kind : Operation (RegionTable capacity sorting) ε _).Maintains holds

theorem StandsAllocations.allocateFrame {ε : Type} (stands : StandsAllocations holds) :
    (allocateFrame : Operation (RegionTable capacity sorting) ε _).Maintains holds :=
  .bind (stands ε 1 .reserved) fun _ => .pure

structure IsBuiltOver (bytes : Nat) (table : RegionTable capacity sorting) : Prop where
  built : table.Built
  covered : table.coveredBytes = bytes

theorem standsAllocations_isBuiltOver (capacity : Nat) (sorting : Region.Sorting) (bytes : Nat) :
    StandsAllocations (IsBuiltOver bytes : RegionTable capacity sorting → Prop) := by
  rintro ε pages kind table ⟨built, covered⟩
  rcases ran : (allocateAs pages kind : Operation (RegionTable capacity sorting) ε _).run table with
    ⟨outcome, after⟩
  exact ⟨.allocated built ran,
    (total_of_allocateAs Region.Measure.isUniform_bytes ran).trans covered⟩

end RegionTable

namespace Executable

variable {σ : Type} {holds : σ → Prop} (image : Executable)

theorem maintains_programHeader (index : Nat) :
    (image.programHeader index : Operation σ Refusal _).Maintains holds := by
  unfold programHeader
  dsimp only
  split
  · refine .bind .check fun start => .bind .check fun stop => ?_
    split
    · exact .check
    · split <;> split <;> first | exact .check | exact .pure
  · exact .refuse

theorem maintains_segmentAt (index : Nat) :
    (image.segmentAt index : Operation σ Refusal _).Maintains holds := by
  refine .bind (maintains_programHeader image index) fun header => ?_
  split
  · split
    · exact .pure
    · exact .refuse
  · exact .pure

theorem maintains_segmentsFrom (index remaining : Nat) :
    (image.segmentsFrom index remaining : Operation σ Refusal _).Maintains holds := by
  induction remaining generalizing index with
  | zero => exact .pure
  | succ remaining induction =>
      exact .bind (maintains_segmentAt image index) fun _ =>
        .bind (induction (index + 1)) fun _ => .pure

end Executable

namespace Loader

variable {capacity : Nat} {sorting : Region.Sorting} {root : Frame}
  {holds : RegionTable capacity sorting → Prop}

theorem maintains_link (frame : Frame) (levels : List Level) :
    (BootTables.link frame levels :
      Operation (Paged (RegionTable capacity sorting)) BootTables.Refusal Unit).Maintains
      (AtSource holds) := by
  induction levels generalizing frame with
  | nil => exact .pure
  | cons level below induction =>
      refine .bind Paged.maintains_inspect fun table =>
        .bind (Paged.maintains_changeMemory (Paged.standsWrites_atSource _)) fun _ => ?_
      split
      · exact .bind .check fun next =>
          .bind (Paged.maintains_changeMemory (Paged.standsWrites_atSource _)) fun _ =>
          induction next
      · exact .pure

theorem maintains_examine (image : Executable) :
    (examine image :
        Operation (Paged (RegionTable capacity sorting)) Executable.Refusal _).Maintains
      (AtSource holds) := by
  unfold examine
  split
  · exact .refuse
  · refine .bind (Executable.maintains_segmentsFrom image 0 image.tableLength) fun segments =>
      .bind .check fun stop => ?_
    split
    · exact .refuse
    · split
      · exact .refuse
      · exact .pure

variable (stands : RegionTable.StandsAllocations holds)

include stands

theorem maintains_map {target : PhysicalAddress} {address : VirtualAddress} {rights : Rights} :
    (BootTables.map root target address rights :
      Operation (Paged (RegionTable capacity sorting)) BootTables.Refusal Unit).Maintains
      (AtSource holds) := by
  refine .mapRefusal (AddressSpace.maintains_map ?_)
  exact Paged.maintains_onSource stands.allocateFrame

theorem maintains_mapIdentity (index remaining : Nat) :
    (BootTables.mapIdentity root index remaining :
      Operation (Paged (RegionTable capacity sorting)) BootTables.Refusal Unit).Maintains
      (AtSource holds) := by
  induction remaining generalizing index with
  | zero => exact .pure
  | succ remaining induction => exact .bind (maintains_map stands) fun _ => induction (index + 1)

theorem maintains_create (mode : BootTables.PagingMode) :
    (BootTables.create mode :
      Operation (Paged (RegionTable capacity sorting)) BootTables.Refusal _).Maintains
      (AtSource holds) := by
  cases mode with
  | legacy32 => exact .bind .report fun _ => .refuse
  | long64 =>
      refine .bind (Paged.maintains_onSource (stands _ _ _)) fun answer => ?_
      cases answer with
      | none => exact .bind .report fun _ => .refuse
      | some base =>
          exact .bind (maintains_link _ _) fun _ => .bind .report fun _ =>
            .bind (maintains_mapIdentity stands _ _) fun _ => .bind .report fun _ => .pure

theorem maintains_mapSegment {backing : PhysicalAddress} {address : VirtualAddress}
    {rights : Rights} (index remaining : Nat) :
    (mapSegment root backing address rights index remaining :
      Operation (Paged (RegionTable capacity sorting)) BootTables.Refusal Unit).Maintains
      (AtSource holds) := by
  induction remaining generalizing index with
  | zero => exact .pure
  | succ remaining induction =>
      exact .bind .check fun _ => .bind .check fun _ => .bind .check fun _ =>
        .bind (.reportRefusal (maintains_map stands)) fun _ => induction (index + 1)

theorem maintains_loadSegment {address : VirtualAddress} {pages : Nat} {rights : Rights} :
    (loadSegment root address pages rights :
      Operation (Paged (RegionTable capacity sorting)) BootTables.Refusal PhysicalAddress).Maintains
      (AtSource holds) := by
  refine .bind (Paged.maintains_onSource (stands _ _ _)) fun answer => ?_
  cases answer with
  | none => exact .bind .report fun _ => .refuse
  | some backing =>
      exact .bind (maintains_mapSegment stands 0 pages) fun _ => .bind .report fun _ => .pure

theorem maintains_place {source : ImageSource} {segment : Executable.Segment} :
    (place root source segment :
      Operation (Paged (RegionTable capacity sorting)) Executable.Refusal Unit).Maintains
      (AtSource holds) :=
  .bind .check fun _ =>
    .bind (.mapRefusal (maintains_loadSegment stands)) fun _ => .bind .check fun _ =>
    .bind (Paged.maintains_alter (Paged.standsWrites_atSource _)) fun _ => .bind .check fun _ =>
    .bind Paged.maintains_inspect fun _ => .bind .check fun _ =>
    .bind (Paged.maintains_changeMemory (Paged.standsWrites_atSource _)) fun _ => .report

theorem maintains_placeFrom {source : ImageSource} (index remaining : Nat) :
    (placeFrom root source index remaining :
      Operation (Paged (RegionTable capacity sorting)) Executable.Refusal Unit).Maintains
      (AtSource holds) := by
  induction remaining generalizing index with
  | zero => exact .pure
  | succ remaining induction =>
      refine .bind Paged.maintains_inspect fun image =>
        .bind (Executable.maintains_segmentAt image index) fun found => ?_
      cases found with
      | none => exact induction (index + 1)
      | some segment => exact .bind (maintains_place stands) fun _ => induction (index + 1)

theorem maintains_loadImage (source : ImageSource) :
    (loadImage root source :
      Operation (Paged (RegionTable capacity sorting)) Executable.Refusal KernelImage).Maintains
      (AtSource holds) :=
  .reportRefusal (.bind Paged.maintains_inspect fun image =>
    .bind (maintains_examine image) fun _ =>
    .bind (maintains_placeFrom stands 0 image.tableLength) fun _ => .bind .report fun _ => .pure)

end Loader

end EarlyMemory
