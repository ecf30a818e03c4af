import EarlyMemory.Proofs.Region.Requests
import Mathlib.Data.List.Pairwise

/-!
# Managed pages

A page is managed if it lies in a region that the kernel may come to manage. Handing
out a frame takes that frame from the managed pages, so a frame handed out to be a table
stays outside the kernel's memory. Pages allocated to an image stay managed but are no
longer on offer.
-/

namespace EarlyMemory

def Region.HoldsPage (region : Region) (frame : Frame) : Prop :=
  frame.Within region.start.value region.stop.value

namespace RegionTable

variable {capacity : Nat} {sorting : Region.Sorting}
  {start before middle after table : RegionTable capacity sorting} {taken host region : Region}
  {others : List Region} {frame : Frame}

def Manages (table : RegionTable capacity sorting) (frame : Frame) : Prop :=
  ∃ region ∈ table.regions, region.IsManaged ∧ region.HoldsPage frame

/-- Whether a page is recorded as backing an image. -/
def BacksImage (table : RegionTable capacity sorting) (frame : Frame) : Prop :=
  ∃ region ∈ table.regions, region.code = RegionKind.allocated.code ∧ region.HoldsPage frame

def IsReserved (table : RegionTable capacity sorting) (frame : Frame) : Prop :=
  ∃ region ∈ table.regions, region.code = RegionKind.reserved.code ∧ region.HoldsPage frame

theorem OffersFrame.manages (offered : table.OffersFrame frame) : table.Manages frame := by
  rcases offered with ⟨region, member, available, _, above, below⟩
  exact ⟨region, member, Region.isManaged_of_available available, above, below⟩

theorem BacksImage.manages (backs : table.BacksImage frame) : table.Manages frame := by
  rcases backs with ⟨region, member, allocated, holds⟩
  exact ⟨region, member, Region.isManaged_iff.2 (.inr allocated), holds⟩

theorem Manages.isLinkable_number (managed : table.Manages frame) (sound : table.IsSound) :
    frame.number < 1 <<< 40 := by
  rcases managed with ⟨region, member, _, _, below⟩
  have within := (sound.whole region member).within
  have limit : physicalLimit.value = 0x10000000000000 := rfl
  have bound : (1 : Nat) <<< 40 = 0x10000000000 := rfl
  omega

theorem IsSound.eq_of_holdsPage (sound : table.IsSound) {other : Region}
    (member : region ∈ table.regions) (isOther : other ∈ table.regions)
    (managed : region.IsManaged) (holds : region.HoldsPage frame)
    (otherHolds : other.HoldsPage frame) : region = other := by
  apply Decidable.byContradiction
  intro different
  have symmetric : Std.Symm Region.Separate := ⟨fun _ _ => Region.Separate.symm⟩
  have apart := sound.separate.forall member isOther different (.inl managed)
  unfold Region.HoldsPage Page.Within at holds otherHolds
  unfold Region.Apart at apart
  omega

theorem IsReserved.not_manages (reserved : table.IsReserved frame) (sound : table.IsSound) :
    ¬ table.Manages frame := by
  rintro ⟨region, member, managed, holds⟩
  rcases reserved with ⟨other, isOther, code, otherHolds⟩
  have same := sound.eq_of_holdsPage member isOther managed holds otherHolds
  subst same
  rw [Region.IsManaged, Region.kernelKind_of_code code] at managed
  cases managed

theorem BacksImage.not_offersFrame (backs : table.BacksImage frame) (sound : table.IsSound) :
    ¬ table.OffersFrame frame := by
  rintro ⟨region, member, available, _, holds⟩
  rcases backs with ⟨other, isOther, code, otherHolds⟩
  have same := sound.eq_of_holdsPage member isOther (Region.isManaged_of_available available) holds
    otherHolds
  subst same
  rw [available] at code
  cases code

namespace Carves

variable (carves : Carves before after taken host others)

include carves

theorem host_manages (inside : host.HoldsPage frame) : before.Manages frame :=
  ⟨host, carves.mem_before.2 (.inl rfl), Region.isManaged_of_available carves.available, inside⟩

/-- Carving makes no page managed. -/
theorem manages_of_manages (managed : after.Manages frame) : before.Manages frame := by
  have start := carves.start
  have stop := carves.stop
  have proper := carves.proper
  unfold Region.IsProper at proper
  rcases managed with ⟨region, member, isManaged, above, below⟩
  rcases (carves.mem_after.1 member).1 with rfl | rfl | rfl | isOther
  · exact carves.host_manages ⟨by omega, by omega⟩
  · simp only at above below
    exact carves.host_manages ⟨above, by omega⟩
  · simp only at above below
    exact carves.host_manages ⟨by omega, below⟩
  · exact ⟨region, carves.mem_before.2 (.inr isOther), isManaged, above, below⟩

theorem apart_of_manages (sound : before.IsSound) (unmanaged : ¬ taken.IsManaged)
    (managed : after.Manages frame) :
    frame.number * 4096 + 4096 ≤ taken.start.value ∨ taken.stop.value ≤ frame.number * 4096 := by
  have start := carves.start
  have stop := carves.stop
  rcases managed with ⟨region, member, isManaged, above, below⟩
  rcases (carves.mem_after.1 member).1 with rfl | rfl | rfl | isOther
  · exact absurd isManaged unmanaged
  · exact .inl below
  · exact .inr above
  · have apart := carves.apart_of_other sound isOther
    unfold Region.Apart at apart
    omega

end Carves

/-! ## Tables that follow a table -/

/-- What allocations of either kind leave of a table. -/
structure Precedes (before after : RegionTable capacity sorting) : Prop where
  manages : ∀ frame, after.Manages frame → before.Manages frame
  offers : ∀ frame, after.OffersFrame frame → before.OffersFrame frame
  regions : ∀ region ∈ before.regions, region.code ≠ RegionKind.available.code →
    region ∈ after.regions

namespace Precedes

theorem refl (table : RegionTable capacity sorting) : Precedes table table :=
  ⟨fun _ managed => managed, fun _ offered => offered, fun _ member _ => member⟩

theorem backsImage (precedes : Precedes before after) (backs : before.BacksImage frame) :
    after.BacksImage frame := by
  rcases backs with ⟨region, member, allocated, holds⟩
  refine ⟨region, precedes.regions region member ?_, allocated, holds⟩
  rw [allocated]
  decide

theorem isReserved (precedes : Precedes before after) (reserved : before.IsReserved frame) :
    after.IsReserved frame := by
  rcases reserved with ⟨region, member, code, holds⟩
  refine ⟨region, precedes.regions region member ?_, code, holds⟩
  rw [code]
  decide

theorem trans (first : Precedes before middle) (second : Precedes middle after) :
    Precedes before after where
  manages frame managed := first.manages frame (second.manages frame managed)
  offers frame offered := first.offers frame (second.offers frame offered)
  regions region member other := second.regions region (first.regions region member other) other

end Precedes

theorem Carves.precedes (carves : Carves before after taken host others) (sound : before.IsSound)
    (other : taken.code ≠ RegionKind.available.code)
    (high : lowMemoryEnd.value ≤ host.start.value) : Precedes before after where
  manages _ managed := carves.manages_of_manages managed
  offers _ offered := ((carves.offers_iff sound other high (by omega)).1 offered).1
  regions _ member notAvailable := carves.mem_of_other sound member notAvailable

/-- How a table looks that only handed out frames since: what it offers no more is reserved. -/
structure HandedFrames (start table : RegionTable capacity sorting) : Prop extends
    Precedes start table where
  handed : ∀ frame, start.OffersFrame frame → table.OffersFrame frame ∨ table.IsReserved frame

theorem HandsOut.precedes {answer : Option Frame} (handsOut : HandsOut before answer after)
    (sound : before.IsSound) : Precedes before after := by
  cases handsOut with
  | none => exact .refl before
  | frame frame taken host others start stop code high whole carves =>
      refine carves.precedes sound ?_ high
      rw [code]
      decide

theorem HandedFrames.refl (table : RegionTable capacity sorting) : HandedFrames table table :=
  ⟨.refl table, fun _ => .inl⟩

theorem HandedFrames.handOut {answer : Option Frame} (handed : HandedFrames start before)
    (sound : before.IsSound) (handsOut : HandsOut before answer after) :
    HandedFrames start after where
  toPrecedes := handed.toPrecedes.trans (handsOut.precedes sound)
  handed frame offered := by
    have precedes := handsOut.precedes sound
    rcases handed.handed frame offered with still | reserved
    · cases handsOut with
      | none => exact .inl still
      | frame page taken host others first last code high whole carves =>
          have other : taken.code ≠ RegionKind.available.code := by
            rw [code]
            decide
          by_cases same : frame = page
          · refine .inr ⟨taken, carves.taken_mem, code, ?_⟩
            unfold Region.HoldsPage Page.Within
            rw [same]
            omega
          · have different : frame.number ≠ page.number := fun equal => same (Page.ext equal)
            exact .inl ((carves.offers_iff sound other high (by omega)).2 ⟨still, by omega⟩)
    · exact .inr (precedes.isReserved reserved)

/-- The source of frames that a table is, seen from where it started. -/
def recordsSince (start : RegionTable capacity sorting) :
    OwnRecords (RegionTable capacity sorting) :=
  records ⟨HandedFrames start, fun sound handed handsOut => handed.handOut sound handsOut⟩

end RegionTable

end EarlyMemory
