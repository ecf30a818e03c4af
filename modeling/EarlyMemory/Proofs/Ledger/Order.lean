import EarlyMemory.Proofs.Ledger.Bits
import EarlyMemory.Proofs.Ledger.Records
import Mathlib.Data.List.Pairwise

/-!
# Ledgers in order

A ledger is in order while its descriptors share neither pages nor bytes of bitmap, its
own bytes stand in frames kept for it and no bit is set that stands for no page. Then each
page of an available run has exactly one bit. Changing that bit changes no descriptor and
no other bit, and writes to frames that are not kept change nothing at all.
-/

namespace EarlyMemory

open Memory (AgreesOutside)

namespace Descriptor

variable {left right descriptor : Descriptor} {index : Nat} {frame page : Frame}

structure IsWellFormed (descriptor : Descriptor) : Prop where
  base : descriptor.base.value % 4096 = 0
  within : descriptor.base.value + descriptor.pages * 4096 < 1 <<< 64

/-- Whether a bit of an available run stands for a page. -/
structure Tracks (descriptor : Descriptor) (index : Nat) (page : Frame) : Prop where
  available : descriptor.kind = .available
  below : index < descriptor.pages
  page : page.number * 4096 = descriptor.base.value + index * 4096

/-- Whether a bit lies in the bitmap of an available run, be it that of a page or not. -/
structure HasBit (descriptor : Descriptor) (index : Nat) : Prop where
  available : descriptor.kind = .available
  within : index / 8 < descriptor.bitmapBytes

/-- Whether two descriptors share no byte of bitmap, and no page that is available. -/
structure Apart (left right : Descriptor) : Prop where
  bitmaps : left.bitmapOffset + left.bitmapBytes ≤ right.bitmapOffset ∨
    right.bitmapOffset + right.bitmapBytes ≤ left.bitmapOffset
  pages : left.kind = .available ∨ right.kind = .available →
    left.base.value + left.pages * 4096 ≤ right.base.value ∨
      right.base.value + right.pages * 4096 ≤ left.base.value

theorem Apart.symm (apart : left.Apart right) : right.Apart left :=
  ⟨apart.bitmaps.symm, fun available => (apart.pages available.symm).symm⟩

instance : Std.Symm Apart :=
  ⟨fun _ _ apart => apart.symm⟩

theorem Tracks.index_eq {other : Nat} (tracks : descriptor.Tracks index page)
    (also : descriptor.Tracks other page) : other = index := by
  have first := tracks.page
  have second := also.page
  omega

theorem contains_eq_ok (wellFormed : descriptor.IsWellFormed) (address : PhysicalAddress) :
    descriptor.contains address = .ok (decide (descriptor.base.value ≤ address.value ∧
      address.value < descriptor.base.value + descriptor.pages * 4096)) := by
  have fits := wellFormed.within
  have bytes : Word.multiply descriptor.pages PageSize.small.bytes =
      .ok (descriptor.pages * 4096) :=
    if_pos (show descriptor.pages * 4096 < 1 <<< 64 by omega)
  have stop : descriptor.stop =
      .ok ⟨descriptor.base.value + descriptor.pages * 4096, fits⟩ := by
    rw [Descriptor.stop, bytes]
    exact dif_pos fits
  unfold contains
  by_cases above : descriptor.base.value ≤ address.value
  · rw [if_pos above, stop]
    simp only [bind, Except.bind, pure, Except.pure, above, true_and]
  · rw [if_neg above]
    simp only [pure, Except.pure, above, false_and, decide_false]

end Descriptor

namespace Ledger

variable {ledger : Ledger} {memory before after : Memory} {keeps touched : Frame → Prop}
  {descriptor other : Descriptor} {index : Nat} {busy : Bool} {frame page : Frame}

/-- The number of bytes from the first bitmap to the last descriptor. -/
def size (ledger : Ledger) : Nat :=
  ledger.descriptorsOffset + ledger.regionCount * descriptorBytes

def view (ledger : Ledger) (memory : Memory) (descriptor : Descriptor) : Bitmap :=
  ⟨descriptor.bitmapBytes, fun index => memory.byteAt (ledger.bitmapAddress descriptor + index)⟩

structure IsOrderly (ledger : Ledger) (memory : Memory) (keeps : Frame → Prop) : Prop where
  wellFormed : ∀ descriptor ∈ ledger.descriptors memory, descriptor.IsWellFormed
  apart : (ledger.descriptors memory).Pairwise Descriptor.Apart
  bitmaps : ∀ descriptor ∈ ledger.descriptors memory, descriptor.kind = .available →
    descriptor.bitmapBytes = Bitmap.bytesFor descriptor.pages ∧
      descriptor.bitmapOffset + descriptor.bitmapBytes ≤ ledger.bitmapBytes
  low : ledger.bitmapBytes < 1 <<< 64
  inFront : ledger.bitmapBytes ≤ ledger.descriptorsOffset
  inside : ∀ offset < ledger.size, memory.Contains (ledger.start.value + offset) ∧
    ∃ frame : Frame, keeps frame ∧ frame.Holds (ledger.start.value + offset)
  padding : ∀ descriptor ∈ ledger.descriptors memory, descriptor.kind = .available →
    ∀ bit, descriptor.pages ≤ bit → (ledger.view memory descriptor).isSet bit = false

def IsFree (ledger : Ledger) (memory : Memory) (page : Frame) : Prop :=
  ∃ descriptor ∈ ledger.descriptors memory, ∃ index, descriptor.Tracks index page ∧
    (ledger.view memory descriptor).isSet index = false

def Offers (ledger : Ledger) (memory : Memory) (page : Frame) : Prop :=
  lowMemoryEnd.value ≤ page.number * 4096 ∧ ledger.IsFree memory page

theorem bitmap_eq_ok (orderly : ledger.IsOrderly memory keeps)
    (member : descriptor ∈ ledger.descriptors memory) (available : descriptor.kind = .available) :
    ledger.bitmap memory descriptor = .ok (ledger.view memory descriptor) := by
  rcases orderly.bitmaps descriptor member available with ⟨_, below⟩
  have low := orderly.low
  have stop : descriptor.bitmapStop = .ok (descriptor.bitmapOffset + descriptor.bitmapBytes) :=
    if_pos (by omega)
  rw [bitmap, stop]
  exact if_pos below

theorem index_div_lt (orderly : ledger.IsOrderly memory keeps)
    (member : descriptor ∈ ledger.descriptors memory) (tracks : descriptor.Tracks index page) :
    index / 8 < descriptor.bitmapBytes := by
  have size := (orderly.bitmaps descriptor member tracks.available).1
  have below := tracks.below
  unfold Bitmap.bytesFor at size
  omega

theorem hasBit_of_tracks (orderly : ledger.IsOrderly memory keeps)
    (member : descriptor ∈ ledger.descriptors memory) (tracks : descriptor.Tracks index page) :
    descriptor.HasBit index :=
  ⟨tracks.available, index_div_lt orderly member tracks⟩

theorem isSet_view_of_cleared
    (cleared : ∀ offset < ledger.bitmapBytes, memory.byteAt (ledger.start.value + offset) = 0)
    (below : descriptor.bitmapOffset + descriptor.bitmapBytes ≤ ledger.bitmapBytes) (bit : Nat) :
    (ledger.view memory descriptor).isSet bit = false := by
  unfold Bitmap.isSet
  change (decide (bit / 8 < descriptor.bitmapBytes) && _) = false
  by_cases within : bit / 8 < descriptor.bitmapBytes
  · have zero : (ledger.view memory descriptor).byteAt (bit / 8) = 0 := by
      change memory.byteAt (ledger.start.value + descriptor.bitmapOffset + bit / 8) = 0
      rw [Nat.add_assoc]
      exact cleared _ (by omega)
    rw [zero]
    simp
  · rw [decide_eq_false within, Bool.false_and]

theorem tracks_unique (orderly : ledger.IsOrderly memory keeps)
    (member : descriptor ∈ ledger.descriptors memory) (tracks : descriptor.Tracks index page)
    (otherMember : other ∈ ledger.descriptors memory) {otherIndex : Nat}
    (otherTracks : other.Tracks otherIndex page) : other = descriptor ∧ otherIndex = index := by
  have same : other = descriptor := by
    apply Classical.byContradiction
    intro different
    have apart := (orderly.apart.forall otherMember member different).pages
      (.inr tracks.available)
    have place := tracks.page
    have below := tracks.below
    have otherPlace := otherTracks.page
    have otherBelow := otherTracks.below
    omega
  subst same
  exact ⟨rfl, tracks.index_eq otherTracks⟩

theorem isFree_iff_of_tracks (orderly : ledger.IsOrderly memory keeps)
    (member : descriptor ∈ ledger.descriptors memory) (tracks : descriptor.Tracks index page) :
    ledger.IsFree memory page ↔ (ledger.view memory descriptor).isSet index = false := by
  constructor
  · rintro ⟨other, otherMember, otherIndex, otherTracks, clear⟩
    rcases tracks_unique orderly member tracks otherMember otherTracks with ⟨rfl, rfl⟩
    exact clear
  · exact fun clear => ⟨descriptor, member, index, tracks, clear⟩

/-! ## What does not change -/

theorem descriptors_congr
    (same : ∀ offset, ledger.descriptorsOffset ≤ offset → offset < ledger.size →
      after.byteAt (ledger.start.value + offset) = before.byteAt (ledger.start.value + offset)) :
    ledger.descriptors after = ledger.descriptors before := by
  unfold descriptors
  apply List.map_congr_left
  intro index member
  have below := List.mem_range.1 member
  have bytes : after.load (ledger.descriptorAddress index) descriptorBytes =
      before.load (ledger.descriptorAddress index) descriptorBytes := by
    unfold Memory.load
    apply List.map_congr_left
    intro position within
    have inside := List.mem_range.1 within
    have address : ledger.descriptorAddress index + position = ledger.start.value +
        (ledger.descriptorsOffset + index * descriptorBytes + position) := by
      unfold descriptorAddress
      omega
    rw [address]
    unfold size descriptorBytes at *
    exact same _ (by omega) (by omega)
  rw [Ledger.descriptor, Ledger.descriptor, bytes]

theorem isSet_view_congr
    (same : ∀ index < descriptor.bitmapBytes,
      after.byteAt (ledger.bitmapAddress descriptor + index) =
        before.byteAt (ledger.bitmapAddress descriptor + index)) (bit : Nat) :
    (ledger.view after descriptor).isSet bit = (ledger.view before descriptor).isSet bit := by
  unfold Bitmap.isSet view
  by_cases within : bit / 8 < descriptor.bitmapBytes
  · simp only [same _ within]
  · simp only [decide_eq_false within, Bool.false_and]

theorem IsOrderly.congr (orderly : ledger.IsOrderly before keeps)
    (contains : ∀ address, after.Contains address ↔ before.Contains address)
    (same : ledger.descriptors after = ledger.descriptors before)
    (bits : ∀ descriptor ∈ ledger.descriptors before, descriptor.kind = .available →
      ∀ bit, descriptor.pages ≤ bit →
        (ledger.view after descriptor).isSet bit = (ledger.view before descriptor).isSet bit) :
    ledger.IsOrderly after keeps where
  wellFormed := by
    rw [same]
    exact orderly.wellFormed
  apart := by
    rw [same]
    exact orderly.apart
  bitmaps := by
    rw [same]
    exact orderly.bitmaps
  low := orderly.low
  inFront := orderly.inFront
  inside offset below := by
    rw [contains]
    exact orderly.inside offset below
  padding := by
    rw [same]
    intro descriptor member available bit beyond
    rw [bits descriptor member available bit beyond]
    exact orderly.padding descriptor member available bit beyond

theorem IsOrderly.byteAt_eq (orderly : ledger.IsOrderly before keeps)
    (agrees : AgreesOutside touched before after)
    (missed : ∀ frame, keeps frame → ¬ touched frame) {offset : Nat}
    (below : offset < ledger.size) :
    after.byteAt (ledger.start.value + offset) = before.byteAt (ledger.start.value + offset) := by
  rcases (orderly.inside offset below).2 with ⟨frame, isKept, holds⟩
  refine agrees.byteAt _ fun other isTouched holdsOther => ?_
  rw [Page.eq_of_holds holdsOther holds] at isTouched
  exact missed frame isKept isTouched

theorem IsOrderly.descriptors_eq (orderly : ledger.IsOrderly before keeps)
    (agrees : AgreesOutside touched before after)
    (missed : ∀ frame, keeps frame → ¬ touched frame) :
    ledger.descriptors after = ledger.descriptors before :=
  descriptors_congr fun _ _ => orderly.byteAt_eq agrees missed

/-- Writes that miss the kept frames leave the records alone. -/
theorem IsOrderly.of_agrees (orderly : ledger.IsOrderly before keeps)
    (agrees : AgreesOutside touched before after)
    (missed : ∀ frame, keeps frame → ¬ touched frame) :
    ledger.IsOrderly after keeps ∧
      ∀ frame, ledger.IsFree after frame ↔ ledger.IsFree before frame := by
  have descriptors := orderly.descriptors_eq agrees missed
  have bits : ∀ descriptor ∈ ledger.descriptors before, descriptor.kind = .available → ∀ bit,
      (ledger.view after descriptor).isSet bit = (ledger.view before descriptor).isSet bit := by
    intro descriptor member available bit
    have below := (orderly.bitmaps descriptor member available).2
    have inFront := orderly.inFront
    refine isSet_view_congr (fun index within => ?_) bit
    rw [bitmapAddress, Nat.add_assoc]
    apply orderly.byteAt_eq agrees missed
    unfold size
    omega
  refine ⟨orderly.congr agrees.contains_iff descriptors
    fun descriptor member available bit _ => bits descriptor member available bit, fun frame => ?_⟩
  unfold IsFree
  rw [descriptors]
  refine exists_congr fun descriptor => and_congr_right fun member => exists_congr fun index =>
    and_congr_right fun tracks => ?_
  rw [bits descriptor member tracks.available]

/-! ## Changing a bit -/

def marked (ledger : Ledger) (memory : Memory) (descriptor : Descriptor) (index : Nat)
    (busy : Bool) : Memory :=
  ledger.setBitmapByte memory descriptor index
    (Bitmap.setInByte ((ledger.view memory descriptor).byteAt (index / 8)) index busy)

theorem writesWithin_marked (ledger : Ledger) (memory : Memory) (descriptor : Descriptor)
    (index : Nat) (busy : Bool) :
    Memory.WritesWithin (ledger.bitmapAddress descriptor + index / 8)
      (ledger.bitmapAddress descriptor + index / 8 + 1) memory
      (ledger.marked memory descriptor index busy) :=
  Memory.writesWithin_setByte ..

section

variable (orderly : ledger.IsOrderly memory keeps)
  (member : descriptor ∈ ledger.descriptors memory) (hasBit : descriptor.HasBit index)

include orderly member hasBit

theorem offset_lt_size : descriptor.bitmapOffset + index / 8 < ledger.descriptorsOffset ∧
    descriptor.bitmapOffset + index / 8 < ledger.size := by
  have within := hasBit.within
  have below := (orderly.bitmaps descriptor member hasBit.available).2
  have inFront := orderly.inFront
  unfold size
  omega

theorem agreesOutside_marked (busy : Bool) :
    AgreesOutside keeps memory (ledger.marked memory descriptor index busy) := by
  apply (writesWithin_marked ledger memory descriptor index busy).agreesOutside
  intro address above below
  have here : address = ledger.start.value + (descriptor.bitmapOffset + index / 8) := by
    unfold bitmapAddress at above below
    omega
  rw [here]
  exact (orderly.inside _ (offset_lt_size orderly member hasBit).2).2

theorem descriptors_marked (busy : Bool) :
    ledger.descriptors (ledger.marked memory descriptor index busy) =
      ledger.descriptors memory := by
  apply descriptors_congr
  intro offset above _
  have bound := (offset_lt_size orderly member hasBit).1
  apply (writesWithin_marked ledger memory descriptor index busy).byteAt _
  unfold bitmapAddress
  omega

theorem byteAt_marked (busy : Bool) (position : Nat) :
    (ledger.marked memory descriptor index busy).byteAt
        (ledger.bitmapAddress descriptor + position) =
      ((ledger.view memory descriptor).changed index busy).byteAt position := by
  have inside := (orderly.inside _ (offset_lt_size orderly member hasBit).2).1
  rw [← Nat.add_assoc] at inside
  unfold Bitmap.changed
  simp only
  by_cases here : position = index / 8
  · rw [if_pos here, here]
    exact Memory.byteAt_setByte_same _ _ _ inside
  · rw [if_neg here]
    exact Memory.byteAt_setByte_other _ _ _ _ (by omega)

theorem isSet_view_marked (busy : Bool) (otherMember : other ∈ ledger.descriptors memory)
    (bit : Nat) :
    (ledger.view (ledger.marked memory descriptor index busy) other).isSet bit =
      if other = descriptor ∧ bit = index then busy
      else (ledger.view memory other).isSet bit := by
  by_cases same : other = descriptor
  · subst same
    have view : ledger.view (ledger.marked memory other index busy) other =
        (ledger.view memory other).changed index busy := by
      unfold Ledger.view Bitmap.changed
      congr 1
      funext position
      exact byteAt_marked orderly member hasBit busy position
    rw [view, Bitmap.isSet_changed hasBit.within]
    simp only [true_and]
  · rw [if_neg fun both => same both.1]
    refine isSet_view_congr (fun position within => ?_) bit
    have apart := (orderly.apart.forall otherMember member same).bitmaps
    have bound := hasBit.within
    apply (writesWithin_marked ledger memory descriptor index busy).byteAt _
    unfold bitmapAddress
    omega

end

section

variable (orderly : ledger.IsOrderly memory keeps)
  (member : descriptor ∈ ledger.descriptors memory) (tracks : descriptor.Tracks index page)

include orderly member tracks

theorem IsOrderly.marked (busy : Bool) :
    ledger.IsOrderly (ledger.marked memory descriptor index busy) keeps := by
  have hasBit := hasBit_of_tracks orderly member tracks
  refine orderly.congr (agreesOutside_marked orderly member hasBit busy).contains_iff
    (descriptors_marked orderly member hasBit busy) fun other otherMember _ bit beyond => ?_
  have below := tracks.below
  rw [isSet_view_marked orderly member hasBit busy otherMember, if_neg]
  rintro ⟨rfl, rfl⟩
  omega

theorem isFree_marked (busy : Bool) (frame : Frame) :
    ledger.IsFree (ledger.marked memory descriptor index busy) frame ↔
      if frame = page then busy = false else ledger.IsFree memory frame := by
  have hasBit := hasBit_of_tracks orderly member tracks
  unfold IsFree
  rw [descriptors_marked orderly member hasBit busy]
  by_cases here : frame = page
  · subst here
    rw [if_pos rfl]
    constructor
    · rintro ⟨found, foundMember, foundIndex, foundTracks, clear⟩
      rcases tracks_unique orderly member tracks foundMember foundTracks with ⟨rfl, rfl⟩
      rwa [isSet_view_marked orderly member hasBit busy member, if_pos ⟨rfl, rfl⟩] at clear
    · rintro rfl
      refine ⟨descriptor, member, index, tracks, ?_⟩
      rw [isSet_view_marked orderly member hasBit false member, if_pos ⟨rfl, rfl⟩]
  · rw [if_neg here]
    refine exists_congr fun found => and_congr_right fun foundMember =>
      exists_congr fun foundIndex => and_congr_right fun foundTracks => ?_
    rw [isSet_view_marked orderly member hasBit busy foundMember, if_neg ?_]
    rintro ⟨rfl, rfl⟩
    apply here
    apply Page.ext
    have place := tracks.page
    have foundPlace := foundTracks.page
    omega

end

end Ledger

end EarlyMemory
