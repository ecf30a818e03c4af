import EarlyMemory.Proofs.Ledger.Order

/-!
# Where a page is recorded

A page is looked up by its address alone: the last run that begins at or below it is the
only one that is asked. While runs follow each other that is the run which holds the page,
if any does, so the lookup answers for all runs at once.
-/

namespace EarlyMemory

namespace Descriptor

variable {descriptor : Descriptor} {index : Nat} {page : Frame}

/-- Whether a run holds a page, available or not. -/
def HoldsPage (descriptor : Descriptor) (page : Frame) : Prop :=
  descriptor.base.value ≤ page.number * 4096 ∧
    page.number * 4096 < descriptor.base.value + descriptor.pages * 4096

instance (descriptor : Descriptor) (page : Frame) : Decidable (descriptor.HoldsPage page) :=
  inferInstanceAs (Decidable (_ ∧ _))

def Precedes (left right : Descriptor) : Prop :=
  left.base.value + left.pages * 4096 ≤ right.base.value

/-- Whether a run that is available ends before another one begins. -/
def Clears (left right : Descriptor) : Prop :=
  left.kind = .available → left.Precedes right

def bitOf (descriptor : Descriptor) (page : Frame) : Nat :=
  (page.number * 4096 - descriptor.base.value) / 4096

theorem Tracks.holdsPage (tracks : descriptor.Tracks index page) : descriptor.HoldsPage page := by
  have below := tracks.below
  have place := tracks.page
  exact ⟨by omega, by omega⟩

theorem HoldsPage.tracks (holds : descriptor.HoldsPage page) (wellFormed : descriptor.IsWellFormed)
    (available : descriptor.kind = .available) :
    descriptor.Tracks (descriptor.bitOf page) page := by
  have base := wellFormed.base
  rcases holds with ⟨above, below⟩
  unfold bitOf
  exact ⟨available, by omega, by omega⟩

theorem Tracks.bitOf_eq (tracks : descriptor.Tracks index page) :
    descriptor.bitOf page = index := by
  have place := tracks.page
  unfold bitOf
  omega

theorem exists_tracks (wellFormed : descriptor.IsWellFormed)
    (available : descriptor.kind = .available) (below : index < descriptor.pages) :
    ∃ page, (descriptor.base.page .small).advance index = .ok page ∧
      descriptor.Tracks index page := by
  have base := wellFormed.base
  have within := wellFormed.within
  have number : (descriptor.base.page .small).number = descriptor.base.value / 4096 := rfl
  have room : (descriptor.base.page .small).number + index < 1 <<< 52 := by omega
  refine ⟨⟨_, room⟩, Page.advance_eq_ok room, available, below, ?_⟩
  change ((descriptor.base.page .small).number + index) * 4096 = _
  omega

theorem exists_tracks_iff (wellFormed : descriptor.IsWellFormed) :
    (∃ index, descriptor.Tracks index page) ↔
      descriptor.kind = .available ∧ descriptor.HoldsPage page :=
  ⟨fun ⟨_, tracks⟩ => ⟨tracks.available, tracks.holdsPage⟩,
    fun ⟨available, holds⟩ => ⟨_, holds.tracks wellFormed available⟩⟩

end Descriptor

namespace Ledger

variable {ledger otherLedger : Ledger} {memory otherMemory : Memory} {descriptor : Descriptor}
  {index : Nat} {page : Frame}

theorem locate_congr (same : otherLedger.descriptors otherMemory = ledger.descriptors memory)
    (page : Frame) : otherLedger.locate otherMemory page = ledger.locate memory page := by
  rw [locate, same]
  rfl

/-- The last run that begins at or below a page. -/
def lastBelow (descriptors : List Descriptor) (page : Frame) : Option Descriptor :=
  descriptors.reverse.find? fun descriptor => descriptor.base.value ≤ page.number * 4096

def placeIn (page : Frame) : Option Descriptor → Place
  | none => .outside
  | some descriptor =>
      if descriptor.HoldsPage page then
        if descriptor.kind = .available then .bit descriptor (descriptor.bitOf page)
        else .unavailable
      else
        .outside

/-- Only the last run at or below a page is asked, and no lookup faults. -/
theorem locate_eq (wellFormed : ∀ descriptor ∈ ledger.descriptors memory, descriptor.IsWellFormed)
    (page : Frame) : ledger.locate memory page =
      .ok (placeIn page (lastBelow (ledger.descriptors memory) page)) := by
  have value : page.base.value = page.number * 4096 := rfl
  unfold locate lastBelow
  simp only [value]
  cases search : (ledger.descriptors memory).reverse.find?
      fun descriptor => decide (descriptor.base.value ≤ page.number * 4096) with
  | none => rfl
  | some found =>
      have member : found ∈ ledger.descriptors memory :=
        List.mem_reverse.1 (List.mem_of_find?_eq_some search)
      have above : found.base.value ≤ page.number * 4096 := by simpa using List.find?_some search
      have distance : page.base.since found.base =
          .ok (page.number * 4096 - found.base.value) := if_pos above
      have holds : found.contains page.base = .ok (decide (found.HoldsPage page)) :=
        Descriptor.contains_eq_ok (wellFormed found member) page.base
      simp only [holds, distance, bind, Except.bind, pure, Except.pure, placeIn]
      by_cases inside : found.HoldsPage page
      · by_cases available : found.kind = .available
        · simp [inside, available, Descriptor.bitOf, PageSize.bytes]
        · simp [inside, available]
      · simp [inside]

theorem tracks_of_locate
    (wellFormed : ∀ descriptor ∈ ledger.descriptors memory, descriptor.IsWellFormed)
    (located : ledger.locate memory page = .ok (.bit descriptor index)) :
    descriptor ∈ ledger.descriptors memory ∧ descriptor.Tracks index page := by
  rw [locate_eq wellFormed] at located
  cases search : lastBelow (ledger.descriptors memory) page with
  | none =>
      rw [search] at located
      cases located
  | some found =>
      have member : found ∈ ledger.descriptors memory :=
        List.mem_reverse.1 (List.mem_of_find?_eq_some search)
      simp only [search, placeIn] at located
      split at located
      next holds =>
        split at located
        next available =>
          cases located
          exact ⟨member, holds.tracks (wellFormed _ member) available⟩
        next => cases located
      next => cases located

/-! ## Runs in order -/

theorem lastBelow_of_beyond {descriptors : List Descriptor}
    (beyond : descriptors.Pairwise fun left right =>
      left = descriptor → page.number * 4096 < right.base.value)
    (member : descriptor ∈ descriptors) (holds : descriptor.HoldsPage page) :
    lastBelow descriptors page = some descriptor := by
  induction descriptors with
  | nil => cases member
  | cons first rest induction =>
      rw [List.pairwise_cons] at beyond
      unfold lastBelow at induction ⊢
      rw [List.reverse_cons, List.find?_append]
      rcases List.mem_cons.1 member with rfl | later
      · have none : rest.reverse.find?
            (fun descriptor => descriptor.base.value ≤ page.number * 4096) = none := by
          rw [List.find?_eq_none]
          intro other isOther
          have follows := beyond.1 other (List.mem_reverse.1 isOther) rfl
          simp only [decide_eq_true_eq]
          omega
        rw [none, Option.none_or, List.find?_cons_of_pos (by simpa using holds.1)]
      · rw [induction beyond.2 later, Option.some_or]

/-- While runs follow each other the run that holds a page is the last one at or below it. -/
theorem lastBelow_of_holdsPage {descriptors : List Descriptor}
    (sorted : descriptors.Pairwise Descriptor.Precedes) (member : descriptor ∈ descriptors)
    (holds : descriptor.HoldsPage page) : lastBelow descriptors page = some descriptor := by
  refine lastBelow_of_beyond (sorted.imp ?_) member holds
  rintro _ right precedes rfl
  exact Nat.lt_of_lt_of_le holds.2 precedes

theorem locate_of_clears
    (wellFormed : ∀ descriptor ∈ ledger.descriptors memory, descriptor.IsWellFormed)
    (clears : (ledger.descriptors memory).Pairwise Descriptor.Clears)
    (member : descriptor ∈ ledger.descriptors memory) (available : descriptor.kind = .available)
    (holds : descriptor.HoldsPage page) :
    ledger.locate memory page = .ok (.bit descriptor (descriptor.bitOf page)) := by
  have found : lastBelow (ledger.descriptors memory) page = some descriptor := by
    refine lastBelow_of_beyond (clears.imp ?_) member holds
    rintro _ right clear rfl
    exact Nat.lt_of_lt_of_le holds.2 (clear available)
  rw [locate_eq wellFormed, found, placeIn, if_pos holds, if_pos available]

theorem eq_of_holdsPage {descriptors : List Descriptor} {other : Descriptor}
    (sorted : descriptors.Pairwise Descriptor.Precedes) (member : descriptor ∈ descriptors)
    (holds : descriptor.HoldsPage page) (otherMember : other ∈ descriptors)
    (otherHolds : other.HoldsPage page) : other = descriptor := by
  have found := lastBelow_of_holdsPage sorted member holds
  rw [lastBelow_of_holdsPage sorted otherMember otherHolds] at found
  exact Option.some.inj found

/-- Where a page is recorded, as all runs have it. -/
inductive Records (descriptors : List Descriptor) (page : Frame) : Place → Prop
  | outside (missed : ∀ descriptor ∈ descriptors, ¬ descriptor.HoldsPage page) :
      Records descriptors page .outside
  | unavailable {descriptor : Descriptor} (member : descriptor ∈ descriptors)
      (holds : descriptor.HoldsPage page) (other : descriptor.kind ≠ .available) :
      Records descriptors page .unavailable
  | bit {descriptor : Descriptor} {index : Nat} (member : descriptor ∈ descriptors)
      (tracks : descriptor.Tracks index page) :
      Records descriptors page (.bit descriptor index)

/-- While runs follow each other each page is found where it is recorded. -/
theorem locate_spec
    (wellFormed : ∀ descriptor ∈ ledger.descriptors memory, descriptor.IsWellFormed)
    (sorted : (ledger.descriptors memory).Pairwise Descriptor.Precedes) (page : Frame) :
    ∃ place, ledger.locate memory page = .ok place ∧
      Records (ledger.descriptors memory) page place := by
  refine ⟨_, locate_eq wellFormed page, ?_⟩
  by_cases held : ∃ descriptor ∈ ledger.descriptors memory, descriptor.HoldsPage page
  · rcases held with ⟨descriptor, member, holds⟩
    simp only [lastBelow_of_holdsPage sorted member holds, placeIn, if_pos holds]
    by_cases available : descriptor.kind = .available
    · rw [if_pos available]
      exact .bit member (holds.tracks (wellFormed descriptor member) available)
    · rw [if_neg available]
      exact .unavailable member holds available
  · have missed : ∀ descriptor ∈ ledger.descriptors memory, ¬ descriptor.HoldsPage page :=
      fun descriptor member holds => held ⟨descriptor, member, holds⟩
    have nowhere : placeIn page (lastBelow (ledger.descriptors memory) page) = .outside := by
      cases search : lastBelow (ledger.descriptors memory) page with
      | none => rfl
      | some found =>
          exact if_neg (missed found (List.mem_reverse.1 (List.mem_of_find?_eq_some search)))
    rw [nowhere]
    exact .outside missed

end Ledger

end EarlyMemory
