import EarlyMemory.Proofs.Endings
import EarlyMemory.Proofs.Ledger.Layout
import Mathlib.Data.Nat.Count
import Mathlib.Data.Set.Card
import Mathlib.Order.CompletePartialOrder

/-!
# Counting free pages

A run counts the set bits of its whole bitmap, bits that stand for no page included. Those
are never set, so what is left of the run's pages are its free ones. Runs share no page, so
the counts add up to the number of free pages, which fits a word.
-/

namespace EarlyMemory

/-! ## Set bits -/

namespace Bitmap

variable {bitmap : Bitmap} {pages : Nat}

theorem countInByte_eq_count (byte : UInt8) :
    countInByte byte = Nat.count (fun bit => byte.toNat.testBit bit) 8 := by
  rw [countInByte_eq_countP, Nat.count]
  simp only [Bool.decide_eq_true]

theorem fold_eq_count (byteAt : Nat → UInt8) (size : Nat) :
    Nat.fold size (fun index _ total => total + countInByte (byteAt index)) 0 =
      Nat.count (fun bit => (byteAt (bit / 8)).toNat.testBit (bit % 8)) (8 * size) := by
  induction size with
  | zero => rfl
  | succ size induction =>
      rw [Nat.fold_succ, induction, Nat.mul_succ, Nat.count_add, countInByte_eq_count]
      congr 1
      rw [Nat.count_eq_card_filter_range, Nat.count_eq_card_filter_range]
      congr 1
      apply Finset.filter_congr
      intro bit member
      have below := Finset.mem_range.1 member
      rw [show (8 * size + bit) / 8 = size by omega, show (8 * size + bit) % 8 = bit by omega]

/-- Where no bit is set that stands for no page, the set bits are those of busy pages. -/
theorem countSet_eq_card (fits : pages ≤ 8 * bitmap.size)
    (padding : ∀ bit, pages ≤ bit → bitmap.isSet bit = false) :
    bitmap.countSet = {bit ∈ Finset.range pages | bitmap.isSet bit = true}.card := by
  rw [countSet, fold_eq_count, Nat.count_eq_card_filter_range]
  congr 1
  ext bit
  rw [Finset.mem_filter, Finset.mem_filter, Finset.mem_range, Finset.mem_range]
  constructor
  · rintro ⟨within, set⟩
    have isSet : bitmap.isSet bit = true := by
      rw [isSet, set, decide_eq_true (by omega), Bool.true_and]
    refine ⟨Nat.lt_of_not_le fun beyond => ?_, isSet⟩
    rw [padding bit beyond] at isSet
    cases isSet
  · rintro ⟨below, set⟩
    rw [isSet, Bool.and_eq_true] at set
    exact ⟨by omega, set.2⟩

theorem card_clear (bitmap : Bitmap) (pages : Nat) :
    {bit ∈ Finset.range pages | bitmap.isSet bit = true}.card +
      {bit ∈ Finset.range pages | bitmap.isSet bit = false}.card = pages := by
  have all := Finset.card_filter_add_card_filter_not (s := Finset.range pages)
    (fun bit => bitmap.isSet bit = true)
  simpa using all

end Bitmap

/-! ## Free pages -/

instance : Finite Frame :=
  Finite.of_injective (fun frame : Frame => (⟨frame.number, frame.isLt⟩ : Fin PageSize.small.count))
    fun _ _ same => Page.ext (congrArg Fin.val same)

theorem Page.ncard_lt (frames : Set Frame) : frames.ncard < 1 <<< 64 := by
  have all : Nat.card Frame ≤ Nat.card (Fin PageSize.small.count) :=
    Nat.card_le_card_of_injective
      (fun frame : Frame => (⟨frame.number, frame.isLt⟩ : Fin PageSize.small.count))
      fun _ _ same => Page.ext (congrArg Fin.val same)
  have some := Set.ncard_le_card frames
  rw [Nat.card_fin] at all
  simp only [PageSize.count] at all
  omega

namespace Ledger

variable {ledger : Ledger} {memory : Memory} {keeps : Frame → Prop} {descriptor : Descriptor}

def freePagesOf (ledger : Ledger) (memory : Memory) (descriptor : Descriptor) : Set Frame :=
  {page | ∃ index, descriptor.Tracks index page ∧
    (ledger.view memory descriptor).isSet index = false}

def freePages (ledger : Ledger) (memory : Memory) : Set Frame :=
  {page | ledger.IsFree memory page}

theorem ncard_freePagesOf (wellFormed : descriptor.IsWellFormed)
    (available : descriptor.kind = .available) :
    (ledger.freePagesOf memory descriptor).ncard =
      {bit ∈ Finset.range descriptor.pages |
        (ledger.view memory descriptor).isSet bit = false}.card := by
  have injective : Set.InjOn descriptor.bitOf (ledger.freePagesOf memory descriptor) := by
    rintro left ⟨index, tracks, _⟩ right ⟨other, otherTracks, _⟩ same
    have place := tracks.page
    have otherPlace := otherTracks.page
    unfold Descriptor.bitOf at same
    exact Page.ext (by omega)
  rw [← injective.ncard_image, ← Set.ncard_coe_finset]
  congr 1
  ext bit
  rw [Finset.mem_coe, Finset.mem_filter, Finset.mem_range]
  constructor
  · rintro ⟨page, ⟨index, tracks, clear⟩, rfl⟩
    rw [tracks.bitOf_eq]
    exact ⟨tracks.below, clear⟩
  · rintro ⟨below, clear⟩
    rcases Descriptor.exists_tracks wellFormed available below with ⟨page, _, tracks⟩
    exact ⟨page, ⟨bit, tracks, clear⟩, tracks.bitOf_eq⟩

/-- The free pages of a run are counted, since no bit beyond its pages is set. -/
theorem subtract_countSet (orderly : ledger.IsOrderly memory keeps)
    (member : descriptor ∈ ledger.descriptors memory) (available : descriptor.kind = .available) :
    Word.subtract descriptor.pages (ledger.view memory descriptor).countSet =
      .ok (ledger.freePagesOf memory descriptor).ncard := by
  have size := (orderly.bitmaps descriptor member available).1
  have fits : descriptor.pages ≤ 8 * (ledger.view memory descriptor).size := by
    change descriptor.pages ≤ 8 * descriptor.bitmapBytes
    unfold Bitmap.bytesFor at size
    omega
  have busy := Bitmap.countSet_eq_card fits (orderly.padding descriptor member available)
  have all := Bitmap.card_clear (ledger.view memory descriptor) descriptor.pages
  rw [ncard_freePagesOf (orderly.wellFormed descriptor member) available, busy]
  unfold Word.subtract
  rw [if_pos (by omega)]
  congr 1
  omega

theorem sum_ncard_freePagesOf {descriptors : List Descriptor}
    (apart : descriptors.Pairwise fun left right =>
      Disjoint (ledger.freePagesOf memory left) (ledger.freePagesOf memory right)) :
    (descriptors.map fun descriptor => (ledger.freePagesOf memory descriptor).ncard).sum =
      {page | ∃ descriptor ∈ descriptors, page ∈ ledger.freePagesOf memory descriptor}.ncard := by
  induction descriptors with
  | nil => simp
  | cons first rest induction =>
      rw [List.pairwise_cons] at apart
      have together : {page | ∃ descriptor ∈ first :: rest,
          page ∈ ledger.freePagesOf memory descriptor} =
          ledger.freePagesOf memory first ∪
            {page | ∃ descriptor ∈ rest, page ∈ ledger.freePagesOf memory descriptor} := by
        ext page
        simp only [List.mem_cons, exists_eq_or_imp, Set.mem_ofPred_eq, Set.mem_union]
      have disjoint : Disjoint (ledger.freePagesOf memory first)
          {page | ∃ descriptor ∈ rest, page ∈ ledger.freePagesOf memory descriptor} := by
        rw [Set.disjoint_left]
        rintro page isFirst ⟨descriptor, member, isLater⟩
        exact Set.disjoint_left.1 (apart.1 descriptor member) isFirst isLater
      rw [List.map_cons, List.sum_cons, induction apart.2, together, Set.ncard_union_eq disjoint]

theorem disjoint_freePagesOf (orderly : ledger.IsOrderly memory keeps) :
    (ledger.descriptors memory).Pairwise fun left right =>
      Disjoint (ledger.freePagesOf memory left) (ledger.freePagesOf memory right) := by
  apply orderly.apart.imp
  intro left right apart
  rw [Set.disjoint_left]
  rintro page ⟨index, tracks, _⟩ ⟨other, otherTracks, _⟩
  have separate := apart.pages (.inl tracks.available)
  have place := tracks.page
  have below := tracks.below
  have otherPlace := otherTracks.page
  have otherBelow := otherTracks.below
  omega

theorem freePageCount_eq_ok (orderly : ledger.IsOrderly memory keeps) :
    ledger.freePageCount memory = .ok (ledger.freePages memory).ncard := by
  have available : ∀ descriptor ∈ (ledger.descriptors memory).filter (fun descriptor =>
      descriptor.kind = .available), descriptor ∈ ledger.descriptors memory ∧
        descriptor.kind = .available := by
    intro descriptor member
    simpa using member
  have counted : ((ledger.descriptors memory).filter fun descriptor =>
      descriptor.kind = .available).mapM (fun descriptor => do
        let bitmap ← ledger.bitmap memory descriptor
        Word.subtract descriptor.pages bitmap.countSet) =
      .ok (((ledger.descriptors memory).filter fun descriptor =>
        descriptor.kind = .available).map fun descriptor =>
          (ledger.freePagesOf memory descriptor).ncard) := by
    apply mapM_eq_ok
    intro descriptor member
    rcases available descriptor member with ⟨isMember, isAvailable⟩
    rw [bitmap_eq_ok orderly isMember isAvailable]
    exact subtract_countSet orderly isMember isAvailable
  have free : {page | ∃ descriptor ∈ (ledger.descriptors memory).filter (fun descriptor =>
      descriptor.kind = .available), page ∈ ledger.freePagesOf memory descriptor} =
      ledger.freePages memory := by
    ext page
    constructor
    · rintro ⟨descriptor, member, index, tracks, clear⟩
      exact ⟨descriptor, (available descriptor member).1, index, tracks, clear⟩
    · rintro ⟨descriptor, member, index, tracks, clear⟩
      exact ⟨descriptor, by simpa using ⟨member, tracks.available⟩, index, tracks, clear⟩
  have total := sum_ncard_freePagesOf ((disjoint_freePagesOf orderly).filter fun descriptor =>
    descriptor.kind = .available)
  rw [free] at total
  have fits := Page.ncard_lt (ledger.freePages memory)
  rw [← total] at fits
  have summed := Word.sum_eq_ok fits
  rw [total] at summed
  unfold freePageCount
  dsimp only
  rw [counted]
  exact summed

end Ledger

end EarlyMemory
