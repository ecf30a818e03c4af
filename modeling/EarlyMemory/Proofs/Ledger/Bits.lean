import EarlyMemory.Ledger.Bitmap

/-!
# Bits of a bitmap

Changing one bit of a byte keeps the other seven. The search for a clear bit may step
over a full byte because it does so only where the byte starts, so it finds the first
clear bit just as a plain scan would.
-/

namespace EarlyMemory.Bitmap

variable {bitmap : Bitmap} {bit other stop : Nat} {busy : Bool}

/-! ## Changing a bit -/

theorem testBit_mask (bit : Nat) {index : Nat} (within : index < 8) :
    (mask bit).toNat.testBit index = decide (index = bit % 8) := by
  have all : ∀ low : Fin 8, ∀ index : Fin 8,
      ((1 : UInt8) <<< UInt8.ofNat low.val).toNat.testBit index.val =
        decide (index.val = low.val) := by
    decide
  exact all ⟨bit % 8, Nat.mod_lt _ (by decide)⟩ ⟨index, within⟩

theorem testBit_not_mask (bit : Nat) {index : Nat} (within : index < 8) :
    (~~~mask bit).toNat.testBit index = decide (index ≠ bit % 8) := by
  have all : ∀ low : Fin 8, ∀ index : Fin 8,
      (~~~((1 : UInt8) <<< UInt8.ofNat low.val)).toNat.testBit index.val =
        decide (index.val ≠ low.val) := by
    decide
  exact all ⟨bit % 8, Nat.mod_lt _ (by decide)⟩ ⟨index, within⟩

theorem testBit_setInByte (byte : UInt8) (bit : Nat) (busy : Bool) {index : Nat}
    (within : index < 8) :
    (setInByte byte bit busy).toNat.testBit index =
      if index = bit % 8 then busy else byte.toNat.testBit index := by
  unfold setInByte
  cases busy with
  | true =>
      rw [if_pos rfl, UInt8.toNat_or, Nat.testBit_or, testBit_mask bit within]
      by_cases same : index = bit % 8 <;> simp [same]
  | false =>
      rw [if_neg (by simp), UInt8.toNat_and, Nat.testBit_and, testBit_not_mask bit within]
      by_cases same : index = bit % 8 <;> simp [same]

/-- What a bitmap becomes once the byte of a bit is changed. -/
def changed (bitmap : Bitmap) (bit : Nat) (busy : Bool) : Bitmap :=
  ⟨bitmap.size, fun index =>
    if index = bit / 8 then setInByte (bitmap.byteAt (bit / 8)) bit busy
    else bitmap.byteAt index⟩

theorem changedByte_eq_ok (within : bit / 8 < bitmap.size) (busy : Bool) :
    bitmap.changedByte bit busy = .ok (setInByte (bitmap.byteAt (bit / 8)) bit busy) :=
  if_pos within

theorem isSet_changed (within : bit / 8 < bitmap.size) (other : Nat) :
    (bitmap.changed bit busy).isSet other = if other = bit then busy else bitmap.isSet other := by
  have low : other % 8 < 8 := Nat.mod_lt _ (by decide)
  unfold isSet changed
  simp only
  by_cases sameByte : other / 8 = bit / 8
  · rw [if_pos sameByte, sameByte, decide_eq_true within, Bool.true_and, Bool.true_and,
      testBit_setInByte _ _ _ low]
    by_cases same : other = bit
    · rw [if_pos same, if_pos (congrArg (· % 8) same)]
    · rw [if_neg same, if_neg (by omega)]
  · rw [if_neg sameByte, if_neg (by rintro rfl; exact sameByte rfl)]

/-! ## The search -/

/-- The first clear bit from one bit up to another, if there is any. -/
def IsFirstClear (bitmap : Bitmap) (bit stop : Nat) : Option Nat → Prop
  | none => ∀ index, bit ≤ index → index < stop → bitmap.isSet index = true
  | some found => bit ≤ found ∧ found < stop ∧ bitmap.isSet found = false ∧
      ∀ index, bit ≤ index → index < found → bitmap.isSet index = true

theorem IsFirstClear.of_skipped {next : Nat} {answer : Option Nat}
    (first : bitmap.IsFirstClear next stop answer) (further : bit ≤ next)
    (skipped : ∀ index, bit ≤ index → index < next → bitmap.isSet index = true) :
    bitmap.IsFirstClear bit stop answer := by
  have step : ∀ index, bit ≤ index → (next ≤ index → bitmap.isSet index = true) →
      bitmap.isSet index = true := by
    intro index above later
    by_cases early : index < next
    · exact skipped index above early
    · exact later (by omega)
  cases answer with
  | none => exact fun index above below => step index above fun late => first index late below
  | some found =>
      rcases first with ⟨late, within, clear, before⟩
      exact ⟨by omega, within, clear,
        fun index above below => step index above fun isLate => before index isLate below⟩

theorem isSet_of_full (aligned : bit % 8 = 0) (within : bit / 8 < bitmap.size)
    (full : bitmap.byteAt (bit / 8) = 255) {index : Nat} (above : bit ≤ index)
    (below : index < bit + 8) : bitmap.isSet index = true := by
  have sameByte : index / 8 = bit / 8 := by omega
  have all : ∀ low : Fin 8, (255 : UInt8).toNat.testBit low.val = true := by decide
  unfold isSet
  rw [sameByte, full, decide_eq_true within, Bool.true_and]
  exact all ⟨index % 8, Nat.mod_lt _ (by decide)⟩

/-- Inside its bytes the search ends with the first clear bit. -/
theorem firstClear_spec (bitmap : Bitmap) (bit stop : Nat) (fits : stop ≤ 8 * bitmap.size) :
    ∃ answer, bitmap.firstClear bit stop = .ok answer ∧ bitmap.IsFirstClear bit stop answer := by
  induction left : stop - bit using Nat.strongRecOn generalizing bit with
  | ind left induction =>
      subst left
      rw [firstClear]
      by_cases more : bit < stop
      · have within : bit / 8 < bitmap.size := by omega
        rw [if_pos more, if_pos within]
        by_cases full : bit % 8 = 0 ∧ bitmap.byteAt (bit / 8) = 255
        · rw [if_pos full]
          rcases induction (stop - (bit + 8)) (by omega) (bit + 8) rfl with ⟨answer, found, first⟩
          exact ⟨answer, found, first.of_skipped (by omega) fun index above below =>
            isSet_of_full full.1 within full.2 above below⟩
        · rw [if_neg full]
          cases set : bitmap.isSet bit with
          | true =>
              rw [if_pos rfl]
              rcases induction (stop - (bit + 1)) (by omega) (bit + 1) rfl with
                ⟨answer, found, first⟩
              refine ⟨answer, found, first.of_skipped (by omega) fun index above below => ?_⟩
              rwa [show index = bit by omega]
          | false =>
              rw [if_neg (by simp)]
              exact ⟨some bit, rfl, Nat.le_refl _, more, set, fun index above below => by omega⟩
      · rw [if_neg more]
        exact ⟨none, rfl, fun index above below => by omega⟩

end EarlyMemory.Bitmap
