import EarlyMemory.Fault
import Mathlib.Algebra.GroupWithZero.Nat

/-!
# Checked arithmetic

An operation on words that has an answer has the exact one, and it has one whenever the
exact one fits a word. To mask a word is to take a remainder.
-/

namespace EarlyMemory.Word

variable {left right total : Nat} {words : List Nat}

theorem of_add (sum : add left right = .ok total) :
    total = left + right ∧ left + right < 1 <<< 64 := by
  unfold add at sum
  split at sum
  next fits => exact ⟨(Except.ok.inj sum).symm, fits⟩
  next => cases sum

theorem of_multiply (product : multiply left right = .ok total) :
    total = left * right ∧ left * right < 1 <<< 64 := by
  unfold multiply at product
  split at product
  next fits => exact ⟨(Except.ok.inj product).symm, fits⟩
  next => cases product

theorem of_foldlM_add (low : left < 1 <<< 64) (folded : words.foldlM add left = .ok total) :
    total = left + words.sum ∧ total < 1 <<< 64 := by
  induction words generalizing left with
  | nil =>
      cases folded
      exact ⟨rfl, low⟩
  | cons word rest induction =>
      rw [List.foldlM_cons] at folded
      cases sum : add left word with
      | error cause =>
          rw [sum] at folded
          cases folded
      | ok next =>
          rw [sum] at folded
          rcases of_add sum with ⟨rfl, fits⟩
          rcases induction fits folded with ⟨same, bound⟩
          rw [List.sum_cons]
          exact ⟨by omega, bound⟩

theorem of_sum (summed : sum words = .ok total) : total = words.sum ∧ total < 1 <<< 64 := by
  rcases of_foldlM_add (by decide) summed with ⟨same, bound⟩
  exact ⟨by omega, bound⟩

theorem sum_le {bound : Nat} (small : ∀ word ∈ words, word ≤ bound) :
    words.sum ≤ words.length * bound := by
  induction words with
  | nil => exact Nat.zero_le _
  | cons word rest induction =>
      rw [List.forall_mem_cons] at small
      rw [List.sum_cons, List.length_cons, Nat.succ_mul, Nat.add_comm]
      exact Nat.add_le_add (induction small.2) small.1

theorem foldlM_add_eq_ok (fits : left + words.sum < 1 <<< 64) :
    words.foldlM add left = .ok (left + words.sum) := by
  induction words generalizing left with
  | nil => rfl
  | cons word rest induction =>
      rw [List.sum_cons] at fits
      have sum : add left word = .ok (left + word) := if_pos (by omega)
      rw [List.foldlM_cons, sum, List.sum_cons, ← Nat.add_assoc]
      exact induction (by omega)

theorem sum_eq_ok (fits : words.sum < 1 <<< 64) : sum words = .ok words.sum := by
  rw [sum, foldlM_add_eq_ok (by omega), Nat.zero_add]

theorem foldlM_add_eq_error (low : left < 1 <<< 64) (excess : ¬ left + words.sum < 1 <<< 64) :
    words.foldlM add left = .error .additionOverflow := by
  induction words generalizing left with
  | nil => exact absurd low excess
  | cons word rest induction =>
      rw [List.sum_cons, ← Nat.add_assoc] at excess
      rw [List.foldlM_cons, add]
      split
      next fits => exact induction fits excess
      next => rfl

/-- Only what the words come to matters, and not how they are split. -/
theorem sum_congr {others : List Nat} (same : words.sum = others.sum) : sum words = sum others := by
  by_cases fits : words.sum < 1 <<< 64
  · rw [sum_eq_ok fits, sum_eq_ok (same ▸ fits), same]
  · have excess : ¬ 0 + words.sum < 1 <<< 64 := by rwa [Nat.zero_add]
    rw [sum, foldlM_add_eq_error (by decide) excess, sum,
      foldlM_add_eq_error (by decide) (same ▸ excess)]

theorem and_pages (value width : Nat) :
    value &&& (1 <<< width - 1) <<< 12 = value >>> 12 % 1 <<< width * 4096 := by
  have page : 4096 = 1 <<< 12 := rfl
  apply Nat.eq_of_testBit_eq
  intro bit
  rw [page, Nat.one_shiftLeft, Nat.one_shiftLeft, Nat.testBit_and, Nat.testBit_shiftLeft,
    Nat.testBit_two_pow_sub_one, Nat.testBit_mul_two_pow, Nat.testBit_mod_two_pow,
    Nat.testBit_shiftRight]
  by_cases above : 12 ≤ bit
  · rw [Nat.add_sub_cancel' above]
    simp [above, Bool.and_comm]
  · simp [above]

end EarlyMemory.Word
