/-!
# Little-endian numbers

The least significant byte comes first. Reading what was written gives the
number modulo the written width.
-/

namespace EarlyMemory.LittleEndian

def value : List UInt8 → Nat
  | [] => 0
  | head :: tail => head.toNat + 256 * value tail

def bytes : (width : Nat) → Nat → List UInt8
  | 0, _ => []
  | width + 1, number => UInt8.ofNat number :: bytes width (number / 256)

@[simp] theorem length_bytes (width number : Nat) : (bytes width number).length = width := by
  induction width generalizing number with
  | zero => rfl
  | succ width induction => simp [bytes, induction]

theorem value_bytes (width number : Nat) :
    value (bytes width number) = number % 1 <<< (8 * width) := by
  induction width generalizing number with
  | zero => simp [bytes, value, Nat.mod_one]
  | succ width induction =>
      have split : 1 <<< (8 * (width + 1)) = 256 * 1 <<< (8 * width) := by
        rw [Nat.mul_succ, Nat.one_shiftLeft, Nat.one_shiftLeft, Nat.pow_add, Nat.mul_comm]
      rw [bytes, value, induction, split, Nat.mod_mul]
      simp

theorem value_lt (bytes : List UInt8) : value bytes < 1 <<< (8 * bytes.length) := by
  induction bytes with
  | nil => exact Nat.zero_lt_one
  | cons head tail induction =>
      have split : 1 <<< (8 * (tail.length + 1)) = 256 * 1 <<< (8 * tail.length) := by
        rw [Nat.mul_succ, Nat.one_shiftLeft, Nat.one_shiftLeft, Nat.pow_add, Nat.mul_comm]
      have byte := head.toNat_lt
      rw [value, List.length_cons, split]
      omega

/-- The number in the `width` bytes from `offset` on; bytes past the end count
as zero. -/
def field (source : List UInt8) (offset width : Nat) : Nat :=
  value ((source.drop offset).take width)

end EarlyMemory.LittleEndian
