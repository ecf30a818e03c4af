import EarlyMemory.Fault

/-!
# Bit fields

A field is a run of bits in a word. Writing a field changes its own bits and no
other, and reading gives back what was written.
-/

namespace EarlyMemory

structure BitField (width : Nat) where
  low : Nat
deriving DecidableEq

namespace BitField

variable {width size : Nat}

def read (field : BitField width) (word : BitVec size) : BitVec width :=
  word.extractLsb' field.low width

def write (field : BitField width) (word : BitVec size) (value : BitVec width) :
    BitVec size :=
  (word &&& ~~~((BitVec.allOnes width).setWidth size <<< field.low)) |||
    (value.setWidth size <<< field.low)

def readFlag (field : BitField 1) (word : BitVec size) : Bool :=
  (field.read word).getLsbD 0

def writeFlag (field : BitField 1) (word : BitVec size) (value : Bool) : BitVec size :=
  field.write word (BitVec.ofBool value)

/-- A number as a value of the field; one that does not fit faults. -/
def fit (_ : BitField width) (number : Nat) : Except Fault (BitVec width) :=
  let value := BitVec.ofNat width number
  if value.toNat = number then .ok value else .error .violation

def Holds (field : BitField width) (index : Nat) : Prop :=
  field.low ≤ index ∧ index < field.low + width

instance (field : BitField width) (index : Nat) : Decidable (field.Holds index) :=
  inferInstanceAs (Decidable (_ ∧ _))

theorem getLsbD_write (field : BitField width) (word : BitVec size)
    (value : BitVec width) (index : Nat) (within : index < size) :
    (field.write word value).getLsbD index =
      if field.Holds index then value.getLsbD (index - field.low)
      else word.getLsbD index := by
  simp only [write, Holds, BitVec.getLsbD_or, BitVec.getLsbD_and, BitVec.getLsbD_not,
    BitVec.getLsbD_shiftLeft, BitVec.getLsbD_setWidth, BitVec.getLsbD_allOnes, within,
    decide_true, Bool.true_and]
  by_cases above : field.low ≤ index
  · have notBelow : ¬ index < field.low := by omega
    have reduced : index - field.low < size := by omega
    by_cases inside : index - field.low < width
    · have upper : index < field.low + width := by omega
      simp [above, notBelow, reduced, inside, upper]
    · have upper : ¬ index < field.low + width := by omega
      have beyond := BitVec.getLsbD_of_ge value _ (Nat.le_of_not_lt inside)
      simp [notBelow, reduced, inside, upper, beyond]
  · have below : index < field.low := by omega
    simp [above, below]

theorem read_write (field : BitField width) (word : BitVec size) (value : BitVec width)
    (fits : field.low + width ≤ size) :
    field.read (field.write word value) = value := by
  apply BitVec.eq_of_getLsbD_eq
  intro index within
  have inside : field.Holds (field.low + index) := ⟨by omega, by omega⟩
  rw [read, BitVec.getLsbD_extractLsb', getLsbD_write _ _ _ _ (by omega), if_pos inside]
  simp [within]

theorem read_write_other {other : Nat} (field : BitField width) (apart : BitField other)
    (word : BitVec size) (value : BitVec width) (fits : apart.low + other ≤ size)
    (disjoint : apart.low + other ≤ field.low ∨ field.low + width ≤ apart.low) :
    apart.read (field.write word value) = apart.read word := by
  apply BitVec.eq_of_getLsbD_eq
  intro index within
  have outside : ¬ field.Holds (apart.low + index) := by
    unfold Holds
    omega
  rw [read, BitVec.getLsbD_extractLsb', getLsbD_write _ _ _ _ (by omega), if_neg outside,
    read, BitVec.getLsbD_extractLsb']

theorem readFlag_writeFlag (field : BitField 1) (word : BitVec size) (value : Bool)
    (fits : field.low + 1 ≤ size) :
    field.readFlag (field.writeFlag word value) = value := by
  simp [readFlag, writeFlag, read_write field word _ fits]

end BitField

end EarlyMemory
