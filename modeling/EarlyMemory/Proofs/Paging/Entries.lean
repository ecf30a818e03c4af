import EarlyMemory.Paging.Entry

/-!
# What entries say

The fields of an entry that was built for a table, a leaf or the recursive slot.
A frame reads back from an entry only if its number fits the frame field, so
only such frames can be linked.
-/

namespace EarlyMemory

/-- Whether an entry can point at the frame. -/
def Page.IsLinkable (frame : Frame) : Prop :=
  frame.number < 1 <<< 40

namespace PageEntry

@[simp] theorem frame_withFrame (entry : PageEntry) {frame : Frame}
    (linkable : frame.IsLinkable) : (entry.withFrame frame).frame = frame := by
  have written := BitField.read_write frameField entry.bits (BitVec.ofNat 40 frame.number)
    (by decide)
  apply Page.ext
  simp only [PageEntry.frame, withFrame, written, BitVec.toNat_ofNat]
  unfold Page.IsLinkable at linkable
  omega

theorem isLinkable_frame (entry : PageEntry) : entry.frame.IsLinkable :=
  (frameField.read entry.bits).isLt

@[simp] theorem flag_withFrame (entry : PageEntry) (frame : Frame) (flag : Flag) :
    (entry.withFrame frame).flag flag = entry.flag flag := by
  have kept := BitField.read_write_other frameField flag.field entry.bits
    (BitVec.ofNat 40 frame.number)
    (by cases flag <;> decide) (by cases flag <;> decide)
  simp only [PageEntry.flag, withFrame, BitField.readFlag, kept]

@[simp] theorem flag_withFlag_same (entry : PageEntry) (flag : Flag) (value : Bool) :
    (entry.withFlag flag value).flag flag = value :=
  BitField.readFlag_writeFlag _ _ _ (by cases flag <;> decide)

theorem flag_withFlag_other (entry : PageEntry) {flag other : Flag} (value : Bool)
    (different : other ≠ flag) : (entry.withFlag flag value).flag other = entry.flag other := by
  have kept := BitField.read_write_other flag.field other.field entry.bits (BitVec.ofBool value)
    (by cases other <;> decide)
    (by cases flag <;> cases other <;> first | decide | exact absurd rfl different)
  simp only [PageEntry.flag, withFlag, BitField.writeFlag, BitField.readFlag, kept]

@[simp] theorem present_zero : zero.present = false := by
  decide

@[simp] theorem present_table (frame : Frame) : (table frame).present = true := by
  simp [table, present, flag_withFlag_other]

@[simp] theorem frame_table {frame : Frame} (linkable : frame.IsLinkable) :
    (table frame).frame = frame :=
  frame_withFrame _ linkable

theorem table_frame_table (frame : Frame) : table (table frame).frame = table frame := by
  have written := BitField.read_write frameField
    ((zero.withFlag .present true).withFlag .writable true).bits (BitVec.ofNat 40 frame.number)
    (by decide)
  have number : (table frame).frame.number = frame.number % 2 ^ 40 := by
    simp only [table, PageEntry.frame, withFrame, written, BitVec.toNat_ofNat]
  have same : BitVec.ofNat 40 (frame.number % 2 ^ 40) = BitVec.ofNat 40 frame.number :=
    BitVec.eq_of_toNat_eq (by simp)
  rw [table, withFrame, number, same]
  rfl

@[simp] theorem present_leaf (frame : Frame) (rights : Rights) :
    (leaf frame rights).present = true := by
  simp [leaf, present, flag_withFlag_other]

@[simp] theorem writable_leaf (frame : Frame) (rights : Rights) :
    (leaf frame rights).flag .writable = rights.write := by
  simp [leaf, flag_withFlag_other]

@[simp] theorem noExecute_leaf (frame : Frame) (rights : Rights) :
    (leaf frame rights).flag .noExecute = !rights.execute := by
  simp [leaf]

@[simp] theorem frame_leaf {frame : Frame} (linkable : frame.IsLinkable) (rights : Rights) :
    (leaf frame rights).frame = frame :=
  frame_withFrame _ linkable

@[simp] theorem present_selfReference (frame : Frame) :
    (selfReference frame).present = true := by
  simp [selfReference, present, flag_withFlag_other]

@[simp] theorem frame_selfReference {frame : Frame} (linkable : frame.IsLinkable) :
    (selfReference frame).frame = frame :=
  frame_withFrame _ linkable

end PageEntry

end EarlyMemory
