import EarlyMemory.Machine.Memory
import EarlyMemory.Paging.Entry
import EarlyMemory.Paging.Level

/-!
# Tables in memory and the walk over them

A table is a frame of 512 words. A walk follows present entries from the root
down; it ends at the leaf of the last level or at the first entry that is not
present.
-/

namespace EarlyMemory

namespace Memory

/-! ## Tables -/

def entryAddress (frame : Frame) (index : TableIndex) : Nat :=
  frame.number * 4096 + 8 * index.val

def entry (memory : Memory) (frame : Frame) (index : TableIndex) : PageEntry :=
  ⟨memory.loadWord (entryAddress frame index)⟩

def setEntry (memory : Memory) (frame : Frame) (index : TableIndex) (entry : PageEntry) :
    Memory :=
  memory.storeWord (entryAddress frame index) entry.bits

def clearTable (memory : Memory) (frame : Frame) : Memory :=
  memory.fill (frame.number * 4096) 4096 0

def entries (memory : Memory) (frame : Frame) : List PageEntry :=
  (List.finRange 512).map (memory.entry frame)

def usedEntries (memory : Memory) (frame : Frame) : List (TableIndex × PageEntry) :=
  ((List.finRange 512).map fun index => (index, memory.entry frame index)).filter
    fun (_, entry) => entry != .zero

def presentCount (memory : Memory) (frame : Frame) : Nat :=
  (memory.entries frame).countP PageEntry.present

def HasFrame (memory : Memory) (frame : Frame) : Prop :=
  memory.base.number ≤ frame.number ∧ frame.number < memory.base.number + memory.frames

instance (memory : Memory) (frame : Frame) : Decidable (memory.HasFrame frame) :=
  inferInstanceAs (Decidable (_ ∧ _))

theorem HasFrame.contains {memory : Memory} {frame : Frame}
    (inside : memory.HasFrame frame) {offset : Nat} (within : offset < 4096) :
    memory.Contains (frame.number * 4096 + offset) := by
  rcases inside with ⟨above, below⟩
  unfold Contains start
  rw [memory.sized]
  omega

theorem entry_setEntry_same (memory : Memory) (frame : Frame) (index : TableIndex)
    (entry : PageEntry) (inside : memory.HasFrame frame) :
    (memory.setEntry frame index entry).entry frame index = entry := by
  have read := loadWord_storeWord_same memory (entryAddress frame index) entry.bits
    (fun offset within => by
      have := index.isLt
      rw [entryAddress, Nat.add_assoc]
      exact inside.contains (by omega))
  simp [Memory.entry, setEntry, read]

theorem entry_setEntry_other (memory : Memory) (frame other : Frame)
    (index otherIndex : TableIndex) (entry : PageEntry)
    (different : other ≠ frame ∨ otherIndex ≠ index) :
    (memory.setEntry frame index entry).entry other otherIndex =
      memory.entry other otherIndex := by
  have read := loadWord_storeWord_other memory (entryAddress frame index)
    (entryAddress other otherIndex) entry.bits (by
      have := index.isLt
      have := otherIndex.isLt
      unfold entryAddress
      rcases different with frames | indices
      · have : other.number ≠ frame.number := fun same => frames (Page.ext same)
        omega
      · have : otherIndex.val ≠ index.val := fun same => indices (Fin.ext same)
        omega)
  simp [Memory.entry, setEntry, read]

def requireFrame (memory : Memory) (frame : Frame) : Except Fault Unit :=
  memory.requireInside frame.base

/-! ## The walk -/

def walkDown (memory : Memory) (address : VirtualAddress) (frame : Frame) :
    List Level → Except Fault (Option PageEntry)
  | [] => .ok none
  | level :: below => do
      memory.requireFrame frame
      let entry := memory.entry frame (level.index address)
      if !entry.present then
        return none
      else if below.isEmpty then
        return some entry
      else
        walkDown memory address entry.frame below

/-- The present leaf of an address below a root. -/
def walk (memory : Memory) (root : Frame) (address : VirtualAddress) :
    Except Fault (Option PageEntry) :=
  memory.walkDown address root Level.all

/-- Where an address points below a root. -/
def translate (memory : Memory) (root : Frame) (address : VirtualAddress) :
    Except Fault (Option PhysicalAddress) := do
  let leaf ← memory.walk root address
  return leaf.map fun leaf => leaf.frame.join (address.offset .small)

/-- Where an address points; one that points nowhere faults. -/
def resolve (memory : Memory) (root : Frame) (address : VirtualAddress) :
    Except Fault PhysicalAddress := do
  match ← memory.translate root address with
  | some target => return target
  | none => .error (.pageFault address)

end Memory

end EarlyMemory
