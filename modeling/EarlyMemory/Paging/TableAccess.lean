import EarlyMemory.Paging.RecursiveMap

/-!
# Reaching tables

The loader reaches a table at its frame. The kernel reaches it through the
recursive map of the active root, where the table's address follows from the
address it maps, and has to flush what it changes.
-/

namespace EarlyMemory

inductive TableAccess where
  | direct
  /-- Through the recursive map of this root. -/
  | recursive (root : Frame)
deriving DecidableEq

namespace TableAccess

/-- The frame that an access to the table of a level finds. -/
def reach (access : TableAccess) (memory : Memory) (level : Level)
    (address : VirtualAddress) (frame : Frame) : Except Fault Frame :=
  match access with
  | .direct => do
      memory.requireFrame frame
      return frame
  | .recursive root => do
      let target ← memory.resolve root (RecursiveMap.tableAddress level address)
      memory.requireFrame (target.page .small)
      return target.page .small

def flushedByLink (access : TableAccess) (level : Level) (address : VirtualAddress) :
    List VirtualAddress :=
  match access with
  | .direct => []
  | .recursive _ => [RecursiveMap.tableAddress level address]

def flushedByLeaf (access : TableAccess) (address : VirtualAddress) :
    List VirtualAddress :=
  match access with
  | .direct => []
  | .recursive _ => [address]

/-! ## Bytes at virtual addresses -/

/-- Checks that consecutive pages map to consecutive frames. -/
def requireContiguous (memory : Memory) (root : Frame) (first : Frame)
    (page : Page .virtual .small) (index : Nat) : Nat → Except Fault Unit
  | 0 => .ok ()
  | remaining + 1 => do
      let expected ← first.advance index
      let current ← page.advance index
      let target ← memory.resolve root current.base
      if target = expected.base then
        let _ ← current.advance 1
        requireContiguous memory root first page (index + 1) remaining
      else
        .error .violation

/-- Where the bytes from a virtual address on stand in memory, all in a row. -/
def locate (access : TableAccess) (memory : Memory) (address : VirtualAddress)
    (count : Nat) : Except Fault PhysicalAddress :=
  match access with
  | .direct => do
      let target : PhysicalAddress := ⟨address.value, address.isLt⟩
      memory.requireRange target count
      return target
  | .recursive root => do
      let target ← memory.resolve root address
      let limit ← address.add count
      let page := address.page .small
      let pages := PageSize.small.pagesFor (limit.value - page.base.value)
      requireContiguous memory root (target.page .small) page 0 pages
      memory.requireRange target count
      return target

end TableAccess

end EarlyMemory
