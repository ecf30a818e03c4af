import EarlyMemory.Machine.Paged
import EarlyMemory.Paging.TableAccess

/-!
# Address spaces

`map` installs one page, taking missing tables from the frame source on the way
down. A fresh table is linked first and cleared once it can be reached. A
present leaf is never overwritten. `query` and `translate` change nothing.
-/

namespace EarlyMemory

inductive MapError where
  | outOfMemory (level : Level)
  | alreadyMapped (address : VirtualAddress) (existing : PhysicalAddress)
deriving DecidableEq

def MapError.message : MapError → String
  | .outOfMemory level => s!"out of memory allocating a {level.label} table"
  | .alreadyMapped address existing =>
      s!"{address.text} is already mapped to {existing.text}"

structure AddressSpace where
  root : Frame
  access : TableAccess
deriving DecidableEq

namespace AddressSpace

/-! ## Mapping -/

section

variable {F : Type} [FrameSource F]

open Operation (refuse report)
open Paged (changeMemory flush inspect)

def reachTable (space : AddressSpace) (level : Level) (address : VirtualAddress)
    (frame : Frame) : Operation (Paged F) MapError Frame :=
  inspect fun memory => space.access.reach memory level address frame

/-- Follows an entry of a table down to the next level, or fills the entry with
a fresh, cleared table. -/
def ensureChild (space : AddressSpace) (table : Frame) (index : TableIndex)
    (child : Level) (address : VirtualAddress) : Operation (Paged F) MapError Frame := do
  let entry ← inspect fun memory => .ok (memory.entry table index)
  if entry.present then
    return entry.frame
  else
    match ← FrameSource.take with
    | none => refuse (.outOfMemory child)
    | some frame =>
        changeMemory fun memory => memory.setEntry table index (.table frame)
        flush (space.access.flushedByLink child address)
        let reached ← space.reachTable child address frame
        changeMemory fun memory => memory.clearTable reached
        report .trace .addressSpace
          s!"new {child.label} table at {frame.text} for {address.text}"
        return frame

/-- The frame of the last level's table, with every table above it in place. -/
def descend (space : AddressSpace) (address : VirtualAddress) (level : Level)
    (frame : Frame) : List Level → Operation (Paged F) MapError Frame
  | [] => return frame
  | child :: below => do
      let table ← space.reachTable level address frame
      let next ← space.ensureChild table (level.index address) child address
      descend space address child next below

def map (space : AddressSpace) (target : PhysicalAddress) (address : VirtualAddress)
    (rights : Rights) : Operation (Paged F) MapError Unit := do
  let last ← space.descend address .pml4 space.root [.pdpt, .pd, .pt]
  let table ← space.reachTable .pt address last
  let existing ← inspect fun memory => .ok (memory.entry table (Level.pt.index address))
  if existing.present then
    refuse (.alreadyMapped address existing.frame.base)
  else
    changeMemory fun memory =>
      memory.setEntry table (Level.pt.index address) (.leaf (target.page .small) rights)
    flush (space.access.flushedByLeaf address)
    report .trace .addressSpace
      s!"mapped {address.text} -> {target.text} ({rights.text})"

end

/-! ## Reading -/

def queryDown (space : AddressSpace) (memory : Memory) (address : VirtualAddress)
    (frame : Frame) : List Level → Except Fault (Option PageEntry)
  | [] => .ok none
  | level :: below => do
      let table ← space.access.reach memory level address frame
      let entry := memory.entry table (level.index address)
      if !entry.present then
        return none
      else if below.isEmpty then
        return some entry
      else
        queryDown space memory address entry.frame below

def query (space : AddressSpace) (memory : Memory) (address : VirtualAddress) :
    Except Fault (Option PageEntry) :=
  space.queryDown memory address space.root Level.all

def translate (space : AddressSpace) (memory : Memory) (address : VirtualAddress) :
    Except Fault (Option PhysicalAddress) := do
  let leaf ← space.query memory address
  return leaf.map fun leaf => leaf.frame.join (address.offset .small)

end AddressSpace

end EarlyMemory
