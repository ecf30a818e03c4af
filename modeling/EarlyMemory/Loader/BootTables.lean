import EarlyMemory.Paging.AddressSpace

/-!
# The bootstrap tables

The first hierarchy is one table per level, taken as four frames in a row and
linked through entry 0. The last of them maps the first two mebibytes of memory
to themselves with all rights, so that the loader goes on running once paging
is on.
-/

namespace EarlyMemory.BootTables

variable {capacity : Nat} {sorting : Region.Sorting}

open Operation (refuse report check mapRefusal)
open Paged (changeMemory inspect)

inductive PagingMode where
  | legacy32
  | long64
deriving DecidableEq

inductive Refusal where
  | unsupportedMode
  | outOfMemory
  | map (cause : MapError)
deriving DecidableEq

def Refusal.message : Refusal → String
  | .unsupportedMode => "32-bit paging is not supported"
  | .outOfMemory => "out of memory for the bootstrap page tables"
  | .map cause => cause.message

def identityBytes : Nat :=
  2097152

/-- The loader reaches every table at its frame. -/
def space (root : Frame) : AddressSpace :=
  ⟨root, .direct⟩

def map {F : Type} [FrameSource F] (root : Frame) (target : PhysicalAddress)
    (address : VirtualAddress) (rights : Rights) : Operation (Paged F) Refusal Unit :=
  mapRefusal .map ((space root).map target address rights)

/-- Clears a table per level from a frame on and links each to the next. -/
def link (frame : Frame) :
    List Level → Operation (Paged (RegionTable capacity sorting)) Refusal Unit
  | [] => return ()
  | level :: below => do
      let table ← inspect fun memory =>
        TableAccess.direct.reach memory level ⟨0, by decide⟩ frame
      changeMemory fun memory => memory.clearTable table
      if level.next?.isSome then
        let next ← check (frame.advance 1)
        changeMemory fun memory => memory.setEntry table 0 (.table next)
        link next below

/-- Maps consecutive pages, from the page with an index on, to themselves. -/
def mapIdentity (root : Frame) (index : Nat) :
    Nat → Operation (Paged (RegionTable capacity sorting)) Refusal Unit
  | 0 => return ()
  | remaining + 1 => do
      let address := index * PageSize.small.bytes
      map root (.ofNat address) (.ofNat address) .all
      mapIdentity root (index + 1) remaining

def create (mode : PagingMode) : Operation (Paged (RegionTable capacity sorting)) Refusal Frame :=
  match mode with
  | .legacy32 => do
      report .error .bootTables "32-bit paging is not supported"
      refuse .unsupportedMode
  | .long64 => do
      match ← Paged.onSource (RegionTable.allocate Level.all.length) with
      | none =>
          report .error .bootTables "Could not allocate the bootstrap page tables"
          refuse .outOfMemory
      | some base =>
          let root := base.page .small
          link root Level.all
          report .debug .bootTables s!"Bootstrap PML4 at {root.base.text}"
          mapIdentity root 0 (identityBytes / PageSize.small.bytes)
          report .debug .bootTables
            s!"Identity-mapped [0, {Hex.lower 1 identityBytes})"
          return root

end EarlyMemory.BootTables
