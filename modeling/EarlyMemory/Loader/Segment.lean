import EarlyMemory.Loader.BootTables

/-!
# Backing segments

A segment is a run of virtual pages backed by fresh frames in a row. The frames
are recorded as allocated, so the kernel will take them for memory in use.
-/

namespace EarlyMemory.Loader

variable {capacity : Nat} {sorting : Region.Sorting}

open Operation (refuse report check reportRefusal)

/-- Maps pages from an index on; whatever refuses one of them ends the rest. -/
def mapSegment (root : Frame) (backing : PhysicalAddress) (address : VirtualAddress)
    (rights : Rights) (index : Nat) :
    Nat → Operation (Paged (RegionTable capacity sorting)) BootTables.Refusal Unit
  | 0 => return ()
  | remaining + 1 => do
      let offset ← check (Word.multiply index PageSize.small.bytes)
      let target ← check (backing.add offset)
      let page ← check (address.add offset)
      reportRefusal .error .loader
        (fun cause => s!"Segment at {address.text}: {cause.message}")
        (BootTables.map root target page rights)
      mapSegment root backing address rights (index + 1) remaining

/-- Backs pages at a virtual address and gives the base of their backing. -/
def loadSegment (root : Frame) (address : VirtualAddress) (pages : Nat) (rights : Rights) :
    Operation (Paged (RegionTable capacity sorting)) BootTables.Refusal PhysicalAddress := do
  match ← Paged.onSource (RegionTable.allocateAs pages .allocated) with
  | none =>
      report .error .loader s!"No memory for a {pages}-page segment at {address.text}"
      refuse .outOfMemory
  | some backing =>
      mapSegment root backing address rights 0 pages
      report .debug .loader
        (s!"Segment {address.text} ({pages} pages, {rights.text}) backed at " ++
          s!"{backing.text}")
      return backing

end EarlyMemory.Loader
