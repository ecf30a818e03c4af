import EarlyMemory.Ledger.Bitmap
import EarlyMemory.Region.Run

/-!
# The layout of the ledger

The ledger holds the bitmaps of the available runs, whole bytes per run, and
behind them one descriptor per run. It is sized before it is placed: its pages
stand in an available region, followed by the tables it may take to map them.
-/

namespace EarlyMemory.Ledger

def descriptorBytes : Nat :=
  40

def descriptorAlignment : Nat :=
  8

/-- The bytes of bitmap a run gets; only available runs have one. -/
def bitmapBytesOf (run : Run) : Except Fault Nat := do
  let pages ← run.pages
  return if run.kind = .available then Bitmap.bytesFor pages else 0

def alignUp (boundary bytes : Nat) : Except Fault Nat :=
  if bytes % boundary = 0 then
    .ok bytes
  else
    Word.add bytes (boundary - bytes % boundary)

/-- The tables that mapping consecutive pages may take wherever they start;
each level can straddle one table more than the division gives. -/
def worstCaseTables (pages : Nat) : Nat :=
  let tables := fun (entries : Nat) => (entries + 511) / 512 + 1
  let pts := tables pages
  let pds := tables pts
  let pdpts := tables pds
  pts + pds + pdpts

structure Layout where
  regionCount : Nat
  bitmapBytes : Nat
  descriptorsOffset : Nat
  metadataPages : Nat
  tableFrames : Nat
deriving DecidableEq

namespace Layout

def ofRegions (regions : List Region) : Except Fault Layout := do
  let runs := Run.ofRegions regions
  let bitmaps ← runs.mapM bitmapBytesOf
  let bitmapBytes ← Word.sum bitmaps
  let descriptorsOffset ← alignUp descriptorAlignment bitmapBytes
  let descriptors ← Word.multiply runs.length descriptorBytes
  let total ← Word.add descriptorsOffset descriptors
  let metadataPages := PageSize.small.pagesFor total
  return ⟨runs.length, bitmapBytes, descriptorsOffset, metadataPages,
    worstCaseTables metadataPages⟩

def totalPages (layout : Layout) : Except Fault Nat :=
  Word.add layout.metadataPages layout.tableFrames

def requiredBytes (layout : Layout) : Except Fault Nat := do
  let pages ← layout.totalPages
  Word.multiply pages PageSize.small.bytes

end Layout

end EarlyMemory.Ledger
