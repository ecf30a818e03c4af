import EarlyMemory.Operation
import EarlyMemory.Region.Sorting

/-!
# The region table

The loader's allocator is a table of at most `capacity` regions, ordered by
start and free of zero-length entries. Whatever changes it ends in `arrange`,
which restores both; regions with equal starts come in the order that the sort
happens to leave them in.

A region is carved by shrinking its host in place and appending what was taken,
so a carving that uses up its host needs a free slot all the same.
-/

namespace EarlyMemory

@[ext] structure RegionTable (capacity : Nat)
    (sorting : Region.Sorting := .partitioning) where
  regions : List Region
deriving DecidableEq

def RegionTable.loaderCapacity : Nat :=
  1024

inductive RegionTableError where
  | full (capacity : Nat)
  | notContained (start stop : PhysicalAddress)
  | unknownReservation (address : PhysicalAddress)
deriving DecidableEq

def RegionTableError.message : RegionTableError → String
  | .full capacity => s!"region table is full ({capacity} entries)"
  | .notContained start stop =>
      s!"[{start.text}, {stop.text}) is not contained in a single available region"
  | .unknownReservation address => s!"no reserved region starts at {address.text}"

/-! ## Search -/

/-- The first region that passes a test, with the regions on its two sides. -/
structure Region.Found where
  before : List Region
  host : Region
  after : List Region

def Region.findFirst? (test : Region → Bool) : List Region → Option Region.Found
  | [] => none
  | head :: tail =>
      if test head then
        some ⟨[], head, tail⟩
      else
        (findFirst? test tail).map fun found => { found with before := head :: found.before }

namespace Region.Found

/-- The regions once `[start, stop)` is carved out of the host as `kind`. -/
def carve (found : Found) (kind : RegionKind) (start stop : PhysicalAddress) :
    List Region :=
  let taken := Region.of kind start stop
  let (kept, added) :=
    if found.host.start = start then
      ({ found.host with start := stop }, [taken])
    else if found.host.stop = stop then
      ({ found.host with stop := start }, [taken])
    else
      ({ found.host with stop := start },
        [taken, Region.of .available stop found.host.stop])
  found.before ++ kept :: found.after ++ added

def slotsToCarve (found : Found) (start stop : PhysicalAddress) : Nat :=
  if found.host.start = start ∨ found.host.stop = stop then 1 else 2

def retype (found : Found) (kind : RegionKind) : List Region :=
  found.before ++ found.host.withKind kind :: found.after

end Region.Found

/-! ## Merging -/

/-- Whether one available region ends where the next one starts. -/
def Region.touches (left right : Region) : Bool :=
  left.hasKind .available && right.hasKind .available && left.stop == right.start

/-- Folds each run of touching available regions into its last one. The others of a run keep
their places and no length. -/
def Region.foldInto (current : Region) : List Region → List Region
  | [] => [current]
  | next :: rest =>
      if !current.isEmpty && current.touches next then
        { current with stop := current.start } :: foldInto { next with start := current.start } rest
      else
        current :: foldInto next rest

def Region.foldTouching : List Region → List Region
  | [] => []
  | head :: tail => head.foldInto tail

namespace RegionTable

variable {capacity : Nat} {sorting : Region.Sorting} {ε : Type}

def empty : RegionTable capacity sorting :=
  ⟨[]⟩

/-- Sorts the regions and drops those without any length, which come last. -/
def arrange (regions : List Region) : RegionTable capacity sorting :=
  ⟨(sorting.sort regions).takeWhile fun region => !region.isEmpty⟩

def totalBytes (table : RegionTable capacity sorting) (kind : RegionKind) : Except Fault Nat :=
  Word.sum ((table.regions.filter fun region => region.hasKind kind).map Region.length)

def coalesce (table : RegionTable capacity sorting) : RegionTable capacity sorting :=
  arrange (Region.foldTouching table.regions)

open Operation (state update refuse check report attempt)

def requireRoom (extra : Nat) : Operation (RegionTable capacity sorting) RegionTableError Unit := do
  let table ← state
  if capacity < table.regions.length + extra then
    report .warn .regionTable s!"Region table is full ({capacity} entries)"
    refuse (.full capacity)

/-- Keeps the given regions in order. There is no slot past the capacity to write to. -/
def store (regions : List Region) : Operation (RegionTable capacity sorting) ε Unit :=
  if capacity < regions.length then
    check (.error .violation)
  else
    update fun _ => arrange regions

/-! ## Recording firmware ranges -/

/-- A range clipped to physical memory and rounded to whole pages. -/
def rounded (kind : RegionKind) (start stop : PhysicalAddress) :
    PhysicalAddress × PhysicalAddress :=
  let first := start.min physicalLimit
  let last := stop.min physicalLimit
  if kind.roundsInward then
    (first.alignUp .small, last.alignDown .small)
  else
    (first.alignDown .small, last.alignUp .small)

/-- Records a range; one that rounds to nothing is ignored. -/
def add (kind : RegionKind) (start stop : PhysicalAddress) :
    Operation (RegionTable capacity sorting) RegionTableError Unit := do
  let (first, last) := rounded kind start stop
  if last.value ≤ first.value then
    report .debug .regionTable s!"Ignoring empty {kind.label} region at {first.text}"
  else
    requireRoom 1
    let table ← state
    store (table.regions ++ [Region.of kind first last])

/-! ## Carving -/

/-- Marks a range, rounded outward, as reserved inside the available region
that holds it. -/
def reserve (start stop : PhysicalAddress) :
    Operation (RegionTable capacity sorting) RegionTableError Unit := do
  let first := start.alignDown .small
  let last := stop.alignUp .small
  if last.value ≤ first.value then
    return ()
  let table ← state
  let holds := fun (region : Region) =>
    region.hasKind .available && region.containsRange first last
  match Region.findFirst? holds table.regions with
  | none => refuse (.notContained first last)
  | some found =>
      requireRoom (found.slotsToCarve first last)
      store (found.carve .reserved first last)
      report .debug .regionTable s!"Reserved [{first.text}, {last.text})"

/-- Takes contiguous pages from the first available region that has them,
outside low memory. -/
def allocateAs (pages : Nat) (kind : RegionKind) :
    Operation (RegionTable capacity sorting) ε (Option PhysicalAddress) := do
  let bytes := pages * PageSize.small.bytes
  if pages = 0 ∨ 1 <<< 64 ≤ bytes then
    return none
  let table ← state
  let isEnough := fun (region : Region) =>
    region.hasKind .available && lowMemoryEnd.value ≤ region.start.value &&
      bytes ≤ region.length
  match Region.findFirst? isEnough table.regions with
  | none => return none
  | some found =>
      match ← attempt (requireRoom 1) with
      | .error _ =>
          report .warn .regionTable s!"Cannot allocate {pages} pages: region table is full"
          return none
      | .ok () =>
          let base := found.host.start
          let stop ← check (base.add bytes)
          store (found.carve kind base stop)
          report .trace .regionTable s!"Allocated {pages} pages at {base.text} ({kind.label})"
          return some base

def allocate (pages : Nat) : Operation (RegionTable capacity sorting) ε (Option PhysicalAddress) :=
  allocateAs pages .reserved

def allocateFrame : Operation (RegionTable capacity sorting) ε (Option Frame) := do
  let base ← allocate 1
  return base.map fun address => address.page .small

/-! ## Giving back -/

/-- Makes the reserved region that starts at the page of an address available
again and merges it with its neighbours. -/
def free (address : PhysicalAddress) :
    Operation (RegionTable capacity sorting) RegionTableError Unit := do
  let start := address.alignDown .small
  let table ← state
  let starts := fun (region : Region) => region.hasKind .reserved && region.start == start
  match Region.findFirst? starts table.regions with
  | none => refuse (.unknownReservation start)
  | some found =>
      update fun _ => coalesce ⟨found.retype .available⟩
      report .trace .regionTable s!"Freed reservation at {start.text}"

end RegionTable

end EarlyMemory
