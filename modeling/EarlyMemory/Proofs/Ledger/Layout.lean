import EarlyMemory.Proofs.Endings
import EarlyMemory.Proofs.Ledger.Locating
import EarlyMemory.Proofs.Words
import Mathlib.Order.Bounds.Defs

/-!
# What a layout makes room for

A layout has a byte range for the bitmap of each run and, behind all of them, a place for
each descriptor. A ledger that records the runs in that room is in order.
-/

namespace EarlyMemory

/-! ## Layouts -/

namespace Ledger

variable {runs : List Run} {regions : List Region} {layout : Layout}

theorem mapM_bitmapBytesOf (wellFormed : ∀ run ∈ runs, run.IsWellFormed) :
    runs.mapM bitmapBytesOf = .ok (runs.map Run.bitmapSize) :=
  mapM_eq_ok fun run member => Run.bitmapBytesOf_eq_ok (wellFormed run member).proper

theorem isLeast_alignUp {bytes aligned : Nat}
    (done : alignUp descriptorAlignment bytes = .ok aligned) :
    IsLeast {offset | descriptorAlignment ∣ offset ∧ bytes ≤ offset} aligned := by
  have boundary : descriptorAlignment = 8 := rfl
  unfold alignUp at done
  split at done
  case isTrue whole =>
    cases done
    exact ⟨⟨Nat.dvd_of_mod_eq_zero whole, Nat.le_refl _⟩, fun offset multiple => multiple.2⟩
  case isFalse partly =>
    rcases Word.of_add done with ⟨rfl, _⟩
    rw [boundary] at partly ⊢
    refine ⟨⟨by omega, by omega⟩, ?_⟩
    rintro offset ⟨multiple, above⟩
    omega

/-- What a layout makes room for. -/
structure Layout.Houses (layout : Layout) (runs : List Run) : Prop where
  count : layout.regionCount = runs.length
  bitmaps : layout.bitmapBytes = Run.bitmapSizes runs
  low : layout.bitmapBytes < 1 <<< 64
  inFront : layout.bitmapBytes ≤ layout.descriptorsOffset
  fits : layout.descriptorsOffset + layout.regionCount * descriptorBytes ≤
    layout.metadataPages * 4096
  tables : layout.tableFrames = worstCaseTables layout.metadataPages

/-- A layout has the bitmaps in front, the descriptors at the next boundary and as many pages as
that takes. -/
theorem of_ofRegions (wellFormed : ∀ run ∈ Run.ofRegions regions, run.IsWellFormed)
    (done : Layout.ofRegions regions = .ok layout) : ∃ offset pages,
      alignUp descriptorAlignment (Run.bitmapSizes (Run.ofRegions regions)) = .ok offset ∧
      Run.bitmapSizes (Run.ofRegions regions) < 1 <<< 64 ∧
      pages = PageSize.small.pagesFor (offset + (Run.ofRegions regions).length * descriptorBytes) ∧
      layout = ⟨(Run.ofRegions regions).length, Run.bitmapSizes (Run.ofRegions regions), offset,
        pages, worstCaseTables pages⟩ := by
  rw [Layout.ofRegions, mapM_bitmapBytesOf wellFormed] at done
  simp only [bind, Except.bind] at done
  cases summed : Word.sum ((Run.ofRegions regions).map Run.bitmapSize) with
  | error cause =>
      rw [summed] at done
      cases done
  | ok bitmapBytes =>
  rw [summed] at done
  simp only at done
  cases aligned : alignUp descriptorAlignment bitmapBytes with
  | error cause =>
      rw [aligned] at done
      cases done
  | ok descriptorsOffset =>
  rw [aligned] at done
  simp only at done
  cases product : Word.multiply (Run.ofRegions regions).length descriptorBytes with
  | error cause =>
      rw [product] at done
      cases done
  | ok descriptors =>
  rw [product] at done
  simp only at done
  cases added : Word.add descriptorsOffset descriptors with
  | error cause =>
      rw [added] at done
      cases done
  | ok total =>
      rw [added] at done
      cases done
      rcases Word.of_sum summed with ⟨rfl, low⟩
      rcases Word.of_multiply product with ⟨rfl, _⟩
      rcases Word.of_add added with ⟨rfl, _⟩
      exact ⟨descriptorsOffset, _, aligned, low, rfl, rfl⟩

theorem houses_of_ofRegions (wellFormed : ∀ run ∈ Run.ofRegions regions, run.IsWellFormed)
    (done : Layout.ofRegions regions = .ok layout) : layout.Houses (Run.ofRegions regions) := by
  rcases of_ofRegions wellFormed done with ⟨offset, pages, aligned, low, rfl, rfl⟩
  refine ⟨rfl, rfl, low, (isLeast_alignUp aligned).1.2, ?_, rfl⟩
  simp only [PageSize.pagesFor, PageSize.bytes]
  omega

def Layout.ledger (layout : Layout) (start : PhysicalAddress) : Ledger :=
  ⟨start, layout.bitmapBytes, layout.descriptorsOffset, layout.regionCount⟩

end Ledger

/-! ## Planned descriptors -/

namespace Run

variable {runs : List Run} {run : Run} {offset : Nat} {descriptor : Descriptor}

/-- What a planned descriptor says of its run. -/
structure IsPlanned (run : Run) (descriptor : Descriptor) : Prop where
  base : descriptor.base = run.base
  pages : descriptor.pages = run.pageCount
  kind : descriptor.kind = run.kind
  bitmapBytes : descriptor.bitmapBytes = run.bitmapSize

theorem of_mem_planned (member : descriptor ∈ planned offset runs) :
    (∃ run ∈ runs, run.IsPlanned descriptor) ∧ offset ≤ descriptor.bitmapOffset ∧
      descriptor.bitmapOffset + descriptor.bitmapBytes ≤ offset + bitmapSizes runs := by
  induction runs generalizing offset with
  | nil => cases member
  | cons run rest induction =>
      rw [bitmapSizes_cons]
      rcases List.mem_cons.1 member with rfl | further
      · refine ⟨⟨run, List.mem_cons_self, rfl, rfl, rfl, rfl⟩, Nat.le_refl _, ?_⟩
        change offset + run.bitmapSize ≤ _
        omega
      · rcases induction further with ⟨⟨other, isLater, isPlanned⟩, above, below⟩
        exact ⟨⟨other, List.mem_cons_of_mem _ isLater, isPlanned⟩, by omega, by omega⟩

theorem exists_mem_planned (offset : Nat) (member : run ∈ runs) :
    ∃ descriptor ∈ planned offset runs, run.IsPlanned descriptor := by
  induction runs generalizing offset with
  | nil => cases member
  | cons first rest induction =>
      rcases List.mem_cons.1 member with rfl | isLater
      · exact ⟨_, List.mem_cons_self, rfl, rfl, rfl, rfl⟩
      · rcases induction (offset + first.bitmapSize) isLater with
          ⟨descriptor, isPlan, isPlanned⟩
        exact ⟨descriptor, List.mem_cons_of_mem _ isPlan, isPlanned⟩

theorem IsPlanned.isWellFormed (isPlanned : run.IsPlanned descriptor)
    (wellFormed : run.IsWellFormed) : descriptor.IsWellFormed := by
  have count := wellFormed.pageCount
  constructor
  · rw [isPlanned.base]
    exact wellFormed.base
  · rw [isPlanned.base, isPlanned.pages, count]
    exact run.stop.isLt

theorem apart_of_isPlanned {other : Run} {left right : Descriptor}
    (isPlanned : run.IsPlanned left) (otherPlanned : other.IsPlanned right)
    (wellFormed : run.IsWellFormed) (otherWellFormed : other.IsWellFormed)
    (separate : run.Separate other)
    (follows : left.bitmapOffset + left.bitmapBytes ≤ right.bitmapOffset) : left.Apart right := by
  refine ⟨.inl follows, fun available => ?_⟩
  rw [isPlanned.kind, otherPlanned.kind] at available
  rw [isPlanned.base, isPlanned.pages, otherPlanned.base, otherPlanned.pages,
    wellFormed.pageCount, otherWellFormed.pageCount]
  exact separate available

theorem pairwise_planned_of {relation : Run → Run → Prop}
    {target : Descriptor → Descriptor → Prop} (related : runs.Pairwise relation)
    (carries : ∀ run ∈ runs, ∀ other ∈ runs, ∀ left right, run.IsPlanned left →
      other.IsPlanned right → left.bitmapOffset + left.bitmapBytes ≤ right.bitmapOffset →
      relation run other → target left right) : (planned offset runs).Pairwise target := by
  induction runs generalizing offset with
  | nil => exact List.Pairwise.nil
  | cons run rest induction =>
      rw [List.pairwise_cons] at related
      refine List.pairwise_cons.2 ⟨fun right member => ?_, induction related.2 ?_⟩
      · rcases of_mem_planned member with ⟨⟨other, isLater, isPlanned⟩, above, _⟩
        exact carries run List.mem_cons_self other (List.mem_cons_of_mem _ isLater) _ _
          ⟨rfl, rfl, rfl, rfl⟩ isPlanned above (related.1 other isLater)
      · intro first isFirst other isLater
        exact carries first (List.mem_cons_of_mem _ isFirst) other (List.mem_cons_of_mem _ isLater)

theorem pairwise_planned (wellFormed : ∀ run ∈ runs, run.IsWellFormed)
    (separate : runs.Pairwise Separate) : (planned offset runs).Pairwise Descriptor.Apart :=
  pairwise_planned_of separate fun run member other isOther _ _ isPlanned otherPlanned follows
    separate => apart_of_isPlanned isPlanned otherPlanned (wellFormed run member)
      (wellFormed other isOther) separate follows

theorem precedes_of_isPlanned {other : Run} {left right : Descriptor}
    (isPlanned : run.IsPlanned left) (otherPlanned : other.IsPlanned right)
    (wellFormed : run.IsWellFormed) (precedes : run.Precedes other) : left.Precedes right := by
  unfold Descriptor.Precedes
  rw [isPlanned.base, isPlanned.pages, otherPlanned.base]
  exact Nat.le_trans (Nat.le_of_eq wellFormed.pageCount) precedes

theorem pairwise_precedes_planned (wellFormed : ∀ run ∈ runs, run.IsWellFormed)
    (sorted : runs.Pairwise Precedes) :
    (planned offset runs).Pairwise Descriptor.Precedes :=
  pairwise_planned_of sorted fun run member _ _ _ _ isPlanned otherPlanned _ =>
    precedes_of_isPlanned isPlanned otherPlanned (wellFormed run member)

theorem pairwise_clears_planned (wellFormed : ∀ run ∈ runs, run.IsWellFormed)
    (clears : runs.Pairwise Clears) : (planned offset runs).Pairwise Descriptor.Clears :=
  pairwise_planned_of clears fun run member _ _ _ _ isPlanned otherPlanned _ clear available =>
    precedes_of_isPlanned isPlanned otherPlanned (wellFormed run member)
      (clear (isPlanned.kind.symm.trans available))

theorem exists_planned_iff {regions : List Region} {kind : KernelKind} {page : Frame}
    (aligned : ∀ region ∈ regions, region.IsPageAligned) :
    (∃ descriptor ∈ planned 0 (ofRegions regions),
        descriptor.kind = kind ∧ descriptor.HoldsPage page) ↔
      ∃ region ∈ regions, region.kernelKind = kind ∧ region.HoldsPage page := by
  constructor
  · rintro ⟨descriptor, member, ofKind, above, below⟩
    rcases (of_mem_planned member).1 with ⟨run, isRun, isPlanned⟩
    rcases mem_ofRegions aligned isRun with ⟨wellFormed, backed⟩
    have pages := wellFormed.pageCount
    have stop := wellFormed.stop
    rw [isPlanned.base] at above below
    rw [isPlanned.pages] at below
    rw [← ofKind, isPlanned.kind]
    exact backed page ⟨above, by omega⟩
  · rintro ⟨region, member, ofKind, above, below⟩
    have proper : region.IsProper := show region.start.value < region.stop.value by omega
    rcases exists_mem_ofRegions member proper with ⟨run, isRun, covers⟩
    rcases exists_mem_planned 0 isRun with ⟨descriptor, isPlan, isPlanned⟩
    have pages := (mem_ofRegions aligned isRun).1.pageCount
    have lower := covers.base
    have upper := covers.stop
    refine ⟨descriptor, isPlan, isPlanned.kind.trans (covers.kind.trans ofKind), ?_, ?_⟩
    · rw [isPlanned.base]
      omega
    · rw [isPlanned.base, isPlanned.pages]
      omega

end Run

/-! ## The ledger of a layout -/

namespace Ledger

variable {runs : List Run} {layout : Layout} {memory : Memory} {start : PhysicalAddress}
  {keeps : Frame → Prop}

/-- A ledger that holds the planned descriptors in the room of its layout is in order. -/
theorem isOrderly_of_planned (houses : layout.Houses runs)
    (wellFormed : ∀ run ∈ runs, run.IsWellFormed) (separate : runs.Pairwise Run.Separate)
    (recorded : (layout.ledger start).descriptors memory = Run.planned 0 runs)
    (inside : ∀ offset < layout.metadataPages * 4096, memory.Contains (start.value + offset) ∧
      ∃ frame : Frame, keeps frame ∧ frame.Holds (start.value + offset))
    (cleared : ∀ offset < layout.bitmapBytes, memory.byteAt (start.value + offset) = 0) :
    (layout.ledger start).IsOrderly memory keeps where
  wellFormed := by
    rw [recorded]
    intro descriptor member
    rcases (Run.of_mem_planned member).1 with ⟨run, isRun, isPlanned⟩
    exact isPlanned.isWellFormed (wellFormed run isRun)
  apart := by
    rw [recorded]
    exact Run.pairwise_planned wellFormed separate
  bitmaps := by
    rw [recorded]
    intro descriptor member available
    rcases Run.of_mem_planned member with ⟨⟨run, isRun, isPlanned⟩, _, below⟩
    rw [isPlanned.kind] at available
    refine ⟨?_, ?_⟩
    · rw [isPlanned.bitmapBytes, isPlanned.pages, Run.bitmapSize, if_pos available]
    · rw [Nat.zero_add, ← houses.bitmaps] at below
      exact below
  low := houses.low
  inFront := houses.inFront
  inside offset below := by
    have fits := houses.fits
    exact inside offset (Nat.lt_of_lt_of_le below fits)
  padding := by
    rw [recorded]
    intro descriptor member _ bit _
    have below := (Run.of_mem_planned member).2.2
    rw [Nat.zero_add, ← houses.bitmaps] at below
    exact isSet_view_of_cleared cleared below bit

end Ledger

end EarlyMemory
