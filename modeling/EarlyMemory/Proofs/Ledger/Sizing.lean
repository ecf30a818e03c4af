import EarlyMemory.Proofs.Ledger.Layout
import EarlyMemory.Proofs.Region.Coverage
import Mathlib.Algebra.BigOperators.Ring.List
import Mathlib.Algebra.Order.BigOperators.Group.List
import Mathlib.Algebra.Order.Ring.Nat

/-!
# Sizing a ledger

Runs are as long as the regions that went into them, and none is shorter than a page. So the
ledger of regions that cover little enough has a layout, and the size that its host needs is
a word.
-/

namespace EarlyMemory

open Region (Measure)

theorem Region.total_le {regions : List Region} {bound : Nat}
    (within : ∀ region ∈ regions, region.IsProper → region.stop.value ≤ bound)
    (sorted : regions.Pairwise Precedes) : Measure.bytes.total regions ≤ bound := by
  suffices above : ∀ low ≤ bound,
      (∀ region ∈ regions, region.IsProper → low ≤ region.start.value) →
      low + Measure.bytes.total regions ≤ bound by
    simpa using above 0 (Nat.zero_le _) fun _ _ _ => Nat.zero_le _
  induction sorted with
  | nil => exact fun low inside _ => inside
  | @cons first rest ahead _ induction =>
      rw [List.forall_mem_cons] at within
      intro low inside above
      rw [List.forall_mem_cons] at above
      rw [Measure.total_cons]
      by_cases proper : first.IsProper
      · have start := above.1 proper
        have further := induction within.2 first.stop.value (within.1 proper)
          fun region isLater isProper => (ahead region isLater).stop_le proper isProper
        have here : Measure.bytes.of first = first.stop.value - first.start.value := rfl
        unfold IsProper at proper
        omega
      · have further := induction within.2 low inside above.2
        rw [Measure.bytes.vanishes first proper]
        omega

namespace Run

variable {run : Run} {runs : List Run} {regions : List Region}

def length (run : Run) : Nat :=
  run.stop.value - run.base.value

def totalLength (runs : List Run) : Nat :=
  (runs.map length).sum

@[simp] theorem totalLength_cons : totalLength (run :: runs) = run.length + totalLength runs := by
  simp [totalLength]

theorem totalLength_extend (ordered : run.base.value ≤ run.stop.value)
    (proper : ∀ region ∈ regions, region.IsProper) :
    totalLength (run.extend regions) = run.length + Measure.bytes.total regions := by
  induction regions generalizing run with
  | nil => rfl
  | cons next rest induction =>
      rw [List.forall_mem_cons] at proper
      have properNext := proper.1
      unfold Region.IsProper at properNext
      have here : Measure.bytes.of next = next.stop.value - next.start.value := rfl
      unfold extend
      split
      next continues =>
        rcases continuesInto_iff.1 continues with ⟨touching, _⟩
        have boundary : next.start.value = run.stop.value := congrArg Address.value touching
        have grown : (run.through next).length = next.stop.value - run.base.value := rfl
        have orderedNext : (run.through next).base.value ≤ (run.through next).stop.value := by
          change run.base.value ≤ next.stop.value
          omega
        have further := induction orderedNext proper.2
        rw [Measure.total_cons, here]
        unfold through at further grown
        rw [further, grown, length]
        omega
      next =>
        have further : totalLength ((ofRegion next).extend rest) =
          next.stop.value - next.start.value + Measure.bytes.total rest :=
          induction (Nat.le_of_lt properNext) proper.2
        rw [totalLength_cons, further, Measure.total_cons, here]

theorem totalLength_ofRegions (regions : List Region) :
    totalLength (ofRegions regions) = Measure.bytes.total regions := by
  have kept : (regions.filter fun region => !region.isEmpty) =
      regions.filter fun region => decide region.IsProper :=
    List.filter_congr fun region _ => Region.not_isEmpty_eq region
  have proper : ∀ region ∈ regions.filter (fun region => !region.isEmpty), region.IsProper :=
    fun region => isProper_of_mem_filter
  rw [← Measure.total_filter_isProper, ← kept, ofRegions]
  cases list : regions.filter fun region => !region.isEmpty with
  | nil => rfl
  | cons first rest =>
      rw [list, List.forall_mem_cons] at proper
      have ordered : (ofRegion first).base.value ≤ (ofRegion first).stop.value :=
        Nat.le_of_lt proper.1
      rw [ofNonempty, totalLength_extend ordered proper.2, Measure.total_cons]
      rfl

theorem IsWellFormed.length_eq (wellFormed : run.IsWellFormed) :
    run.length = run.pageCount * 4096 := by
  have count := wellFormed.pageCount
  unfold length
  omega

theorem IsWellFormed.pageCount_pos (wellFormed : run.IsWellFormed) : 0 < run.pageCount := by
  have count := wellFormed.pageCount
  have proper := wellFormed.proper
  omega

theorem bitmapSizes_mul_le (wellFormed : ∀ run ∈ runs, run.IsWellFormed) :
    bitmapSizes runs * 4096 ≤ totalLength runs := by
  have light : ∀ run ∈ runs, run.bitmapSize * 4096 ≤ run.length := by
    intro run member
    have positive := (wellFormed run member).pageCount_pos
    have bitmap : Bitmap.bytesFor run.pageCount = (run.pageCount + 7) / 8 := rfl
    rw [(wellFormed run member).length_eq, bitmapSize]
    split <;> omega
  rw [bitmapSizes, ← List.sum_map_mul_right]
  exact List.sum_le_sum light

theorem length_mul_le (wellFormed : ∀ run ∈ runs, run.IsWellFormed) :
    runs.length * 4096 ≤ totalLength runs := by
  rw [totalLength, ← List.length_map length]
  refine List.card_nsmul_le_sum _ 4096 fun bytes member => ?_
  rcases List.mem_map.1 member with ⟨run, isRun, rfl⟩
  have positive := (wellFormed run isRun).pageCount_pos
  rw [(wellFormed run isRun).length_eq]
  omega

end Run

namespace Ledger

variable {regions : List Region}

theorem exists_alignUp {bytes : Nat} (low : bytes + 8 ≤ 1 <<< 64) :
    ∃ aligned, alignUp descriptorAlignment bytes = .ok aligned ∧ aligned ≤ bytes + 8 := by
  unfold alignUp descriptorAlignment
  split
  · exact ⟨bytes, rfl, Nat.le_add_right ..⟩
  · exact ⟨_, if_pos (Nat.lt_of_lt_of_le (by omega) low), by omega⟩

theorem worstCaseTables_le (pages : Nat) : worstCaseTables pages ≤ pages + 6 := by
  unfold worstCaseTables
  simp only
  omega

theorem Layout.exists_requiredBytes {layout : Layout}
    (few : layout.metadataPages ≤ 1 <<< 50)
    (tables : layout.tableFrames = worstCaseTables layout.metadataPages) :
    ∃ bytes, layout.requiredBytes = .ok bytes := by
  have further := worstCaseTables_le layout.metadataPages
  simp only [Nat.reduceShiftLeft] at few
  have pages : layout.totalPages = .ok (layout.metadataPages + layout.tableFrames) :=
    if_pos (show _ < 18446744073709551616 by omega)
  refine ⟨(layout.metadataPages + layout.tableFrames) * 4096, ?_⟩
  rw [requiredBytes, pages]
  exact if_pos (show _ * 4096 < 18446744073709551616 by omega)

/-- No run is shorter than a page, so for each page of the regions there is a byte of bitmap and
a descriptor at most. -/
theorem bitmapSizes_and_length_le (wellFormed : ∀ run ∈ Run.ofRegions regions, run.IsWellFormed) :
    Run.bitmapSizes (Run.ofRegions regions) ≤ Measure.bytes.total regions / 4096 ∧
      (Run.ofRegions regions).length ≤ Measure.bytes.total regions / 4096 := by
  have bitmaps := Run.bitmapSizes_mul_le wellFormed
  have count := Run.length_mul_le wellFormed
  rw [Run.totalLength_ofRegions] at bitmaps count
  omega

theorem Layout.exists_ofRegions_le (aligned : ∀ region ∈ regions, region.IsPageAligned)
    (bounded : Measure.bytes.total regions ≤ 1 <<< 65) :
    ∃ layout, ofRegions regions = .ok layout ∧
      layout.tableFrames = worstCaseTables layout.metadataPages ∧
      layout.metadataPages * 4096 ≤ 41 * (Measure.bytes.total regions / 4096) + 4103 := by
  have wellFormed : ∀ run ∈ Run.ofRegions regions, run.IsWellFormed :=
    fun run member => (Run.mem_ofRegions aligned member).1
  rcases bitmapSizes_and_length_le wellFormed with ⟨small, few⟩
  have most : Measure.bytes.total regions / 4096 ≤ 9007199254740992 :=
    Nat.div_le_of_le_mul bounded
  generalize Measure.bytes.total regions / 4096 = total at small few most ⊢
  rcases exists_alignUp
    (show Run.bitmapSizes (Run.ofRegions regions) + 8 ≤ 18446744073709551616 by omega) with
    ⟨offset, isOffset, offsetLe⟩
  have summed : Word.sum ((Run.ofRegions regions).map Run.bitmapSize) =
      .ok (Run.bitmapSizes (Run.ofRegions regions)) :=
    Word.sum_eq_ok (show Run.bitmapSizes _ < 18446744073709551616 by omega)
  have product : Word.multiply (Run.ofRegions regions).length descriptorBytes =
      .ok ((Run.ofRegions regions).length * descriptorBytes) :=
    if_pos (show _ * 40 < 18446744073709551616 by omega)
  have added : Word.add offset ((Run.ofRegions regions).length * descriptorBytes) =
      .ok (offset + (Run.ofRegions regions).length * descriptorBytes) :=
    if_pos (show _ + _ * 40 < 18446744073709551616 by omega)
  have planned : ∃ layout, ofRegions regions = .ok layout ∧
      layout.tableFrames = worstCaseTables layout.metadataPages ∧
      layout.metadataPages =
        PageSize.small.pagesFor (offset + (Run.ofRegions regions).length * descriptorBytes) := by
    rw [ofRegions, mapM_bitmapBytesOf wellFormed]
    simp only [bind, Except.bind, summed, isOffset, product, added]
    exact ⟨_, rfl, rfl, rfl⟩
  rcases planned with ⟨layout, isLayout, tables, pages⟩
  refine ⟨layout, isLayout, tables, ?_⟩
  simp only [pages, PageSize.pagesFor, PageSize.bytes, descriptorBytes]
  omega

theorem Layout.exists_ofRegions (aligned : ∀ region ∈ regions, region.IsPageAligned)
    (bounded : Measure.bytes.total regions ≤ 1 <<< 65) :
    ∃ layout bytes, ofRegions regions = .ok layout ∧ layout.requiredBytes = .ok bytes := by
  rcases exists_ofRegions_le aligned bounded with ⟨layout, planned, tables, pagesLe⟩
  simp only [Nat.reduceShiftLeft] at bounded
  rcases exists_requiredBytes (show _ ≤ 1125899906842624 by omega) tables with ⟨bytes, isBytes⟩
  exact ⟨layout, bytes, planned, isBytes⟩

end Ledger

end EarlyMemory
