import EarlyMemory.FrameManager.Setup
import EarlyMemory.Proofs.FrameManager.Pages
import EarlyMemory.Proofs.Region.Management

/-!
# Marking many pages

Marking pages as busy takes exactly those pages from the free ones and writes to the
ledger's own frames only. So once all pages of a list of regions are marked, none of them
is free any more, and every other page is as free as it was.
-/

namespace EarlyMemory.FrameManager

open Operation
open Memory (AgreesOutside)

variable {before middle after : Paged FrameManager} {keeps gone further wider : Frame → Prop}
  {first page : Frame} {index count : Nat} {regions : List Region}

structure Withdraws (keeps gone : Frame → Prop) (before after : Paged FrameManager) :
    Prop where
  agrees : AgreesOutside keeps before.memory after.memory
  source : after.source = before.source
  orderly : after.source.ledger.IsOrderly after.memory keeps
  recorded : after.source.ledger.descriptors after.memory =
    before.source.ledger.descriptors before.memory
  free : ∀ frame, after.source.ledger.IsFree after.memory frame ↔
    before.source.ledger.IsFree before.memory frame ∧ ¬ gone frame

namespace Withdraws

theorem refl (orderly : before.source.ledger.IsOrderly before.memory keeps)
    (nothing : ∀ frame, ¬ gone frame) : Withdraws keeps gone before before :=
  ⟨.refl _, rfl, orderly, rfl, fun frame => ⟨fun free => ⟨free, nothing frame⟩, And.left⟩⟩

theorem trans (one : Withdraws keeps gone before middle)
    (two : Withdraws keeps further middle after)
    (covered : ∀ frame, wider frame ↔ gone frame ∨ further frame) :
    Withdraws keeps wider before after where
  agrees := one.agrees.trans two.agrees
  source := two.source.trans one.source
  orderly := two.orderly
  recorded := two.recorded.trans one.recorded
  free frame := by
    rw [two.free, one.free, covered, not_or, and_assoc]

end Withdraws

theorem Marks.withdraws (orderly : before.source.ledger.IsOrderly before.memory keeps)
    (marks : Marks page true before after (.done ())) :
    Withdraws keeps (· = page) before after := by
  cases marks with
  | done member tracks memory source =>
      have hasBit := Ledger.hasBit_of_tracks orderly member tracks
      refine ⟨?_, source, ?_, ?_, fun frame => ?_⟩
      · rw [memory]
        exact Ledger.agreesOutside_marked orderly member hasBit true
      · rw [source, memory]
        exact orderly.marked member tracks true
      · rw [source, memory]
        exact Ledger.descriptors_marked orderly member hasBit true
      · rw [source, memory, Ledger.isFree_marked orderly member tracks true]
        by_cases here : frame = page <;> simp [here]

theorem of_run_setBusy (orderly : before.source.ledger.IsOrderly before.memory keeps)
    (done : (setBusy page true).run before = (.done (), after)) :
    Withdraws keeps (· = page) before after :=
  (marks_of_setBusy orderly done).withdraws orderly

/-- Whether a page is one of those from an index on, counted from a first page. -/
def IsAmong (first : Frame) (index count : Nat) (page : Frame) : Prop :=
  first.number + index ≤ page.number ∧ page.number < first.number + index + count

theorem of_run_markPages (orderly : before.source.ledger.IsOrderly before.memory keeps)
    (done : (markPages first index count).run before = (.done (), after)) :
    Withdraws keeps (IsAmong first index count) before after := by
  induction count generalizing index before with
  | zero =>
      cases done
      refine .refl orderly fun frame among => ?_
      unfold IsAmong at among
      omega
  | succ count induction =>
      rw [markPages] at done
      rcases of_run_bind done with ⟨page, _, checked, done⟩
      rcases of_run_check checked with ⟨advanced, rfl⟩
      rcases of_run_bind done with ⟨_, middle, marking, done⟩
      have one := of_run_setBusy orderly marking
      apply one.trans (induction one.orderly done)
      intro frame
      have number := Page.of_advance advanced
      rw [Page.ext_iff]
      unfold IsAmong
      omega

theorem exists_run_markPages (orderly : before.source.ledger.IsOrderly before.memory keeps)
    (room : first.number + index + count < 1 <<< 52)
    (located : ∀ page, IsAmong first index count page → ∃ descriptor bit,
      before.source.ledger.locate before.memory page = .ok (.bit descriptor bit)) :
    ∃ after, (markPages first index count).run before = (.done (), after) := by
  induction count generalizing index before with
  | zero => exact ⟨before, rfl⟩
  | succ count induction =>
      have below : first.number + index < 1 <<< 52 := by omega
      have advanced : first.advance index = .ok ⟨first.number + index, below⟩ :=
        Page.advance_eq_ok below
      have among : IsAmong first index (count + 1) ⟨first.number + index, below⟩ :=
        ⟨Nat.le_refl _, Nat.lt_add_of_pos_right (Nat.succ_pos _)⟩
      rcases located _ among with ⟨descriptor, bit, isLocated⟩
      rcases exists_run_setBusy true orderly isLocated with ⟨middle, marking⟩
      have one := of_run_setBusy orderly marking
      have further : ∀ page, IsAmong first (index + 1) count page → ∃ descriptor bit,
          middle.source.ledger.locate middle.memory page = .ok (.bit descriptor bit) := by
        rintro page ⟨above, below⟩
        rcases located page ⟨by omega, by omega⟩ with ⟨descriptor, bit, isLocated⟩
        exact ⟨descriptor, bit, (Ledger.locate_congr one.recorded page).trans isLocated⟩
      rcases induction one.orderly (by omega) further with ⟨after, ran⟩
      refine ⟨after, ?_⟩
      rw [markPages, advanced, run_bind_of_done (run_check_ok ..), run_bind_of_done marking, ran]

/-- Whether a page is recorded as backing an image in a list of regions. -/
def IsAllocated (regions : List Region) (frame : Frame) : Prop :=
  ∃ region ∈ regions, region.code = RegionKind.allocated.code ∧ region.HoldsPage frame

theorem isAmong_iff_holdsPage {region : Region} (aligned : region.IsPageAligned) :
    IsAmong (region.start.page .small) 0 (region.length / PageSize.small.bytes) page ↔
      region.HoldsPage page := by
  have start := aligned.start
  have stop := aligned.stop
  have first : (region.start.page .small).number = region.start.value / 4096 := rfl
  unfold IsAmong Region.HoldsPage Page.Within Region.length
  simp only [PageSize.bytes]
  omega

theorem isAllocated_cons {region : Region} : IsAllocated (region :: regions) page ↔
    (region.code = RegionKind.allocated.code ∧ region.HoldsPage page) ∨
      IsAllocated regions page := by
  simp only [IsAllocated, List.mem_cons, or_and_right, exists_or, exists_eq_left]

theorem of_run_markAllocated (aligned : ∀ region ∈ regions, region.IsPageAligned)
    (orderly : before.source.ledger.IsOrderly before.memory keeps)
    (done : (markAllocated regions).run before = (.done (), after)) :
    Withdraws keeps (IsAllocated regions) before after := by
  induction regions generalizing before with
  | nil =>
      cases done
      exact .refl orderly fun frame allocated => by simp [IsAllocated] at allocated
  | cons region rest induction =>
      rw [List.forall_mem_cons] at aligned
      rw [markAllocated] at done
      by_cases allocated : region.hasKind .allocated = true
      · simp only [allocated, if_true] at done
        rcases of_run_bind done with ⟨_, middle, marking, done⟩
        have one := of_run_markPages orderly marking
        apply one.trans (induction aligned.2 one.orderly done)
        intro frame
        rw [isAllocated_cons, isAmong_iff_holdsPage aligned.1, Region.hasKind_iff.1 allocated]
        simp
      · simp only [allocated] at done
        have none : Withdraws keeps (fun _ => False) before before := .refl orderly fun _ => id
        apply none.trans (induction aligned.2 orderly done)
        intro frame
        have other : region.code ≠ RegionKind.allocated.code :=
          fun code => allocated (Region.hasKind_iff.2 code)
        rw [isAllocated_cons]
        simp [other]

theorem exists_run_markAllocated (aligned : ∀ region ∈ regions, region.IsPageAligned)
    (orderly : before.source.ledger.IsOrderly before.memory keeps)
    (located : ∀ page, IsAllocated regions page → ∃ descriptor bit,
      before.source.ledger.locate before.memory page = .ok (.bit descriptor bit)) :
    ∃ after, (markAllocated regions).run before = (.done (), after) := by
  induction regions generalizing before with
  | nil => exact ⟨before, rfl⟩
  | cons region rest induction =>
      rw [List.forall_mem_cons] at aligned
      have locatedRest : ∀ page, IsAllocated rest page → ∃ descriptor bit,
          before.source.ledger.locate before.memory page = .ok (.bit descriptor bit) :=
        fun page allocated => located page (isAllocated_cons.2 (.inr allocated))
      rw [markAllocated]
      by_cases allocated : region.hasKind .allocated = true
      · have code := Region.hasKind_iff.1 allocated
        have start := aligned.1.start
        have stop := aligned.1.stop
        have first := region.start.isLt
        have last := region.stop.isLt
        have room : (region.start.page .small).number + 0 + region.length / PageSize.small.bytes <
            1 <<< 52 := by
          simp only [Address.page, PageSize.bytes, Region.length, Nat.reduceShiftLeft]
            at first last ⊢
          omega
        rcases exists_run_markPages orderly room fun page among => located page
          (isAllocated_cons.2 (.inl ⟨code, (isAmong_iff_holdsPage aligned.1).1 among⟩)) with
          ⟨middle, marking⟩
        have one := of_run_markPages orderly marking
        have locatedLater : ∀ page, IsAllocated rest page → ∃ descriptor bit,
            middle.source.ledger.locate middle.memory page = .ok (.bit descriptor bit) := by
          intro page allocated
          rcases locatedRest page allocated with ⟨descriptor, bit, isLocated⟩
          exact ⟨descriptor, bit, (Ledger.locate_congr one.recorded page).trans isLocated⟩
        rcases induction aligned.2 one.orderly locatedLater with ⟨after, ran⟩
        rw [if_pos allocated]
        exact ⟨after, (run_bind_of_done marking).trans ran⟩
      · rw [if_neg allocated]
        exact induction aligned.2 orderly locatedRest

end EarlyMemory.FrameManager
