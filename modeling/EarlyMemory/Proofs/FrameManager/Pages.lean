import EarlyMemory.FrameManager.Pages
import EarlyMemory.Proofs.Endings
import EarlyMemory.Proofs.Frames.Supply
import EarlyMemory.Proofs.Ledger.Locating

/-!
# Pages of the frame manager

Marking a page changes its one bit or nothing. A request hands out a page whose bit was
clear, and sets that bit. So a manager that is ready with a ledger in order is a supply:
it offers the pages above low memory that are recorded as free, and keeps its records in
the frames of the ledger.
-/

namespace EarlyMemory.FrameManager

open Operation
open Memory (AgreesOutside)

variable {ε : Type} {before after : Paged FrameManager} {keeps : Frame → Prop}
  {descriptor : Descriptor} {index : Nat} {page : Frame} {busy : Bool}

/-! ## Bits -/

theorem run_current (paged : Paged FrameManager) :
    (current : Operation (Paged FrameManager) ε FrameManager).run paged =
      (.done paged.source, paged) :=
  rfl

theorem run_readBitmap {α : Type} (read : Bitmap → Except Fault α)
    (orderly : before.source.ledger.IsOrderly before.memory keeps)
    (member : descriptor ∈ before.source.ledger.descriptors before.memory)
    (available : descriptor.kind = .available) :
    (readBitmap descriptor read : Operation (Paged FrameManager) ε α).run before =
      match read (before.source.ledger.view before.memory descriptor) with
      | .ok value => (.done value, before)
      | .error cause => (.fault cause, before) := by
  rw [readBitmap, run_bind_of_done (run_current before), Paged.run_inspect,
    Ledger.bitmap_eq_ok orderly member available]
  rfl

theorem exists_run_setBit (busy : Bool)
    (orderly : before.source.ledger.IsOrderly before.memory keeps)
    (member : descriptor ∈ before.source.ledger.descriptors before.memory)
    (hasBit : descriptor.HasBit index) :
    ∃ after, (setBit descriptor index busy : Operation (Paged FrameManager) ε Unit).run before =
        (.done (), after) ∧
      after.memory = before.source.ledger.marked before.memory descriptor index busy ∧
      after.source = before.source := by
  have within : index / 8 < (before.source.ledger.view before.memory descriptor).size :=
    hasBit.within
  have read := run_readBitmap (ε := ε) (·.changedByte index busy) orderly member hasBit.available
  simp only [Bitmap.changedByte_eq_ok within] at read
  rw [setBit, run_bind_of_done (run_current before), run_bind_of_done read]
  exact Paged.exists_run_changeMemory _ before

/-! ## Marking a page -/

def answerAt (page : Frame) : Ledger.Place → Outcome Refusal (Descriptor × Nat)
  | .outside => .refused (.outOfRange page.base)
  | .unavailable => .refused (.notAvailable page.base)
  | .bit descriptor index => .done (descriptor, index)

theorem run_locate {place : Ledger.Place}
    (located : before.source.ledger.locate before.memory page = .ok place) :
    (locate page).run before = (answerAt page place, before) := by
  rw [locate, run_bind_of_done (run_current before), run_bind, Paged.run_inspect, located]
  cases place <;> rfl

/-- How marking a page ends: its bit is changed, or nothing is. -/
inductive Marks (page : Frame) (busy : Bool) (before after : Paged FrameManager) :
    Outcome Refusal Unit → Prop
  | done {descriptor : Descriptor} {index : Nat}
      (member : descriptor ∈ before.source.ledger.descriptors before.memory)
      (tracks : descriptor.Tracks index page)
      (memory : after.memory =
        before.source.ledger.marked before.memory descriptor index busy)
      (source : after.source = before.source) : Marks page busy before after (.done ())
  | outside (located : before.source.ledger.locate before.memory page = .ok .outside)
      (same : after = before) : Marks page busy before after (.refused (.outOfRange page.base))
  | unavailable (located : before.source.ledger.locate before.memory page = .ok .unavailable)
      (same : after = before) : Marks page busy before after (.refused (.notAvailable page.base))

theorem setBusy_spec (page : Frame) (busy : Bool)
    (orderly : before.source.ledger.IsOrderly before.memory keeps) :
    ∃ outcome after, (setBusy page busy).run before = (outcome, after) ∧
      Marks page busy before after outcome := by
  have located := Ledger.locate_eq orderly.wellFormed page
  generalize Ledger.placeIn page _ = place at located
  rw [setBusy, run_bind, run_locate located]
  cases place with
  | outside => exact ⟨_, before, rfl, .outside located rfl⟩
  | unavailable => exact ⟨_, before, rfl, .unavailable located rfl⟩
  | bit descriptor index =>
      rcases Ledger.tracks_of_locate orderly.wellFormed located with ⟨member, tracks⟩
      rcases exists_run_setBit (ε := Refusal) busy orderly member
        (Ledger.hasBit_of_tracks orderly member tracks) with ⟨after, ran, memory, source⟩
      exact ⟨_, after, ran, .done member tracks memory source⟩

theorem marks_of_setBusy {outcome : Outcome Refusal Unit}
    (orderly : before.source.ledger.IsOrderly before.memory keeps)
    (ran : (setBusy page busy).run before = (outcome, after)) :
    Marks page busy before after outcome := by
  rcases setBusy_spec page busy orderly with ⟨_, _, same, marks⟩
  cases ran.symm.trans same
  exact marks

theorem exists_run_setBusy (busy : Bool)
    (orderly : before.source.ledger.IsOrderly before.memory keeps)
    (located : before.source.ledger.locate before.memory page = .ok (.bit descriptor index)) :
    ∃ after, (setBusy page busy).run before = (.done (), after) := by
  rcases setBusy_spec page busy orderly with ⟨_, after, ran, marks⟩
  cases marks with
  | done => exact ⟨after, ran⟩
  | outside missed => cases located.symm.trans missed
  | unavailable missed => cases located.symm.trans missed

section

variable (ready : before.source.stage = .ready)

include ready

theorem run_requireReady :
    (requireReady : Operation (Paged FrameManager) Refusal Unit).run before =
      (.done (), before) := by
  rw [requireReady, run_bind_of_done (run_current before), requireStage, if_pos ready, run_pure]

theorem run_markBusy (page : Frame) :
    (markBusy page).run before = (setBusy page true).run before := by
  rw [markBusy, run_bind_of_done (run_requireReady ready), run_bind, run_reportRefusal]
  rcases (setBusy page true).run before with ⟨nothing | cause | cause, after⟩ <;> rfl

theorem run_free (page : Frame) : (free page).run before = (setBusy page false).run before := by
  rw [free, run_bind_of_done (run_requireReady ready), run_bind, run_reportRefusal]
  rcases (setBusy page false).run before with ⟨nothing | cause | cause, after⟩ <;> rfl

end

/-! ## Handing out a page -/

inductive HandsOut (before after : Paged FrameManager) : Option Frame → Prop
  | dry (same : after = before)
      (nothing : ∀ page, ¬ before.source.ledger.Offers before.memory page) :
      HandsOut before after none
  | page {descriptor : Descriptor} {index : Nat} {page : Frame}
      (member : descriptor ∈ before.source.ledger.descriptors before.memory)
      (tracks : descriptor.Tracks index page)
      (offered : before.source.ledger.Offers before.memory page)
      (lowest : (before.source.ledger.descriptors before.memory).Pairwise Descriptor.Precedes →
        ∀ other, before.source.ledger.Offers before.memory other → page.number ≤ other.number)
      (memory : after.memory =
        before.source.ledger.marked before.memory descriptor index true)
      (source : after.source = before.source) : HandsOut before after (some page)

theorem high_of_firstUsable (wellFormed : descriptor.IsWellFormed)
    (above : firstUsable descriptor ≤ index) (tracks : descriptor.Tracks index page) :
    lowMemoryEnd.value ≤ page.number * 4096 := by
  have base := wellFormed.base
  have place := tracks.page
  have low : lowMemoryEnd.value = 0x100000 := rfl
  unfold firstUsable at above
  simp only [PageSize.bytes] at above
  omega

theorem firstUsable_le_of_high (high : lowMemoryEnd.value ≤ page.number * 4096)
    (tracks : descriptor.Tracks index page) : firstUsable descriptor ≤ index := by
  have place := tracks.page
  have low : lowMemoryEnd.value = 0x100000 := rfl
  unfold firstUsable
  simp only [PageSize.bytes]
  omega

theorem number_le_of_precedes {other : Descriptor} {otherIndex : Nat} {otherPage : Frame}
    (precedes : descriptor.Precedes other) (tracks : descriptor.Tracks index page)
    (otherTracks : other.Tracks otherIndex otherPage) : page.number ≤ otherPage.number := by
  have place := tracks.page
  have below := tracks.below
  have otherPlace := otherTracks.page
  unfold Descriptor.Precedes at precedes
  omega

/-- As long as the candidates hold whatever is offered, the request fails only if nothing is. -/
theorem allocateFrom_spec {candidates : List Descriptor}
    (orderly : before.source.ledger.IsOrderly before.memory keeps)
    (members : ∀ descriptor ∈ candidates,
      descriptor ∈ before.source.ledger.descriptors before.memory ∧
        descriptor.kind = .available)
    (sorted : (before.source.ledger.descriptors before.memory).Pairwise Descriptor.Precedes →
      candidates.Pairwise Descriptor.Precedes)
    (complete : ∀ page, before.source.ledger.Offers before.memory page →
      ∃ descriptor ∈ candidates, ∃ index, descriptor.Tracks index page ∧
        (before.source.ledger.view before.memory descriptor).isSet index = false) :
    ∃ answer after, (allocateFrom candidates : Operation (Paged FrameManager) ε _).run before =
        (.done answer, after) ∧ HandsOut before after answer := by
  induction candidates with
  | nil =>
      have nothing : ∀ page, ¬ before.source.ledger.Offers before.memory page :=
        fun page offered => by simpa using complete page offered
      exact ⟨none, before, rfl, .dry rfl nothing⟩
  | cons descriptor rest induction =>
      rw [List.forall_mem_cons] at members
      rcases members with ⟨⟨member, available⟩, others⟩
      have wellFormed := orderly.wellFormed descriptor member
      have size := (orderly.bitmaps descriptor member available).1
      have fits : descriptor.pages ≤
          8 * (before.source.ledger.view before.memory descriptor).size := by
        change descriptor.pages ≤ 8 * descriptor.bitmapBytes
        unfold Bitmap.bytesFor at size
        omega
      rcases Bitmap.firstClear_spec (before.source.ledger.view before.memory descriptor)
        (firstUsable descriptor) descriptor.pages fits with ⟨found, searched, isFirst⟩
      have read := run_readBitmap (ε := ε)
        (·.firstClear (firstUsable descriptor) descriptor.pages) orderly member available
      simp only [searched] at read
      rw [allocateFrom, run_bind_of_done read]
      cases found with
      | none =>
          apply induction others fun inOrder => (List.pairwise_cons.1 (sorted inOrder)).2
          intro page offered
          rcases complete page offered with ⟨other, member, index, tracks, clear⟩
          rcases List.mem_cons.1 member with rfl | later
          · have full := isFirst index (firstUsable_le_of_high offered.1 tracks) tracks.below
            rw [clear] at full
            cases full
          · exact ⟨other, later, index, tracks, clear⟩
      | some index =>
          rcases isFirst with ⟨above, below, clear, busyBefore⟩
          rcases Descriptor.exists_tracks wellFormed available below with ⟨page, advanced, tracks⟩
          rcases exists_run_setBit (ε := ε) true orderly member
            (Ledger.hasBit_of_tracks orderly member tracks) with ⟨after, ran, memory, source⟩
          have offered : before.source.ledger.Offers before.memory page :=
            ⟨high_of_firstUsable wellFormed above tracks, descriptor, member, index, tracks, clear⟩
          have lowest : (before.source.ledger.descriptors before.memory).Pairwise
              Descriptor.Precedes → ∀ other, before.source.ledger.Offers before.memory other →
                page.number ≤ other.number := by
            intro inOrder otherPage otherOffered
            rcases complete otherPage otherOffered with
              ⟨other, otherMember, otherIndex, otherTracks, otherClear⟩
            rcases List.mem_cons.1 otherMember with rfl | later
            · have high := firstUsable_le_of_high otherOffered.1 otherTracks
              have place := tracks.page
              have otherPlace := otherTracks.page
              by_cases early : otherIndex < index
              · rw [busyBefore otherIndex high early] at otherClear
                cases otherClear
              · omega
            · exact number_le_of_precedes ((List.pairwise_cons.1 (sorted inOrder)).1 other later)
                tracks otherTracks
          refine ⟨some page, after, ?_, .page member tracks offered lowest memory source⟩
          rw [run_bind_of_done ran, advanced, run_bind_of_done (run_check_ok ..)]
          exact run_bind_of_done (run_report ..)

theorem allocate_spec (ready : before.source.stage = .ready)
    (orderly : before.source.ledger.IsOrderly before.memory keeps) :
    ∃ answer after, (allocate : Operation (Paged FrameManager) ε _).run before =
        (.done answer, after) ∧ HandsOut before after answer := by
  rw [allocate, run_bind_of_done (run_current before), if_pos ready,
    run_bind_of_done (Paged.run_inspect ..)]
  refine allocateFrom_spec orderly (fun descriptor member => ?_)
    (fun sorted => sorted.filter _) fun page offered => ?_
  · rcases List.mem_filter.1 member with ⟨isMember, available⟩
    exact ⟨isMember, of_decide_eq_true available⟩
  · rcases offered with ⟨_, descriptor, member, index, tracks, clear⟩
    exact ⟨descriptor, List.mem_filter.2 ⟨member, decide_eq_true tracks.available⟩, index,
      tracks, clear⟩

/-! ## The supply -/

theorem offers_marked {ledger : Ledger} {memory : Memory} {frame : Frame}
    (orderly : ledger.IsOrderly memory keeps)
    (member : descriptor ∈ ledger.descriptors memory) (tracks : descriptor.Tracks index page) :
    ledger.Offers (ledger.marked memory descriptor index true) frame ↔
      ledger.Offers memory frame ∧ frame ≠ page := by
  unfold Ledger.Offers
  rw [Ledger.isFree_marked orderly member tracks]
  by_cases here : frame = page <;> simp [here]

structure Supplies (memory : Memory) (manager : FrameManager) (offers keeps : Frame → Prop) :
    Prop where
  ready : manager.stage = .ready
  orderly : manager.ledger.IsOrderly memory keeps
  offers : ∀ frame, offers frame ↔ manager.ledger.Offers memory frame

/-- The manager as the source of frames for its own tables. Whatever it hands out, only the
ledger changes. -/
def supply (manager : FrameManager) : Supply FrameManager where
  Holds memory source offers keeps := source = manager ∧ Supplies memory source offers keeps
  stable {_ _ _ _ _ source} holds agrees missed := by
    rcases holds with ⟨same, supplies⟩
    rcases supplies.orderly.of_agrees agrees missed with ⟨orderly, unchanged⟩
    refine ⟨same, supplies.ready, orderly, fun frame => ?_⟩
    rw [supplies.offers, Ledger.Offers, Ledger.Offers, unchanged]
  take {ε _ _ _} holds := by
    rcases holds with ⟨same, supplies⟩
    rcases allocate_spec (ε := ε) supplies.ready supplies.orderly with
      ⟨answer, after, ran, handsOut⟩
    cases handsOut with
    | dry unchanged =>
        subst unchanged
        exact ⟨none, _, _, ran, .refl _, ⟨same, supplies⟩, fun _ offered => offered, by simp⟩
    | page member tracks offered lowest memory source =>
        refine ⟨_, after, _, ran, ?_, ⟨source.trans same, ?_, ?_, fun _ => Iff.rfl⟩, ?_, ?_⟩
        · rw [memory]
          exact Ledger.agreesOutside_marked supplies.orderly member
            (Ledger.hasBit_of_tracks supplies.orderly member tracks) true
        · rw [source]
          exact supplies.ready
        · rw [source, memory]
          exact supplies.orderly.marked member tracks true
        · intro frame left
          rw [source, memory, offers_marked supplies.orderly member tracks] at left
          exact (supplies.offers frame).2 left.1
        · rintro frame ⟨⟩
          rw [source, memory, offers_marked supplies.orderly member tracks]
          exact ⟨(supplies.offers _).2 offered, fun left => left.2 rfl⟩

end EarlyMemory.FrameManager
