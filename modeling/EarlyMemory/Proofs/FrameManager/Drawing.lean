import EarlyMemory.Proofs.FrameManager.BusyPages
import EarlyMemory.Proofs.FrameManager.Mapping
import EarlyMemory.Proofs.FrameManager.Opening
import EarlyMemory.Proofs.Paging.Descent
import EarlyMemory.Proofs.Paging.Equivalence
import EarlyMemory.Proofs.Paging.Laying

/-!
# What a request writes

The manager reads its runs from machine memory and believes what it finds there. It changes a
bit only in the bytes that all bitmaps share. So whatever has become of the ledger, a request
that is answered leaves every frame alone that holds none of these bytes.
-/

namespace EarlyMemory

open Operation
open Memory (AgreesOutside)

theorem Memory.agreesOutside_setByte (memory : Memory) {address : Nat} (byte : UInt8)
    (addressable : memory.IsAddressable) :
    AgreesOutside (Page.Holds · address) memory (memory.setByte address byte) where
  base := base_setByte ..
  frames := frames_setByte ..
  byteAt other outside := by
    by_cases inside : memory.Contains address
    · refine byteAt_setByte_other _ _ _ _ fun same => ?_
      have below : address / 4096 < PageSize.count .small := by
        have room := inside.2
        rw [start, memory.sized] at room
        have low : memory.base.number + memory.frames < 1 <<< 52 := addressable
        simp only [PageSize.count]
        omega
      exact outside ⟨address / 4096, below⟩ rfl (same ▸ rfl)
    · rw [setByte, dif_neg inside]

/-- Whether a frame holds some byte of the bitmaps. -/
def Ledger.HoldsBitmaps (ledger : Ledger) (frame : Frame) : Prop :=
  ∃ offset < ledger.bitmapBytes, frame.Holds (ledger.start.value + offset)

namespace FrameManager

variable {ε : Type} {before after : Paged FrameManager} {descriptor : Descriptor} {index : Nat}
  {busy : Bool}

theorem of_run_readBitmap {α : Type} {read : Bitmap → Except Fault α} {value : α}
    (done : (readBitmap descriptor read : Operation (Paged FrameManager) ε α).run before =
      (.done value, after)) :
    after = before ∧
      descriptor.bitmapOffset + descriptor.bitmapBytes ≤ before.source.ledger.bitmapBytes ∧
      read (before.source.ledger.view before.memory descriptor) = .ok value := by
  rcases of_run_bind done with ⟨_, _, isCurrent, reading⟩
  cases isCurrent
  rcases Paged.of_run_inspect reading with ⟨answer, same⟩
  simp only [Ledger.bitmap, bind, Except.bind] at answer
  cases stops : descriptor.bitmapStop with
  | error cause =>
      rw [stops] at answer
      cases answer
  | ok stop =>
      rw [stops] at answer
      cases (Word.of_add stops).1
      by_cases within : descriptor.bitmapOffset + descriptor.bitmapBytes ≤
          before.source.ledger.bitmapBytes
      · simp only [if_pos within] at answer
        exact ⟨same.symm, within, answer⟩
      · simp only [if_neg within] at answer
        cases answer

theorem of_run_setBit (addressable : before.memory.IsAddressable)
    (done : (setBit descriptor index busy : Operation (Paged FrameManager) ε Unit).run before =
      (.done (), after)) :
    after.source = before.source ∧
      AgreesOutside before.source.ledger.HoldsBitmaps before.memory after.memory := by
  rcases of_run_bind done with ⟨_, _, isCurrent, done⟩
  cases isCurrent
  rcases of_run_bind done with ⟨byte, _, reading, done⟩
  rcases of_run_readBitmap reading with ⟨rfl, within, changed⟩
  rcases Paged.of_run_changeMemory done with ⟨memory, source⟩
  have inBitmap : index / 8 < descriptor.bitmapBytes := by
    refine Classical.byContradiction fun outside => ?_
    cases (if_neg outside).symm.trans changed
  refine ⟨source, ?_⟩
  rw [memory]
  refine (Memory.agreesOutside_setByte _ byte addressable).mono fun frame holds => ?_
  refine ⟨descriptor.bitmapOffset + index / 8, by omega, ?_⟩
  rwa [← Nat.add_assoc]

theorem of_run_allocateFrom {candidates : List Descriptor} {answer : Option Frame}
    (addressable : before.memory.IsAddressable)
    (done : (allocateFrom candidates : Operation (Paged FrameManager) ε _).run before =
      (.done answer, after)) :
    after.source = before.source ∧
      AgreesOutside before.source.ledger.HoldsBitmaps before.memory after.memory := by
  induction candidates with
  | nil =>
      cases done
      exact ⟨rfl, .refl _⟩
  | cons descriptor rest induction =>
      rw [allocateFrom] at done
      rcases of_run_bind done with ⟨found, _, reading, done⟩
      rcases of_run_readBitmap reading with ⟨rfl, _, _⟩
      cases found with
      | none => exact induction done
      | some index =>
          rcases of_run_bind done with ⟨_, marked, marking, done⟩
          rcases of_run_bind done with ⟨page, _, checked, done⟩
          rcases of_run_check checked with ⟨_, rfl⟩
          cases done
          exact of_run_setBit addressable marking

theorem keepsTo_holdsBitmaps (manager : FrameManager) :
    AddressSpace.KeepsTo manager manager.ledger.HoldsBitmaps := by
  intro answer before after isSource addressable taken
  subst isSource
  change (allocate : Operation (Paged FrameManager) MapError _).run before = _ at taken
  rw [allocate, run_bind_of_done (run_current before)] at taken
  split at taken
  next =>
    rw [run_bind_of_done (Paged.run_inspect ..)] at taken
    exact of_run_allocateFrom addressable taken
  next =>
    cases taken
    exact ⟨rfl, .refl _⟩

/-! ## What a mapping works on -/

theorem of_run_map {root : Frame} {target : PhysicalAddress} {address : VirtualAddress}
    {rights : Rights} (active : before.source.active = root)
    (owner : before.source.root = some root)
    (done : (FrameManager.map target address rights).run before = (.done (), after)) :
    before.source.stage = .ready ∧
      ((spaceBelow root).map target address rights).run before = (.done (), after) := by
  rw [FrameManager.map, requireReady] at done
  rcases of_run_bind done with ⟨_, _, staged, done⟩
  rcases of_run_bind staged with ⟨_, _, isCurrent, staged⟩
  cases isCurrent
  rcases of_run_requireStage staged with ⟨ready, rfl⟩
  rcases of_run_bind done with ⟨_, _, isCurrent, done⟩
  cases isCurrent
  rcases of_run_bind done with ⟨_, _, working, done⟩
  rcases of_run_space active owner working with ⟨rfl, rfl⟩
  exact ⟨ready, of_run_mapRefusal done⟩

/-! ## A mapping that draws its last table -/

section

open AddressSpace (Walkable)
open Hierarchy (shown without)

variable {root table frame : Frame} {managed : Set Frame} {keeps : Frame → Prop}
  {address page : VirtualAddress} {leaf : PageEntry} {direct : Paged FrameManager}

theorem exists_run_map
    (walkable : Walkable root (supply before.source) address before
      (before.source.ledger.Offers before.memory) keeps)
    (active : before.source.active = root) (owner : before.source.root = some root)
    {target : PhysicalAddress} {rights : Rights}
    (ran : (AddressSpace.map ⟨root, .direct⟩ target address rights).run before =
      (.done (), direct)) :
    ∃ after, (FrameManager.map target address rights).run before = (.done (), after) ∧
      after.memory = direct.memory ∧ after.source = direct.source := by
  rcases AddressSpace.map_alike ignoresHistory (TableAccess.serves_recursive root)
    (TableAccess.serves_direct root) walkable (.refl before) target rights with
    ⟨_, after, _, mapped, ranDirect, alike, _⟩
  cases ran.symm.trans ranDirect
  refine ⟨after, ?_, alike.memory, alike.source⟩
  rw [run_map target address rights walkable.supplied.2.ready active owner, run_mapRefusal, mapped]

/-- What is left behind if a page was mapped in a frame that was drawn for the last table. -/
structure DrawsLast (keeps : Frame → Prop) (table frame : Frame) (address : VirtualAddress)
    (leaf : PageEntry) (before after : Paged FrameManager) : Prop where
  source : after.source = before.source
  agrees : AgreesOutside (fun other => keeps other ∨ other = table ∨ other = frame)
    before.memory after.memory
  link : after.memory.entry table (Level.pd.index address) = .table frame
  others : ∀ index, index ≠ Level.pd.index address →
    after.memory.entry table index = before.memory.entry table index
  leaf : after.memory.entry frame (Level.pt.index address) = leaf
  cleared : ∀ index, index ≠ Level.pt.index address → after.memory.entry frame index = .zero
  offers : ∀ other, after.source.ledger.Offers after.memory other ↔
    before.source.ledger.Offers before.memory other ∧ other ≠ frame

section

variable {asked : Paged FrameManager}
  (memory : after.memory = (AddressSpace.linkedPaged ⟨root, .direct⟩ asked address .pd .pt table
    frame).memory.setEntry frame (Level.pt.index address) leaf)

include memory

theorem agreesOutside_of_filled :
    AgreesOutside (fun other => other = table ∨ other = frame) asked.memory after.memory := by
  have filled := Memory.agreesOutside_setEntry (AddressSpace.linkedPaged ⟨root, .direct⟩ asked
    address .pd .pt table frame).memory frame (Level.pt.index address) leaf
  rw [← memory] at filled
  exact (AddressSpace.agreesOutside_linkedPaged ..).trans (filled.mono fun _ => .inr)

theorem drawsLast_of_filled (agrees : AgreesOutside keeps before.memory asked.memory)
    (kept : ¬ keeps table) (apart : table ≠ frame) (tableInside : before.memory.HasFrame table)
    (inside : before.memory.HasFrame frame) (source : after.source = before.source)
    (offers : ∀ other, after.source.ledger.Offers after.memory other ↔
      before.source.ledger.Offers before.memory other ∧ other ≠ frame) :
    DrawsLast keeps table frame address leaf before after := by
  have linked := AddressSpace.agreesOutside_linkedPaged ⟨root, .direct⟩ asked address .pd .pt
    table frame
  have filled := Memory.agreesOutside_setEntry (AddressSpace.linkedPaged ⟨root, .direct⟩ asked
    address .pd .pt table frame).memory frame (Level.pt.index address) leaf
  have askedInside := (agrees.hasFrame_iff frame).2 inside
  refine ⟨source, (agrees.mono fun _ => .inl).trans
    ((agreesOutside_of_filled memory).mono fun _ => .inr), ?_, ?_, ?_, ?_, offers⟩
  · rw [memory, filled.entry_eq apart]
    exact AddressSpace.entry_linkedPaged _ _ _ _ _ apart
      ((agrees.hasFrame_iff table).2 tableInside)
  · intro position other
    rw [memory, filled.entry_eq apart,
      AddressSpace.entry_linkedPaged_other _ _ _ _ _ apart other, agrees.entry_eq kept]
  · rw [memory]
    exact Memory.entry_setEntry_same _ _ _ _ ((linked.hasFrame_iff frame).2 askedInside)
  · intro position other
    rw [memory, Memory.entry_setEntry_other _ _ _ _ _ _ (.inr other)]
    exact AddressSpace.entry_linkedPaged_fresh _ _ _ _ _ table askedInside position

end

/-- Where only the last table is missing, mapping a page draws the lowest frame on offer. -/
theorem exists_drawsLast (accounts : AccountsFor managed keeps before)
    (walkable : Walkable root (supply before.source) address before
      (before.source.ledger.Offers before.memory) keeps)
    (active : before.source.active = root) (owner : before.source.root = some root)
    (found : (shown root).tableAt before.memory (Level.pd.path address) = some table)
    (absent : (before.memory.entry table (Level.pd.index address)).present = false)
    (some : ∃ other, before.source.ledger.Offers before.memory other)
    (target : PhysicalAddress) (rights : Rights) :
    ∃ frame after, (FrameManager.map target address rights).run before = (.done (), after) ∧
      before.source.ledger.Offers before.memory frame ∧
      (∀ other, before.source.ledger.Offers before.memory other →
        frame.number ≤ other.number) ∧
      AccountsFor managed keeps after ∧
      DrawsLast keeps table frame address (.leaf (target.page .small) rights) before after := by
  rcases allocate_spec (ε := MapError) accounts.ready accounts.orderly with
    ⟨answer, asked, taken, handsOut⟩
  cases handsOut with
  | dry _ nothing =>
      rcases some with ⟨other, offered⟩
      exact absurd offered (nothing other)
  | @page descriptor index frame member tracks offered lowest memory source =>
      have agrees : AgreesOutside keeps before.memory asked.memory := by
        rw [memory]
        exact Ledger.agreesOutside_marked accounts.orderly member
          (Ledger.hasBit_of_tracks accounts.orderly member tracks) true
      rcases walkable.offered frame offered with ⟨inside, linkable, notKept, off⟩
      have isTable : (shown root).IsOnWalk before.memory address table := ⟨.pd, found⟩
      have tableKept : ¬ keeps table := fun isKept => walkable.kept table isKept isTable
      have apart : table ≠ frame := fun same => off (same ▸ isTable)
      have mapped := AddressSpace.run_map_direct_of_lacking_last target rights
        walkable.addressable walkable.tables found absent taken
        (agrees.isAddressable_iff.2 walkable.addressable) ((agrees.hasFrame_iff frame).2 inside)
      rcases exists_run_map walkable active owner mapped with ⟨after, ran, afterMemory, afterSource⟩
      rw [AddressSpace.memory_filledPaged] at afterMemory
      rw [AddressSpace.source_filledPaged, AddressSpace.source_linkedPaged] at afterSource
      have written := agreesOutside_of_filled afterMemory
      have missed : ∀ other, keeps other → ¬ (other = table ∨ other = frame) := by
        intro other isKept isWritten
        cases isWritten with
        | inl isTable => exact tableKept (isTable ▸ isKept)
        | inr isFrame => exact notKept (isFrame ▸ isKept)
      have accountsAsked := accounts.marked member tracks memory source
      refine ⟨frame, after, ran, offered, lowest accounts.sorted,
        accountsAsked.of_agrees written missed afterSource,
        drawsLast_of_filled afterMemory agrees tableKept apart
          (walkable.tables .pd (by decide) table found) inside (afterSource.trans source)
          fun other => ?_⟩
      have same := (accountsAsked.orderly.of_agrees written missed).2 other
      rw [afterSource, ← FrameManager.offers_marked accounts.orderly member tracks, ← memory,
        ← source, Ledger.Offers, same]
      rfl

namespace DrawsLast

variable (draws : DrawsLast keeps table frame address leaf before after)

include draws

/-- If the frame was the last table for another page, that page is lost. -/
theorem translate_of_drawn (usable : (spaceBelow root).IsUsable before.memory)
    (unkept : ∀ other, keeps other → ¬ (spaceBelow root).hierarchy.IsTable before.memory other)
    (leads : (spaceBelow root).hierarchy.Leads page)
    (absent : (before.memory.entry table (Level.pd.index address)).present = false)
    (drawn : (spaceBelow root).hierarchy.tableAt before.memory (Level.pt.path page) = some frame)
    (apart : Level.pt.index page ≠ Level.pt.index address) :
    after.memory.translate root page = .ok none := by
  -- The walk for the page still comes to the frame, whose entry was cleared.
  have kept : ∀ {level : Level} {reached : Frame},
      (spaceBelow root).hierarchy.tableAt before.memory (level.path page) = some reached →
      (spaceBelow root).hierarchy.tableAt after.memory (level.path page) = some reached := by
    intro level reached leadsThere
    refine Hierarchy.tableAt_path_of_kept leadsThere fun upper above other found present => ?_
    by_cases same : other = table
    · subst same
      refine draws.others _ fun sameIndex => ?_
      rw [sameIndex, absent] at present
      cases present
    · refine draws.agrees.entry_eq ?_ _
      rintro (isKept | isSame | rfl)
      · exact unkept other isKept (leads.isTable found)
      · exact same isSame
      · have samePath := usable.tree.unique _ _ other upper.length_path_le (leads.owns_path upper)
          found Level.pt.length_path_le (leads.owns_path .pt) drawn
        have depth := congrArg List.length samePath
        rw [Level.length_path, Level.length_path] at depth
        exact absurd (depth ▸ above) (Nat.not_lt.2 level.depth_le)
  have tables : (spaceBelow root).hierarchy.HasTables after.memory page .pt := by
    intro level shallow other found
    rcases Hierarchy.exists_tableAt_of_le drawn shallow with ⟨reached, leadsThere⟩
    cases found.symm.trans (kept leadsThere)
    exact (draws.agrees.hasFrame_iff other).2 (usable.tree.inside other (leads.isTable leadsThere))
  have lost : (spaceBelow root).hierarchy.entryAt after.memory page.leafPath = none := by
    rw [Address.leafPath, Hierarchy.entryAt_cons_of_some (kept drawn), Memory.presentEntry_eq_none]
    rw [draws.cleared _ apart, PageEntry.present_zero]
  have walked := Hierarchy.walk_eq (draws.agrees.isAddressable_iff.2 usable.addressable) tables
  rw [lost] at walked
  exact Memory.translate_of_walk walked

end DrawsLast

end

end FrameManager

end EarlyMemory
