import EarlyMemory.Paging.Walk

/-!
# Agreement of memories

Whoever writes to memory says which frames it may touch. Two memories agree
outside a set of frames when they are the same run of frames and differ in no
byte of any other frame. Every read that keeps to the other frames then gives
the same answer in both.
-/

namespace EarlyMemory

/-- Whether an address is a byte of the frame. -/
def Page.Holds (frame : Frame) (address : Nat) : Prop :=
  address / 4096 = frame.number

instance (frame : Frame) (address : Nat) : Decidable (Page.Holds frame address) :=
  inferInstanceAs (Decidable (_ = _))

theorem Page.holds_offset (frame : Frame) {offset : Nat} (within : offset < 4096) :
    frame.Holds (frame.number * 4096 + offset) := by
  unfold Page.Holds
  omega

theorem Page.eq_of_holds {left right : Frame} {address : Nat} (inLeft : left.Holds address)
    (inRight : right.Holds address) : left = right :=
  Page.ext (inLeft.symm.trans inRight)

def Page.Within (frame : Frame) (first last : Nat) : Prop :=
  first ≤ frame.number * 4096 ∧ frame.number * 4096 + 4096 ≤ last

theorem Page.exists_within {first last address : Nat} (aligned : first % 4096 = 0)
    (whole : last % 4096 = 0) (low : last ≤ 1 <<< 64) (above : first ≤ address)
    (below : address < last) : ∃ frame : Frame, frame.Within first last ∧ frame.Holds address := by
  refine ⟨⟨address / 4096, ?_⟩, ?_, rfl⟩
  · simp only [PageSize.count]
    omega
  · unfold Page.Within
    simp only
    omega

namespace Memory

/-- The same run of frames, equal in every byte outside the touched frames. -/
structure AgreesOutside (touched : Frame → Prop) (before after : Memory) : Prop where
  base : after.base = before.base
  frames : after.frames = before.frames
  byteAt : ∀ address, (∀ frame : Frame, touched frame → ¬ frame.Holds address) →
    after.byteAt address = before.byteAt address

namespace AgreesOutside

variable {touched wider : Frame → Prop} {before middle after : Memory}

theorem refl (memory : Memory) : AgreesOutside touched memory memory :=
  ⟨rfl, rfl, fun _ _ => rfl⟩

theorem trans (first : AgreesOutside touched before middle)
    (second : AgreesOutside touched middle after) : AgreesOutside touched before after where
  base := second.base.trans first.base
  frames := second.frames.trans first.frames
  byteAt address outside := (second.byteAt address outside).trans (first.byteAt address outside)

theorem mono (agrees : AgreesOutside touched before after)
    (included : ∀ frame, touched frame → wider frame) : AgreesOutside wider before after where
  base := agrees.base
  frames := agrees.frames
  byteAt address outside :=
    agrees.byteAt address fun frame isTouched => outside frame (included frame isTouched)

theorem hasFrame_iff (agrees : AgreesOutside touched before after) (frame : Frame) :
    after.HasFrame frame ↔ before.HasFrame frame := by
  simp [HasFrame, agrees.base, agrees.frames]

theorem contains_iff (agrees : AgreesOutside touched before after) (address : Nat) :
    after.Contains address ↔ before.Contains address := by
  simp [Contains, start, sized, agrees.base, agrees.frames]

theorem byteAt_offset (agrees : AgreesOutside touched before after) {frame : Frame}
    (untouched : ¬ touched frame) {offset : Nat} (within : offset < 4096) :
    after.byteAt (frame.number * 4096 + offset) =
      before.byteAt (frame.number * 4096 + offset) := by
  apply agrees.byteAt
  intro other isTouched holds
  rw [Page.eq_of_holds holds (frame.holds_offset within)] at isTouched
  exact untouched isTouched

theorem load_eq (agrees : AgreesOutside touched before after) {frame : Frame}
    (untouched : ¬ touched frame) {offset count : Nat} (within : offset + count ≤ 4096) :
    after.load (frame.number * 4096 + offset) count =
      before.load (frame.number * 4096 + offset) count := by
  unfold load
  apply List.map_congr_left
  intro index member
  have small := List.mem_range.1 member
  rw [Nat.add_assoc]
  exact agrees.byteAt_offset untouched (by omega)

theorem entry_eq (agrees : AgreesOutside touched before after) {frame : Frame}
    (untouched : ¬ touched frame) (index : TableIndex) :
    after.entry frame index = before.entry frame index := by
  have := index.isLt
  rw [entry, entry, loadWord, loadWord, entryAddress,
    agrees.load_eq untouched (by omega)]

end AgreesOutside

/-! ## Writes -/

theorem agreesOutside_store (memory : Memory) (frame : Frame) (offset : Nat)
    (bytes : List UInt8) (within : offset + bytes.length ≤ 4096) :
    AgreesOutside (· = frame) memory (memory.store (frame.number * 4096 + offset) bytes) where
  base := base_store ..
  frames := frames_store ..
  byteAt address outside := by
    have elsewhere := outside frame rfl
    unfold Page.Holds at elsewhere
    exact byteAt_store_other _ _ _ _ (by omega)

theorem agreesOutside_store_within (memory : Memory) {first last : Nat} (address : Nat)
    (bytes : List UInt8) (aligned : first % 4096 = 0) (whole : last % 4096 = 0)
    (low : last ≤ 1 <<< 64) (above : first ≤ address) (below : address + bytes.length ≤ last) :
    AgreesOutside (Page.Within · first last) memory (memory.store address bytes) where
  base := base_store ..
  frames := frames_store ..
  byteAt other outside := by
    refine byteAt_store_other _ _ _ _ (Classical.byContradiction fun inside => ?_)
    rcases Page.exists_within aligned whole low
      (show first ≤ other by omega) (show other < last by omega) with ⟨frame, within, holds⟩
    exact outside frame within holds

theorem agreesOutside_setEntry (memory : Memory) (frame : Frame) (index : TableIndex)
    (entry : PageEntry) :
    AgreesOutside (· = frame) memory (memory.setEntry frame index entry) := by
  have := index.isLt
  exact agreesOutside_store memory frame (8 * index.val) _
    (by simp only [LittleEndian.length_bytes]; omega)

theorem agreesOutside_fill (memory : Memory) (frame : Frame) (offset count : Nat) (byte : UInt8)
    (within : offset + count ≤ 4096) :
    AgreesOutside (· = frame) memory (memory.fill (frame.number * 4096 + offset) count byte) :=
  agreesOutside_store memory frame offset _ (by rwa [List.length_replicate])

theorem byteAt_fill_same (memory : Memory) (address count : Nat) (byte : UInt8) {index : Nat}
    (within : index < count) (inside : memory.Contains (address + index)) :
    (memory.fill address count byte).byteAt (address + index) = byte := by
  have stored := byteAt_store_same memory address (List.replicate count byte) index
    (by rwa [List.length_replicate]) inside
  rwa [List.getElem_replicate] at stored

theorem agreesOutside_clearTable (memory : Memory) (frame : Frame) :
    AgreesOutside (· = frame) memory (memory.clearTable frame) := by
  have filled := agreesOutside_fill memory frame 0 4096 0 (by omega)
  rwa [Nat.add_zero] at filled

theorem byteAt_clearTable (memory : Memory) (frame : Frame) (inside : memory.HasFrame frame)
    {offset : Nat} (within : offset < 4096) :
    (memory.clearTable frame).byteAt (frame.number * 4096 + offset) = 0 :=
  byteAt_fill_same memory _ 4096 0 within (inside.contains within)

theorem entry_of_byteAt_eq_zero {memory : Memory} {frame : Frame}
    (cleared : ∀ offset < 4096, memory.byteAt (frame.number * 4096 + offset) = 0)
    (index : TableIndex) : memory.entry frame index = .zero := by
  have zeros : memory.load (entryAddress frame index) 8 = (List.range 8).map fun _ => 0 := by
    unfold load
    apply List.map_congr_left
    intro position member
    have := List.mem_range.1 member
    have := index.isLt
    rw [entryAddress, Nat.add_assoc]
    exact cleared _ (by omega)
  rw [entry, loadWord, zeros]
  decide

theorem byteAt_zeroed (base : Frame) (frames address : Nat) :
    (zeroed base frames).byteAt address = 0 := by
  by_cases contained : (zeroed base frames).Contains address
  · exact (dif_pos contained).trans (Array.getElem_replicate ..)
  · exact dif_neg contained

theorem entry_clearTable_same (memory : Memory) (frame : Frame)
    (inside : memory.HasFrame frame) (index : TableIndex) :
    (memory.clearTable frame).entry frame index = .zero :=
  entry_of_byteAt_eq_zero (fun _ within => byteAt_clearTable memory frame inside within) index

/-! ## Bytes in a row -/

/-- The same run of frames, equal in every byte outside a range of addresses. -/
structure WritesWithin (first last : Nat) (before after : Memory) : Prop where
  base : after.base = before.base
  frames : after.frames = before.frames
  byteAt : ∀ address, address < first ∨ last ≤ address →
    after.byteAt address = before.byteAt address

theorem writesWithin_store (memory : Memory) (address : Nat) (bytes : List UInt8) :
    WritesWithin address (address + bytes.length) memory (memory.store address bytes) where
  base := base_store ..
  frames := frames_store ..
  byteAt _ outside := byteAt_store_other _ _ _ _ outside

theorem writesWithin_setByte (memory : Memory) (address : Nat) (byte : UInt8) :
    WritesWithin address (address + 1) memory (memory.setByte address byte) where
  base := base_setByte ..
  frames := frames_setByte ..
  byteAt _ outside := byteAt_setByte_other _ _ _ _ (by omega)

namespace WritesWithin

variable {first last outerFirst outerLast : Nat} {before middle after : Memory}

theorem refl (memory : Memory) : WritesWithin first last memory memory :=
  ⟨rfl, rfl, fun _ _ => rfl⟩

theorem trans (one : WritesWithin first last before middle)
    (two : WritesWithin first last middle after) : WritesWithin first last before after where
  base := two.base.trans one.base
  frames := two.frames.trans one.frames
  byteAt address outside := (two.byteAt address outside).trans (one.byteAt address outside)

theorem mono (writes : WritesWithin first last before after) (lower : outerFirst ≤ first)
    (higher : last ≤ outerLast) : WritesWithin outerFirst outerLast before after where
  base := writes.base
  frames := writes.frames
  byteAt address outside := writes.byteAt address (by omega)

theorem contains_iff (writes : WritesWithin first last before after) (address : Nat) :
    after.Contains address ↔ before.Contains address := by
  simp [Contains, start, sized, writes.base, writes.frames]

theorem load_eq (writes : WritesWithin first last before after) {address count : Nat}
    (apart : address + count ≤ first ∨ last ≤ address) :
    after.load address count = before.load address count := by
  unfold load
  apply List.map_congr_left
  intro index member
  have := List.mem_range.1 member
  exact writes.byteAt _ (by omega)

theorem agreesOutside (writes : WritesWithin first last before after) {touched : Frame → Prop}
    (covered : ∀ address, first ≤ address → address < last →
      ∃ frame : Frame, touched frame ∧ frame.Holds address) :
    AgreesOutside touched before after where
  base := writes.base
  frames := writes.frames
  byteAt address outside := by
    by_cases inside : first ≤ address ∧ address < last
    · rcases covered address inside.1 inside.2 with ⟨frame, isTouched, holds⟩
      exact absurd holds (outside frame isTouched)
    · exact writes.byteAt address (by omega)

end WritesWithin

/-! ## Access -/

/-- Whether the address past the memory is a 64-bit number, without which every
access faults. -/
def IsAddressable (memory : Memory) : Prop :=
  memory.base.number + memory.frames < 1 <<< 52

instance (memory : Memory) : Decidable memory.IsAddressable :=
  inferInstanceAs (Decidable (_ < _))

theorem AgreesOutside.isAddressable_iff {touched : Frame → Prop} {before after : Memory}
    (agrees : AgreesOutside touched before after) :
    after.IsAddressable ↔ before.IsAddressable := by
  simp [IsAddressable, agrees.base, agrees.frames]

theorem stop_eq_ok {memory : Memory} (addressable : memory.IsAddressable) :
    ∃ stop, memory.stop = .ok stop ∧
      stop.value = (memory.base.number + memory.frames) * 4096 := by
  have fits : memory.base.base.value + memory.frames * 4096 < 1 <<< 64 := by
    simp only [IsAddressable] at addressable
    simp only [Page.base, PageSize.bytes]
    omega
  refine ⟨⟨_, fits⟩, dif_pos fits, ?_⟩
  simp only [Page.base, PageSize.bytes]
  omega

theorem isAddressable_of_stop {memory : Memory} {stop : PhysicalAddress}
    (found : memory.stop = .ok stop) : memory.IsAddressable := by
  unfold Memory.stop Address.add at found
  split at found
  next fits =>
    simp only [Page.base, PageSize.bytes] at fits
    unfold IsAddressable
    omega
  next => cases found

theorem requireInside_eq_ok {memory : Memory} (addressable : memory.IsAddressable)
    {address : PhysicalAddress} (inside : memory.Contains address.value) :
    memory.requireInside address = .ok () := by
  rcases stop_eq_ok addressable with ⟨stop, found, value⟩
  rcases inside with ⟨above, below⟩
  rw [sized] at below
  have holds : memory.start ≤ address.value ∧ address.value < stop.value := by
    unfold start at *
    omega
  rw [requireInside, found]
  exact if_pos holds

theorem requireFrame_eq_ok {memory : Memory} (addressable : memory.IsAddressable)
    {frame : Frame} (inside : memory.HasFrame frame) : memory.requireFrame frame = .ok () := by
  have first := inside.contains (show 0 < 4096 by omega)
  rw [Nat.add_zero] at first
  exact requireInside_eq_ok addressable first

theorem of_requireInside {memory : Memory} {address : PhysicalAddress}
    (done : memory.requireInside address = .ok ()) :
    memory.IsAddressable ∧ memory.Contains address.value := by
  unfold requireInside at done
  cases found : memory.stop with
  | error cause => simp [found, bind, Except.bind] at done
  | ok stop =>
      have addressable := isAddressable_of_stop found
      rcases stop_eq_ok addressable with ⟨same, sameFound, value⟩
      rw [found] at sameFound
      cases sameFound
      simp only [found, bind, Except.bind] at done
      split at done
      next inside =>
        refine ⟨addressable, inside.1, ?_⟩
        rw [sized]
        have := inside.2
        unfold start at *
        omega
      next => cases done

theorem hasFrame_of_requireFrame {memory : Memory} {frame : Frame}
    (done : memory.requireFrame frame = .ok ()) : memory.HasFrame frame := by
  rcases (of_requireInside done).2 with ⟨above, below⟩
  rw [sized] at below
  simp only [Page.base, PageSize.bytes, start] at above below
  unfold HasFrame
  omega

theorem of_requireRange {memory : Memory} {address : PhysicalAddress} {count : Nat}
    (done : memory.requireRange address count = .ok ()) :
    ∀ index < count, memory.Contains (address.value + index) := by
  intro index below
  have some : 0 < count := by omega
  rw [requireRange, if_pos some] at done
  cases ends : address.add (count - 1) with
  | error cause =>
      rw [ends] at done
      cases done
  | ok last =>
  rw [ends] at done
  simp only [bind, Except.bind] at done
  cases lastInside : memory.requireInside last with
  | error cause =>
      rw [lastInside] at done
      cases done
  | ok nothing =>
      rw [lastInside] at done
      have value : last.value = address.value + (count - 1) := by
        unfold Address.add at ends
        split at ends
        next => exact (congrArg Address.value (Except.ok.inj ends)).symm
        next => cases ends
      rcases (of_requireInside done).2 with ⟨above, _⟩
      rcases (of_requireInside lastInside).2 with ⟨_, within⟩
      rw [value] at within
      exact ⟨by omega, by omega⟩

/-- Even an empty range asks for a byte of the memory. -/
theorem isAddressable_of_requireRange {memory : Memory} {address : PhysicalAddress} {count : Nat}
    (done : memory.requireRange address count = .ok ()) : memory.IsAddressable := by
  cases inside : memory.requireInside address with
  | ok nothing => exact (of_requireInside inside).1
  | error cause =>
      simp only [requireRange, inside, bind, Except.bind] at done
      split at done
      next =>
        split at done
        next => cases done
        next => split at done <;> cases done
      next => cases done

theorem requireRange_eq_ok {memory : Memory} (addressable : memory.IsAddressable)
    {address : PhysicalAddress} {count : Nat} (some : 0 < count)
    (inside : ∀ index < count, memory.Contains (address.value + index)) :
    memory.requireRange address count = .ok () := by
  have first := inside 0 some
  have last := inside (count - 1) (by omega)
  have fits : address.value + (count - 1) < 1 <<< 64 := by
    have below := last.2
    rw [sized] at below
    unfold IsAddressable at addressable
    unfold start at below
    omega
  have ends : address.add (count - 1) = .ok ⟨address.value + (count - 1), fits⟩ := dif_pos fits
  have lastInside : memory.requireInside ⟨address.value + (count - 1), fits⟩ = .ok () :=
    requireInside_eq_ok addressable last
  rw [requireRange, if_pos some, ends]
  simp only [bind, Except.bind, requireInside_eq_ok addressable first, lastInside]

theorem lt_of_contains {memory : Memory} {address : Nat} (addressable : memory.IsAddressable)
    (contained : memory.Contains address) : address < 1 <<< 64 := by
  have below := contained.2
  rw [sized] at below
  unfold IsAddressable at addressable
  unfold start at below
  omega

end Memory

end EarlyMemory
