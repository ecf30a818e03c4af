import EarlyMemory.Proofs.Paging.Entries
import EarlyMemory.Proofs.Words

/-!
# The encoding of entries

The thirteen fields take up the word of an entry without overlap, so a setter changes the bits
of its own field and no other. An entry that is built for a frame says what it is for in four
fields and leaves the others zero. So what decoding and building again keep of a present entry
is those four.
-/

namespace EarlyMemory.PageEntry

/-! ## Fields -/

inductive Field where
  | single (flag : Flag)
  | osLow
  | frame
  | osHigh
deriving DecidableEq

def Field.width : Field → Nat
  | .single _ => 1
  | .osLow => 3
  | .frame => 40
  | .osHigh => 11

def Field.place : (field : Field) → BitField field.width
  | .single flag => flag.field
  | .osLow => osLowField
  | .frame => frameField
  | .osHigh => osHighField

def Field.ofBit (bit : Nat) : Field :=
  match bit with
  | 0 => .single .present
  | 1 => .single .writable
  | 2 => .single .userAccess
  | 3 => .single .writeThrough
  | 4 => .single .cacheDisabled
  | 5 => .single .accessed
  | 6 => .single .dirty
  | 7 => .single .large
  | 8 => .single .global
  | 63 => .single .noExecute
  | _ => if bit < 12 then .osLow else if bit < 52 then .frame else .osHigh

/-- Whether an entry that is built for a frame says anything in the field. -/
def Field.isUsed : Field → Bool
  | .single .present | .single .writable | .single .noExecute | .frame => true
  | _ => false

variable {bit : Nat}

theorem Field.place_fits (field : Field) : field.place.low + field.width ≤ 64 := by
  cases field with
  | single flag => cases flag <;> decide
  | osLow => decide
  | frame => decide
  | osHigh => decide

theorem Field.holds_iff (field : Field) (within : bit < 64) :
    field.place.Holds bit ↔ field = .ofBit bit := by
  have all : ∀ bit : Fin 64, field.place.Holds bit.val ↔ field = .ofBit bit.val := by
    cases field with
    | single flag => cases flag <;> decide
    | osLow => decide
    | frame => decide
    | osHigh => decide
  exact all ⟨bit, within⟩

/-! ## Setters -/

/-- Whether an entry is another one with a field set to a value. -/
structure Sets (field : Field) (value : BitVec field.width) (before after : PageEntry) :
    Prop where
  own : field.place.read after.bits = value
  others : ∀ bit < 64, ¬ field.place.Holds bit →
    after.bits.getLsbD bit = before.bits.getLsbD bit

theorem sets_write (field : Field) (value : BitVec field.width) (entry : PageEntry) :
    Sets field value entry ⟨field.place.write entry.bits value⟩ where
  own := BitField.read_write field.place entry.bits value field.place_fits
  others bit within outside := by
    rw [BitField.getLsbD_write _ _ _ _ within, if_neg outside]

variable {entry : PageEntry} {writable noExecute : Bool} {frame : Frame} {rights : Rights}

theorem getLsbD_withFlag (entry : PageEntry) (flag : Flag) (value : Bool) (within : bit < 64) :
    (entry.withFlag flag value).bits.getLsbD bit =
      if .ofBit bit = Field.single flag then value else entry.bits.getLsbD bit := by
  rw [withFlag, BitField.writeFlag, BitField.getLsbD_write _ _ _ _ within]
  have holds := Field.holds_iff (.single flag) within
  by_cases here : flag.field.Holds bit
  · have first : bit - flag.field.low = 0 := by
      have above := here.1
      have below := here.2
      omega
    rw [if_pos here, if_pos (holds.1 here).symm, first]
    simp
  · rw [if_neg here, if_neg fun same => here (holds.2 same.symm)]

theorem getLsbD_withFrame (entry : PageEntry) (frame : Frame) (within : bit < 64) :
    (entry.withFrame frame).bits.getLsbD bit =
      if .ofBit bit = Field.frame then frame.number.testBit (bit - 12)
      else entry.bits.getLsbD bit := by
  rw [withFrame, BitField.getLsbD_write _ _ _ _ within]
  have holds := Field.holds_iff .frame within
  by_cases here : frameField.Holds bit
  · have below : bit - 12 < 40 := by
      have above := here.1
      have below := here.2
      simp only [frameField] at above below
      omega
    rw [if_pos here, if_pos (holds.1 here).symm, BitVec.getLsbD_ofNat]
    simp only [frameField, below, decide_true, Bool.true_and]
  · rw [if_neg here, if_neg fun same => here (holds.2 same.symm)]

/-! ## Getters -/

theorem flag_eq_getLsbD (entry : PageEntry) (flag : Flag) :
    entry.flag flag = entry.bits.getLsbD flag.field.low := by
  simp [PageEntry.flag, BitField.readFlag, BitField.read]

theorem testBit_number_frame (entry : PageEntry) (index : Nat) :
    entry.frame.number.testBit index =
      (decide (index < 40) && entry.bits.getLsbD (12 + index)) := by
  change (frameField.read entry.bits).toNat.testBit index = _
  rw [BitVec.testBit_toNat, BitField.read, BitVec.getLsbD_extractLsb']
  rfl

/-! ## Entries that are built for a frame -/

/-- Whether an entry says of a frame that it is present, what is allowed there, and no more. -/
def Encodes (entry : PageEntry) (writable noExecute : Bool) (frame : Frame) : Prop :=
  ∀ bit < 64, entry.bits.getLsbD bit =
    match Field.ofBit bit with
    | .single .present => true
    | .single .writable => writable
    | .single .noExecute => noExecute
    | .frame => frame.number.testBit (bit - 12)
    | _ => false

theorem encodes_leaf (frame : Frame) (rights : Rights) :
    (leaf frame rights).Encodes rights.write (!rights.execute) frame := by
  intro bit within
  simp only [leaf, getLsbD_withFrame _ _ within, getLsbD_withFlag _ _ _ within]
  cases Field.ofBit bit with
  | single flag => cases flag <;> simp [zero]
  | osLow => simp [zero]
  | frame => simp
  | osHigh => simp [zero]

theorem encodes_table (frame : Frame) : (table frame).Encodes true false frame := by
  intro bit within
  simp only [table, getLsbD_withFrame _ _ within, getLsbD_withFlag _ _ _ within]
  cases Field.ofBit bit with
  | single flag => cases flag <;> simp [zero]
  | osLow => simp [zero]
  | frame => simp
  | osHigh => simp [zero]

theorem selfReference_eq_leaf (frame : Frame) : selfReference frame = leaf frame .readWrite :=
  rfl

namespace Encodes

variable (encodes : entry.Encodes writable noExecute frame)

include encodes

theorem present : entry.present = true := by
  rw [PageEntry.present, flag_eq_getLsbD]
  exact encodes 0 (by decide)

theorem flag_writable : entry.flag .writable = writable := by
  rw [flag_eq_getLsbD]
  exact encodes 1 (by decide)

theorem flag_noExecute : entry.flag .noExecute = noExecute := by
  rw [flag_eq_getLsbD]
  exact encodes 63 (by decide)

theorem rights_eq : entry.rights = ⟨true, writable, !noExecute⟩ := by
  rw [PageEntry.rights, encodes.flag_writable, encodes.flag_noExecute]

/-- Of the frame's number an entry keeps as much as its field holds. -/
theorem number_frame : entry.frame.number = frame.number % 1 <<< 40 := by
  apply Nat.eq_of_testBit_eq
  intro index
  rw [testBit_number_frame, Nat.one_shiftLeft, Nat.testBit_mod_two_pow]
  by_cases below : index < 40
  · have within : 12 + index < 64 := by omega
    have holds : Field.frame.place.Holds (12 + index) :=
      ⟨Nat.le_add_right .., Nat.add_lt_add_left below 12⟩
    rw [encodes _ within, ← (Field.holds_iff .frame within).1 holds]
    simp [below]
  · simp [below]

theorem value_base_frame : entry.frame.base.value = frame.base.value % 1 <<< 52 := by
  change entry.frame.number * 4096 = frame.number * 4096 % 1 <<< 52
  rw [encodes.number_frame]
  simp only [Nat.reduceShiftLeft]
  omega

theorem frame_eq (low : frame.base.value < 1 <<< 52) : entry.frame = frame := by
  have value := encodes.value_base_frame
  rw [Nat.mod_eq_of_lt low] at value
  apply Page.ext
  change entry.frame.number * 4096 = frame.number * 4096 at value
  omega

theorem eq_false_of_unused (within : bit < 64) (unused : (Field.ofBit bit).isUsed = false) :
    entry.bits.getLsbD bit = false := by
  rw [encodes bit within]
  split <;> first | rfl | simp_all [Field.isUsed]

end Encodes

/-- A bit of a field that is used follows from what decoding an entry gives. -/
theorem getLsbD_eq_of_isUsed (present : entry.present = true) (within : bit < 64)
    (used : (Field.ofBit bit).isUsed = true) :
    (leaf entry.frame entry.rights).bits.getLsbD bit = entry.bits.getLsbD bit := by
  rw [encodes_leaf _ _ bit within]
  have holds := (Field.holds_iff _ within).2 rfl
  cases isField : Field.ofBit bit with
  | single flag =>
      rw [isField] at holds used
      have here : bit = flag.field.low := by
        have above := holds.1
        have below := holds.2
        simp only [Field.place, Field.width] at above below
        omega
      rw [here, ← flag_eq_getLsbD]
      cases flag <;> simp_all [Field.isUsed, PageEntry.present, PageEntry.rights]
  | frame =>
      rw [isField] at holds
      have above := holds.1
      have below := holds.2
      simp only [Field.place, Field.width, frameField] at above below
      simp only [testBit_number_frame]
      rw [show 12 + (bit - 12) = bit by omega, decide_eq_true (by omega), Bool.true_and]
  | osLow => rw [isField] at used; cases used
  | osHigh => rw [isField] at used; cases used

theorem and_frameMask (value : Nat) :
    value &&& frameMask.toNat = value / 4096 % 1 <<< 40 * 4096 := by
  have mask : frameMask.toNat = (1 <<< 40 - 1) <<< 12 := by decide
  have page : value / 4096 = value >>> 12 := (Nat.shiftRight_eq_div_pow value 12).symm
  rw [mask, page, Word.and_pages]

theorem number_frame_withFrame (entry : PageEntry) (frame : Frame) :
    (entry.withFrame frame).frame.number = frame.number % 1 <<< 40 := by
  have written := BitField.read_write frameField entry.bits (.ofNat 40 frame.number) (by decide)
  change (frameField.read (entry.withFrame frame).bits).toNat = _
  rw [withFrame, written]
  rfl

theorem value_base_withFrame (entry : PageEntry) (address : PhysicalAddress) :
    (entry.withFrame (address.page .small)).frame.base.value =
      address.value &&& frameMask.toNat := by
  change (entry.withFrame (address.page .small)).frame.number * 4096 = _
  rw [number_frame_withFrame, and_frameMask]
  rfl

/-! ## The codec -/

/-- Whether an entry is present, points at a frame as far as an entry can, and leaves the fields
zero that it makes no use of. -/
structure PointsAt (entry : PageEntry) (frame : Frame) : Prop where
  present : entry.present = true
  base : entry.frame.base.value = frame.base.value % 1 <<< 52
  exact_of_low : frame.base.value < 1 <<< 52 → entry.frame = frame
  unused : ∀ bit < 64, (Field.ofBit bit).isUsed = false → entry.bits.getLsbD bit = false

theorem Encodes.pointsAt (encodes : entry.Encodes writable noExecute frame) :
    entry.PointsAt frame :=
  ⟨encodes.present, encodes.value_base_frame, encodes.frame_eq,
    fun _ => encodes.eq_false_of_unused⟩

/-- Whether each setter changes its own field only, and the getter reads what was set. -/
structure KeepsFieldsApart (entry : PageEntry) : Prop where
  flags : ∀ flag value, Sets (.single flag) (.ofBool value) entry (entry.withFlag flag value) ∧
    (entry.withFlag flag value).flag flag = value
  osLow : ∀ value, Sets .osLow value entry (entry.withOsLow value) ∧
    (entry.withOsLow value).osLow = value
  osHigh : ∀ value, Sets .osHigh value entry (entry.withOsHigh value) ∧
    (entry.withOsHigh value).osHigh = value
  frames : ∀ address : PhysicalAddress,
    Sets .frame (.ofNat 40 (address.value / 4096)) entry
        (entry.withFrame (address.page .small)) ∧
      (entry.withFrame (address.page .small)).frame.base.value =
        address.value &&& frameMask.toNat ∧
      ((address.page .small).IsLinkable →
        (entry.withFrame (address.page .small)).frame = address.page .small)

theorem keepsFieldsApart (entry : PageEntry) : entry.KeepsFieldsApart where
  flags flag _ := ⟨sets_write (.single flag) _ entry, flag_withFlag_same ..⟩
  osLow value := ⟨sets_write .osLow value entry, (sets_write .osLow value entry).own⟩
  osHigh value := ⟨sets_write .osHigh value entry, (sets_write .osHigh value entry).own⟩
  frames address := ⟨sets_write .frame _ entry, value_base_withFrame entry address,
    frame_withFrame entry⟩

/-- Entries of all kinds point at the frame they are built for, a leaf gives back the rights it
was asked for, and no field is disturbed by what is done to another one. -/
theorem entries_encode_frames_and_rights (frame : Frame) (rights : Rights) (entry : PageEntry) :
    (leaf frame rights).PointsAt frame ∧ (table frame).PointsAt frame ∧
      (selfReference frame).PointsAt frame ∧
      (leaf frame rights).rights = { rights with read := true } ∧
      (entry.present = true → ∀ bit < 64, (Field.ofBit bit).isUsed = true →
        (leaf entry.frame entry.rights).bits.getLsbD bit = entry.bits.getLsbD bit) ∧
      (∀ field : Field, ∀ bit < 64, field.place.Holds bit ↔ field = .ofBit bit) ∧
      entry.KeepsFieldsApart := by
  have leafEncodes := encodes_leaf frame rights
  have slotEncodes := encodes_leaf frame .readWrite
  rw [← selfReference_eq_leaf] at slotEncodes
  refine ⟨leafEncodes.pointsAt, (encodes_table frame).pointsAt, slotEncodes.pointsAt, ?_, ?_,
    fun field bit within => field.holds_iff within, entry.keepsFieldsApart⟩
  · rw [leafEncodes.rights_eq, Bool.not_not]
  · exact fun present bit within used => getLsbD_eq_of_isUsed present within used

def crowdedEntry : PageEntry :=
  ⟨0x8000000000200E67⟩

example : (leaf crowdedEntry.frame crowdedEntry.rights).bits = 0x8000000000200003 := by decide

/-- The same frame, counted from the first address that paging cannot reach. -/
def unreachableFrame : Frame :=
  ⟨1 <<< 40 + 0x200, by decide⟩

theorem crowdedEntry_is_built_again :
    crowdedEntry.present = true ∧
      (∀ bit < 64, (Field.ofBit bit).isUsed = true →
        (leaf crowdedEntry.frame crowdedEntry.rights).bits.getLsbD bit =
          crowdedEntry.bits.getLsbD bit) ∧
      (leaf unreachableFrame .readExecute).frame.base.value = 0x200000 ∧
      (table crowdedEntry.frame).frame = crowdedEntry.frame := by
  rcases entries_encode_frames_and_rights unreachableFrame .readExecute crowdedEntry with
    ⟨high, _, _, _, kept, _⟩
  rcases entries_encode_frames_and_rights crowdedEntry.frame .none crowdedEntry with
    ⟨_, low, _⟩
  have present : crowdedEntry.present = true := by decide
  exact ⟨present, kept present, high.base, low.exact_of_low (by decide)⟩

end EarlyMemory.PageEntry
