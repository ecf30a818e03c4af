import EarlyMemory.Fault
import EarlyMemory.Machine.LittleEndian

/-!
# Physical memory

Memory is a run of frames, byte by byte. Its view is `byteAt`, which is zero
outside the run; every other read is defined through it, and every write
through `setByte`. Whether an access may happen at all is asked beforehand with
`requireInside` and `requireRange`.
-/

namespace EarlyMemory

structure Memory where
  base : Frame
  frames : Nat
  bytes : ByteArray
  sized : bytes.size = frames * 4096

namespace Memory

def zeroed (base : Frame) (frames : Nat) : Memory where
  base := base
  frames := frames
  bytes := ⟨Array.replicate (frames * 4096) 0⟩
  sized := Array.size_replicate ..

/-- Zeroed memory at an address, which has to be a page's base. -/
def create (base : PhysicalAddress) (frames : Nat) : Except Fault Memory :=
  if base.IsAligned .small then
    .ok (zeroed (base.page .small) frames)
  else
    .error .misalignedMemory

/-! ## Bytes -/

def start (memory : Memory) : Nat :=
  memory.base.number * 4096

def Contains (memory : Memory) (address : Nat) : Prop :=
  memory.start ≤ address ∧ address - memory.start < memory.bytes.size

instance (memory : Memory) (address : Nat) : Decidable (memory.Contains address) :=
  inferInstanceAs (Decidable (_ ∧ _))

def byteAt (memory : Memory) (address : Nat) : UInt8 :=
  if inside : memory.Contains address then
    memory.bytes.get (address - memory.start) inside.2
  else
    0

/-- Writes one byte; outside the memory nothing happens. -/
def setByte (memory : Memory) (address : Nat) (byte : UInt8) : Memory :=
  if inside : memory.Contains address then
    { memory with
      bytes := memory.bytes.set (address - memory.start) byte inside.2
      sized := (Array.size_set ..).trans memory.sized }
  else
    memory

@[simp] theorem base_setByte (memory : Memory) (address : Nat) (byte : UInt8) :
    (memory.setByte address byte).base = memory.base := by
  unfold setByte
  split <;> rfl

@[simp] theorem frames_setByte (memory : Memory) (address : Nat) (byte : UInt8) :
    (memory.setByte address byte).frames = memory.frames := by
  unfold setByte
  split <;> rfl

@[simp] theorem start_setByte (memory : Memory) (address : Nat) (byte : UInt8) :
    (memory.setByte address byte).start = memory.start := by
  simp [start]

@[simp] theorem contains_setByte (memory : Memory) (address other : Nat) (byte : UInt8) :
    (memory.setByte address byte).Contains other ↔ memory.Contains other := by
  simp [Contains, sized]

theorem byteAt_setByte_same (memory : Memory) (address : Nat) (byte : UInt8)
    (inside : memory.Contains address) :
    (memory.setByte address byte).byteAt address = byte := by
  have still := (contains_setByte memory address address byte).2 inside
  rw [setByte, dif_pos inside] at still ⊢
  rw [byteAt, dif_pos still]
  exact Array.getElem_set_self ..

theorem byteAt_setByte_other (memory : Memory) (address other : Nat) (byte : UInt8)
    (different : other ≠ address) :
    (memory.setByte address byte).byteAt other = memory.byteAt other := by
  by_cases written : memory.Contains address
  · have same := contains_setByte memory address other byte
    rw [setByte, dif_pos written] at same ⊢
    by_cases inside : memory.Contains other
    · have apart : address - memory.start ≠ other - memory.start := by
        have := written.1
        have := inside.1
        omega
      rw [byteAt, byteAt, dif_pos (same.2 inside), dif_pos inside]
      exact Array.getElem_set_ne _ _ apart
    · rw [byteAt, byteAt, dif_neg (inside ∘ same.1), dif_neg inside]
  · rw [setByte, dif_neg written]

/-! ## Ranges -/

def load (memory : Memory) (address count : Nat) : List UInt8 :=
  (List.range count).map fun index => memory.byteAt (address + index)

def store (memory : Memory) (address : Nat) : List UInt8 → Memory
  | [] => memory
  | head :: tail => (memory.setByte address head).store (address + 1) tail

def fill (memory : Memory) (address count : Nat) (byte : UInt8) : Memory :=
  memory.store address (List.replicate count byte)

def loadWord (memory : Memory) (address : Nat) : BitVec 64 :=
  BitVec.ofNat 64 (LittleEndian.value (memory.load address 8))

def storeWord (memory : Memory) (address : Nat) (word : BitVec 64) : Memory :=
  memory.store address (LittleEndian.bytes 8 word.toNat)

@[simp] theorem length_load (memory : Memory) (address count : Nat) :
    (memory.load address count).length = count := by
  simp [load]

@[simp] theorem base_store (memory : Memory) (address : Nat) (bytes : List UInt8) :
    (memory.store address bytes).base = memory.base := by
  induction bytes generalizing memory address with
  | nil => rfl
  | cons head tail induction => simp [store, induction]

@[simp] theorem frames_store (memory : Memory) (address : Nat) (bytes : List UInt8) :
    (memory.store address bytes).frames = memory.frames := by
  induction bytes generalizing memory address with
  | nil => rfl
  | cons head tail induction => simp [store, induction]

@[simp] theorem contains_store (memory : Memory) (address other : Nat)
    (bytes : List UInt8) :
    (memory.store address bytes).Contains other ↔ memory.Contains other := by
  simp [Contains, start, sized]

theorem byteAt_store_other (memory : Memory) (address other : Nat) (bytes : List UInt8)
    (outside : other < address ∨ address + bytes.length ≤ other) :
    (memory.store address bytes).byteAt other = memory.byteAt other := by
  induction bytes generalizing memory address with
  | nil => rfl
  | cons head tail induction =>
      simp only [List.length_cons] at outside
      rw [store, induction _ _ (by omega), byteAt_setByte_other _ _ _ _ (by omega)]

theorem byteAt_store_same (memory : Memory) (address : Nat) (bytes : List UInt8)
    (index : Nat) (within : index < bytes.length)
    (inside : memory.Contains (address + index)) :
    (memory.store address bytes).byteAt (address + index) = bytes[index] := by
  induction bytes generalizing memory address index with
  | nil => simp at within
  | cons head tail induction =>
      cases index with
      | zero =>
          rw [store, byteAt_store_other _ _ _ _ (by omega)]
          simpa using byteAt_setByte_same memory address head inside
      | succ index =>
          have shifted : address + (index + 1) = address + 1 + index := by omega
          rw [shifted] at inside ⊢
          simpa [store] using
            induction (memory.setByte address head) (address + 1) index
              (by simpa using within) (by simpa using inside)

theorem load_store_same (memory : Memory) (address : Nat) (bytes : List UInt8)
    (inside : ∀ index < bytes.length, memory.Contains (address + index)) :
    (memory.store address bytes).load address bytes.length = bytes := by
  apply List.ext_getElem
  · simp
  · intro index _ within
    simp only [load, List.getElem_map, List.getElem_range]
    exact byteAt_store_same memory address bytes index within (inside index within)

theorem load_store_other (memory : Memory) (address other count : Nat)
    (bytes : List UInt8)
    (apart : other + count ≤ address ∨ address + bytes.length ≤ other) :
    (memory.store address bytes).load other count = memory.load other count := by
  unfold load
  apply List.map_congr_left
  intro index member
  have := List.mem_range.1 member
  exact byteAt_store_other _ _ _ _ (by omega)

theorem loadWord_storeWord_same (memory : Memory) (address : Nat) (word : BitVec 64)
    (inside : ∀ index < 8, memory.Contains (address + index)) :
    (memory.storeWord address word).loadWord address = word := by
  unfold loadWord storeWord
  have read := load_store_same memory address (LittleEndian.bytes 8 word.toNat)
    (by simpa using inside)
  rw [LittleEndian.length_bytes] at read
  rw [read, LittleEndian.value_bytes]
  apply BitVec.eq_of_toNat_eq
  have := word.isLt
  simp
  omega

theorem loadWord_storeWord_other (memory : Memory) (address other : Nat)
    (word : BitVec 64) (apart : other + 8 ≤ address ∨ address + 8 ≤ other) :
    (memory.storeWord address word).loadWord other = memory.loadWord other := by
  unfold loadWord storeWord
  rw [load_store_other _ _ _ _ _ (by simpa using apart)]

/-! ## Checked access -/

def stop (memory : Memory) : Except Fault PhysicalAddress :=
  memory.base.base.add (memory.frames * 4096)

def requireInside (memory : Memory) (address : PhysicalAddress) : Except Fault Unit := do
  let stop ← memory.stop
  if memory.start ≤ address.value ∧ address.value < stop.value then
    .ok ()
  else
    .error (.outsideMemory address memory.base.base stop)

/-- Asks for the last byte of a range and then for its first one. The start of
an empty range has to exist too. -/
def requireRange (memory : Memory) (address : PhysicalAddress) (count : Nat) :
    Except Fault Unit := do
  if 0 < count then
    let last ← address.add (count - 1)
    memory.requireInside last
  memory.requireInside address

def read (memory : Memory) (address : PhysicalAddress) (count : Nat) :
    Except Fault (List UInt8) := do
  memory.requireRange address count
  return memory.load address.value count

def write (memory : Memory) (address : PhysicalAddress) (bytes : List UInt8) :
    Except Fault Memory := do
  memory.requireRange address bytes.length
  return memory.store address.value bytes

def overwrite (memory : Memory) (address : PhysicalAddress) (count : Nat) (byte : UInt8) :
    Except Fault Memory := do
  memory.requireRange address count
  return memory.fill address.value count byte

end Memory

end EarlyMemory
