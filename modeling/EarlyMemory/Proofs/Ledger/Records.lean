import EarlyMemory.Ledger.Basic
import EarlyMemory.Proofs.Machine.Agreement
import EarlyMemory.Proofs.Region.Runs
import Mathlib.Algebra.GroupWithZero.Nat

/-!
# What a ledger records

The descriptors that a ledger reads back are the ones that were written: one for each run,
with bitmaps that follow each other. Recording them writes to the descriptors' own bytes
only.
-/

namespace EarlyMemory

/-! ## Fields -/

namespace LittleEndian

variable {left right : List UInt8} {offset width number : Nat}

theorem field_append_left (exact : left.length = width) :
    field (left ++ right) 0 width = value left := by
  rw [field, List.drop_zero, ← exact, List.take_left]

theorem field_append_right (past : left.length ≤ offset) :
    field (left ++ right) offset width = field right (offset - left.length) width := by
  rw [field, field, List.drop_append, List.drop_eq_nil_of_le past, List.nil_append]

theorem value_bytes_of_lt (fits : number < 1 <<< 64) : value (bytes 8 number) = number :=
  (value_bytes 8 number).trans (Nat.mod_eq_of_lt fits)

end LittleEndian

namespace Descriptor

open LittleEndian

variable {descriptor : Descriptor}

theorem field_encode_kind :
    field descriptor.encode 16 4 = value (bytes 4 descriptor.kind.code) := by
  rw [encode, List.append_assoc, List.append_assoc, List.append_assoc,
    field_append_right (by simp), field_append_right (by simp)]
  simp only [length_bytes]
  rw [field, List.drop_zero]
  rfl

theorem decode_encode (pages : descriptor.pages < 1 <<< 64)
    (offset : descriptor.bitmapOffset < 1 <<< 64) (bytes : descriptor.bitmapBytes < 1 <<< 64) :
    decode descriptor.encode = descriptor := by
  have kind : KernelKind.ofCode (field descriptor.encode 16 4) = descriptor.kind := by
    rw [field_encode_kind, value_bytes]
    cases descriptor.kind <;> rfl
  have base : field descriptor.encode 0 8 = descriptor.base.value := by
    rw [encode, List.append_assoc, List.append_assoc, List.append_assoc,
      field_append_left (length_bytes ..), value_bytes_of_lt descriptor.base.isLt]
  have pagesField : field descriptor.encode 8 8 = descriptor.pages := by
    rw [encode, List.append_assoc, List.append_assoc, List.append_assoc,
      field_append_right (by simp)]
    simp only [length_bytes, Nat.sub_self]
    rw [field_append_left (length_bytes ..), value_bytes_of_lt pages]
  have offsetField : field descriptor.encode 24 8 = descriptor.bitmapOffset := by
    rw [encode, List.append_assoc, field_append_right (by simp)]
    simp only [List.length_append, length_bytes, Nat.reduceAdd, Nat.sub_self]
    rw [field_append_left (length_bytes ..), value_bytes_of_lt offset]
  have bytesField : field descriptor.encode 32 8 = descriptor.bitmapBytes := by
    rw [encode, field_append_right (by simp)]
    simp only [List.length_append, length_bytes, Nat.reduceAdd, Nat.sub_self]
    rw [field, List.drop_zero, List.take_of_length_le (by simp), value_bytes_of_lt bytes]
  rw [decode, base, pagesField, kind, offsetField, bytesField]
  have same : (Address.ofNat descriptor.base.value : PhysicalAddress) = descriptor.base :=
    Address.ext (Nat.mod_eq_of_lt descriptor.base.isLt)
  rw [same]

end Descriptor

/-! ## The plan of a ledger -/

namespace Run

variable {run : Run} {runs : List Run} {offset : Nat}

def pageCount (run : Run) : Nat :=
  (run.stop.value - run.base.value) / 4096

def bitmapSize (run : Run) : Nat :=
  if run.kind = .available then Bitmap.bytesFor run.pageCount else 0

theorem pages_eq_ok (proper : run.base.value < run.stop.value) :
    run.pages = .ok run.pageCount := by
  have bytes : run.stop.since run.base = .ok (run.stop.value - run.base.value) :=
    if_pos (Nat.le_of_lt proper)
  rw [pages, bytes]
  rfl

theorem bitmapBytesOf_eq_ok (proper : run.base.value < run.stop.value) :
    Ledger.bitmapBytesOf run = .ok run.bitmapSize := by
  rw [Ledger.bitmapBytesOf, pages_eq_ok proper]
  rfl

theorem IsWellFormed.pageCount (wellFormed : run.IsWellFormed) :
    run.base.value + run.pageCount * 4096 = run.stop.value := by
  have proper := wellFormed.proper
  have base := wellFormed.base
  have stop := wellFormed.stop
  unfold Run.pageCount
  omega

/-- The descriptors of runs whose bitmaps follow each other from an offset on. -/
def planned (offset : Nat) : List Run → List Descriptor
  | [] => []
  | run :: rest =>
      ⟨run.base, run.pageCount, run.kind, offset, run.bitmapSize⟩ ::
        planned (offset + run.bitmapSize) rest

def bitmapSizes (runs : List Run) : Nat :=
  (runs.map bitmapSize).sum

theorem bitmapSizes_cons : bitmapSizes (run :: runs) = run.bitmapSize + bitmapSizes runs := by
  unfold bitmapSizes
  rw [List.map_cons, List.sum_cons]

end Run

/-! ## Recording -/

namespace Ledger

open Memory (WritesWithin)

variable {ledger : Ledger} {before after : Memory} {index offset : Nat} {runs : List Run}
  {descriptor : Descriptor}

theorem descriptorAddress_succ (ledger : Ledger) (index : Nat) :
    ledger.descriptorAddress (index + 1) = ledger.descriptorAddress index + descriptorBytes := by
  unfold descriptorAddress descriptorBytes
  omega

theorem descriptorAddress_mono (ledger : Ledger) {lower higher : Nat} (below : lower ≤ higher) :
    ledger.descriptorAddress lower ≤ ledger.descriptorAddress higher := by
  unfold descriptorAddress
  exact Nat.add_le_add_left (Nat.mul_le_mul_right _ below) _

theorem descriptor_eq_of_writes {first last : Nat} (writes : WritesWithin first last before after)
    (apart : ledger.descriptorAddress (index + 1) ≤ first ∨
      last ≤ ledger.descriptorAddress index) :
    ledger.descriptor after index = ledger.descriptor before index := by
  rw [descriptorAddress_succ] at apart
  rw [Ledger.descriptor, Ledger.descriptor, writes.load_eq apart]

theorem writesWithin_setDescriptor (ledger : Ledger) (memory : Memory) (index : Nat)
    (descriptor : Descriptor) :
    WritesWithin (ledger.descriptorAddress index) (ledger.descriptorAddress (index + 1)) memory
      (ledger.setDescriptor memory index descriptor) := by
  have writes := Memory.writesWithin_store memory (ledger.descriptorAddress index)
    descriptor.encode
  rwa [Descriptor.length_encode, ← descriptorAddress_succ] at writes

theorem descriptor_setDescriptor {memory : Memory}
    (contains : ∀ position < descriptorBytes,
      memory.Contains (ledger.descriptorAddress index + position))
    (pages : descriptor.pages < 1 <<< 64) (offset : descriptor.bitmapOffset < 1 <<< 64)
    (bytes : descriptor.bitmapBytes < 1 <<< 64) :
    ledger.descriptor (ledger.setDescriptor memory index descriptor) index = descriptor := by
  have read := Memory.load_store_same memory (ledger.descriptorAddress index) descriptor.encode
    (by rwa [Descriptor.length_encode])
  rw [Descriptor.length_encode] at read
  rw [Ledger.descriptor, setDescriptor, read, Descriptor.decode_encode pages offset bytes]

def descriptorsFrom (ledger : Ledger) (memory : Memory) (index count : Nat) : List Descriptor :=
  (List.range' index count).map (ledger.descriptor memory)

theorem descriptors_eq (memory : Memory) :
    ledger.descriptors memory = ledger.descriptorsFrom memory 0 ledger.regionCount := by
  rw [descriptors, descriptorsFrom, List.range_eq_range']

theorem of_recordRuns (wellFormed : ∀ run ∈ runs, run.IsWellFormed)
    (contains : ∀ address, ledger.descriptorAddress index ≤ address →
      address < ledger.descriptorAddress (index + runs.length) → before.Contains address)
    (low : offset < 1 <<< 64)
    (done : ledger.recordRuns before index offset runs = .ok after) :
    WritesWithin (ledger.descriptorAddress index)
        (ledger.descriptorAddress (index + runs.length)) before after ∧
      ledger.descriptorsFrom after index runs.length = Run.planned offset runs := by
  induction runs generalizing before index offset with
  | nil =>
      cases done
      exact ⟨.refl _, rfl⟩
  | cons run rest induction =>
      rw [List.forall_mem_cons] at wellFormed
      rcases wellFormed with ⟨first, others⟩
      rw [recordRuns, Run.bitmapBytesOf_eq_ok first.proper, Run.pages_eq_ok first.proper] at done
      simp only [bind, Except.bind] at done
      cases sum : Word.add offset run.bitmapSize with
      | error cause =>
          rw [sum] at done
          cases done
      | ok next =>
          rw [sum] at done
          have fits : offset + run.bitmapSize < 1 <<< 64 ∧ next = offset + run.bitmapSize := by
            unfold Word.add at sum
            split at sum
            next fits => exact ⟨fits, (Except.ok.inj sum).symm⟩
            next => cases sum
          rcases fits with ⟨fits, rfl⟩
          have length : index + (rest.length + 1) = index + 1 + rest.length := by omega
          rw [List.length_cons, length] at contains ⊢
          have step := descriptorAddress_mono ledger
            (show index ≤ index + 1 by omega)
          have further := descriptorAddress_mono ledger
            (show index + 1 ≤ index + 1 + rest.length by omega)
          have written := writesWithin_setDescriptor ledger before index
            ⟨run.base, run.pageCount, run.kind, offset, run.bitmapSize⟩
          have containsLater : ∀ address, ledger.descriptorAddress (index + 1) ≤ address →
              address < ledger.descriptorAddress (index + 1 + rest.length) →
              (ledger.setDescriptor before index
                ⟨run.base, run.pageCount, run.kind, offset, run.bitmapSize⟩).Contains address :=
            fun address above below =>
              (written.contains_iff address).2 (contains address (by omega) below)
          rcases induction others containsLater fits done with ⟨writes, read⟩
          refine ⟨(written.mono (Nat.le_refl _) further).trans
            (writes.mono step (Nat.le_refl _)), ?_⟩
          have pages : run.pageCount < 1 <<< 64 := by
            have bound := run.stop.isLt
            have count := first.pageCount
            omega
          have bytes : run.bitmapSize < 1 <<< 64 := by omega
          have size := descriptorAddress_succ ledger index
          rw [descriptorsFrom, List.range'_succ, List.map_cons, Run.planned,
            descriptor_eq_of_writes writes (.inl (Nat.le_refl _)),
            descriptor_setDescriptor (fun position below => contains _ (by omega) (by omega))
              pages low bytes]
          exact congrArg _ read

theorem exists_recordRuns (memory : Memory) (index : Nat)
    (wellFormed : ∀ run ∈ runs, run.IsWellFormed)
    (low : offset + Run.bitmapSizes runs < 1 <<< 64) :
    ∃ recorded, ledger.recordRuns memory index offset runs = .ok recorded := by
  induction runs generalizing memory index offset with
  | nil => exact ⟨memory, rfl⟩
  | cons run rest induction =>
      rw [List.forall_mem_cons] at wellFormed
      rw [Run.bitmapSizes_cons] at low
      have next : Word.add offset run.bitmapSize = .ok (offset + run.bitmapSize) :=
        if_pos (by omega)
      rw [recordRuns, Run.bitmapBytesOf_eq_ok wellFormed.1.proper,
        Run.pages_eq_ok wellFormed.1.proper]
      simp only [bind, Except.bind, next]
      exact induction _ _ wellFormed.2 (by omega)

end Ledger

end EarlyMemory
