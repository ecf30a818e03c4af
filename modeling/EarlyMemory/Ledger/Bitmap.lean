import EarlyMemory.Fault

/-!
# Bitmaps

One bit per page, set while the page is busy. Bit `i` is bit `i % 8` of byte
`i / 8`. A bitmap is a view of bytes, wherever they stand, and a change of one
bit changes one byte. The search for a clear bit steps over a full byte at once,
which it may only do where the byte starts.
-/

namespace EarlyMemory

/-- A number of bytes; `byteAt` says nothing past them. -/
structure Bitmap where
  size : Nat
  byteAt : Nat → UInt8

namespace Bitmap

def bytesFor (bits : Nat) : Nat :=
  (bits + 7) / 8

/-! ## Single bits -/

def mask (bit : Nat) : UInt8 :=
  1 <<< UInt8.ofNat (bit % 8)

def setInByte (byte : UInt8) (bit : Nat) (busy : Bool) : UInt8 :=
  if busy then byte ||| mask bit else byte &&& ~~~mask bit

/-- Whether a bit is set; bits past the end are clear. -/
def isSet (bitmap : Bitmap) (bit : Nat) : Bool :=
  bit / 8 < bitmap.size && (bitmap.byteAt (bit / 8)).toNat.testBit (bit % 8)

def get (bitmap : Bitmap) (bit : Nat) : Except Fault Bool :=
  if bit / 8 < bitmap.size then .ok (bitmap.isSet bit) else .error .violation

/-- What the byte of a bit becomes once the bit is set or cleared. -/
def changedByte (bitmap : Bitmap) (bit : Nat) (busy : Bool) : Except Fault UInt8 :=
  if bit / 8 < bitmap.size then
    .ok (setInByte (bitmap.byteAt (bit / 8)) bit busy)
  else
    .error .violation

def set (bitmap : Bitmap) (bit : Nat) (busy : Bool) : Except Fault Bitmap := do
  let byte ← bitmap.changedByte bit busy
  return ⟨bitmap.size, fun index => if index = bit / 8 then byte else bitmap.byteAt index⟩

/-! ## All bits -/

/-- The first clear bit in `[bit, stop)`. -/
def firstClear (bitmap : Bitmap) (bit stop : Nat) : Except Fault (Option Nat) :=
  if bit < stop then
    if bit / 8 < bitmap.size then
      if bit % 8 = 0 ∧ bitmap.byteAt (bit / 8) = 255 then
        bitmap.firstClear (bit + 8) stop
      else if bitmap.isSet bit then
        bitmap.firstClear (bit + 1) stop
      else
        .ok (some bit)
    else
      .error .violation
  else
    .ok none
termination_by stop - bit

/-- The number of set bits in a byte: counted in each pair of bits, then in each
half, then in the whole. -/
def countInByte (byte : UInt8) : Nat :=
  let pairs := byte - (byte >>> 1 &&& (0x55 : UInt8))
  let halves := (pairs &&& (0x33 : UInt8)) + (pairs >>> 2 &&& (0x33 : UInt8))
  let whole := halves + halves >>> 4
  (whole &&& (0x0F : UInt8)).toNat

theorem countInByte_eq_countP (byte : UInt8) :
    countInByte byte = (List.range 8).countP byte.toNat.testBit := by
  have all : ∀ number : Fin 256, countInByte (UInt8.ofNat number.val) =
      (List.range 8).countP (UInt8.ofNat number.val).toNat.testBit := by
    decide +kernel
  simpa using all ⟨byte.toNat, byte.toNat_lt⟩

def countSet (bitmap : Bitmap) : Nat :=
  Nat.fold bitmap.size (fun index _ total => total + countInByte (bitmap.byteAt index)) 0

end Bitmap

end EarlyMemory
