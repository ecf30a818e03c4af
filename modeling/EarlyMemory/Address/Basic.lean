import EarlyMemory.Text.Hex

/-!
# Addresses and pages

An address is a 64-bit number that says which memory it points into. A page is
known by its number, so its base is aligned by construction. Rounding never
leaves the 64 bits: an address in the last page rounds up to that page's base.
-/

namespace EarlyMemory

/-- What an address points into; `unspecified` where either reading is possible. -/
inductive Space where
  | unspecified
  | physical
  | virtual
deriving DecidableEq

structure Address (space : Space) where
  value : Nat
  isLt : value < 1 <<< 64
deriving DecidableEq

abbrev PhysicalAddress := Address .physical
abbrev VirtualAddress := Address .virtual

inductive PageSize where
  | small
  | large
deriving DecidableEq

namespace PageSize

def shift : PageSize → Nat
  | .small => 12
  | .large => 21

def bytes : PageSize → Nat
  | .small => 4096
  | .large => 2097152

/-- The number of pages of this size in 64-bit memory. -/
def count : PageSize → Nat
  | .small => 1 <<< 52
  | .large => 1 <<< 43

def label : PageSize → String
  | .small => "4K"
  | .large => "2M"

example (size : PageSize) : size.bytes = 1 <<< size.shift := by
  cases size <;> rfl

theorem count_mul_bytes (size : PageSize) : size.count * size.bytes = 1 <<< 64 := by
  cases size <;> rfl

end PageSize

structure Page (space : Space) (size : PageSize) where
  number : Nat
  isLt : number < size.count
deriving DecidableEq

/-- A page of physical memory, the unit that is allocated and mapped. -/
abbrev Frame := Page .physical .small

namespace Address

variable {space : Space}

/-- The address with this value, higher bits dropped. -/
def ofNat (value : Nat) : Address space :=
  ⟨value % 1 <<< 64, Nat.mod_lt _ (by decide)⟩

@[ext] theorem ext {left right : Address space} (same : left.value = right.value) :
    left = right := by
  cases left
  cases right
  cases same
  rfl

def min (left right : Address space) : Address space :=
  if left.value ≤ right.value then left else right

def page (address : Address space) (size : PageSize) : Page space size :=
  ⟨address.value / size.bytes, by
    have bound := address.isLt
    cases size <;> simp only [PageSize.bytes, PageSize.count] <;> omega⟩

def offset (address : Address space) (size : PageSize) : Nat :=
  address.value % size.bytes

def IsAligned (address : Address space) (size : PageSize) : Prop :=
  address.value % size.bytes = 0

instance (address : Address space) (size : PageSize) :
    Decidable (address.IsAligned size) :=
  inferInstanceAs (Decidable (_ = _))

end Address

namespace Page

variable {space : Space} {size : PageSize}

@[ext] theorem ext {left right : Page space size} (same : left.number = right.number) :
    left = right := by
  cases left
  cases right
  cases same
  rfl

def base (page : Page space size) : Address space :=
  ⟨page.number * size.bytes, by
    have bound := page.isLt
    cases size <;> simp only [PageSize.bytes, PageSize.count] at * <;> omega⟩

/-- The address at a distance from the page's base; the distance counts modulo
the page size. -/
def join (page : Page space size) (offset : Nat) : Address space :=
  ⟨page.number * size.bytes + offset % size.bytes, by
    have bound := page.isLt
    cases size <;> simp only [PageSize.bytes, PageSize.count] at * <;> omega⟩

end Page

namespace Address

variable {space : Space}

def alignDown (address : Address space) (size : PageSize) : Address space :=
  (address.page size).base

def alignUp (address : Address space) (size : PageSize) : Address space :=
  if fits : address.value + (size.bytes - 1) < 1 <<< 64 then
    ⟨(address.value + (size.bytes - 1)) / size.bytes * size.bytes,
      Nat.lt_of_le_of_lt (Nat.div_mul_le_self ..) fits⟩
  else
    address.alignDown size

@[simp] theorem join_page_offset (address : Address space) (size : PageSize) :
    (address.page size).join (address.offset size) = address := by
  apply ext
  simp only [page, offset, Page.join, Nat.mod_mod]
  rw [Nat.mul_comm]
  exact Nat.div_add_mod ..

end Address

/-! ## Text -/

namespace Address

variable {space : Space}

def text (address : Address space) : String :=
  Hex.upper 16 address.value

def typedText (address : Address space) : String :=
  let name := match space with
    | .unspecified => "MemoryAddress"
    | .physical => "PA"
    | .virtual => "VA"
  s!"{name}({address.text})"

def offsetText (address : Address space) (size : PageSize) : String :=
  s!"Offset<{size.label}>({Hex.upper 1 (address.offset size)})"

end Address

namespace Page

variable {space : Space} {size : PageSize}

def text (page : Page space size) : String :=
  s!"{page.base.text}/{size.label}"

def typedText (page : Page space size) : String :=
  let name := match space with
    | .unspecified => "MemoryPage"
    | .physical => "PhysicalPage"
    | .virtual => "VirtualPage"
  s!"{name}<{size.label}>({page.base.text})"

end Page

end EarlyMemory
