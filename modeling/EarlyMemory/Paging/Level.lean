import EarlyMemory.Fault

/-!
# Table levels

A virtual address selects one of 512 entries at each of four levels, nine bits
per level above the twelve bits of the page offset.
-/

namespace EarlyMemory

inductive Level where
  | pml4
  | pdpt
  | pd
  | pt
deriving DecidableEq

def entriesPerTable : Nat :=
  512

abbrev TableIndex := Fin 512

/-- The index with this number, which has to name an entry. -/
def TableIndex.ofNat (number : Nat) : Except Fault TableIndex :=
  if within : number < 512 then .ok ⟨number, within⟩ else .error .violation

namespace Level

/-- From the root down. -/
def all : List Level :=
  [.pml4, .pdpt, .pd, .pt]

/-- The lowest address bit the level selects with. -/
def shift : Level → Nat
  | .pml4 => 39
  | .pdpt => 30
  | .pd => 21
  | .pt => 12

def next? : Level → Option Level
  | .pml4 => some .pdpt
  | .pdpt => some .pd
  | .pd => some .pt
  | .pt => none

def index (level : Level) (address : VirtualAddress) : TableIndex :=
  ⟨address.value >>> level.shift % 512, Nat.mod_lt _ (by decide)⟩

def label : Level → String
  | .pml4 => "PML4"
  | .pdpt => "PDPT"
  | .pd => "PD"
  | .pt => "PT"

end Level

end EarlyMemory
