import EarlyMemory.Paging.Walk

/-!
# The recursive map

One slot of the root table points back at the root table. A walk through the
slot lands one level higher than it otherwise would, so each table appears at a
virtual address that follows from the addresses it maps:

| indices of the walk  | lands on     |
|----------------------|--------------|
| slot, i4, i3, i2     | the PT       |
| slot, slot, i4, i3   | the PD       |
| slot, slot, slot, i4 | the PDPT     |
| four times the slot  | the PML4     |
-/

namespace EarlyMemory.RecursiveMap

def slot : TableIndex :=
  510

def upperHalf : Nat :=
  0xFFFF000000000000

def window : Level → Nat
  | .pt => upperHalf + slot.val <<< 39
  | .pd => upperHalf + slot.val <<< 39 + slot.val <<< 30
  | .pdpt => upperHalf + slot.val <<< 39 + slot.val <<< 30 + slot.val <<< 21
  | .pml4 =>
      upperHalf + slot.val <<< 39 + slot.val <<< 30 + slot.val <<< 21 +
        slot.val <<< 12

example : window .pt = 0xFFFFFF0000000000 := by decide
example : window .pml4 = 0xFFFFFF7FBFDFE000 := by decide

/-- The number of a level's table among all tables of that level. -/
def tableNumber (level : Level) (address : VirtualAddress) : Nat :=
  match level with
  | .pml4 => 0
  | .pdpt => address.value >>> 39 % 1 <<< 9
  | .pd => address.value >>> 30 % 1 <<< 18
  | .pt => address.value >>> 21 % 1 <<< 27

def tableCount : Level → Nat
  | .pml4 => 1
  | .pdpt => 1 <<< 9
  | .pd => 1 <<< 18
  | .pt => 1 <<< 27

theorem tableNumber_lt (level : Level) (address : VirtualAddress) :
    tableNumber level address < tableCount level := by
  cases level
  · exact Nat.one_pos
  all_goals exact Nat.mod_lt _ (by decide)

/-- Where the table of a level on the walk for an address appears. -/
def tableAddress (level : Level) (address : VirtualAddress) : VirtualAddress :=
  ⟨window level + tableNumber level address * 4096, by
    have below := Nat.mul_lt_mul_of_pos_right (tableNumber_lt level address)
      (show 0 < 4096 by decide)
    refine Nat.lt_of_lt_of_le (Nat.add_lt_add_left below _) ?_
    cases level <;> decide⟩

def entryOf (memory : Memory) (root : Frame) : PageEntry :=
  memory.entry root slot

def isInstalled (memory : Memory) (root : Frame) : Bool :=
  let entry := entryOf memory root
  entry.present && entry.frame == root

def install (memory : Memory) (root : Frame) : Memory :=
  memory.setEntry root slot (.selfReference root)

end EarlyMemory.RecursiveMap
