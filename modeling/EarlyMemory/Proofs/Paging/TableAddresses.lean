import EarlyMemory.Proofs.Paging.Equivalence
import EarlyMemory.Proofs.Paging.Turning
import EarlyMemory.Proofs.Words

/-!
# Where tables appear

The address of a table is put together by shifting and masking the address that the table
serves. Its indices are the slot as often as it takes for the walk to end at the table's level,
followed by the indices that lead to the table. So the hardware, which knows nothing of the
window, finds each entry of the table there, provided that all entries above the table are
present, and nothing otherwise.
-/

namespace EarlyMemory

/-! ## The table of a level -/

namespace Memory

variable {memory : Memory} {root : Frame} {address : VirtualAddress} {level upper : Level}

/-- Where an entry of a table points that the walk for an address takes. -/
def nextTable (memory : Memory) (address : VirtualAddress) (level : Level) (table : Frame) :
    Frame :=
  (memory.entry table (level.index address)).frame

/-- The table of a level on the walk for an address, if every entry above it is present. -/
def tableOn (memory : Memory) (root : Frame) (address : VirtualAddress) : Level → Frame
  | .pml4 => root
  | .pdpt => memory.nextTable address .pml4 root
  | .pd => memory.nextTable address .pdpt (memory.nextTable address .pml4 root)
  | .pt =>
      memory.nextTable address .pd
        (memory.nextTable address .pdpt (memory.nextTable address .pml4 root))

def entryOn (memory : Memory) (root : Frame) (address : VirtualAddress) (level : Level) :
    PageEntry :=
  memory.entry (memory.tableOn root address level) (level.index address)

/-- Whether the walk for an address gets down to a level. -/
def IsPresentAbove (memory : Memory) (root : Frame) (address : VirtualAddress) (level : Level) :
    Prop :=
  ∀ upper : Level, upper.depth < level.depth →
    (memory.entryOn root address upper).present = true

/-- Whether the tables above a level, as far as the walk for an address gets, stand in memory
that can be read. The root is read on every walk. -/
def IsReadableAbove (memory : Memory) (root : Frame) (address : VirtualAddress)
    (level : Level) : Prop :=
  memory.requireFrame root = .ok () ∧
    ∀ upper : Level, upper.depth < level.depth → memory.IsPresentAbove root address upper →
      memory.requireFrame (memory.tableOn root address upper) = .ok ()

theorem isPresentAbove_of_depth_eq_zero (highest : level.depth = 0) :
    memory.IsPresentAbove root address level := by
  intro upper above
  omega

theorem tableOn_next (next : level.depth = upper.depth + 1) :
    memory.tableOn root address level = (memory.entryOn root address upper).frame := by
  cases level <;> cases upper <;> cases next <;> rfl

theorem isPresentAbove_next (next : level.depth = upper.depth + 1) :
    memory.IsPresentAbove root address level ↔
      memory.IsPresentAbove root address upper ∧
        (memory.entryOn root address upper).present = true := by
  constructor
  · intro present
    exact ⟨fun other above => present other (by omega), present upper (by omega)⟩
  · rintro ⟨present, last⟩ other above
    by_cases higher : other.depth < upper.depth
    · exact present other higher
    · rwa [Level.eq_of_depth_eq (show other.depth = upper.depth by omega)]

/-- The path of a level leads to its table exactly if every entry above is present. -/
theorem tableAt_path_eq_some {frame : Frame} :
    (Hierarchy.shown root).tableAt memory (level.path address) = some frame ↔
      memory.IsPresentAbove root address level ∧ memory.tableOn root address level = frame := by
  induction depth : level.depth generalizing level frame with
  | zero =>
      have present : memory.IsPresentAbove root address level :=
        isPresentAbove_of_depth_eq_zero depth
      cases Level.eq_of_depth_eq (show level.depth = Level.pml4.depth from depth)
      simp [Level.path, present, tableOn]
  | succ count induction =>
      rcases Level.exists_above depth with ⟨upper, upperDepth, _, path⟩
      have next : level.depth = upper.depth + 1 := by omega
      rw [path, Hierarchy.tableAt_cons_eq_some, isPresentAbove_next next, tableOn_next next]
      constructor
      · rintro ⟨table, found, present, points⟩
        rcases (induction upperDepth).1 found with ⟨presentAbove, rfl⟩
        exact ⟨⟨presentAbove, present⟩, points⟩
      · rintro ⟨⟨presentAbove, present⟩, points⟩
        exact ⟨_, (induction upperDepth).2 ⟨presentAbove, rfl⟩, present, points⟩

theorem tableAt_path_eq_none :
    (Hierarchy.shown root).tableAt memory (level.path address) = none ↔
      ¬ memory.IsPresentAbove root address level := by
  rw [Option.eq_none_iff_forall_ne_some]
  constructor
  · intro missing present
    exact missing _ (tableAt_path_eq_some.2 ⟨present, rfl⟩)
  · intro absent frame found
    exact absent (tableAt_path_eq_some.1 found).1

end Memory

/-! ## Paths that end in the window -/

namespace Level

variable {level lower upper : Level} {address other : VirtualAddress}

theorem indices_eq_reverse (address : VirtualAddress) :
    all.map (fun each => each.index address) = address.leafPath.reverse :=
  rfl

theorem indices_take_depth (level : Level) (address : VirtualAddress) :
    (all.take level.depth).map (fun each => each.index address) =
      (level.path address).reverse := by
  cases level <;> rfl

theorem path_eq_drop (level : Level) (address : VirtualAddress) :
    level.path address = address.leafPath.drop (4 - level.depth) := by
  cases level <;> rfl

theorem drop_path {count : Nat} (higher : upper.depth = level.depth - count) :
    (level.path address).drop count = upper.path address := by
  have shallow : level.depth ≤ 3 := level.depth_le
  by_cases within : count ≤ level.depth
  · rw [path_eq_drop, path_eq_drop, List.drop_drop, higher]
    congr 1
    omega
  · have first : upper = .pml4 := eq_of_depth_eq (show upper.depth = 0 by omega)
    rw [first, List.drop_eq_nil_of_le (by rw [length_path]; omega)]
    rfl

/-- The walk to an address that ends in the window takes the same tables as the walk that it
repeats, only later. -/
theorem exists_path_of_leafPath {slot : TableIndex} {count : Nat}
    (shows : other.leafPath = level.path address ++ List.replicate count slot)
    (lower : Level) :
    ∃ upper : Level, ∃ turns, upper.depth ≤ level.depth - 1 ∧
      lower.path other = upper.path address ++ List.replicate turns slot := by
  have shallow : lower.depth ≤ 3 := lower.depth_le
  have left : level.depth - (4 - lower.depth) ≤ 3 :=
    Nat.le_trans (Nat.sub_le ..) level.depth_le
  rcases exists_of_depth left with ⟨upper, depth⟩
  -- What is left out at the front is at least one index, and may be all of the level's path.
  refine ⟨upper, count - ((4 - lower.depth) - level.depth), by omega, ?_⟩
  rw [path_eq_drop lower, shows, List.drop_append, drop_path depth, List.drop_replicate,
    length_path]

end Level

/-! ## The address of a table -/

namespace RecursiveMap

variable {memory : Memory} {root : Frame} {address entryAddress : VirtualAddress} {level : Level}
  {index : TableIndex}

/-- How far behind the start of its level's window a table appears. -/
def maskedOffset (level : Level) (address : VirtualAddress) : Nat :=
  match level with
  | .pml4 => 0
  | .pdpt => address.value >>> 27 &&& 0x1FF000
  | .pd => address.value >>> 18 &&& 0x3FFFF000
  | .pt => address.value >>> 9 &&& 0x7FFFFFF000

theorem maskedOffset_eq (level : Level) (address : VirtualAddress) :
    maskedOffset level address = tableNumber level address * 4096 := by
  cases level with
  | pml4 => exact (Nat.zero_mul 4096).symm
  | pdpt =>
      have mask : 0x1FF000 = (1 <<< 9 - 1) <<< 12 := by decide
      rw [maskedOffset, mask, Word.and_pages, ← Nat.shiftRight_add, tableNumber]
  | pd =>
      have mask : 0x3FFFF000 = (1 <<< 18 - 1) <<< 12 := by decide
      rw [maskedOffset, mask, Word.and_pages, ← Nat.shiftRight_add, tableNumber]
  | pt =>
      have mask : 0x7FFFFFF000 = (1 <<< 27 - 1) <<< 12 := by decide
      rw [maskedOffset, mask, Word.and_pages, ← Nat.shiftRight_add, tableNumber]

theorem add_maskedOffset (level : Level) (address : VirtualAddress) :
    Word.add (window level) (maskedOffset level address) =
      .ok (tableAddress level address).value := by
  rw [maskedOffset_eq, Word.add, ← value_tableAddress,
    if_pos (tableAddress level address).isLt]

theorem isAligned_tableAddress (level : Level) (address : VirtualAddress) :
    (tableAddress level address).IsAligned .small := by
  have aligned : window level % 4096 = 0 := by cases level <;> decide
  unfold Address.IsAligned
  rw [value_tableAddress, PageSize.bytes]
  omega

theorem shiftRight_tableAddress (level : Level) (address : VirtualAddress) :
    (tableAddress level address).value >>> 47 = 1 <<< 17 - 1 := by
  have value := value_tableAddress_eq_pageKey level address
  have high : upperHalf = 0xFFFF000000000000 := rfl
  have bound := (tableAddress level address).pageKey.isLt
  have first := congrArg Fin.val (first_index_tableAddress level address)
  rw [Level.val_index, Level.shift, val_slot, Nat.shiftRight_eq_div_pow] at first
  rw [Nat.shiftRight_eq_div_pow]
  simp only [Nat.reduceShiftLeft] at bound ⊢
  omega

theorem testBit_tableAddress (level : Level) (address : VirtualAddress) {bit : Nat}
    (high : 47 ≤ bit) (within : bit < 64) :
    (tableAddress level address).value.testBit bit = true := by
  have low : bit - 47 < 17 := by omega
  rw [← Nat.add_sub_cancel' high, ← Nat.testBit_shiftRight, shiftRight_tableAddress,
    Nat.one_shiftLeft, Nat.testBit_two_pow_sub_one, decide_eq_true low]

theorem indices_tableAddress (level : Level) (address : VirtualAddress) :
    Level.all.map (fun each => each.index (tableAddress level address)) =
      List.replicate (4 - level.depth) slot ++
        (Level.all.take level.depth).map fun each => each.index address := by
  rw [Level.indices_eq_reverse, leafPath_tableAddress, List.reverse_append,
    List.reverse_replicate, Level.indices_take_depth]

/-! ## The entries of a table -/

theorem exists_entryAddress (level : Level) (address : VirtualAddress) (index : TableIndex) :
    ∃ entryAddress, (tableAddress level address).add (8 * index.val) = .ok entryAddress ∧
      entryAddress.offset .small = 8 * index.val ∧
      entryAddress.leafPath = level.path address ++ List.replicate (4 - level.depth) slot := by
  have aligned := isAligned_tableAddress level address
  have bound := (tableAddress level address).isLt
  have within := index.isLt
  unfold Address.IsAligned at aligned
  simp only [PageSize.bytes] at aligned
  have fits : (tableAddress level address).value + 8 * index.val < 1 <<< 64 := by omega
  refine ⟨⟨_, fits⟩, dif_pos fits, ?_, ?_⟩
  · simp only [Address.offset, PageSize.bytes]
    omega
  · rw [← leafPath_tableAddress, Address.leafPath_eq_iff]
    apply Fin.ext
    simp only [Address.pageKey, Nat.reduceShiftLeft]
    omega

/-- The walk into the window reads no table that the walk it repeats does not read. -/
theorem hasTables_of_isReadableAbove (installed : isInstalled memory root = true)
    (readable : memory.IsReadableAbove root address level)
    (shows : entryAddress.leafPath =
      level.path address ++ List.replicate (4 - level.depth) slot) :
    (Hierarchy.shown root).HasTables memory entryAddress .pt := by
  intro lower _ frame found
  rcases Level.exists_path_of_leafPath shows lower with ⟨upper, turns, higher, path⟩
  rw [path, ← Hierarchy.tableAt_eq_shown (Hierarchy.without root slot),
    Hierarchy.tableAt_append_slot installed, Hierarchy.tableAt_eq_shown,
    Memory.tableAt_path_eq_some] at found
  rcases found with ⟨present, rfl⟩
  -- Of the highest level nothing stands above, but its walk reads the root all the same.
  by_cases above : upper.depth < level.depth
  · exact Memory.hasFrame_of_requireFrame (readable.2 upper above present)
  · cases Level.eq_of_depth_eq (show upper.depth = Level.pml4.depth by
      change upper.depth = 0
      omega)
    exact Memory.hasFrame_of_requireFrame readable.1

theorem translate_entryAddress (installed : isInstalled memory root = true)
    (readable : memory.IsReadableAbove root address level)
    (shows : entryAddress.leafPath =
      level.path address ++ List.replicate (4 - level.depth) slot) :
    memory.translate root entryAddress =
      .ok (((Hierarchy.shown root).tableAt memory (level.path address)).map
        fun table => table.join (entryAddress.offset .small)) := by
  rw [Memory.translate_eq_of_hasTables (Memory.of_requireInside readable.1).1 installed
    entryAddress (hasTables_of_isReadableAbove installed readable shows) shows,
    Hierarchy.tableAt_eq_shown]

theorem add_base_eq_join (table : Frame) (index : TableIndex) :
    table.base.add (8 * index.val) = .ok (table.join (8 * index.val)) := by
  have within := index.isLt
  have bound := table.isLt
  simp only [PageSize.count] at bound
  have fits : table.base.value + 8 * index.val < 1 <<< 64 := by
    simp only [Page.base, PageSize.bytes]
    omega
  rw [Address.add, dif_pos fits]
  congr 1
  apply Address.ext
  simp only [Page.base, Page.join, PageSize.bytes]
  omega

/-- The window shows every table. The address of a table is that of its level's window with
the masked address added, which needs no more than a word; it is a page's and lies in the upper
half. Its indices are those that lead to the table behind as many times the slot as are missing
to four. And under a root that points back at itself the hardware translates the address of each
entry to that entry of the table, provided that every entry above the table is present, and to
nothing otherwise. -/
theorem window_shows_every_table (level : Level) (address : VirtualAddress) :
    (Word.add (window level) (maskedOffset level address) =
        .ok (tableAddress level address).value ∧
      (tableAddress level address).IsAligned .small ∧
      ∀ bit, 47 ≤ bit → bit < 64 → (tableAddress level address).value.testBit bit = true) ∧
    Level.all.map (fun each => each.index (tableAddress level address)) =
      List.replicate (4 - level.depth) slot ++
        (Level.all.take level.depth).map (fun each => each.index address) ∧
    ∀ memory root, isInstalled memory root = true →
      memory.IsReadableAbove root address level → ∀ index : TableIndex, ∃ entryAddress,
        (tableAddress level address).add (8 * index.val) = .ok entryAddress ∧
        (memory.IsPresentAbove root address level → ∃ target,
          (memory.tableOn root address level).base.add (8 * index.val) = .ok target ∧
          memory.translate root entryAddress = .ok (some target)) ∧
        (¬ memory.IsPresentAbove root address level →
          memory.translate root entryAddress = .ok none) := by
  refine ⟨⟨add_maskedOffset level address, isAligned_tableAddress level address,
    fun bit high within => testBit_tableAddress level address high within⟩,
    indices_tableAddress level address, ?_⟩
  intro memory root installed readable index
  rcases exists_entryAddress level address index with ⟨entryAddress, added, offset, shows⟩
  have translated := translate_entryAddress installed readable shows
  refine ⟨entryAddress, added, ?_, ?_⟩
  · intro present
    refine ⟨_, add_base_eq_join _ index, ?_⟩
    rw [translated, Memory.tableAt_path_eq_some.2 ⟨present, rfl⟩, offset]
    rfl
  · intro absent
    rw [translated, Memory.tableAt_path_eq_none.2 absent]
    rfl

/-! ## A root that is shown twice -/

open AddressSpace (foldedMachine freshSpace isInstalled_foldedMachine agreesOutside_foldedMachine
  isOnWalk_foldedMachine absent_foldedMachine)

def foldedAddress : VirtualAddress :=
  tableAddress .pt (.ofNat 0)

theorem isReadableAbove_foldedMachine (level : Level) :
    foldedMachine.memory.IsReadableAbove freshSpace.root foldedAddress level := by
  have addressable : foldedMachine.memory.IsAddressable :=
    agreesOutside_foldedMachine.isAddressable_iff.2 (by decide)
  have root := Memory.requireFrame_eq_ok addressable
    (hasFrame_of_isInstalled isInstalled_foldedMachine)
  refine ⟨root, fun upper _ present => ?_⟩
  have same : foldedMachine.memory.tableOn freshSpace.root foldedAddress upper =
      freshSpace.root :=
    isOnWalk_foldedMachine ⟨upper, Memory.tableAt_path_eq_some.2 ⟨present, rfl⟩⟩
  rw [same]
  exact root

/-- The slot leads back to the root, whose first entry leads nowhere. So the root appears once
more as the table that the first entry of the walk points at, and no table behind it does. -/
theorem foldedMachine_shows_its_root :
    isInstalled foldedMachine.memory freshSpace.root = true ∧
    (∃ entryAddress target,
      (tableAddress .pdpt foldedAddress).add (8 * (3 : TableIndex).val) = .ok entryAddress ∧
      target.value = 0x100018 ∧
      foldedMachine.memory.translate freshSpace.root entryAddress = .ok (some target)) ∧
    ∃ entryAddress,
      (tableAddress .pd foldedAddress).add (8 * (3 : TableIndex).val) = .ok entryAddress ∧
      foldedMachine.memory.translate freshSpace.root entryAddress = .ok none := by
  have installed := isInstalled_foldedMachine
  have steps := steps_of_isInstalled installed
  have first : Level.pml4.index foldedAddress = slot := first_index_tableAddress ..
  have entry : (foldedMachine.memory.entryOn freshSpace.root foldedAddress .pml4).present =
      true := by
    rw [Memory.entryOn, first]
    exact steps.present
  have table : foldedMachine.memory.tableOn freshSpace.root foldedAddress .pdpt =
      freshSpace.root := by
    rw [Memory.tableOn, Memory.nextTable, first]
    exact steps.frame
  refine ⟨installed, ?_, ?_⟩
  · have present : foldedMachine.memory.IsPresentAbove freshSpace.root foldedAddress .pdpt :=
      (Memory.isPresentAbove_next rfl).2 ⟨Memory.isPresentAbove_of_depth_eq_zero rfl, entry⟩
    rcases (window_shows_every_table .pdpt foldedAddress).2.2 _ _ installed
      (isReadableAbove_foldedMachine .pdpt) 3 with ⟨entryAddress, added, shows, _⟩
    rcases shows present with ⟨target, stands, translated⟩
    rw [table, add_base_eq_join] at stands
    cases stands
    exact ⟨entryAddress, _, added, rfl, translated⟩
  · have absent : ¬ foldedMachine.memory.IsPresentAbove freshSpace.root foldedAddress .pd := by
      intro present
      have last := present .pdpt (by decide)
      have second : Level.pdpt.index foldedAddress = 0 := by decide
      rw [Memory.entryOn, table, second, absent_foldedMachine] at last
      cases last
    rcases (window_shows_every_table .pd foldedAddress).2.2 _ _ installed
      (isReadableAbove_foldedMachine .pd) 3 with ⟨entryAddress, added, _, hides⟩
    exact ⟨entryAddress, added, hides absent⟩

end RecursiveMap

end EarlyMemory
