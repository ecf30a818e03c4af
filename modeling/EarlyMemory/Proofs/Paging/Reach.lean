import EarlyMemory.Proofs.Paging.Growth
import EarlyMemory.Paging.AddressSpace

/-!
# Reaching the tables of an address

The levels of an address give the path of each table on its walk. Whichever way
tables are accessed, the access to a table on the walk finds that very table:
directly because the frame is known, through the recursive map because the slot
makes the walk land one level higher for each time it is taken. Reading and the
walk of the hardware then both give the entry at the end of the path.
-/

namespace EarlyMemory

namespace Level

/-- The number of tables above this level's. -/
def depth : Level → Nat
  | .pml4 => 0
  | .pdpt => 1
  | .pd => 2
  | .pt => 3

def below : Level → List Level
  | .pml4 => [.pdpt, .pd, .pt]
  | .pdpt => [.pd, .pt]
  | .pd => [.pt]
  | .pt => []

/-- The path of the table of a level on the walk for an address. -/
def path (level : Level) (address : VirtualAddress) : TablePath :=
  match level with
  | .pml4 => []
  | .pdpt => [Level.pml4.index address]
  | .pd => [Level.pdpt.index address, Level.pml4.index address]
  | .pt => [Level.pd.index address, Level.pdpt.index address, Level.pml4.index address]

@[simp] theorem length_path (level : Level) (address : VirtualAddress) :
    (level.path address).length = level.depth := by
  cases level <;> rfl

theorem depth_le (level : Level) : level.depth ≤ Level.pt.depth := by
  cases level <;> decide

theorem length_path_le (level : Level) {address : VirtualAddress} :
    (level.path address).length ≤ 3 := by
  rw [length_path]
  exact level.depth_le

theorem exists_of_depth {depth : Nat} (shallow : depth ≤ Level.pt.depth) :
    ∃ level : Level, level.depth = depth := by
  match depth, shallow with
  | 0, _ => exact ⟨.pml4, rfl⟩
  | 1, _ => exact ⟨.pdpt, rfl⟩
  | 2, _ => exact ⟨.pd, rfl⟩
  | 3, _ => exact ⟨.pt, rfl⟩

theorem exists_above {level : Level} {count : Nat} (depth : level.depth = count + 1) :
    ∃ upper : Level, upper.depth = count ∧ upper.below = level :: level.below ∧
      ∀ address, level.path address = upper.index address :: upper.path address := by
  cases level with
  | pml4 => cases depth
  | pdpt => exact ⟨.pml4, Nat.succ.inj depth, rfl, fun _ => rfl⟩
  | pd => exact ⟨.pdpt, Nat.succ.inj depth, rfl, fun _ => rfl⟩
  | pt => exact ⟨.pd, Nat.succ.inj depth, rfl, fun _ => rfl⟩

theorem eq_of_depth_eq {left right : Level} (same : left.depth = right.depth) : left = right := by
  cases left <;> cases right <;> first | rfl | cases same

theorem below_eq_cons {level child : Level} {rest : List Level}
    (next : level.below = child :: rest) :
    child.below = rest ∧ child.depth = level.depth + 1 ∧
      ∀ address, child.path address = level.index address :: level.path address := by
  cases level <;> cases next <;> exact ⟨rfl, rfl, fun _ => rfl⟩

theorem eq_pt_of_below_eq_nil {level : Level} (last : level.below = []) : level = .pt := by
  cases level <;> first | rfl | cases last

theorem depth_lt_of_ne_pt {level : Level} (other : level ≠ .pt) : level.depth < Level.pt.depth := by
  cases level <;> first | decide | exact absurd rfl other

theorem depth_lt_of_ne_pml4 {level : Level} (other : level ≠ .pml4) :
    Level.pml4.depth < level.depth := by
  cases level <;> first | decide | exact absurd rfl other

end Level

def Address.leafPath (address : VirtualAddress) : TablePath :=
  Level.pt.index address :: Level.pt.path address

@[simp] theorem Address.length_leafPath (address : VirtualAddress) :
    address.leafPath.length = 4 :=
  rfl

theorem Level.path_suffix_leafPath (level : Level) (address : VirtualAddress) :
    level.path address <:+ address.leafPath := by
  have next : ∀ (index : TableIndex) (path : TablePath), path <:+ index :: path := List.suffix_cons
  cases level with
  | pml4 => exact List.nil_suffix
  | pdpt => exact ((next _ _).trans (next _ _)).trans (next _ _)
  | pd => exact (next _ _).trans (next _ _)
  | pt => exact next _ _

namespace Hierarchy

variable {hierarchy : Hierarchy} {memory : Memory} {address : VirtualAddress}

/-- Whether the walk for an address starts at a slot that is the hierarchy's own. -/
def Leads (hierarchy : Hierarchy) (address : VirtualAddress) : Prop :=
  hierarchy.hidden ≠ some (Level.pml4.index address)

theorem Leads.owns_path (leads : hierarchy.Leads address) (level : Level) :
    hierarchy.Owns (level.path address) := by
  have first : hierarchy.Owns [Level.pml4.index address] := by
    intro last isLast
    cases isLast
    exact leads
  cases level with
  | pml4 => exact owns_nil
  | pdpt => exact first
  | pd => exact first.cons (by simp)
  | pt => exact (first.cons (by simp)).cons (by simp)

theorem Leads.isTable {level : Level} {table : Frame} (leads : hierarchy.Leads address)
    (found : hierarchy.tableAt memory (level.path address) = some table) :
    hierarchy.IsTable memory table :=
  ⟨level.path address, level.length_path_le, leads.owns_path level, found⟩

theorem Leads.owns_leafPath (leads : hierarchy.Leads address) :
    hierarchy.Owns address.leafPath :=
  (leads.owns_path .pt).cons (by simp [Level.path])

theorem Leads.owns_next (leads : hierarchy.Leads address) (level : Level) :
    hierarchy.Owns (level.index address :: level.path address) := by
  cases level with
  | pml4 => exact leads.owns_path .pdpt
  | pdpt => exact leads.owns_path .pd
  | pd => exact leads.owns_path .pt
  | pt => exact leads.owns_leafPath

def HasTables (hierarchy : Hierarchy) (memory : Memory) (address : VirtualAddress)
    (lowest : Level) : Prop :=
  ∀ level : Level, level.depth ≤ lowest.depth → ∀ frame,
    hierarchy.tableAt memory (level.path address) = some frame → memory.HasFrame frame

theorem HasTables.mono {lower upper : Level} (tables : hierarchy.HasTables memory address lower)
    (higher : upper.depth ≤ lower.depth) : hierarchy.HasTables memory address upper :=
  fun level shallow => tables level (Nat.le_trans shallow higher)

def HasTablesAbove (hierarchy : Hierarchy) (memory : Memory) (address : VirtualAddress)
    (level : Level) : Prop :=
  ∀ upper : Level, upper.depth < level.depth → ∀ frame,
    hierarchy.tableAt memory (upper.path address) = some frame → memory.HasFrame frame

theorem HasTables.above {lowest level : Level} (tables : hierarchy.HasTables memory address lowest)
    (higher : level.depth ≤ lowest.depth) : hierarchy.HasTablesAbove memory address level :=
  fun upper above => tables upper (by omega)

theorem IsTree.hasTables (tree : hierarchy.IsTree memory) (leads : hierarchy.Leads address)
    (lowest : Level) : hierarchy.HasTables memory address lowest := by
  intro level _ frame found
  exact tree.inside frame (leads.isTable found)

theorem tableAt_pt_of_none {level : Level}
    (missing : hierarchy.tableAt memory (level.path address) = none) :
    hierarchy.tableAt memory (Level.pt.path address) = none := by
  cases level with
  | pml4 => cases missing
  | pdpt => exact tableAt_cons_of_none (tableAt_cons_of_none missing)
  | pd => exact tableAt_cons_of_none missing
  | pt => exact missing

theorem entryAt_leafPath_of_none {level : Level}
    (missing : hierarchy.tableAt memory (level.path address) = none) :
    hierarchy.entryAt memory address.leafPath = none :=
  entryAt_cons_of_none (tableAt_pt_of_none missing)

/-- Whatever takes the walk's steps over the hierarchy's tables finds the entry at the
end of the path. -/
theorem followed_eq {down : Frame → List Level → Except Fault (Option PageEntry)}
    (step : ∀ level frame rest, hierarchy.tableAt memory (level.path address) = some frame →
      down frame (level :: rest) =
        if !(memory.entry frame (level.index address)).present then .ok none
        else if rest.isEmpty then .ok (some (memory.entry frame (level.index address)))
        else down (memory.entry frame (level.index address)).frame rest)
    {level : Level} {rest : List Level} (below : level.below = rest) {frame : Frame}
    (found : hierarchy.tableAt memory (level.path address) = some frame) :
    down frame (level :: rest) = .ok (hierarchy.entryAt memory address.leafPath) := by
  induction rest generalizing level frame with
  | nil =>
      cases Level.eq_pt_of_below_eq_nil below
      rw [step _ _ _ found, Address.leafPath, entryAt_cons_of_some found, Memory.presentEntry]
      cases (memory.entry frame (Level.pt.index address)).present <;> simp
  | cons child rest induction =>
      rcases Level.below_eq_cons below with ⟨further, _, path⟩
      rw [step _ _ _ found]
      cases present : (memory.entry frame (level.index address)).present with
      | false =>
          have missing : hierarchy.tableAt memory (child.path address) = none := by
            rw [path, tableAt_cons_of_some found, Memory.presentEntry_eq_none present,
              Option.map_none]
          simp [entryAt_leafPath_of_none missing]
      | true =>
          have next : hierarchy.tableAt memory (child.path address) =
              some (memory.entry frame (level.index address)).frame := by
            rw [path]
            exact tableAt_cons_eq_some.2 ⟨frame, found, present, rfl⟩
          simpa using induction further next

end Hierarchy

/-! ## Steps of a walk -/

namespace Memory

variable {memory : Memory} {address : VirtualAddress}

/-- A table in the memory has a present entry that points at the next frame. -/
structure Steps (memory : Memory) (table : Frame) (index : TableIndex) (next : Frame) : Prop where
  inside : memory.HasFrame table
  present : (memory.entry table index).present = true
  frame : (memory.entry table index).frame = next

theorem walkDown_of_steps (addressable : memory.IsAddressable) {table next : Frame}
    {level child : Level} {rest : List Level}
    (steps : memory.Steps table (level.index address) next) :
    memory.walkDown address table (level :: child :: rest) =
      memory.walkDown address next (child :: rest) := by
  rw [walkDown, requireFrame_eq_ok addressable steps.inside]
  simp only [bind, Except.bind, steps.present, steps.frame, Bool.not_true, Bool.false_eq_true,
    if_false, List.isEmpty_cons]

theorem walkDown_last_of_steps (addressable : memory.IsAddressable) {table next : Frame}
    {level : Level} (steps : memory.Steps table (level.index address) next) :
    memory.walkDown address table [level] =
      .ok (some (memory.entry table (level.index address))) := by
  rw [walkDown, requireFrame_eq_ok addressable steps.inside]
  simp only [bind, Except.bind, pure, Except.pure, steps.present, Bool.not_true,
    Bool.false_eq_true, if_false, List.isEmpty_nil, if_true]

theorem resolve_of_steps (addressable : memory.IsAddressable)
    {root first second third last : Frame}
    (one : memory.Steps root (Level.pml4.index address) first)
    (two : memory.Steps first (Level.pdpt.index address) second)
    (three : memory.Steps second (Level.pd.index address) third)
    (four : memory.Steps third (Level.pt.index address) last) :
    memory.resolve root address = .ok (last.join (address.offset .small)) := by
  have walked : memory.walk root address =
      .ok (some (memory.entry third (Level.pt.index address))) := by
    rw [walk, Level.all, walkDown_of_steps addressable one, walkDown_of_steps addressable two,
      walkDown_of_steps addressable three, walkDown_last_of_steps addressable four]
  have translated : memory.translate root address =
      .ok (some (last.join (address.offset .small))) := by
    rw [translate, walked, ← four.frame]
    exact congrArg Except.ok (Option.map_some ..)
  rw [resolve, translated]
  rfl

end Memory

theorem Hierarchy.steps_of_tableAt {hierarchy : Hierarchy} {memory : Memory} {index : TableIndex}
    {above : TablePath} {table next : Frame}
    (parent : hierarchy.tableAt memory above = some table) (inside : memory.HasFrame table)
    (found : hierarchy.tableAt memory (index :: above) = some next) :
    memory.Steps table index next := by
  rcases Hierarchy.tableAt_cons_eq_some.1 found with ⟨same, alsoParent, present, frame⟩
  rw [parent] at alsoParent
  cases alsoParent
  exact ⟨inside, present, frame⟩

/-! ## Through the recursive map -/

theorem Level.val_index (level : Level) (address : VirtualAddress) :
    (level.index address).val = address.value >>> level.shift % 512 :=
  rfl

theorem Page.page_join {space : Space} {size : PageSize} (page : Page space size) (offset : Nat) :
    (page.join offset).page size = page := by
  apply Page.ext
  cases size <;> simp only [Address.page, Page.join, PageSize.bytes] <;> omega

namespace RecursiveMap

theorem value_tableAddress (level : Level) (address : VirtualAddress) :
    (tableAddress level address).value = window level + tableNumber level address * 4096 :=
  rfl

theorem val_slot : slot.val = 510 :=
  rfl

theorem index_tableAddress_pml4 (address : VirtualAddress) :
    Level.pml4.index (tableAddress .pml4 address) = slot ∧
      Level.pdpt.index (tableAddress .pml4 address) = slot ∧
      Level.pd.index (tableAddress .pml4 address) = slot ∧
      Level.pt.index (tableAddress .pml4 address) = slot := by
  have start : window .pml4 = 0xFFFFFF7FBFDFE000 := by decide
  refine ⟨Fin.ext ?_, Fin.ext ?_, Fin.ext ?_, Fin.ext ?_⟩ <;>
    simp only [Level.val_index, Level.shift, value_tableAddress, start, tableNumber, val_slot] <;>
    decide

theorem index_tableAddress_pdpt (address : VirtualAddress) :
    Level.pml4.index (tableAddress .pdpt address) = slot ∧
      Level.pdpt.index (tableAddress .pdpt address) = slot ∧
      Level.pd.index (tableAddress .pdpt address) = slot ∧
      Level.pt.index (tableAddress .pdpt address) = Level.pml4.index address := by
  have start : window .pdpt = 0xFFFFFF7FBFC00000 := by decide
  refine ⟨Fin.ext ?_, Fin.ext ?_, Fin.ext ?_, Fin.ext ?_⟩ <;>
    simp only [Level.val_index, Level.shift, value_tableAddress, start, tableNumber, val_slot,
      Nat.reduceShiftLeft] <;>
    omega

theorem index_tableAddress_pd (address : VirtualAddress) :
    Level.pml4.index (tableAddress .pd address) = slot ∧
      Level.pdpt.index (tableAddress .pd address) = slot ∧
      Level.pd.index (tableAddress .pd address) = Level.pml4.index address ∧
      Level.pt.index (tableAddress .pd address) = Level.pdpt.index address := by
  have start : window .pd = 0xFFFFFF7F80000000 := by decide
  refine ⟨Fin.ext ?_, Fin.ext ?_, Fin.ext ?_, Fin.ext ?_⟩ <;>
    simp only [Level.val_index, Level.shift, value_tableAddress, start, tableNumber, val_slot,
      Nat.reduceShiftLeft] <;>
    omega

theorem index_tableAddress_pt (address : VirtualAddress) :
    Level.pml4.index (tableAddress .pt address) = slot ∧
      Level.pdpt.index (tableAddress .pt address) = Level.pml4.index address ∧
      Level.pd.index (tableAddress .pt address) = Level.pdpt.index address ∧
      Level.pt.index (tableAddress .pt address) = Level.pd.index address := by
  have start : window .pt = 0xFFFFFF0000000000 := by decide
  refine ⟨Fin.ext ?_, Fin.ext ?_, Fin.ext ?_, Fin.ext ?_⟩ <;>
    simp only [Level.val_index, Level.shift, value_tableAddress, start, tableNumber, val_slot,
      Nat.reduceShiftLeft] <;>
    omega

theorem first_index_tableAddress (level : Level) (address : VirtualAddress) :
    Level.pml4.index (tableAddress level address) = slot := by
  cases level with
  | pml4 => exact (index_tableAddress_pml4 address).1
  | pdpt => exact (index_tableAddress_pdpt address).1
  | pd => exact (index_tableAddress_pd address).1
  | pt => exact (index_tableAddress_pt address).1

variable {memory : Memory} {root : Frame}

theorem hasFrame_of_isInstalled (installed : isInstalled memory root = true) :
    memory.HasFrame root := by
  refine Classical.byContradiction fun outside => ?_
  have nothing : entryOf memory root = .zero := by
    apply Memory.entry_of_byteAt_eq_zero
    intro offset within
    refine dif_neg fun contained => outside ?_
    have below := contained.2
    have above := contained.1
    rw [Memory.sized] at below
    unfold Memory.HasFrame
    unfold Memory.start at above below
    omega
  rw [isInstalled, nothing] at installed
  simp at installed

theorem steps_of_isInstalled (installed : isInstalled memory root = true) :
    memory.Steps root slot root := by
  have inside := hasFrame_of_isInstalled installed
  simp only [isInstalled, entryOf, Bool.and_eq_true, beq_iff_eq] at installed
  exact ⟨inside, installed.1, installed.2⟩

/-- Each time a walk takes the slot it stays at the root, so what is left of it
ends that many levels higher. -/
theorem resolve_tableAddress {hierarchy : Hierarchy} {address : VirtualAddress} {level : Level}
    {frame : Frame} (addressable : memory.IsAddressable)
    (installed : isInstalled memory hierarchy.root = true)
    (tables : hierarchy.HasTablesAbove memory address level)
    (found : hierarchy.tableAt memory (level.path address) = some frame) :
    memory.resolve hierarchy.root (tableAddress level address) =
      .ok (frame.join ((tableAddress level address).offset .small)) := by
  have rootInside := hasFrame_of_isInstalled installed
  have turn := steps_of_isInstalled installed
  cases level with
  | pml4 =>
      rcases index_tableAddress_pml4 address with ⟨one, two, three, four⟩
      cases found
      exact Memory.resolve_of_steps addressable (one ▸ turn) (two ▸ turn) (three ▸ turn)
        (four ▸ turn)
  | pdpt =>
      rcases index_tableAddress_pdpt address with ⟨one, two, three, four⟩
      have down := Hierarchy.steps_of_tableAt rfl rootInside found
      exact Memory.resolve_of_steps addressable (one ▸ turn) (two ▸ turn) (three ▸ turn)
        (four ▸ down)
  | pd =>
      rcases index_tableAddress_pd address with ⟨one, two, three, four⟩
      rcases Hierarchy.tableAt_cons_eq_some.1 found with ⟨pdpt, pdptFound, _, _⟩
      have down := Hierarchy.steps_of_tableAt rfl rootInside pdptFound
      have further := Hierarchy.steps_of_tableAt pdptFound
        (tables .pdpt (by decide) pdpt pdptFound) found
      exact Memory.resolve_of_steps addressable (one ▸ turn) (two ▸ turn) (three ▸ down)
        (four ▸ further)
  | pt =>
      rcases index_tableAddress_pt address with ⟨one, two, three, four⟩
      rcases Hierarchy.tableAt_cons_eq_some.1 found with ⟨pd, pdFound, _, _⟩
      rcases Hierarchy.tableAt_cons_eq_some.1 pdFound with ⟨pdpt, pdptFound, _, _⟩
      have down := Hierarchy.steps_of_tableAt rfl rootInside pdptFound
      have further := Hierarchy.steps_of_tableAt pdptFound
        (tables .pdpt (by decide) pdpt pdptFound) pdFound
      have last := Hierarchy.steps_of_tableAt pdFound (tables .pd (by decide) pd pdFound) found
      exact Memory.resolve_of_steps addressable (one ▸ turn) (two ▸ down) (three ▸ further)
        (four ▸ last)

end RecursiveMap

/-! ## Through an address space -/

/-- The slot of the root that the access itself goes through. -/
def TableAccess.hiddenSlot : TableAccess → Option TableIndex
  | .direct => none
  | .recursive _ => some RecursiveMap.slot

namespace AddressSpace

def hierarchy (space : AddressSpace) : Hierarchy :=
  ⟨space.root, space.access.hiddenSlot⟩

@[simp] theorem root_hierarchy (space : AddressSpace) : space.hierarchy.root = space.root :=
  rfl

/-- What the access relies on: a recursive map is the space's own and installed. -/
def IsServed (space : AddressSpace) (memory : Memory) : Prop :=
  match space.access with
  | .direct => True
  | .recursive active =>
      active = space.root ∧ RecursiveMap.isInstalled memory space.root = true

variable {space : AddressSpace} {memory : Memory} {address : VirtualAddress} {level : Level}
  {frame : Frame}

/-- An access to a table on the walk finds that very table or faults as the table does. -/
theorem reach_eq (addressable : memory.IsAddressable) (served : space.IsServed memory)
    (tables : space.hierarchy.HasTablesAbove memory address level)
    (found : space.hierarchy.tableAt memory (level.path address) = some frame) :
    space.access.reach memory level address frame =
      (do memory.requireFrame frame; return frame) := by
  unfold IsServed at served
  cases kind : space.access with
  | direct => rfl
  | recursive active =>
      rw [kind] at served
      rcases served with ⟨rfl, installed⟩
      rw [← root_hierarchy] at installed
      have resolved := RecursiveMap.resolve_tableAddress addressable installed tables found
      rw [root_hierarchy] at resolved
      simp only [TableAccess.reach, bind, Except.bind, resolved, Page.page_join]

theorem reach_eq_ok (addressable : memory.IsAddressable) (served : space.IsServed memory)
    (tables : space.hierarchy.HasTables memory address level)
    (found : space.hierarchy.tableAt memory (level.path address) = some frame) :
    space.access.reach memory level address frame = .ok frame := by
  have inside := tables level (Nat.le_refl _) frame found
  rw [reach_eq addressable served (tables.above (Nat.le_refl _)) found,
    Memory.requireFrame_eq_ok addressable inside]
  rfl

theorem query_eq (addressable : memory.IsAddressable) (served : space.IsServed memory)
    (tables : space.hierarchy.HasTables memory address .pt) :
    space.query memory address = .ok (space.hierarchy.entryAt memory address.leafPath) := by
  refine Hierarchy.followed_eq ?_ rfl rfl
  intro level frame rest found
  have reached := reach_eq_ok addressable served (tables.mono level.depth_le) found
  simp only [queryDown, reached, bind, Except.bind, pure, Except.pure]

theorem translate_eq (addressable : memory.IsAddressable) (served : space.IsServed memory)
    (tables : space.hierarchy.HasTables memory address .pt) :
    space.translate memory address =
      .ok ((space.hierarchy.entryAt memory address.leafPath).map fun leaf =>
        leaf.frame.join (address.offset .small)) := by
  rw [translate, query_eq addressable served tables]
  rfl

theorem IsServed.of_entry_eq {after : Memory} (served : space.IsServed memory)
    (same : ∀ active, space.access = .recursive active →
      after.entry space.root RecursiveMap.slot = memory.entry space.root RecursiveMap.slot) :
    space.IsServed after := by
  unfold IsServed at served ⊢
  cases kind : space.access with
  | direct => trivial
  | recursive active =>
      rw [kind] at served
      refine ⟨served.1, ?_⟩
      rw [RecursiveMap.isInstalled, RecursiveMap.entryOf, same active kind]
      exact served.2

end AddressSpace

/-- The walk of the hardware finds the same entry that reading does. -/
theorem Hierarchy.walk_eq {hierarchy : Hierarchy} {memory : Memory} {address : VirtualAddress}
    (addressable : memory.IsAddressable) (tables : hierarchy.HasTables memory address .pt) :
    memory.walk hierarchy.root address = .ok (hierarchy.entryAt memory address.leafPath) := by
  refine Hierarchy.followed_eq ?_ rfl rfl
  intro level frame rest found
  have inside := Memory.requireFrame_eq_ok addressable (tables level level.depth_le frame found)
  rw [Memory.walkDown, inside]
  rfl

theorem Memory.translate_of_walk {memory : Memory} {root : Frame} {address : VirtualAddress}
    {leaf : Option PageEntry} (walked : memory.walk root address = .ok leaf) :
    memory.translate root address =
      .ok (leaf.map fun leaf => leaf.frame.join (address.offset .small)) := by
  rw [translate, walked]
  rfl

theorem Hierarchy.resolve_eq {hierarchy : Hierarchy} {memory : Memory} {address : VirtualAddress}
    {leaf : PageEntry} (addressable : memory.IsAddressable)
    (tables : hierarchy.HasTables memory address .pt)
    (found : hierarchy.entryAt memory address.leafPath = some leaf) :
    memory.resolve hierarchy.root address = .ok (leaf.frame.join (address.offset .small)) := by
  have walked := walk_eq addressable tables
  rw [found] at walked
  rw [Memory.resolve, Memory.translate, walked]
  rfl

end EarlyMemory
