import EarlyMemory.Proofs.Frames.History
import EarlyMemory.Proofs.Paging.Refinement
import EarlyMemory.Proofs.Paging.Attaching

/-!
# The recursive map and direct access are equivalent

With the recursive map installed, mapping a page does the same through it as it does
with the tables at their frames, and reading gives what the walk of the hardware gives.
The tables need not form a tree, and the address may lie in the window of the recursive
map itself. Two runs are followed side by side: every table of the walk is reached by both,
so they ask the source at the same levels and write the same entries.
-/

namespace EarlyMemory

open Memory (AgreesOutside)

/-- Whether an access goes by frames or through the recursive map of this root. -/
def TableAccess.Serves (access : TableAccess) (root : Frame) : Prop :=
  ∀ active, access = .recursive active → active = root

theorem TableAccess.serves_direct (root : Frame) : TableAccess.direct.Serves root := by
  intro active impossible
  cases impossible

theorem TableAccess.serves_recursive (root : Frame) : (TableAccess.recursive root).Serves root := by
  intro active same
  cases same
  rfl

namespace AddressSpace

open Hierarchy (shown)
open Paged (Alike)

variable {root : Frame} {access left right : TableAccess} {memory : Memory}
  {address : VirtualAddress} {level child : Level} {below : List Level} {table frame : Frame}

theorem isServed_of_isInstalled (serves : access.Serves root)
    (installed : RecursiveMap.isInstalled memory root = true) :
    IsServed ⟨root, access⟩ memory := by
  cases access with
  | direct => trivial
  | recursive active => exact ⟨serves active rfl, installed⟩

theorem reach_of_tablesAbove (serves : access.Serves root) (addressable : memory.IsAddressable)
    (installed : RecursiveMap.isInstalled memory root = true)
    (tables : (shown root).HasTablesAbove memory address level)
    (found : (shown root).tableAt memory (level.path address) = some table) :
    access.reach memory level address table = (do memory.requireFrame table; return table) :=
  reach_eq addressable (isServed_of_isInstalled serves installed)
    (.of_shown tables) ((Hierarchy.tableAt_eq_shown ..).trans found)

theorem reach_of_isInstalled (serves : access.Serves root) (addressable : memory.IsAddressable)
    (installed : RecursiveMap.isInstalled memory root = true)
    (tables : (shown root).HasTables memory address level)
    (found : (shown root).tableAt memory (level.path address) = some table) :
    access.reach memory level address table = .ok table :=
  reach_eq_ok addressable (isServed_of_isInstalled serves installed)
    (.of_shown tables) ((Hierarchy.tableAt_eq_shown ..).trans found)

/-- The fresh table is reached before it is cleared. -/
theorem Attaching.reach_linked (attaching : Attaching root memory address level child table frame)
    (serves : access.Serves root) (addressable : memory.IsAddressable)
    (installed : RecursiveMap.isInstalled memory root = true) :
    access.reach (linkedMemory memory address level table frame) child address frame =
      .ok frame := by
  have written := Memory.agreesOutside_setEntry memory table (level.index address) (.table frame)
  exact reach_of_isInstalled serves (written.isAddressable_iff.2 addressable)
    (attaching.isInstalled_linked installed) attaching.hasTables_linked attaching.tableAt_linked

/-! ## Reading -/

theorem queryDown_eq_walkDown (serves : access.Serves root) (addressable : memory.IsAddressable)
    (installed : RecursiveMap.isInstalled memory root = true) (next : level.below = below)
    (tables : (shown root).HasTablesAbove memory address level)
    (found : (shown root).tableAt memory (level.path address) = some table) :
    queryDown ⟨root, access⟩ memory address table (level :: below) =
      memory.walkDown address table (level :: below) := by
  induction below generalizing level table with
  | nil =>
      rw [queryDown, Memory.walkDown,
        reach_of_tablesAbove serves addressable installed tables found]
      cases memory.requireFrame table <;> rfl
  | cons child rest induction =>
      rcases Level.below_eq_cons next with ⟨further, depth, path⟩
      rw [queryDown, Memory.walkDown,
        reach_of_tablesAbove serves addressable installed tables found]
      cases required : memory.requireFrame table with
      | error cause => rfl
      | ok nothing =>
          simp only [bind, Except.bind, pure, Except.pure, List.isEmpty_cons]
          cases present : (memory.entry table (level.index address)).present with
          | false => rfl
          | true =>
              simp only [Bool.not_true, Bool.false_eq_true, if_false]
              refine induction further ?_ ?_
              · intro upper above frame leads
                by_cases same : upper = level
                · rw [same, found] at leads
                  cases leads
                  exact Memory.hasFrame_of_requireFrame required
                · have different : upper.depth ≠ level.depth := same ∘ Level.eq_of_depth_eq
                  exact tables upper (by omega) frame leads
              · rw [path]
                exact Hierarchy.tableAt_cons_eq_some.2 ⟨table, found, present, rfl⟩

/-- Reading gives what the walk of the hardware gives, whichever way tables are reached. -/
theorem query_eq_walk (serves : access.Serves root) (addressable : memory.IsAddressable)
    (installed : RecursiveMap.isInstalled memory root = true) (address : VirtualAddress) :
    query ⟨root, access⟩ memory address = memory.walk root address :=
  queryDown_eq_walkDown serves addressable installed (show Level.pml4.below = _ from rfl)
    (fun _ above => absurd above (Nat.not_lt_zero _)) rfl

theorem translate_eq_translate (serves : access.Serves root) (addressable : memory.IsAddressable)
    (installed : RecursiveMap.isInstalled memory root = true) (address : VirtualAddress) :
    translate ⟨root, access⟩ memory address = memory.translate root address := by
  rw [translate, Memory.translate, query_eq_walk serves addressable installed]

/-! ## Walks with a supply of frames -/

variable {F : Type} [FrameSource F] {supply : Supply F} {before after one other : Paged F}
  {offers rest keeps : Frame → Prop}

/-- The recursive map is installed, the walk for an address stays in the memory, and the
frames of a supply are neither on it nor the supply's own. -/
structure Walkable (root : Frame) (supply : Supply F) (address : VirtualAddress)
    (paged : Paged F) (offers keeps : Frame → Prop) : Prop where
  addressable : paged.memory.IsAddressable
  installed : RecursiveMap.isInstalled paged.memory root = true
  tables : (shown root).HasTables paged.memory address .pt
  supplied : supply.Holds paged.memory paged.source offers keeps
  offered : ∀ frame, offers frame → paged.memory.HasFrame frame ∧ frame.IsLinkable ∧
    ¬ keeps frame ∧ ¬ (shown root).IsOnWalk paged.memory address frame
  kept : ∀ frame, keeps frame → ¬ (shown root).IsOnWalk paged.memory address frame

namespace Walkable

theorem reach (walkable : Walkable root supply address before offers keeps)
    (serves : access.Serves root)
    (found : (shown root).tableAt before.memory (level.path address) = some table) :
    (reachTable ⟨root, access⟩ level address table :
      Operation (Paged F) MapError Frame).run before = (.done table, before) := by
  have reached := reach_of_isInstalled serves walkable.addressable walkable.installed
    (walkable.tables.mono level.depth_le) found
  rw [reachTable, Paged.run_inspect, reached]

theorem of_agrees {touched : Frame → Prop}
    (walkable : Walkable root supply address before offers keeps)
    (agrees : AgreesOutside touched before.memory after.memory)
    (missed : ∀ frame, (shown root).IsOnWalk before.memory address frame → ¬ touched frame)
    (supplied : supply.Holds after.memory after.source rest keeps)
    (fewer : ∀ frame, rest frame → offers frame) :
    Walkable root supply address after rest keeps ∧
      ∀ level : Level, (shown root).tableAt after.memory (level.path address) =
        (shown root).tableAt before.memory (level.path address) := by
  have same : ∀ level : Level, (shown root).tableAt after.memory (level.path address) =
      (shown root).tableAt before.memory (level.path address) := fun level =>
    Hierarchy.tableAt_path_of_agrees agrees level fun upper _ table found =>
      missed table ⟨upper, found⟩
  have sameWalk : ∀ frame, (shown root).IsOnWalk after.memory address frame →
      (shown root).IsOnWalk before.memory address frame := by
    rintro frame ⟨level, found⟩
    exact ⟨level, (same level).symm.trans found⟩
  refine ⟨⟨agrees.isAddressable_iff.2 walkable.addressable, ?_, ?_, supplied, ?_, ?_⟩, same⟩
  · rw [RecursiveMap.isInstalled, RecursiveMap.entryOf, agrees.entry_eq (missed root ⟨.pml4, rfl⟩)]
    exact walkable.installed
  · intro level shallow frame found
    exact (agrees.hasFrame_iff frame).2
      (walkable.tables level shallow frame ((same level).symm.trans found))
  · intro frame left
    rcases walkable.offered frame (fewer frame left) with ⟨inside, linkable, notKept, off⟩
    exact ⟨(agrees.hasFrame_iff frame).2 inside, linkable, notKept, off ∘ sameWalk frame⟩
  · exact fun frame isKept => walkable.kept frame isKept ∘ sameWalk frame

end Walkable

/-! ## Mapping on machines that are alike -/

namespace Walkable

theorem of_alike (walkable : Walkable root supply address one offers keeps)
    (alike : Alike one other) : Walkable root supply address other offers keeps := by
  rcases walkable with ⟨addressable, installed, tables, supplied, offered, kept⟩
  rw [alike.source] at supplied
  rw [alike.memory] at addressable installed tables supplied offered kept
  exact ⟨addressable, installed, tables, supplied, offered, kept⟩

theorem attaching (walkable : Walkable root supply address before offers keeps)
    (next : level.below = child :: below)
    (found : (shown root).tableAt before.memory (level.path address) = some table)
    (absent : (before.memory.entry table (level.index address)).present = false)
    (inside : before.memory.HasFrame frame) (linkable : frame.IsLinkable)
    (off : ¬ (shown root).IsOnWalk before.memory address frame) :
    Attaching root before.memory address level child table frame :=
  ⟨⟨below, next⟩, walkable.tables, found, absent, inside, linkable, off⟩

theorem take {ε : Type} (walkable : Walkable root supply address before offers keeps) :
    ∃ answer after rest,
      (FrameSource.take : Operation (Paged F) ε (Option Frame)).run before =
        (.done answer, after) ∧
      Walkable root supply address after rest keeps ∧
      AgreesOutside keeps before.memory after.memory ∧
      (∀ level : Level, (shown root).tableAt after.memory (level.path address) =
        (shown root).tableAt before.memory (level.path address)) ∧
      ∀ frame, answer = some frame → offers frame ∧ ¬ rest frame := by
  rcases supply.take walkable.supplied with
    ⟨answer, after, rest, ran, agrees, supplied, fewer, handed⟩
  rcases walkable.of_agrees agrees (fun frame onWalk isKept => walkable.kept frame isKept onWalk)
    supplied fewer with ⟨still, same⟩
  exact ⟨answer, after, rest, ran, still, agrees, same, handed⟩

theorem attached (walkable : Walkable root supply address before rest keeps)
    (attaching : Attaching root before.memory address level child table frame)
    (notKept : ¬ keeps frame) (gone : ¬ rest frame) :
    Walkable root supply address
      (linkedPaged ⟨root, access⟩ before address level child table frame) rest keeps := by
  have cleared := Memory.agreesOutside_clearTable
    (linkedMemory before.memory address level table frame) frame
  have agrees : AgreesOutside (fun other => other = table ∨ other = frame) before.memory
      ((linkedMemory before.memory address level table frame).clearTable frame) :=
    ((Memory.agreesOutside_setEntry ..).mono fun _ => .inl).trans (cleared.mono fun _ => .inr)
  have onWalk : ∀ other, (shown root).IsOnWalk
      ((linkedMemory before.memory address level table frame).clearTable frame) address other →
      (shown root).IsOnWalk before.memory address other ∨ other = frame := by
    rintro other ⟨lower, leads⟩
    exact (attaching.of_tableAt_cleared leads).imp_left fun old => ⟨lower, old⟩
  constructor
  all_goals rw [memory_linkedPaged]
  · exact agrees.isAddressable_iff.2 walkable.addressable
  · exact attaching.isInstalled_cleared walkable.installed
  · intro lower _ reached leads
    rw [agrees.hasFrame_iff]
    rcases attaching.of_tableAt_cleared leads with old | rfl
    · exact walkable.tables lower lower.depth_le reached old
    · exact attaching.inside
  · rw [source_linkedPaged]
    refine supply.stable walkable.supplied agrees ?_
    rintro other isKept (rfl | rfl)
    · exact walkable.kept other isKept ⟨level, attaching.found⟩
    · exact notKept isKept
  · intro other left
    rcases walkable.offered other left with ⟨inside, linkable, otherNotKept, off⟩
    refine ⟨(agrees.hasFrame_iff other).2 inside, linkable, otherNotKept, fun leads => ?_⟩
    rcases onWalk other leads with old | rfl
    · exact off old
    · exact gone left
  · intro other isKept leads
    rcases onWalk other leads with old | rfl
    · exact walkable.kept other isKept old
    · exact notKept isKept

end Walkable

inductive Finds (root : Frame) (address : VirtualAddress) (level : Level) (after : Paged F) :
    Outcome MapError Frame → Prop
  | found {table : Frame}
      (leads : (shown root).tableAt after.memory (level.path address) = some table) :
      Finds root address level after (.done table)
  | refused {cause : MapError} : Finds root address level after (.refused cause)

/-- Through both accesses the same table is found or the same level is out of memory. -/
theorem ensureChild_alike (ignores : FrameSource.IgnoresHistory F) (leftServes : left.Serves root)
    (rightServes : right.Serves root) (walkable : Walkable root supply address one offers keeps)
    (alike : Alike one other) (next : level.below = child :: below)
    (found : (shown root).tableAt one.memory (level.path address) = some table) :
    ∃ outcome oneAfter otherAfter rest,
      (ensureChild ⟨root, left⟩ table (level.index address) child address).run one =
        (outcome, oneAfter) ∧
      (ensureChild ⟨root, right⟩ table (level.index address) child address).run other =
        (outcome, otherAfter) ∧
      Alike oneAfter otherAfter ∧ Walkable root supply address oneAfter rest keeps ∧
      Finds root address child oneAfter outcome := by
  have path := (Level.below_eq_cons next).2.2 address
  cases present : (one.memory.entry table (level.index address)).present with
  | true =>
      have leads := Hierarchy.tableAt_cons_eq_some.2 ⟨table, found, present, rfl⟩
      have otherRan : (ensureChild ⟨root, right⟩ table (level.index address) child address).run
          other = (.done (other.memory.entry table (level.index address)).frame, other) :=
        run_ensureChild_of_present (alike.memory ▸ present)
      rw [← alike.memory] at otherRan
      exact ⟨_, one, other, offers, run_ensureChild_of_present present, otherRan, alike, walkable,
        .found (path ▸ leads)⟩
  | false =>
      have otherAbsent := alike.memory ▸ present
      rcases walkable.take (ε := MapError) with
        ⟨answer, asked, rest, taken, still, agrees, same, handed⟩
      rcases (ignores MapError).run alike taken with ⟨otherAsked, otherTaken, askedAlike⟩
      cases answer with
      | none =>
          exact ⟨_, asked, otherAsked, rest, run_ensureChild_of_dry present taken,
            run_ensureChild_of_dry otherAbsent otherTaken, askedAlike, still, .refused⟩
      | some frame =>
          rcases handed frame rfl with ⟨offered, gone⟩
          rcases walkable.offered frame offered with ⟨inside, linkable, notKept, off⟩
          have untouched : ¬ keeps table := fun isKept => walkable.kept table isKept ⟨level, found⟩
          have attaching := still.attaching next ((same level).trans found)
            (by rw [agrees.entry_eq untouched, present]) ((agrees.hasFrame_iff frame).2 inside)
            linkable (by
              rintro ⟨other, leads⟩
              exact off ⟨other, (same other).symm.trans leads⟩)
          have reached := attaching.reach_linked leftServes still.addressable still.installed
          have otherReached := attaching.reach_linked rightServes still.addressable still.installed
          rw [askedAlike.memory] at otherReached
          refine ⟨_, _, _, rest, run_ensureChild present taken reached,
            run_ensureChild otherAbsent otherTaken otherReached, ⟨?_, ?_⟩,
            still.attached attaching notKept gone, .found ?_⟩
          · rw [memory_linkedPaged, memory_linkedPaged, askedAlike.memory]
          · rw [source_linkedPaged, source_linkedPaged, askedAlike.source]
          · rw [memory_linkedPaged]
            exact attaching.tableAt_cleared

theorem descend_alike (ignores : FrameSource.IgnoresHistory F) (leftServes : left.Serves root)
    (rightServes : right.Serves root) (walkable : Walkable root supply address one offers keeps)
    (alike : Alike one other) (next : level.below = below)
    (found : (shown root).tableAt one.memory (level.path address) = some table) :
    ∃ outcome oneAfter otherAfter rest,
      (descend ⟨root, left⟩ address level table below).run one = (outcome, oneAfter) ∧
      (descend ⟨root, right⟩ address level table below).run other = (outcome, otherAfter) ∧
      Alike oneAfter otherAfter ∧ Walkable root supply address oneAfter rest keeps ∧
      Finds root address .pt oneAfter outcome := by
  induction below generalizing level table one other offers with
  | nil =>
      cases Level.eq_pt_of_below_eq_nil next
      exact ⟨_, one, other, offers, Operation.run_pure .., Operation.run_pure .., alike, walkable,
        .found found⟩
  | cons child below induction =>
      have otherWalkable := walkable.of_alike alike
      rw [descend, descend, Operation.run_bind_of_done (walkable.reach leftServes found),
        Operation.run_bind_of_done (otherWalkable.reach rightServes (alike.memory ▸ found))]
      rcases ensureChild_alike ignores leftServes rightServes walkable alike next found with
        ⟨outcome, oneMiddle, otherMiddle, between, ran, otherRan, still, middle, finds⟩
      cases finds with
      | refused =>
          exact ⟨_, oneMiddle, otherMiddle, between, Operation.run_bind_of_refused ran,
            Operation.run_bind_of_refused otherRan, still, middle, .refused⟩
      | found foundChild =>
          rw [Operation.run_bind_of_done ran, Operation.run_bind_of_done otherRan]
          exact induction middle still (Level.below_eq_cons next).1 foundChild

theorem map_alike (ignores : FrameSource.IgnoresHistory F) (leftServes : left.Serves root)
    (rightServes : right.Serves root) (walkable : Walkable root supply address one offers keeps)
    (alike : Alike one other) (target : PhysicalAddress) (rights : Rights) :
    ∃ outcome oneAfter otherAfter,
      (map ⟨root, left⟩ target address rights).run one = (outcome, oneAfter) ∧
      (map ⟨root, right⟩ target address rights).run other = (outcome, otherAfter) ∧
      Alike oneAfter otherAfter ∧ ∀ cause, outcome ≠ .fault cause := by
  rcases descend_alike ignores leftServes rightServes walkable alike
      (show Level.pml4.below = [.pdpt, .pd, .pt] from rfl) rfl with
    ⟨outcome, oneMiddle, otherMiddle, rest, ran, otherRan, still, middle, finds⟩
  cases finds with
  | refused =>
      exact ⟨_, oneMiddle, otherMiddle, run_map_of_refused ran, run_map_of_refused otherRan, still,
        by simp⟩
  | found leads =>
      have otherWalkable := middle.of_alike still
      have mapped := run_map_of_done target rights ran (middle.reach leftServes leads)
      have otherMapped := run_map_of_done target rights otherRan
        (otherWalkable.reach rightServes (still.memory ▸ leads))
      rw [← still.memory] at otherMapped
      cases existing : oneMiddle.memory.presentEntry _ (Level.pt.index address) with
      | some leaf =>
          rw [existing] at mapped otherMapped
          exact ⟨_, oneMiddle, otherMiddle, mapped, otherMapped, still, by simp⟩
      | none =>
          rw [existing] at mapped otherMapped
          refine ⟨_, _, _, mapped, otherMapped, ⟨?_, ?_⟩, by simp⟩
          · rw [memory_filledPaged, memory_filledPaged, still.memory]
          · rw [source_filledPaged, source_filledPaged, still.source]

/-- With the recursive map installed, mapping through it ends as mapping over the tables'
frames does: with the same outcome, which is no fault, the same memory and the same source.
Reading through it gives what the walk of the hardware gives. -/
theorem recursive_map_equals_direct (root : Frame) (supply : Supply F)
    (ignores : FrameSource.IgnoresHistory F) (start : Paged F) (offers keeps : Frame → Prop)
    (fits : start.memory.base.number + start.memory.frames ≤ 1 <<< 40)
    (installed : RecursiveMap.isInstalled start.memory root = true)
    (supplied : supply.Holds start.memory start.source offers keeps) :
    (∀ (target : PhysicalAddress) (address : VirtualAddress) (rights : Rights),
      (shown root).HasTables start.memory address .pt →
      (∀ frame, offers frame → start.memory.HasFrame frame ∧
        ¬ (shown root).IsOnWalk start.memory address frame ∧ ¬ keeps frame) →
      (∀ frame, keeps frame → ¬ (shown root).IsOnWalk start.memory address frame) →
      ∃ outcome through direct,
        (map ⟨root, .recursive root⟩ target address rights).run start = (outcome, through) ∧
        (map ⟨root, .direct⟩ target address rights).run start = (outcome, direct) ∧
        through.memory = direct.memory ∧ through.source = direct.source ∧
        ∀ cause, outcome ≠ .fault cause) ∧
    ∀ address : VirtualAddress,
      query ⟨root, .recursive root⟩ start.memory address = start.memory.walk root address ∧
      translate ⟨root, .recursive root⟩ start.memory address =
        start.memory.translate root address := by
  have addressable : start.memory.IsAddressable := by
    simp only [Memory.IsAddressable, Nat.reduceShiftLeft] at fits ⊢
    omega
  have serves := TableAccess.serves_recursive root
  refine ⟨fun target address rights tables offered kept => ?_, fun address =>
    ⟨query_eq_walk serves addressable installed address,
      translate_eq_translate serves addressable installed address⟩⟩
  have walkable : Walkable root supply address start offers keeps := by
    refine ⟨addressable, installed, tables, supplied, fun frame isOffered => ?_, kept⟩
    rcases offered frame isOffered with ⟨inside, off, notKept⟩
    have below := inside.2
    refine ⟨inside, ?_, notKept, off⟩
    unfold Page.IsLinkable
    omega
  rcases map_alike ignores serves (TableAccess.serves_direct root) walkable (.refl start)
    target rights with ⟨outcome, through, direct, ran, ranDirect, alike, noFault⟩
  exact ⟨outcome, through, direct, ran, ranDirect, alike.memory, alike.source, noFault⟩

/-- The fresh machine with the recursive map installed in its root. -/
def foldedMachine : Paged FramePool :=
  ⟨⟨RecursiveMap.install freshMachine.memory freshSpace.root, []⟩, freshMachine.source⟩

theorem memory_foldedMachine :
    foldedMachine.memory = RecursiveMap.install freshMachine.memory freshSpace.root := by
  rw [foldedMachine, Paged.memory]

theorem agreesOutside_foldedMachine :
    AgreesOutside (· = freshSpace.root) freshMachine.memory foldedMachine.memory := by
  rw [memory_foldedMachine]
  exact RecursiveMap.agreesOutside_install ..

theorem isInstalled_foldedMachine :
    RecursiveMap.isInstalled foldedMachine.memory freshSpace.root = true := by
  rw [memory_foldedMachine]
  exact RecursiveMap.isInstalled_install ⟨by decide, by decide⟩
    (show 0x100 < 1 <<< 40 by decide)

theorem absent_foldedMachine : (foldedMachine.memory.entry freshSpace.root 0).present = false := by
  have other := RecursiveMap.sameButSlot_install freshSpace.root freshMachine.memory
    freshSpace.root 0 (.inr (by decide))
  rw [memory_foldedMachine, other, freshMachine, Paged.memory,
    Memory.entry_of_byteAt_eq_zero fun _ _ => Memory.byteAt_zeroed ..]
  exact PageEntry.present_zero

/-- The walk into the window turns back to the root and finds an absent entry there. -/
theorem isOnWalk_foldedMachine {frame : Frame}
    (onWalk : (shown freshSpace.root).IsOnWalk foldedMachine.memory
      (RecursiveMap.tableAddress .pt ⟨0, by decide⟩) frame) : frame = freshSpace.root := by
  have steps := RecursiveMap.steps_of_isInstalled isInstalled_foldedMachine
  have turned : (shown freshSpace.root).tableAt foldedMachine.memory [RecursiveMap.slot] =
      some freshSpace.root :=
    Hierarchy.tableAt_cons_eq_some.2 ⟨freshSpace.root, rfl, steps.present, steps.frame⟩
  have missing : (shown freshSpace.root).tableAt foldedMachine.memory [0, RecursiveMap.slot] =
      none := by
    rw [Hierarchy.tableAt_cons_of_some turned, Memory.presentEntry_eq_none absent_foldedMachine,
      Option.map_none]
  rcases onWalk with ⟨level, found⟩
  cases level with
  | pml4 => exact (Option.some.inj found).symm
  | pdpt => exact Option.some.inj (found.symm.trans turned)
  | pd => cases found.symm.trans missing
  | pt => cases found.symm.trans (Hierarchy.tableAt_cons_of_none missing)

theorem foldedMachine_maps_in_window :
    ∃ outcome through direct,
      (map ⟨freshSpace.root, .recursive freshSpace.root⟩ ⟨0x200000, by decide⟩
        (RecursiveMap.tableAddress .pt ⟨0, by decide⟩) .readWrite).run foldedMachine =
          (outcome, through) ∧
      (map ⟨freshSpace.root, .direct⟩ ⟨0x200000, by decide⟩
        (RecursiveMap.tableAddress .pt ⟨0, by decide⟩) .readWrite).run foldedMachine =
          (outcome, direct) ∧
      through.memory = direct.memory ∧ through.source = direct.source ∧
      ∀ cause, outcome ≠ .fault cause := by
  have fits : foldedMachine.memory.base.number + foldedMachine.memory.frames ≤ 1 <<< 40 := by
    rw [agreesOutside_foldedMachine.base, agreesOutside_foldedMachine.frames]
    decide
  refine (recursive_map_equals_direct freshSpace.root FramePool.records.supply
    FramePool.ignoresHistory foldedMachine freshMachine.source.Offers (fun _ => False) fits
    isInstalled_foldedMachine
    ⟨show 0x101 + 15 < 1 <<< 52 by decide, fun _ => Iff.rfl, fun _ => id⟩).1
    ⟨0x200000, by decide⟩ _ .readWrite ?_ ?_ (fun _ impossible => impossible.elim)
  · intro level _ frame found
    rw [isOnWalk_foldedMachine ⟨level, found⟩]
    exact RecursiveMap.hasFrame_of_isInstalled isInstalled_foldedMachine
  · rintro frame ⟨above, below⟩
    simp only [freshMachine] at above below
    refine ⟨(agreesOutside_foldedMachine.hasFrame_iff frame).2 ⟨?_, ?_⟩, fun onWalk => ?_, id⟩
    · change 0x100 ≤ frame.number
      omega
    · change frame.number < 0x100 + 16
      omega
    · rw [isOnWalk_foldedMachine onWalk] at above
      exact absurd above (by decide)

end AddressSpace

end EarlyMemory
