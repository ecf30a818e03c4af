import EarlyMemory.Proofs.Frames.Asking
import EarlyMemory.Proofs.Paging.Attaching
import EarlyMemory.Proofs.Paging.NewTables

/-!
# Laying tables

The way down a walk reads as far as there are tables. From the first one that is missing on it
asks for a frame a level, and the frames hang one in the other: each is empty but for the
entry that leads on. The tables need not form a tree and the memory may hold anything: a
fresh table is cleared once it is linked, so nothing of what its frame held can be met.
-/

namespace EarlyMemory.AddressSpace

open Hierarchy (shown)
open Memory (AgreesOutside)
open FrameSource (Asks)

variable {root : Frame} {memory : Memory} {address : VirtualAddress} {level child : Level}
  {below : List Level} {table frame : Frame} {frames : List Frame} {last : PageEntry}

/-! ## Tables that hang one in the other -/

/-- From an entry of a table on, tables hang one in the other. Each of them is empty but for
the entry that leads on, and the entry that the last one has there is given. -/
inductive Hangs (memory : Memory) (address : VirtualAddress) (last : PageEntry) :
    Level → Frame → List Frame → Prop
  | nil {level : Level} {table : Frame} (entry : memory.entry table (level.index address) = last) :
      Hangs memory address last level table []
  | cons {level child : Level} {below : List Level} {table frame : Frame} {frames : List Frame}
      (next : level.below = child :: below)
      (entry : memory.entry table (level.index address) = .table frame)
      (empty : ∀ index, index ≠ child.index address → memory.entry frame index = .zero)
      (further : Hangs memory address last child frame frames) :
      Hangs memory address last level table (frame :: frames)

def lowest (table : Frame) : List Frame → Frame
  | [] => table
  | frame :: frames => lowest frame frames

theorem lowest_mem : lowest table frames ∈ table :: frames := by
  induction frames generalizing table with
  | nil => exact List.mem_singleton_self table
  | cons frame frames induction => exact List.mem_cons_of_mem table induction

namespace Hangs

theorem entry_lowest (hangs : Hangs memory address last level table frames)
    (enough : frames.length = level.below.length) :
    memory.entry (lowest table frames) (Level.pt.index address) = last := by
  induction hangs with
  | nil entry =>
      cases Level.eq_pt_of_below_eq_nil (List.eq_nil_of_length_eq_zero enough.symm)
      exact entry
  | cons next _ _ _ induction =>
      rw [next] at enough
      exact induction ((Level.below_eq_cons next).1 ▸ Nat.succ.inj enough)

theorem tableAt_child (next : level.below = child :: below)
    (entry : memory.entry table (level.index address) = .table frame) (linkable : frame.IsLinkable)
    (found : (shown root).tableAt memory (level.path address) = some table) :
    (shown root).tableAt memory (child.path address) = some frame := by
  rw [(Level.below_eq_cons next).2.2]
  refine Hierarchy.tableAt_cons_eq_some.2 ⟨_, found, ?_, ?_⟩
  · rw [entry, PageEntry.present_table]
  · rw [entry, PageEntry.frame_table linkable]

theorem isOnWalk (hangs : Hangs memory address last level table frames)
    (linkable : ∀ frame ∈ frames, frame.IsLinkable)
    (found : (shown root).tableAt memory (level.path address) = some table) :
    ∀ frame ∈ frames, (shown root).IsOnWalk memory address frame := by
  induction hangs with
  | nil => simp
  | @cons _ child _ _ _ _ next entry _ _ induction =>
      have foundChild := tableAt_child next entry (linkable _ List.mem_cons_self) found
      rintro frame (_ | ⟨_, member⟩)
      · exact ⟨child, foundChild⟩
      · exact induction (fun frame member => linkable frame (List.mem_cons_of_mem _ member))
          foundChild frame member

theorem exists_tableAt (hangs : Hangs memory address last level table frames)
    (linkable : ∀ frame ∈ frames, frame.IsLinkable)
    (found : (shown root).tableAt memory (level.path address) = some table) :
    ∃ lower : Level, lower.below = level.below.drop frames.length ∧
      (shown root).tableAt memory (lower.path address) = some (lowest table frames) ∧
      memory.entry (lowest table frames) (lower.index address) = last := by
  induction hangs with
  | nil entry => exact ⟨_, rfl, found, entry⟩
  | cons next entry _ _ induction =>
      have foundChild := tableAt_child next entry (linkable _ List.mem_cons_self) found
      rcases induction (fun frame member => linkable frame (List.mem_cons_of_mem _ member))
        foundChild with ⟨lower, rest, leads, isLast⟩
      refine ⟨lower, ?_, leads, isLast⟩
      rw [rest, (Level.below_eq_cons next).1, next, List.length_cons, List.drop_succ_cons]

theorem mem_of_tableAt (hangs : Hangs memory address last level table frames)
    (linkable : ∀ frame ∈ frames, frame.IsLinkable)
    (found : (shown root).tableAt memory (level.path address) = some table)
    (ends : last.present = false ∨ frames.length = level.below.length) {lower : Level}
    (deeper : level.depth < lower.depth)
    (leads : (shown root).tableAt memory (lower.path address) = some frame) : frame ∈ frames := by
  induction hangs with
  | nil entry =>
      rcases ends with absent | enough
      · rw [Hierarchy.tableAt_of_absent found (entry ▸ absent) deeper] at leads
        cases leads
      · cases Level.eq_pt_of_below_eq_nil (List.eq_nil_of_length_eq_zero enough.symm)
        exact absurd lower.depth_le (Nat.not_le.2 deeper)
  | @cons level child below table top frames next entry _ _ induction =>
      have further := Level.below_eq_cons next
      have foundChild := tableAt_child next entry (linkable _ List.mem_cons_self) found
      by_cases same : lower = child
      · rw [same, foundChild] at leads
        exact Option.some.inj leads ▸ List.mem_cons_self
      · have different : lower.depth ≠ child.depth := same ∘ Level.eq_of_depth_eq
        have depth := further.2.1
        rw [next, List.length_cons, List.length_cons, Nat.succ_inj, ← further.1] at ends
        refine List.mem_cons_of_mem top (induction ?_ foundChild ends (by omega))
        exact fun frame member => linkable frame (List.mem_cons_of_mem top member)

theorem setEntry (hangs : Hangs memory address last level table frames) (entry : PageEntry)
    (enough : frames.length = level.below.length) (distinct : (table :: frames).Nodup)
    (inside : memory.HasFrame (lowest table frames)) :
    Hangs (memory.setEntry (lowest table frames) (Level.pt.index address) entry) address entry
      level table frames := by
  induction hangs with
  | nil =>
      cases Level.eq_pt_of_below_eq_nil (List.eq_nil_of_length_eq_zero enough.symm)
      exact .nil (Memory.entry_setEntry_same _ _ _ _ inside)
  | @cons level child below table frame frames next written empty _ induction =>
      have further := (Level.below_eq_cons next).1
      rw [next, List.length_cons, List.length_cons, Nat.succ_inj, ← further] at enough
      rcases List.nodup_cons.1 distinct with ⟨outside, distinctBelow⟩
      have apart : table ≠ lowest frame frames := fun same => outside (same ▸ lowest_mem)
      refine .cons next ?_ (fun index other => ?_) (induction enough distinctBelow inside)
      · exact (Memory.entry_setEntry_other _ _ _ _ _ _ (.inl apart)).trans written
      · refine (Memory.entry_setEntry_other _ _ _ _ _ _ ?_).trans (empty index other)
        -- The last table is either further down, or this one at the last level.
        cases frames with
        | nil =>
            cases Level.eq_pt_of_below_eq_nil (List.eq_nil_of_length_eq_zero enough.symm)
            exact .inr other
        | cons top rest =>
            exact .inl fun same => (List.nodup_cons.1 distinctBelow).1 (same ▸ lowest_mem)

end Hangs

/-! ## Asking for the tables that are missing -/

section

variable {F : Type} {before after asked : Paged F} {offers keeps : Frame → Prop}

/-- What is written where frames are hung below an entry of a table: one entry of that table,
the frames and what the source writes itself. -/
structure WritesBelow (keeps : Frame → Prop) (level : Level) (address : VirtualAddress)
    (table : Frame) (frames : List Frame) (before after : Memory) : Prop where
  agrees : AgreesOutside (fun frame => keeps frame ∨ frame ∈ frames ∨ frame = table) before after
  others : ∀ index, index ≠ level.index address →
    after.entry table index = before.entry table index

/-! ### One table more -/

theorem run_reachTable_direct (addressable : before.memory.IsAddressable)
    (inside : before.memory.HasFrame table) :
    (reachTable ⟨root, .direct⟩ level address table : Operation (Paged F) MapError Frame).run
      before = (.done table, before) := by
  rw [reachTable, Paged.run_inspect, TableAccess.reach,
    Memory.requireFrame_eq_ok addressable inside]
  rfl

theorem reach_linked_direct (addressable : memory.IsAddressable) (inside : memory.HasFrame frame) :
    TableAccess.direct.reach (linkedMemory memory address level table frame) child address frame =
      .ok frame := by
  have written := Memory.agreesOutside_setEntry memory table (level.index address) (.table frame)
  rw [linkedMemory, TableAccess.reach, Memory.requireFrame_eq_ok
    (written.isAddressable_iff.2 addressable) ((written.hasFrame_iff frame).2 inside)]
  rfl

variable (space : AddressSpace) (asked : Paged F) (address : VirtualAddress) (level child : Level)

theorem agreesOutside_linkedPaged (table frame : Frame) :
    AgreesOutside (fun other => other = table ∨ other = frame) asked.memory
      (linkedPaged space asked address level child table frame).memory := by
  rw [memory_linkedPaged]
  exact ((Memory.agreesOutside_setEntry ..).mono fun _ => .inl).trans
    ((Memory.agreesOutside_clearTable ..).mono fun _ => .inr)

theorem entry_linkedPaged (apart : table ≠ frame) (inside : asked.memory.HasFrame table) :
    (linkedPaged space asked address level child table frame).memory.entry table
      (level.index address) = .table frame := by
  rw [memory_linkedPaged, (Memory.agreesOutside_clearTable ..).entry_eq apart]
  exact Memory.entry_setEntry_same _ _ _ _ inside

theorem entry_linkedPaged_other (apart : table ≠ frame) {index : TableIndex}
    (other : index ≠ level.index address) :
    (linkedPaged space asked address level child table frame).memory.entry table index =
      asked.memory.entry table index := by
  rw [memory_linkedPaged, (Memory.agreesOutside_clearTable ..).entry_eq apart]
  exact Memory.entry_setEntry_other _ _ _ _ _ _ (.inr other)

theorem entry_linkedPaged_fresh (table : Frame) (inside : asked.memory.HasFrame frame)
    (index : TableIndex) :
    (linkedPaged space asked address level child table frame).memory.entry frame index = .zero := by
  rw [memory_linkedPaged]
  exact Memory.entry_clearTable_same _ _ ((hasFrame_linkedMemory frame).2 inside) index

variable {space asked address level child}

theorem WritesBelow.entry_eq {after : Memory} {index : TableIndex}
    (writes : WritesBelow keeps child address frame frames
      (linkedPaged space asked address level child table frame).memory after)
    (notKept : ¬ keeps table) (apart : table ≠ frame) (off : table ∉ frames) :
    after.entry table index =
      (linkedPaged space asked address level child table frame).memory.entry table index := by
  refine writes.agrees.entry_eq ?_ index
  rintro (isKept | isFrame | same)
  · exact notKept isKept
  · exact off isFrame
  · exact apart same

theorem WritesBelow.cons {after : Memory}
    (writes : WritesBelow keeps child address frame frames
      (linkedPaged space asked address level child table frame).memory after)
    (agrees : AgreesOutside keeps before.memory asked.memory)
    (notKept : ¬ keeps table) (apart : table ≠ frame) (off : table ∉ frames) :
    WritesBelow keeps level address table (frame :: frames) before.memory after where
  agrees := by
    have linked := agreesOutside_linkedPaged space asked address level child table frame
    refine ((agrees.mono fun _ => .inl).trans (linked.mono ?_)).trans (writes.agrees.mono ?_)
    · rintro other (rfl | rfl)
      · exact .inr (.inr rfl)
      · exact .inr (.inl List.mem_cons_self)
    · rintro other (isKept | isFrame | rfl)
      · exact .inl isKept
      · exact .inr (.inl (List.mem_cons_of_mem frame isFrame))
      · exact .inr (.inl List.mem_cons_self)
  others index other := by
    rw [writes.entry_eq notKept apart off, entry_linkedPaged_other _ _ _ _ _ apart other,
      agrees.entry_eq notKept]

end

/-! ### All the way down -/

section

variable {F : Type} [FrameSource F] {supply : Supply F} {before after asked : Paged F}
  {offers keeps : Frame → Prop} {outcome : Outcome MapError Frame}

theorem run_ensureChild_direct
    (absent : (before.memory.entry table (level.index address)).present = false)
    (taken : (FrameSource.take : Operation (Paged F) MapError (Option Frame)).run before =
      (.done (some frame), asked))
    (addressable : asked.memory.IsAddressable) (inside : asked.memory.HasFrame frame) :
    (ensureChild ⟨root, .direct⟩ table (level.index address) child address).run before =
      (.done frame, linkedPaged ⟨root, .direct⟩ asked address level child table frame) := by
  have reached : TableAccess.direct.reach (linkedMemory asked.memory address level table frame)
      child address frame = .ok frame :=
    reach_linked_direct addressable inside
  exact run_ensureChild absent taken reached

/-- How the way down ends on which no table is there yet, and the frames it takes. -/
inductive Lays (keeps : Frame → Prop) (table : Frame) (below : List Level)
    (before after : Paged F) : List Frame → Outcome MapError Frame → Prop
  | placed {frames : List Frame} (enough : frames.length = below.length)
      (asks : Asks keeps (frames.map some) before after) :
      Lays keeps table below before after frames (.done (lowest table frames))
  | exhausted {frames : List Frame} {upper rest : List Level} {missing : Level}
      (split : below = upper ++ missing :: rest) (count : upper.length = frames.length)
      (asks : Asks keeps (frames.map some ++ [none]) before after) :
      Lays keeps table below before after frames (.refused (.outOfMemory missing))

theorem Lays.cons {child : Level} {linked : Paged F}
    (lays : Lays keeps frame below linked after frames outcome)
    (asks : Asks keeps [some frame] before linked) :
    Lays keeps table (child :: below) before after (frame :: frames) outcome := by
  cases lays with
  | placed enough further =>
      exact .placed (congrArg (· + 1) enough) (asks.trans further)
  | @exhausted upper rest missing split count further =>
      exact .exhausted (show child :: below = (child :: upper) ++ missing :: rest from
        congrArg _ split) (congrArg (· + 1) count) (asks.trans further)

/-- Each level below takes the next frame, until the source has none. -/
theorem descend_lays (addressable : before.memory.IsAddressable) (next : level.below = below)
    (inside : before.memory.HasFrame table) (notOffered : ¬ offers table) (notKept : ¬ keeps table)
    (absent : below ≠ [] → (before.memory.entry table (level.index address)).present = false)
    (supplied : supply.Holds before.memory before.source offers keeps)
    (offered : ∀ frame, offers frame → before.memory.HasFrame frame ∧ ¬ keeps frame) :
    ∃ outcome after frames,
      (descend ⟨root, .direct⟩ address level table below).run before = (outcome, after) ∧
      frames.Nodup ∧ (∀ frame ∈ frames, offers frame) ∧
      Lays keeps table below before after frames outcome ∧
      WritesBelow keeps level address table frames before.memory after.memory ∧
      (frames = [] → AgreesOutside keeps before.memory after.memory) ∧
      Hangs after.memory address
        (if frames = [] then before.memory.entry table (level.index address) else .zero)
        level table frames := by
  induction below generalizing level table before offers with
  | nil =>
      exact ⟨_, before, [], Operation.run_pure .., List.nodup_nil, by simp,
        .placed rfl (.done before), ⟨.refl _, fun _ _ => rfl⟩, fun _ => .refl _, .nil rfl⟩
  | cons child below induction =>
      have further := Level.below_eq_cons next
      have absent := absent (List.cons_ne_nil child below)
      rw [descend, Operation.run_bind_of_done (run_reachTable_direct addressable inside)]
      rcases supply.take supplied (ε := MapError) with
        ⟨answer, asked, rest, taken, agrees, left, fewer, handed⟩
      cases answer with
      | none =>
          refine ⟨_, asked, [], Operation.run_bind_of_refused (run_ensureChild_of_dry absent taken),
            List.nodup_nil, by simp, .exhausted (List.nil_append _).symm rfl
              (.asked taken (.done asked)), ⟨agrees.mono fun _ => .inl, fun index _ => ?_⟩,
            fun _ => agrees, .nil ?_⟩
          all_goals exact agrees.entry_eq notKept _
      | some frame =>
          rcases handed frame rfl with ⟨isOffered, gone⟩
          rcases offered frame isOffered with ⟨frameInside, frameSpared⟩
          have apart : table ≠ frame := fun same => notOffered (same ▸ isOffered)
          have tableInside := (agrees.hasFrame_iff table).2 inside
          have askedInside := (agrees.hasFrame_iff frame).2 frameInside
          have addressableAsked := agrees.isAddressable_iff.2 addressable
          have written := agreesOutside_linkedPaged ⟨root, .direct⟩ asked address level child
            table frame
          have fresh := entry_linkedPaged_fresh ⟨root, .direct⟩ asked address level child table
            askedInside
          have spared : ∀ other, keeps other → ¬ (other = table ∨ other = frame) := by
            rintro other isKept (rfl | rfl)
            · exact notKept isKept
            · exact frameSpared isKept
          rcases induction (written.isAddressable_iff.2 addressableAsked) further.1
            ((written.hasFrame_iff frame).2 askedInside) gone frameSpared
            (fun _ => by rw [fresh, PageEntry.present_zero])
            (by rw [source_linkedPaged]; exact supply.stable left written spared)
            (fun other isLeft => (offered other (fewer other isLeft)).imp_left fun isInside =>
              (written.hasFrame_iff other).2 ((agrees.hasFrame_iff other).2 isInside)) with
            ⟨outcome, after, frames, ran, distinct, handedOut, lays, writes, _, hangs⟩
          have asks : Asks keeps [some frame] before
              (linkedPaged ⟨root, .direct⟩ asked address level child table frame) := by
            refine .asked taken (.written (written.mono ?_) (source_linkedPaged asked frame)
              (.done _))
            exact fun other touched isKept => spared other isKept touched
          have off : table ∉ frames := fun member =>
            notOffered (fewer table (handedOut table member))
          have entryEq : after.memory.entry table (level.index address) = .table frame := by
            rw [writes.entry_eq notKept apart off, entry_linkedPaged _ _ _ _ _ apart tableInside]
          rw [Operation.run_bind_of_done
            (run_ensureChild_direct absent taken addressableAsked askedInside)]
          refine ⟨outcome, after, frame :: frames, ran,
            List.nodup_cons.2 ⟨fun member => gone (handedOut frame member), distinct⟩, ?_,
            lays.cons asks, writes.cons agrees notKept apart off,
            fun none => absurd none (List.cons_ne_nil _ _), ?_⟩
          · rintro other (_ | ⟨_, member⟩)
            · exact isOffered
            · exact fewer other (handedOut other member)
          · refine .cons next entryEq (fun index other => ?_) ?_
            · rw [writes.others index other, fresh]
            · rw [if_neg (List.cons_ne_nil _ _)]
              rw [fresh, ite_self] at hangs
              exact hangs

/-! ### Down to the first table that is missing -/

/-- As far as there are tables the way down only reads. -/
theorem exists_deepest (addressable : before.memory.IsAddressable)
    (tables : (shown root).HasTables before.memory address .pt) (next : level.below = below)
    (found : (shown root).tableAt before.memory (level.path address) = some table) :
    ∃ (lower : Level) (deepest : Frame),
      (shown root).tableAt before.memory (lower.path address) = some deepest ∧
      (lower.below ≠ [] → (before.memory.entry deepest (lower.index address)).present = false) ∧
      (descend ⟨root, .direct⟩ address level table below).run before =
        (descend ⟨root, .direct⟩ address lower deepest lower.below).run before := by
  induction below generalizing level table with
  | nil => exact ⟨level, table, found, fun more => absurd next more, by rw [next]⟩
  | cons child below induction =>
      have further := Level.below_eq_cons next
      cases present : (before.memory.entry table (level.index address)).present with
      | false => exact ⟨level, table, found, fun _ => present, by rw [next]⟩
      | true =>
          have foundChild : (shown root).tableAt before.memory (child.path address) =
              some (before.memory.entry table (level.index address)).frame := by
            rw [further.2.2]
            exact Hierarchy.tableAt_cons_eq_some.2 ⟨table, found, present, rfl⟩
          rcases induction further.1 foundChild with ⟨lower, deepest, leads, absent, same⟩
          refine ⟨lower, deepest, leads, absent, ?_⟩
          rw [← same, descend, Operation.run_bind_of_done
            (run_reachTable_direct addressable (tables level level.depth_le table found)),
            Operation.run_bind_of_done (run_ensureChild_of_present present)]

theorem run_descend_direct_of_deepest (addressable : before.memory.IsAddressable)
    (tables : (shown root).HasTables before.memory address .pt)
    (found : (shown root).tableAt before.memory (level.path address) = some table)
    (absent : level.below ≠ [] →
      (before.memory.entry table (level.index address)).present = false) :
    (descend ⟨root, .direct⟩ address .pml4 root [.pdpt, .pd, .pt]).run before =
      (descend ⟨root, .direct⟩ address level table level.below).run before := by
  have higher : ∀ {upper lower : Level} {reached deepest : Frame},
      (shown root).tableAt before.memory (upper.path address) = some reached →
      (upper.below ≠ [] → (before.memory.entry reached (upper.index address)).present = false) →
      (shown root).tableAt before.memory (lower.path address) = some deepest →
      lower.depth ≤ upper.depth := by
    intro upper lower reached deepest leads ends further
    refine Nat.le_of_not_lt fun deeper => ?_
    have more : upper.below ≠ [] := by
      intro last
      cases Level.eq_pt_of_below_eq_nil last
      exact absurd lower.depth_le (Nat.not_le.2 deeper)
    cases further.symm.trans (Hierarchy.tableAt_of_absent leads (ends more) deeper)
  rcases exists_deepest addressable tables (show Level.pml4.below = [.pdpt, .pd, .pt] from rfl)
    Hierarchy.tableAt_nil with ⟨lower, deepest, leads, ends, same⟩
  cases Level.eq_of_depth_eq (Nat.le_antisymm (higher found absent leads) (higher leads ends found))
  cases found.symm.trans leads
  exact same

theorem run_map_direct_of_found (target : PhysicalAddress) (rights : Rights)
    (addressable : before.memory.IsAddressable)
    (tables : (shown root).HasTables before.memory address .pt)
    (found : (shown root).tableAt before.memory (Level.pt.path address) = some table) :
    (map ⟨root, .direct⟩ target address rights).run before =
      match before.memory.presentEntry table (Level.pt.index address) with
      | some leaf => (.refused (.alreadyMapped address leaf.frame.base), before)
      | none => (.done (), filledPaged ⟨root, .direct⟩ before target address rights table) := by
  have descended := run_descend_direct_of_deepest addressable tables found
    fun more => absurd rfl more
  exact run_map_of_done target rights (descended.trans (Operation.run_pure table before))
    (run_reachTable_direct addressable (tables .pt (Nat.le_refl _) table found))

theorem run_map_direct_of_lacking_last (target : PhysicalAddress) (rights : Rights)
    (addressable : before.memory.IsAddressable)
    (tables : (shown root).HasTables before.memory address .pt)
    (found : (shown root).tableAt before.memory (Level.pd.path address) = some table)
    (absent : (before.memory.entry table (Level.pd.index address)).present = false)
    (taken : (FrameSource.take : Operation (Paged F) MapError (Option Frame)).run before =
      (.done (some frame), asked))
    (addressableAsked : asked.memory.IsAddressable) (inside : asked.memory.HasFrame frame) :
    (map ⟨root, .direct⟩ target address rights).run before =
      (.done (), filledPaged ⟨root, .direct⟩
        (linkedPaged ⟨root, .direct⟩ asked address .pd .pt table frame) target address rights
        frame) := by
  have last : (descend ⟨root, .direct⟩ address .pd table [.pt]).run before =
      (.done frame, linkedPaged ⟨root, .direct⟩ asked address .pd .pt table frame) := by
    rw [descend, Operation.run_bind_of_done (run_reachTable_direct addressable
        (tables .pd (by decide) table found)),
      Operation.run_bind_of_done (run_ensureChild_direct absent taken addressableAsked inside)]
    exact Operation.run_pure ..
  have descended :=
    (run_descend_direct_of_deepest addressable tables found fun _ => absent).trans last
  have linked := agreesOutside_linkedPaged ⟨root, .direct⟩ asked address .pd .pt table frame
  have mapped := run_map_of_done target rights descended
    (run_reachTable_direct (linked.isAddressable_iff.2 addressableAsked)
      ((linked.hasFrame_iff frame).2 inside))
  rwa [Memory.presentEntry_eq_none] at mapped
  rw [entry_linkedPaged_fresh _ _ _ _ _ table inside, PageEntry.present_zero]

omit [FrameSource F] in
theorem missingTables_eq_below
    (found : (shown root).tableAt memory (level.path address) = some table)
    (absent : level.below ≠ [] → (memory.entry table (level.index address)).present = false) :
    missingTables ⟨root, .direct⟩ memory address = level.below := by
  have isMissing : ∀ other : Level,
      ((shown root).tableAt memory (other.path address)).isNone =
        decide (level.depth < other.depth) := by
    intro other
    by_cases deeper : level.depth < other.depth
    · have more : level.below ≠ [] := fun last => by
        cases Level.eq_pt_of_below_eq_nil last
        exact absurd other.depth_le (Nat.not_le.2 deeper)
      rw [Hierarchy.tableAt_of_absent found (absent more) deeper]
      simp [deeper]
    · rcases Hierarchy.exists_tableAt_of_le found (Nat.le_of_not_lt deeper) with ⟨_, leads⟩
      rw [leads]
      simp [deeper]
  rw [missingTables]
  refine (List.filter_congr fun other _ => isMissing other).trans ?_
  cases level <;> rfl

end

end EarlyMemory.AddressSpace
