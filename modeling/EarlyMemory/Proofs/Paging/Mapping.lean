import EarlyMemory.Proofs.Frames.Supply
import EarlyMemory.Proofs.Paging.Reach

/-!
# Mapping one page

Mapping takes a ready space to a ready space: the hierarchy stays a tree, keeps the
tables and the leaves it had, and takes each new table from the supply, which loses
it. Whether a page is mapped, refused because its leaf is present or refused for want
of a table depends on the leaf alone and on the supply.
-/

namespace EarlyMemory.AddressSpace

open Memory (AgreesOutside)

variable {F : Type} [FrameSource F] {space : AddressSpace} {supply : Supply F}
  {before middle after paged : Paged F} {offers between rest keeps : Frame → Prop}

/-! ## Ready spaces -/

/-- A space that reaches its tables, which form a tree in the memory. -/
structure IsUsable (space : AddressSpace) (memory : Memory) : Prop where
  addressable : memory.IsAddressable
  tree : space.hierarchy.IsTree memory
  served : space.IsServed memory

/-- A space whose tables form a tree in the memory, with a supply of frames that are
neither tables nor the supply's own. -/
structure Ready (space : AddressSpace) (supply : Supply F) (paged : Paged F)
    (offers keeps : Frame → Prop) : Prop where
  addressable : paged.memory.IsAddressable
  tree : space.hierarchy.IsTree paged.memory
  served : space.IsServed paged.memory
  supplied : supply.Holds paged.memory paged.source offers keeps
  offered : ∀ frame, offers frame → paged.memory.HasFrame frame ∧ frame.IsLinkable ∧
    ¬ space.hierarchy.IsTable paged.memory frame ∧ ¬ keeps frame
  kept : ∀ frame, keeps frame → ¬ space.hierarchy.IsTable paged.memory frame

theorem Ready.usable (ready : space.Ready supply paged offers keeps) :
    space.IsUsable paged.memory :=
  ⟨ready.addressable, ready.tree, ready.served⟩

/-- What every part of mapping preserves. New tables come out of what was offered. -/
structure Advances (space : AddressSpace) (supply : Supply F) (keeps offers rest : Frame → Prop)
    (before after : Paged F) : Prop where
  ready : space.Ready supply after rest keeps
  fewer : ∀ frame, rest frame → offers frame
  widened : space.hierarchy.Extends (fun frame => offers frame ∧ ¬ rest frame)
    before.memory after.memory
  agrees : AgreesOutside
    (fun frame => space.hierarchy.IsTable before.memory frame ∨
      (offers frame ∧ ¬ rest frame) ∨ keeps frame)
    before.memory after.memory

namespace Advances

theorem refl (ready : space.Ready supply before offers keeps) :
    space.Advances supply keeps offers offers before before where
  ready := ready
  fewer _ offered := offered
  widened := .refl ready.tree
  agrees := .refl _

theorem trans (first : space.Advances supply keeps offers between before middle)
    (second : space.Advances supply keeps between rest middle after) :
    space.Advances supply keeps offers rest before after := by
  have early : ∀ frame, offers frame ∧ ¬ between frame → offers frame ∧ ¬ rest frame :=
    fun frame handed => ⟨handed.1, fun left => handed.2 (second.fewer frame left)⟩
  have late : ∀ frame, between frame ∧ ¬ rest frame → offers frame ∧ ¬ rest frame :=
    fun frame handed => ⟨first.fewer frame handed.1, handed.2⟩
  refine ⟨second.ready, fun frame left => first.fewer frame (second.fewer frame left),
    (first.widened.mono early).trans (second.widened.mono late), ?_⟩
  refine (first.agrees.mono ?_).trans (second.agrees.mono ?_)
  · rintro frame (isTable | handed | isKept)
    · exact .inl isTable
    · exact .inr (.inl (early frame handed))
    · exact .inr (.inr isKept)
  · rintro frame (isTable | handed | isKept)
    · exact (first.widened.tables frame isTable).imp_right fun handed =>
        .inl (early frame handed)
    · exact .inr (.inl (late frame handed))
    · exact .inr (.inr isKept)

end Advances

def SameLeaves (space : AddressSpace) (before after : Memory) : Prop :=
  ∀ path : TablePath, path.length = 4 → space.hierarchy.Owns path →
    space.hierarchy.entryAt after path = space.hierarchy.entryAt before path

theorem SameLeaves.trans {before middle after : Memory} (first : space.SameLeaves before middle)
    (second : space.SameLeaves middle after) : space.SameLeaves before after :=
  fun path long owns => (second path long owns).trans (first path long owns)

/-! ## Asking the supply -/

theorem IsUsable.of_agrees {touched : Frame → Prop} {before after : Memory}
    (usable : space.IsUsable before) (agrees : AgreesOutside touched before after)
    (missed : ∀ frame, space.hierarchy.IsTable before frame → ¬ touched frame) :
    space.IsUsable after ∧ space.hierarchy.Grows (fun _ => False) before after := by
  have grows : space.hierarchy.Grows (fun _ => False) before after :=
    Hierarchy.grows_of_agrees usable.tree agrees missed
  refine ⟨⟨agrees.isAddressable_iff.2 usable.addressable, grows.tree, ?_⟩, grows⟩
  apply usable.served.of_entry_eq
  intro _ _
  exact agrees.entry_eq (missed _ Hierarchy.isTable_root) _

theorem Ready.of_records (ready : space.Ready supply before offers keeps)
    (agrees : AgreesOutside keeps before.memory after.memory)
    (supplied : supply.Holds after.memory after.source rest keeps)
    (offered : ∀ frame, rest frame → before.memory.HasFrame frame ∧ frame.IsLinkable ∧
      ¬ space.hierarchy.IsTable before.memory frame ∧ ¬ keeps frame) :
    space.Ready supply after rest keeps ∧
      space.hierarchy.Grows (fun _ => False) before.memory after.memory := by
  rcases ready.usable.of_agrees agrees fun frame isTable isKept =>
    ready.kept frame isKept isTable with ⟨usable, grows⟩
  refine ⟨⟨usable.addressable, usable.tree, usable.served, supplied, ?_, ?_⟩, grows⟩
  · intro frame left
    rcases offered frame left with ⟨inside, linkable, notTable, notKept⟩
    exact ⟨(agrees.hasFrame_iff frame).2 inside, linkable,
      fun isTable => notTable ((grows.tables frame isTable).resolve_right id), notKept⟩
  · exact fun frame isKept isTable =>
      ready.kept frame isKept ((grows.tables frame isTable).resolve_right id)

theorem Ready.take {ε : Type} (ready : space.Ready supply before offers keeps) :
    ∃ answer after rest,
      (FrameSource.take : Operation (Paged F) ε (Option Frame)).run before =
        (.done answer, after) ∧
      space.Advances supply keeps offers rest before after ∧
      AgreesOutside keeps before.memory after.memory ∧
      space.SameLeaves before.memory after.memory ∧
      ∀ frame, answer = some frame → offers frame ∧ ¬ rest frame ∧
        ¬ space.hierarchy.IsTable after.memory frame := by
  rcases supply.take ready.supplied with ⟨answer, after, rest, ran, agrees, supplied, fewer, handed⟩
  rcases ready.of_records agrees supplied fun frame left => ready.offered frame (fewer frame left)
    with ⟨readyAfter, grows⟩
  refine ⟨answer, after, rest, ran, ⟨readyAfter, fewer, ?_, ?_⟩, agrees, grows.leaves, ?_⟩
  · exact grows.toExtends.mono fun _ impossible => impossible.elim
  · exact agrees.mono fun frame isKept => .inr (.inr isKept)
  · intro frame isAnswer
    rcases handed frame isAnswer with ⟨offered, gone⟩
    refine ⟨offered, gone, fun isTable => ?_⟩
    exact (ready.offered frame offered).2.2.1 ((grows.tables frame isTable).resolve_right id)

/-- A write to the tables that adds handed-out frames at most completes an advance. -/
theorem Advances.write {fresh : Frame → Prop}
    (advances : space.Advances supply keeps offers rest before middle)
    (handed : ∀ frame, fresh frame → (offers frame ∧ ¬ rest frame) ∧ ¬ keeps frame)
    (widened : space.hierarchy.Extends fresh middle.memory after.memory)
    (agrees : AgreesOutside
      (fun frame => space.hierarchy.IsTable middle.memory frame ∨ fresh frame)
      middle.memory after.memory)
    (served : space.IsServed after.memory) (source : after.source = middle.source) :
    space.Advances supply keeps offers rest before after where
  ready := by
    have ready := advances.ready
    refine ⟨agrees.isAddressable_iff.2 ready.addressable, widened.tree, served, ?_, ?_, ?_⟩
    · rw [source]
      apply supply.stable ready.supplied agrees
      intro frame isKept touched
      rcases touched with isTable | isFresh
      · exact ready.kept frame isKept isTable
      · exact (handed frame isFresh).2 isKept
    · intro frame left
      rcases ready.offered frame left with ⟨inside, linkable, notTable, notKept⟩
      refine ⟨(agrees.hasFrame_iff frame).2 inside, linkable, fun isTable => ?_, notKept⟩
      rcases widened.tables frame isTable with old | isFresh
      · exact notTable old
      · exact (handed frame isFresh).1.2 left
    · intro frame isKept isTable
      rcases widened.tables frame isTable with old | isFresh
      · exact ready.kept frame isKept old
      · exact (handed frame isFresh).2 isKept
  fewer := advances.fewer
  widened := advances.widened.trans (widened.mono fun frame isFresh => (handed frame isFresh).1)
  agrees := by
    refine advances.agrees.trans (agrees.mono ?_)
    rintro frame (isTable | isFresh)
    · exact (advances.widened.tables frame isTable).imp_right .inl
    · exact .inr (.inl (handed frame isFresh).1)

/-! ## Linking a table -/

section

variable {memory : Memory} {address : VirtualAddress} {level child : Level}
  {below : List Level} {table frame : Frame}

/-- What has to be known of a memory, a table on the walk for an address and a frame
before the frame is linked as the next table. -/
structure Linking (space : AddressSpace) (memory : Memory) (address : VirtualAddress)
    (level child : Level) (table frame : Frame) : Prop where
  tree : space.hierarchy.IsTree memory
  leads : space.hierarchy.Leads address
  next : ∃ below, level.below = child :: below
  found : space.hierarchy.tableAt memory (level.path address) = some table
  absent : (memory.entry table (level.index address)).present = false
  inside : memory.HasFrame frame
  linkable : frame.IsLinkable
  unused : ¬ space.hierarchy.IsTable memory frame

def linkedMemory (memory : Memory) (address : VirtualAddress) (level : Level)
    (table frame : Frame) : Memory :=
  memory.setEntry table (level.index address) (.table frame)

theorem hasFrame_linkedMemory (other : Frame) :
    (linkedMemory memory address level table frame).HasFrame other ↔ memory.HasFrame other :=
  (Memory.agreesOutside_setEntry ..).hasFrame_iff other

namespace Linking

variable (linking : space.Linking memory address level child table frame)

include linking

theorem path_child : child.path address = level.index address :: level.path address := by
  rcases linking.next with ⟨_, next⟩
  exact (Level.below_eq_cons next).2.2 address

theorem length_path : (level.path address).length ≤ 2 := by
  rcases linking.next with ⟨_, next⟩
  rw [Level.length_path]
  cases level <;> first | decide | cases next

theorem owns_child : space.hierarchy.Owns (level.index address :: level.path address) :=
  linking.path_child ▸ linking.leads.owns_path child

theorem isTable : space.hierarchy.IsTable memory table :=
  ⟨level.path address, Nat.le_succ_of_le linking.length_path, linking.leads.owns_path level,
    linking.found⟩

theorem table_ne : table ≠ frame := by
  rintro rfl
  exact linking.unused linking.isTable

theorem rewrites {after : Memory}
    (agrees : AgreesOutside (· = frame) (linkedMemory memory address level table frame) after) :
    space.hierarchy.Rewrites memory after table (level.index address) (.table frame) := by
  have written : space.hierarchy.Rewrites memory (linkedMemory memory address level table frame)
      table (level.index address) (.table frame) :=
    Hierarchy.rewrites_setEntry (linking.tree.inside _ linking.isTable)
  constructor
  · rw [agrees.entry_eq linking.table_ne, written.entry]
  · intro other index isTable different
    have apart : other ≠ frame := by
      rintro rfl
      exact linking.unused isTable
    rw [agrees.entry_eq apart, written.others other index isTable different]

theorem tableAt_linked {path : TablePath} (short : path.length ≤ (level.path address).length + 1)
    (owns : space.hierarchy.Owns path) :
    space.hierarchy.tableAt (linkedMemory memory address level table frame) path =
      if path = child.path address then some frame else space.hierarchy.tableAt memory path := by
  have room := linking.length_path
  have placed := Hierarchy.tableAt_of_linked linking.tree (linking.rewrites (.refl _))
    (PageEntry.present_table frame) linking.found room (linking.leads.owns_path level)
    linking.absent path (by omega) owns (.inl short)
  rwa [PageEntry.frame_table linking.linkable, ← linking.path_child] at placed

theorem hasTables_linked :
    space.hierarchy.HasTables (linkedMemory memory address level table frame) address child := by
  intro other shallow found leads
  have depth : (other.path address).length ≤ (level.path address).length + 1 := by
    have := congrArg List.length linking.path_child
    simp only [Level.length_path, List.length_cons] at this ⊢
    omega
  rw [linking.tableAt_linked depth (linking.leads.owns_path other)] at leads
  rw [hasFrame_linkedMemory]
  split at leads
  next => cases leads; exact linking.inside
  next =>
    exact linking.tree.inside found ⟨other.path address, other.length_path_le,
      linking.leads.owns_path other, leads⟩

theorem isServed {after : Memory} (served : space.IsServed memory)
    (agrees : AgreesOutside (· = frame) (linkedMemory memory address level table frame) after) :
    space.IsServed after := by
  apply served.of_entry_eq
  intro active kind
  apply (linking.rewrites agrees).others _ _ Hierarchy.isTable_root
  -- The written entry is in the root only for the first level, whose slot is not hidden.
  cases path : level.path address with
  | nil =>
      have first : level = .pml4 := by
        cases level <;> first | rfl | cases path
      subst first
      refine .inr fun same => linking.leads ?_
      rw [← same]
      change space.access.hiddenSlot = _
      rw [kind]
      rfl
  | cons last above =>
      refine .inl fun isRoot => ?_
      have unique := linking.tree.unique [] (level.path address) table (by simp)
        Hierarchy.owns_nil (isRoot ▸ rfl) (Nat.le_succ_of_le linking.length_path)
        (linking.leads.owns_path level) linking.found
      rw [path] at unique
      cases unique

theorem reach_linked (addressable : memory.IsAddressable) (served : space.IsServed memory) :
    space.access.reach (linkedMemory memory address level table frame) child address frame =
      .ok frame := by
  have written := Memory.agreesOutside_setEntry memory table (level.index address) (.table frame)
  refine reach_eq_ok (written.isAddressable_iff.2 addressable)
    (linking.isServed served (.refl _)) linking.hasTables_linked ?_
  have short : (child.path address).length ≤ (level.path address).length + 1 :=
    Nat.le_of_eq (by rw [linking.path_child, List.length_cons])
  rw [linking.tableAt_linked short (linking.leads.owns_path child), if_pos rfl]

theorem agrees_cleared :
    AgreesOutside (fun other => space.hierarchy.IsTable memory other ∨ other = frame) memory
      ((linkedMemory memory address level table frame).clearTable frame) := by
  refine AgreesOutside.trans ((Memory.agreesOutside_setEntry ..).mono ?_)
    ((Memory.agreesOutside_clearTable ..).mono fun _ => .inr)
  rintro other rfl
  exact .inl linking.isTable

theorem grows : space.hierarchy.Grows (· = frame) memory
    ((linkedMemory memory address level table frame).clearTable frame) := by
  have cleared := Memory.agreesOutside_clearTable
    (linkedMemory memory address level table frame) frame
  have frameEq := PageEntry.frame_table linking.linkable
  have grown := Hierarchy.grows_of_linked linking.tree (linking.rewrites cleared)
    (PageEntry.present_table frame) linking.found linking.length_path linking.owns_child
    linking.absent
  rw [frameEq] at grown
  refine grown (fun index => ?_) linking.unused fun other known => ?_
  · rw [Memory.entry_clearTable_same _ _ ((hasFrame_linkedMemory frame).2 linking.inside)]
    exact PageEntry.present_zero
  · rw [cleared.hasFrame_iff, hasFrame_linkedMemory]
    rcases known with isTable | rfl
    · exact linking.tree.inside other isTable
    · exact linking.inside

/-- Once the frame is cleared the entry leads to it, and every other path where it did. -/
theorem tableAt_cleared_eq {path : TablePath} (short : path.length ≤ 3)
    (owns : space.hierarchy.Owns path) :
    space.hierarchy.tableAt ((linkedMemory memory address level table frame).clearTable frame)
        path =
      if path = child.path address then some frame else space.hierarchy.tableAt memory path := by
  have cleared := Memory.agreesOutside_clearTable
    (linkedMemory memory address level table frame) frame
  have placed := Hierarchy.tableAt_of_linked linking.tree (linking.rewrites cleared)
    (PageEntry.present_table frame) linking.found linking.length_path
    (linking.leads.owns_path level) linking.absent path short owns
  rw [PageEntry.frame_table linking.linkable, ← linking.path_child] at placed
  refine placed (.inr fun index => ?_)
  rw [Memory.entry_clearTable_same _ _ ((hasFrame_linkedMemory frame).2 linking.inside)]
  exact PageEntry.present_zero

theorem tableAt_cleared :
    space.hierarchy.tableAt ((linkedMemory memory address level table frame).clearTable frame)
      (child.path address) = some frame := by
  have short : (child.path address).length ≤ 3 := child.length_path_le
  rw [linking.tableAt_cleared_eq short (linking.leads.owns_path child), if_pos rfl]

end Linking

end

/-! ## One level further down -/

section

variable {address : VirtualAddress} {level child : Level} {below : List Level} {table : Frame}

inductive Descends (space : AddressSpace) (address : VirtualAddress) (level : Level)
    (after : Paged F) : Outcome MapError Frame → Prop
  | found {frame : Frame}
      (leads : space.hierarchy.tableAt after.memory (level.path address) = some frame) :
      Descends space address level after (.done frame)
  | exhausted {asked : Paged F} {missing : Level}
      (dry : (FrameSource.take : Operation (Paged F) MapError (Option Frame)).run asked =
        (.done none, after))
      (absent : space.hierarchy.tableAt after.memory (Level.pt.path address) = none) :
      Descends space address level after (.refused (.outOfMemory missing))

/-- The machine once a frame that the supply handed out is linked and cleared. -/
def linkedPaged (space : AddressSpace) (paged : Paged F) (address : VirtualAddress)
    (level child : Level) (table frame : Frame) : Paged F :=
  ⟨⟨(linkedMemory paged.memory address level table frame).clearTable frame,
    (space.access.flushedByLink child address).reverse ++ paged.machine.history⟩, paged.source⟩

omit [FrameSource F] in
theorem memory_linkedPaged (paged : Paged F) (frame : Frame) :
    (linkedPaged space paged address level child table frame).memory =
      (linkedMemory paged.memory address level table frame).clearTable frame := by
  rw [linkedPaged, Paged.memory]

omit [FrameSource F] in
theorem source_linkedPaged (paged : Paged F) (frame : Frame) :
    (linkedPaged space paged address level child table frame).source = paged.source := by
  rw [linkedPaged]

theorem run_ensureChild_of_present
    (present : (before.memory.entry table (level.index address)).present = true) :
    (space.ensureChild table (level.index address) child address).run before =
      (.done (before.memory.entry table (level.index address)).frame, before) := by
  rw [ensureChild, Operation.run_bind_of_done (Paged.run_inspect ..), if_pos present,
    Operation.run_pure]

theorem run_ensureChild_of_dry
    (absent : (before.memory.entry table (level.index address)).present = false)
    (dry : (FrameSource.take : Operation (Paged F) MapError (Option Frame)).run before =
      (.done none, after)) :
    (space.ensureChild table (level.index address) child address).run before =
      (.refused (.outOfMemory child), after) := by
  rw [ensureChild, Operation.run_bind_of_done (Paged.run_inspect ..), if_neg (by simp [absent]),
    Operation.run_bind_of_done dry]
  rfl

theorem run_ensureChild {frame : Frame}
    (absent : (before.memory.entry table (level.index address)).present = false)
    (taken : (FrameSource.take : Operation (Paged F) MapError (Option Frame)).run before =
      (.done (some frame), after))
    (reached : space.access.reach (linkedMemory after.memory address level table frame) child
      address frame = .ok frame) :
    (space.ensureChild table (level.index address) child address).run before =
      (.done frame, linkedPaged space after address level child table frame) := by
  rw [ensureChild, Operation.run_bind_of_done (Paged.run_inspect ..), if_neg (by simp [absent]),
    Operation.run_bind_of_done taken]
  simp only [Operation.run_bind, Paged.run_changeMemory, Paged.run_flush, reachTable,
    Paged.run_inspect, Paged.memory]
  rw [linkedMemory, Paged.memory] at reached
  rw [reached]
  simp only [Operation.run_report, Operation.run_pure]
  rw [linkedPaged, linkedMemory, Paged.memory]

theorem Ready.linking {asked : Paged F} {frame : Frame}
    (ready : space.Ready supply before offers keeps)
    (leads : space.hierarchy.Leads address) (next : level.below = child :: below)
    (found : space.hierarchy.tableAt before.memory (level.path address) = some table)
    (absent : (before.memory.entry table (level.index address)).present = false)
    (taken : (FrameSource.take : Operation (Paged F) MapError (Option Frame)).run before =
      (.done (some frame), asked)) :
    ∃ rest, space.Advances supply keeps offers rest before asked ∧
      space.SameLeaves before.memory asked.memory ∧
      space.Linking asked.memory address level child table frame ∧
      (offers frame ∧ ¬ rest frame) ∧ ¬ keeps frame := by
  rcases ready.take (ε := MapError) with ⟨_, _, rest, ran, advances, agrees, same, handed⟩
  rw [taken] at ran
  cases ran
  rcases handed frame rfl with ⟨offered, gone, unused⟩
  rcases ready.offered frame offered with ⟨inside, linkable, _, notKept⟩
  have short : (level.path address).length ≤ 3 := level.length_path_le
  have untouched : ¬ keeps table := fun isKept =>
    ready.kept table isKept ⟨level.path address, short, leads.owns_path level, found⟩
  refine ⟨rest, advances, same, ⟨advances.ready.tree, leads, ⟨below, next⟩, ?_, ?_, ?_, linkable,
    unused⟩, ⟨offered, gone⟩, notKept⟩
  · exact advances.widened.kept _ _ short (leads.owns_path level) found
  · rw [agrees.entry_eq untouched, absent]
  · exact (agrees.hasFrame_iff frame).2 inside

theorem Linking.advances {asked : Paged F} {frame : Frame}
    (linking : space.Linking asked.memory address level child table frame)
    (advances : space.Advances supply keeps offers rest before asked)
    (handed : offers frame ∧ ¬ rest frame) (notKept : ¬ keeps frame) :
    space.Advances supply keeps offers rest before
      (linkedPaged space asked address level child table frame) := by
  have cleared := Memory.agreesOutside_clearTable
    (linkedMemory asked.memory address level table frame) frame
  have handedOut : ∀ other, other = frame → (offers other ∧ ¬ rest other) ∧ ¬ keeps other := by
    rintro other rfl
    exact ⟨handed, notKept⟩
  refine advances.write handedOut ?_ ?_ ?_ (source_linkedPaged asked frame)
  all_goals rw [memory_linkedPaged]
  · exact linking.grows.toExtends
  · exact linking.agrees_cleared
  · exact linking.isServed advances.ready.served cleared

theorem ensureChild_spec (ready : space.Ready supply before offers keeps)
    (leads : space.hierarchy.Leads address) (next : level.below = child :: below)
    (found : space.hierarchy.tableAt before.memory (level.path address) = some table) :
    ∃ outcome after rest,
      (space.ensureChild table (level.index address) child address).run before =
        (outcome, after) ∧
      space.Advances supply keeps offers rest before after ∧
      space.SameLeaves before.memory after.memory ∧
      space.Descends address child after outcome := by
  have path := (Level.below_eq_cons next).2.2 address
  cases present : (before.memory.entry table (level.index address)).present with
  | true =>
      refine ⟨_, before, offers, run_ensureChild_of_present present, .refl ready,
        fun _ _ _ => rfl, .found ?_⟩
      rw [path]
      exact Hierarchy.tableAt_cons_eq_some.2 ⟨table, found, present, rfl⟩
  | false =>
      rcases ready.take (ε := MapError) with ⟨answer, asked, rest, taken, advances, agrees, same, _⟩
      cases answer with
      | none =>
          have short : (level.path address).length ≤ 3 := level.length_path_le
          have untouched : ¬ keeps table := fun isKept =>
            ready.kept table isKept ⟨level.path address, short, leads.owns_path level, found⟩
          have stillFound := advances.widened.kept _ _ short (leads.owns_path level) found
          have missing : space.hierarchy.tableAt asked.memory (child.path address) = none := by
            rw [path, Hierarchy.tableAt_cons_of_some stillFound,
              Memory.presentEntry_eq_none (by rw [agrees.entry_eq untouched, present]),
              Option.map_none]
          exact ⟨_, asked, rest, run_ensureChild_of_dry present taken, advances, same,
            .exhausted taken (Hierarchy.tableAt_pt_of_none missing)⟩
      | some frame =>
          rcases ready.linking leads next found present taken with
            ⟨rest, advances, same, linking, handed, notKept⟩
          have reached := linking.reach_linked advances.ready.addressable advances.ready.served
          refine ⟨_, _, rest, run_ensureChild present taken reached,
            linking.advances advances handed notKept, ?_, ?_⟩
          · rw [memory_linkedPaged]
            exact same.trans linking.grows.leaves
          · refine .found ?_
            rw [memory_linkedPaged]
            exact linking.tableAt_cleared

theorem Ready.reach (ready : space.Ready supply before offers keeps)
    (leads : space.hierarchy.Leads address)
    (found : space.hierarchy.tableAt before.memory (level.path address) = some table) :
    (space.reachTable level address table : Operation (Paged F) MapError Frame).run before =
      (.done table, before) := by
  have reached := reach_eq_ok ready.addressable ready.served (ready.tree.hasTables leads level)
    found
  rw [reachTable, Paged.run_inspect, reached]

/-- The way down is a walk along the levels. -/
theorem descend_spec (ready : space.Ready supply before offers keeps)
    (leads : space.hierarchy.Leads address) (next : level.below = below)
    (found : space.hierarchy.tableAt before.memory (level.path address) = some table) :
    ∃ outcome after rest,
      (space.descend address level table below).run before = (outcome, after) ∧
      space.Advances supply keeps offers rest before after ∧
      space.SameLeaves before.memory after.memory ∧
      space.Descends address .pt after outcome := by
  induction below generalizing level table before offers with
  | nil =>
      cases Level.eq_pt_of_below_eq_nil next
      exact ⟨_, before, offers, Operation.run_pure .., .refl ready, fun _ _ _ => rfl, .found found⟩
  | cons child below induction =>
      rw [descend, Operation.run_bind_of_done (ready.reach leads found)]
      rcases ensureChild_spec ready leads next found with
        ⟨outcome, middle, between, ran, first, same, descends⟩
      cases descends with
      | exhausted dry absent =>
          exact ⟨_, middle, between, Operation.run_bind_of_refused ran, first, same,
            .exhausted dry absent⟩
      | found foundChild =>
          rw [Operation.run_bind_of_done ran]
          rcases induction first.ready (Level.below_eq_cons next).1 foundChild with
            ⟨outcome, after, rest, further, second, sameFurther, descends⟩
          exact ⟨outcome, after, rest, further, first.trans second, same.trans sameFurther,
            descends⟩

end

/-! ## The leaf -/

section

variable {target : PhysicalAddress} {address : VirtualAddress} {rights : Rights} {table : Frame}

/-- How mapping a page ends, by the leaf that the address had before. -/
inductive Maps (space : AddressSpace) (target : PhysicalAddress) (address : VirtualAddress)
    (rights : Rights) (before after : Paged F) : Outcome MapError Unit → Prop
  | placed (absent : space.hierarchy.entryAt before.memory address.leafPath = none)
      (leaves : ∀ path : TablePath, path.length = 4 → space.hierarchy.Owns path →
        space.hierarchy.entryAt after.memory path =
          if path = address.leafPath then some (.leaf (target.page .small) rights)
          else space.hierarchy.entryAt before.memory path) :
      Maps space target address rights before after (.done ())
  | present {leaf : PageEntry}
      (existing : space.hierarchy.entryAt before.memory address.leafPath = some leaf)
      (same : space.SameLeaves before.memory after.memory) :
      Maps space target address rights before after
        (.refused (.alreadyMapped address leaf.frame.base))
  | exhausted {asked : Paged F} {missing : Level}
      (dry : (FrameSource.take : Operation (Paged F) MapError (Option Frame)).run asked =
        (.done none, after))
      (absent : space.hierarchy.entryAt before.memory address.leafPath = none)
      (same : space.SameLeaves before.memory after.memory) :
      Maps space target address rights before after (.refused (.outOfMemory missing))

def filledPaged (space : AddressSpace) (paged : Paged F) (target : PhysicalAddress)
    (address : VirtualAddress) (rights : Rights) (table : Frame) : Paged F :=
  ⟨⟨paged.memory.setEntry table (Level.pt.index address) (.leaf (target.page .small) rights),
    (space.access.flushedByLeaf address).reverse ++ paged.machine.history⟩, paged.source⟩

omit [FrameSource F] in
theorem memory_filledPaged (paged : Paged F) :
    (filledPaged space paged target address rights table).memory =
      paged.memory.setEntry table (Level.pt.index address)
        (.leaf (target.page .small) rights) := by
  rw [filledPaged, Paged.memory]

omit [FrameSource F] in
theorem source_filledPaged (paged : Paged F) :
    (filledPaged space paged target address rights table).source = paged.source := by
  rw [filledPaged]

theorem run_map_of_refused {cause : MapError}
    (descended : (space.descend address .pml4 space.root [.pdpt, .pd, .pt]).run before =
      (.refused cause, after)) :
    (space.map target address rights).run before = (.refused cause, after) := by
  rw [map, Operation.run_bind_of_refused descended]

theorem run_map_of_done (target : PhysicalAddress) (rights : Rights)
    (descended : (space.descend address .pml4 space.root [.pdpt, .pd, .pt]).run before =
      (.done table, after))
    (reached : (space.reachTable .pt address table : Operation (Paged F) MapError Frame).run after =
      (.done table, after)) :
    (space.map target address rights).run before =
      match after.memory.presentEntry table (Level.pt.index address) with
      | some leaf => (.refused (.alreadyMapped address leaf.frame.base), after)
      | none => (.done (), filledPaged space after target address rights table) := by
  rw [map, Operation.run_bind_of_done descended, Operation.run_bind_of_done reached,
    Operation.run_bind_of_done (Paged.run_inspect ..), Memory.presentEntry]
  cases present : (after.memory.entry table (Level.pt.index address)).present with
  | true => simp only [if_true, Operation.run_refuse]
  | false =>
      simp only [Bool.false_eq_true, if_false, Operation.run_bind, Paged.run_changeMemory,
        Paged.run_flush, Operation.run_report]
      rw [filledPaged, Paged.memory]

/-- What has to be known of a machine before the leaf of an address is filled in. -/
structure Filling (space : AddressSpace) (memory : Memory) (address : VirtualAddress)
    (table : Frame) : Prop where
  tree : space.hierarchy.IsTree memory
  leads : space.hierarchy.Leads address
  found : space.hierarchy.tableAt memory (Level.pt.path address) = some table

namespace Filling

variable {memory : Memory} {leaf : PageEntry} (filling : space.Filling memory address table)

include filling

theorem isTable : space.hierarchy.IsTable memory table :=
  ⟨Level.pt.path address, Nat.le_refl _, filling.leads.owns_path .pt, filling.found⟩

theorem rewrites : space.hierarchy.Rewrites memory
    (memory.setEntry table (Level.pt.index address) leaf) table (Level.pt.index address) leaf :=
  Hierarchy.rewrites_setEntry (filling.tree.inside table filling.isTable)

theorem isServed (served : space.IsServed memory) :
    space.IsServed (memory.setEntry table (Level.pt.index address) leaf) := by
  apply served.of_entry_eq
  intro _ _
  refine filling.rewrites.others _ _ Hierarchy.isTable_root (.inl fun isRoot => ?_)
  have unique := filling.tree.unique [] (Level.pt.path address) table (by simp)
    Hierarchy.owns_nil (isRoot ▸ rfl) (Nat.le_refl _) (filling.leads.owns_path .pt) filling.found
  cases unique

theorem widens {fresh : Frame → Prop} (present : leaf.present = true) :
    space.hierarchy.Extends fresh memory
      (memory.setEntry table (Level.pt.index address) leaf) :=
  Hierarchy.extends_of_filled filling.tree filling.rewrites present filling.found rfl
    (filling.leads.owns_path .pt)
    fun frame inside => ((Memory.agreesOutside_setEntry ..).hasFrame_iff frame).2 inside

theorem leaves (present : leaf.present = true) (path : TablePath) (long : path.length = 4)
    (owns : space.hierarchy.Owns path) :
    space.hierarchy.entryAt (memory.setEntry table (Level.pt.index address) leaf) path =
      if path = address.leafPath then some leaf else space.hierarchy.entryAt memory path :=
  Hierarchy.entryAt_of_filled filling.tree filling.rewrites present filling.found rfl
    (filling.leads.owns_path .pt) path long owns

end Filling

/-- Mapping a page of a ready space never faults. -/
theorem map_spec (target : PhysicalAddress) (rights : Rights)
    (ready : space.Ready supply before offers keeps) (leads : space.hierarchy.Leads address) :
    ∃ outcome after rest,
      (space.map target address rights).run before = (outcome, after) ∧
      space.Advances supply keeps offers rest before after ∧
      space.Maps target address rights before after outcome := by
  rcases descend_spec ready leads (show Level.pml4.below = [.pdpt, .pd, .pt] from rfl)
      (Hierarchy.tableAt_nil) with ⟨outcome, middle, rest, ran, advances, same, descends⟩
  have sameLeaf := same address.leafPath address.length_leafPath leads.owns_leafPath
  cases descends with
  | exhausted dry absent =>
      exact ⟨_, middle, rest, run_map_of_refused ran, advances,
        .exhausted dry (sameLeaf.symm.trans (Hierarchy.entryAt_cons_of_none absent)) same⟩
  | found found =>
      have mapped := run_map_of_done target rights ran
        (advances.ready.reach leads found)
      have current : space.hierarchy.entryAt before.memory address.leafPath =
          middle.memory.presentEntry _ (Level.pt.index address) :=
        sameLeaf.symm.trans (Hierarchy.entryAt_cons_of_some found)
      cases existing : middle.memory.presentEntry _ (Level.pt.index address) with
      | some leaf =>
          rw [existing] at mapped current
          exact ⟨_, middle, rest, mapped, advances, .present current same⟩
      | none =>
          rw [existing] at mapped current
          have filling : space.Filling middle.memory address _ :=
            ⟨advances.ready.tree, leads, found⟩
          have present := PageEntry.present_leaf (target.page .small) rights
          refine ⟨_, _, rest, mapped, ?_, .placed current ?_⟩
          · refine advances.write (fun _ impossible => False.elim impossible) ?_ ?_ ?_
              (source_filledPaged middle)
            all_goals rw [memory_filledPaged]
            · exact filling.widens present
            · apply (Memory.agreesOutside_setEntry ..).mono
              rintro frame rfl
              exact .inl filling.isTable
            · exact filling.isServed advances.ready.served
          · intro path long owns
            rw [memory_filledPaged, filling.leaves present path long owns, same path long owns]

/-! ## Mapping that is done -/

omit [FrameSource F] in
theorem tableAt_root (address : VirtualAddress) {memory : Memory} :
    space.hierarchy.tableAt memory (Level.pml4.path address) = some space.root :=
  Hierarchy.tableAt_nil

theorem run_descend_of_found {level child : Level} {below : List Level} {next : Frame}
    (ready : space.Ready supply before offers keeps) (leads : space.hierarchy.Leads address)
    (further : level.below = child :: below)
    (found : space.hierarchy.tableAt before.memory (level.path address) = some table)
    (foundChild : space.hierarchy.tableAt before.memory (child.path address) = some next) :
    (space.descend address level table (child :: below)).run before =
      (space.descend address child next below).run before := by
  rw [(Level.below_eq_cons further).2.2 address] at foundChild
  rcases Hierarchy.tableAt_cons_eq_some.1 foundChild with ⟨same, alsoFound, present, frame⟩
  rw [found] at alsoFound
  cases alsoFound
  rw [descend, Operation.run_bind_of_done (ready.reach leads found),
    Operation.run_bind_of_done (run_ensureChild_of_present present), frame]

/-- Whatever table the walk has come to, the way down leads through it. -/
theorem run_descend_to {level : Level} (ready : space.Ready supply before offers keeps)
    (leads : space.hierarchy.Leads address)
    (found : space.hierarchy.tableAt before.memory (level.path address) = some table) :
    (space.descend address .pml4 space.root Level.pml4.below).run before =
      (space.descend address level table level.below).run before := by
  have fromPdpt : ∀ pdpt, space.hierarchy.tableAt before.memory (Level.pdpt.path address) =
      some pdpt → (space.descend address .pml4 space.root Level.pml4.below).run before =
        (space.descend address .pdpt pdpt Level.pdpt.below).run before :=
    fun pdpt => run_descend_of_found ready leads rfl (tableAt_root address)
  have fromPd : ∀ pd, space.hierarchy.tableAt before.memory (Level.pd.path address) = some pd →
      (space.descend address .pml4 space.root Level.pml4.below).run before =
        (space.descend address .pd pd Level.pd.below).run before := by
    intro pd foundPd
    rcases Hierarchy.tableAt_cons_eq_some.1 foundPd with ⟨pdpt, foundPdpt, _⟩
    exact (fromPdpt pdpt foundPdpt).trans (run_descend_of_found ready leads rfl foundPdpt foundPd)
  cases level with
  | pml4 =>
      cases found
      rfl
  | pdpt => exact fromPdpt table found
  | pd => exact fromPd table found
  | pt =>
      rcases Hierarchy.tableAt_cons_eq_some.1 found with ⟨pd, foundPd, _⟩
      exact (fromPd pd foundPd).trans (run_descend_of_found ready leads rfl foundPd found)

/-- The frames that a source hands out next, whatever the machine holds, and what is left of it
then. -/
inductive Yields : List Frame → F → F → Prop
  | nil (source : F) : Yields [] source source
  | cons {frame : Frame} {frames : List Frame} {source next rest : F}
      (taken : ∀ machine, (FrameSource.take : Operation (Paged F) MapError (Option Frame)).run
        ⟨machine, source⟩ = (.done (some frame), ⟨machine, next⟩))
      (further : Yields frames next rest) : Yields (frame :: frames) source rest

theorem run_descend_of_yields {level : Level} {below : List Level} {frames : List Frame} {rest : F}
    (ready : space.Ready supply before offers keeps) (leads : space.hierarchy.Leads address)
    (next : level.below = below)
    (found : space.hierarchy.tableAt before.memory (level.path address) = some table)
    (missing : ∀ child ∈ below.head?,
      space.hierarchy.tableAt before.memory (child.path address) = none)
    (yields : Yields frames before.source rest) (enough : frames.length = below.length) :
    ∃ last after, (space.descend address level table below).run before = (.done last, after) ∧
      after.source = rest := by
  induction below generalizing level table before offers frames with
  | nil =>
      cases List.eq_nil_of_length_eq_zero enough
      cases yields
      exact ⟨table, before, Operation.run_pure .., rfl⟩
  | cons child below induction =>
      rcases List.exists_cons_of_length_eq_add_one enough with ⟨frame, others, rfl⟩
      rcases yields with _ | ⟨taken, later⟩
      have taken := taken before.machine
      have further := Level.below_eq_cons next
      have absent : (before.memory.entry table (level.index address)).present = false := by
        cases present : (before.memory.entry table (level.index address)).present with
        | false => rfl
        | true =>
            have linked := Hierarchy.tableAt_cons_eq_some.2 ⟨table, found, present, rfl⟩
            rw [← further.2.2 address, missing child rfl] at linked
            cases linked
      rcases ready.linking leads next found absent taken with
        ⟨_, advances, _, linking, handed, notKept⟩
      have reached := linking.reach_linked advances.ready.addressable advances.ready.served
      have linked := linking.advances advances handed notKept
      have foundChild := linking.tableAt_cleared
      rw [← memory_linkedPaged] at foundChild
      rw [descend, Operation.run_bind_of_done (ready.reach leads found),
        Operation.run_bind_of_done (run_ensureChild absent taken reached)]
      refine induction linked.ready further.1 foundChild (fun lower isNext => ?_) later
        (Nat.succ.inj enough)
      -- The new table is empty, so nothing lies below it.
      rcases List.head?_eq_some_iff.1 isNext with ⟨rest, lowest⟩
      rw [(Level.below_eq_cons (further.1.trans lowest)).2.2 address,
        Hierarchy.tableAt_cons_of_some foundChild, memory_linkedPaged,
        Memory.presentEntry_eq_none, Option.map_none]
      rw [Memory.entry_clearTable_same _ _ ((hasFrame_linkedMemory frame).2 linking.inside)]
      exact PageEntry.present_zero

/-- From the last table that exists on, a page is mapped if the source has a frame for each
table that is missing. -/
theorem run_map_of_yields {level child : Level} {below : List Level} {frames : List Frame}
    {rest : F} (target : PhysicalAddress) (rights : Rights)
    (ready : space.Ready supply before offers keeps) (leads : space.hierarchy.Leads address)
    (next : level.below = child :: below)
    (found : space.hierarchy.tableAt before.memory (level.path address) = some table)
    (missing : space.hierarchy.tableAt before.memory (child.path address) = none)
    (yields : Yields frames before.source rest) (enough : frames.length = level.below.length) :
    ∃ after, (space.map target address rights).run before = (.done (), after) ∧
      after.source = rest := by
  have missingNext : ∀ other ∈ level.below.head?,
      space.hierarchy.tableAt before.memory (other.path address) = none := by
    rw [next]
    rintro _ ⟨⟩
    exact missing
  rcases run_descend_of_yields ready leads rfl found missingNext yields enough with
    ⟨last, middle, descended, source⟩
  have descended := (run_descend_to ready leads found).trans descended
  rcases descend_spec ready leads rfl (tableAt_root address) with
    ⟨_, _, _, ran, advances, same, descends⟩
  cases descended.symm.trans ran
  cases descends with
  | found foundLast =>
      have absent := same address.leafPath address.length_leafPath leads.owns_leafPath
      rw [Hierarchy.entryAt_leafPath_of_none missing, Address.leafPath,
        Hierarchy.entryAt_cons_of_some foundLast] at absent
      have mapped := run_map_of_done target rights descended (advances.ready.reach leads foundLast)
      rw [absent] at mapped
      exact ⟨_, mapped, (source_filledPaged _).trans source⟩

end

end EarlyMemory.AddressSpace
