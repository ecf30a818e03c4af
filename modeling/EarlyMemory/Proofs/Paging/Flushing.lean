import EarlyMemory.Proofs.Paging.Equivalence
import EarlyMemory.Proofs.Paging.NewTables
import EarlyMemory.Proofs.Paging.Window

/-!
# What mapping flushes

Mapping a page through the recursive map flushes each page whose translation it changes, and
no other: the pages in the window where the new tables appear, from the topmost one down, and
at last the mapped page itself. Nothing appears below a new table, since it is cleared.
-/

namespace EarlyMemory.AddressSpace

open Memory (AgreesOutside)

variable {F : Type} {space : AddressSpace} {before middle after : Paged F}
  {address : VirtualAddress} {level child : Level} {below levels upper lower : List Level}
  {table frame : Frame}

/-! ## Through the recursive map -/

section

variable {root : Frame} {page : VirtualAddress} {own : TablePath} {count : Nat}

/-- What mapping a page flushes through the recursive map. -/
def flushes (address : VirtualAddress) (linked : List Level) (outcome : Outcome MapError Unit) :
    List VirtualAddress :=
  linked.map (fun level => RecursiveMap.tableAddress level address) ++
    if outcome = .done () then [address] else []

theorem flushedByLinks_recursive :
    flushedByLinks ⟨root, .recursive root⟩ address levels =
      levels.map fun level => RecursiveMap.tableAddress level address := by
  rw [flushedByLinks, List.map_eq_flatMap]
  rfl

theorem mem_flushes_iff {outcome : Outcome MapError Unit}
    (leads : (Hierarchy.without root RecursiveMap.slot).Leads address)
    (path : page.leafPath = own ++ List.replicate count RecursiveMap.slot)
    (owns : (Hierarchy.without root RecursiveMap.slot).Owns own) :
    page.pageKey ∈ (flushes address levels outcome).map Address.pageKey ↔
      (∃ level ∈ levels, own = level.path address) ∨
        (outcome = .done () ∧ own = address.leafPath) := by
  have table : ∀ level : Level, (RecursiveMap.tableAddress level address).pageKey = page.pageKey ↔
      own = level.path address := fun level =>
    (Address.pageKey_eq_iff (RecursiveMap.leafPath_tableAddress level address)
      (leads.owns_path level) path owns).trans eq_comm
  have whole : address.leafPath = address.leafPath ++ List.replicate 0 RecursiveMap.slot :=
    (List.append_nil _).symm
  have leaf : address.pageKey = page.pageKey ↔ own = address.leafPath :=
    (Address.pageKey_eq_iff whole leads.owns_leafPath path owns).trans eq_comm
  rw [flushes, List.map_append, List.mem_append, List.map_map, List.mem_map]
  simp only [Function.comp_apply, table]
  by_cases done : outcome = .done ()
  · simp [done, ← leaf, eq_comm]
  · simp [done]

theorem nodup_flushes {outcome : Outcome MapError Unit}
    (leads : (Hierarchy.without root RecursiveMap.slot).Leads address)
    (order : levels.Sublist [.pdpt, .pd, .pt]) :
    ((flushes address levels outcome).map Address.pageKey).Nodup := by
  have distinct : levels.Nodup := List.Nodup.sublist order (by decide)
  have window : ∀ upper lower : Level, (RecursiveMap.tableAddress upper address).pageKey =
      (RecursiveMap.tableAddress lower address).pageKey → upper = lower := by
    intro upper lower same
    rw [Address.pageKey_eq_iff (RecursiveMap.leafPath_tableAddress upper address)
      (leads.owns_path upper) (RecursiveMap.leafPath_tableAddress lower address)
      (leads.owns_path lower)] at same
    have depth := congrArg List.length same
    rw [Level.length_path, Level.length_path] at depth
    exact Level.eq_of_depth_eq depth
  have outside : ∀ level : Level,
      (RecursiveMap.tableAddress level address).pageKey ≠ address.pageKey := by
    intro level same
    have whole : address.leafPath = address.leafPath ++ List.replicate 0 RecursiveMap.slot :=
      (List.append_nil _).symm
    rw [Address.pageKey_eq_iff (RecursiveMap.leafPath_tableAddress level address)
      (leads.owns_path level) whole leads.owns_leafPath] at same
    have depth := congrArg List.length same
    rw [Level.length_path, Address.length_leafPath] at depth
    exact absurd level.depth_le (by rw [depth]; decide)
  refine List.pairwise_map.2 (List.pairwise_append.2 ⟨List.pairwise_map.2 ?_, ?_, ?_⟩)
  · exact distinct.imp fun different same => different (window _ _ same)
  · split
    · exact List.pairwise_singleton ..
    · exact .nil
  · intro first isTable last isLeaf
    rcases List.mem_map.1 isTable with ⟨level, _, rfl⟩
    split at isLeaf
    · cases List.mem_singleton.1 isLeaf
      exact outside level
    · cases isLeaf

variable [FrameSource F] {supply : Supply F} {offers keeps : Frame → Prop} {start : Paged F}

/-- Whether mapping a page makes something new at a path: the table of a level or the leaf. -/
def IsNewAt (address : VirtualAddress) (linked : List Level) (outcome : Outcome MapError Unit)
    (own : TablePath) : Prop :=
  (∃ level ∈ linked, own = level.path address) ∨ (outcome = .done () ∧ own = address.leafPath)

/-- Where something is new there was nothing before; every other path leads where it did. -/
theorem tableAt_of_map {outcome : Outcome MapError Unit} {target : PhysicalAddress}
    {rights : Rights} (links : space.Links address levels before.memory after.memory)
    (maps : space.Maps target address rights before after outcome)
    (owns : space.hierarchy.Owns own) (short : own.length ≤ 4) :
    (IsNewAt address levels outcome own ∧ space.hierarchy.tableAt before.memory own = none ∧
      space.hierarchy.tableAt after.memory own ≠ none) ∨
    (¬ IsNewAt address levels outcome own ∧
      space.hierarchy.tableAt after.memory own = space.hierarchy.tableAt before.memory own) := by
  by_cases isTable : ∃ level ∈ levels, own = level.path address
  · rcases isTable with ⟨level, member, rfl⟩
    exact .inl ⟨.inl ⟨level, member, rfl⟩, links.fresh level member⟩
  by_cases isLeaf : own.length = 4
  · have nonempty : own ≠ [] := List.ne_nil_of_length_eq_add_one isLeaf
    have unchanged (same : space.SameLeaves before.memory after.memory) :
        space.hierarchy.tableAt after.memory own = space.hierarchy.tableAt before.memory own := by
      rw [Hierarchy.tableAt_eq_map_entryAt _ _ nonempty, same own isLeaf owns,
        ← Hierarchy.tableAt_eq_map_entryAt _ _ nonempty]
    cases maps with
    | present _ same => exact .inr ⟨fun new => by simp [IsNewAt, isTable] at new, unchanged same⟩
    | exhausted _ _ same =>
        exact .inr ⟨fun new => by simp [IsNewAt, isTable] at new, unchanged same⟩
    | placed absent leaves =>
        have placed := leaves own isLeaf owns
        rw [Hierarchy.tableAt_eq_map_entryAt _ _ nonempty,
          Hierarchy.tableAt_eq_map_entryAt _ _ nonempty, placed]
        by_cases here : own = address.leafPath
        · rw [if_pos here, here, absent]
          exact .inl ⟨.inr ⟨rfl, rfl⟩, rfl, Option.some_ne_none _⟩
        · rw [if_neg here]
          exact .inr ⟨fun new => by simp [IsNewAt, isTable, here] at new, rfl⟩
  · refine .inr ⟨?_, links.others own (by omega) owns fun level member same =>
      isTable ⟨level, member, same⟩⟩
    rintro (new | ⟨_, rfl⟩)
    · exact isTable new
    · exact isLeaf address.length_leafPath

end

section

variable {F : Type} [FrameSource F]

/-- With the recursive map installed in a tree, mapping a page flushes exactly the pages whose
translation it changes, each of them once: first the pages where new tables appear, from the
topmost table on, and last the mapped page. -/
theorem recursive_map_flushes_exactly (root : Frame) (supply : Supply F)
    (quiet : FrameSource.FlushesNothing F) (start : Paged F) (offers keeps : Frame → Prop)
    (fits : start.memory.base.number + start.memory.frames ≤ 1 <<< 40)
    (installed : RecursiveMap.isInstalled start.memory root = true)
    (tree : (Hierarchy.without root RecursiveMap.slot).IsTree start.memory)
    (supplied : supply.Holds start.memory start.source offers keeps)
    (offered : ∀ frame, offers frame → start.memory.HasFrame frame ∧
      ¬ (Hierarchy.without root RecursiveMap.slot).IsTable start.memory frame ∧ ¬ keeps frame)
    (kept : ∀ frame, keeps frame →
      ¬ (Hierarchy.without root RecursiveMap.slot).IsTable start.memory frame)
    (target : PhysicalAddress) (address : VirtualAddress) (rights : Rights)
    (outside : Level.pml4.index address ≠ RecursiveMap.slot) :
    ∃ outcome after linked,
      (map ⟨root, .recursive root⟩ target address rights).run start = (outcome, after) ∧
      (∀ cause, outcome ≠ .fault cause) ∧
      linked.Sublist [.pdpt, .pd, .pt] ∧
      (∀ level : Level, level ∈ linked ↔
        (Hierarchy.without root RecursiveMap.slot).tableAt start.memory (level.path address) =
            none ∧
          (Hierarchy.without root RecursiveMap.slot).tableAt after.memory (level.path address) ≠
            none) ∧
      after.machine.flushed = start.machine.flushed ++ flushes address linked outcome ∧
      ((flushes address linked outcome).map Address.pageKey).Nodup ∧
      ∀ page : VirtualAddress,
        page.pageKey ∈ (flushes address linked outcome).map Address.pageKey ↔
          start.memory.translate root page ≠ after.memory.translate root page := by
  have leads : (hierarchy ⟨root, .recursive root⟩).Leads address := fun hidden =>
    outside (Option.some.inj hidden).symm
  have ready : Ready ⟨root, .recursive root⟩ supply start offers keeps := by
    refine ⟨?_, tree, ⟨rfl, installed⟩, supplied, fun frame isOffered => ?_, kept⟩
    · simp only [Memory.IsAddressable, Nat.reduceShiftLeft] at fits ⊢
      omega
    · rcases offered frame isOffered with ⟨inside, notTable, notKept⟩
      have below := inside.2
      refine ⟨inside, ?_, notTable, notKept⟩
      unfold Page.IsLinkable
      omega
  rcases map_spec target rights ready leads with ⟨outcome, after, rest, ran, advances, maps⟩
  rcases map_adds quiet ready leads ran with ⟨linked, order, links, _, flushed, _⟩
  refine ⟨outcome, after, linked, ran, ?_, order, links.mem_iff leads, ?_,
    nodup_flushes leads order, fun page => ?_⟩
  · rintro cause rfl
    cases maps
  · rw [flushed, flushedByLinks_recursive]
    rfl
  · rcases Hierarchy.exists_own root RecursiveMap.slot page.leafPath with ⟨own, count, path, owns⟩
    have short : own.length ≤ 4 := by
      have length := congrArg List.length path
      rw [List.length_append, Address.length_leafPath] at length
      omega
    rw [mem_flushes_iff leads path owns,
      Memory.translate_eq_tableAt ready.addressable tree installed page path,
      Memory.translate_eq_tableAt advances.ready.addressable advances.ready.tree
        advances.ready.served.2 page path]
    rcases tableAt_of_map links maps owns short with ⟨new, absent, present⟩ | ⟨old, same⟩
    · have absent : (Hierarchy.without root RecursiveMap.slot).tableAt start.memory own = none :=
        absent
      refine iff_of_true new fun same => present ?_
      rw [absent, Option.map_none] at same
      exact Option.map_eq_none_iff.1 (Except.ok.inj same).symm
    · have same : (Hierarchy.without root RecursiveMap.slot).tableAt after.memory own =
          (Hierarchy.without root RecursiveMap.slot).tableAt start.memory own := same
      exact iff_of_false old fun differ => differ (by rw [same])

end

theorem isTable_foldedMachine {frame : Frame}
    (isTable : (Hierarchy.without freshSpace.root RecursiveMap.slot).IsTable foldedMachine.memory
      frame) : frame = freshSpace.root := by
  have same := RecursiveMap.sameButSlot_install freshSpace.root freshMachine.memory
  rw [← memory_foldedMachine] at same
  exact isTable_freshMachine (Hierarchy.isTable_of_without isTree_freshMachine same isTable)

theorem foldedMachine_flushes_exactly : ∃ outcome after linked,
    (map ⟨freshSpace.root, .recursive freshSpace.root⟩ ⟨0x200000, by decide⟩ ⟨0, by decide⟩
      .readWrite).run foldedMachine = (outcome, after) ∧
    after.machine.flushed = foldedMachine.machine.flushed ++ flushes ⟨0, by decide⟩ linked outcome ∧
    ∀ page : VirtualAddress,
      page.pageKey ∈ (flushes ⟨0, by decide⟩ linked outcome).map Address.pageKey ↔
        foldedMachine.memory.translate freshSpace.root page ≠
          after.memory.translate freshSpace.root page := by
  have fits : foldedMachine.memory.base.number + foldedMachine.memory.frames ≤ 1 <<< 40 := by
    rw [agreesOutside_foldedMachine.base, agreesOutside_foldedMachine.frames]
    decide
  have same := RecursiveMap.sameButSlot_install freshSpace.root freshMachine.memory
  rw [← memory_foldedMachine] at same
  have tree := Hierarchy.isTree_without isTree_freshMachine same fun frame inside =>
    (agreesOutside_foldedMachine.hasFrame_iff frame).2 inside
  have offered : ∀ frame, freshMachine.source.Offers frame →
      foldedMachine.memory.HasFrame frame ∧
        ¬ (Hierarchy.without freshSpace.root RecursiveMap.slot).IsTable foldedMachine.memory
          frame ∧ ¬ False := by
    rintro frame ⟨above, below⟩
    simp only [freshMachine] at above below
    refine ⟨(agreesOutside_foldedMachine.hasFrame_iff frame).2 ⟨?_, ?_⟩, fun isTable => ?_, id⟩
    · change 0x100 ≤ frame.number
      omega
    · change frame.number < 0x100 + 16
      omega
    · rw [isTable_foldedMachine isTable] at above
      exact absurd above (by decide)
  rcases recursive_map_flushes_exactly freshSpace.root FramePool.records.supply
    FramePool.flushesNothing foldedMachine freshMachine.source.Offers (fun _ => False) fits
    isInstalled_foldedMachine tree
    ⟨show 0x101 + 15 < 1 <<< 52 by decide, fun _ => Iff.rfl, fun _ => id⟩ offered
    (fun _ impossible => impossible.elim) ⟨0x200000, by decide⟩ ⟨0, by decide⟩ .readWrite
    (by decide) with ⟨outcome, after, linked, ran, _, _, _, flushed, _, exactly⟩
  exact ⟨outcome, after, linked, ran, flushed, exactly⟩

end EarlyMemory.AddressSpace
