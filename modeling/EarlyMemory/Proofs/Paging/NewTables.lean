import EarlyMemory.Proofs.Frames.History
import EarlyMemory.Proofs.Paging.Mapping

/-!
# What mapping adds

Besides its leaf, mapping a page adds the tables that were missing on its walk and nothing
else. Each of them takes one frame from the source and is flushed once. Mapping runs out of
memory only while the last table of the walk is missing.
-/

namespace EarlyMemory.AddressSpace

variable {F : Type} {space : AddressSpace} {before middle after : Paged F}
  {address : VirtualAddress} {level child : Level} {below levels upper lower : List Level}
  {table frame : Frame}

/-! ## New tables -/

/-- On the walk for an address the tables of some levels are new; no other path leads
elsewhere than it did. -/
structure Links (space : AddressSpace) (address : VirtualAddress) (levels : List Level)
    (before after : Memory) : Prop where
  fresh : ∀ level ∈ levels, space.hierarchy.tableAt before (level.path address) = none ∧
    space.hierarchy.tableAt after (level.path address) ≠ none
  others : ∀ path : TablePath, path.length ≤ 3 → space.hierarchy.Owns path →
    (∀ level ∈ levels, path ≠ level.path address) →
    space.hierarchy.tableAt after path = space.hierarchy.tableAt before path

namespace Links

variable {before middle after : Memory}

theorem of_same (same : ∀ path : TablePath, path.length ≤ 3 → space.hierarchy.Owns path →
    space.hierarchy.tableAt after path = space.hierarchy.tableAt before path) :
    space.Links address [] before after :=
  ⟨fun _ impossible => absurd impossible List.not_mem_nil, fun path short owns _ =>
    same path short owns⟩

/-- A table that is new at first stays, and one that is new later was not there at first. -/
theorem trans (leads : space.hierarchy.Leads address)
    (first : space.Links address upper before middle)
    (second : space.Links address lower middle after) :
    space.Links address (upper ++ lower) before after := by
  have short : ∀ level : Level, (level.path address).length ≤ 3 :=
    fun level => level.length_path_le
  refine ⟨fun level member => ?_, fun path short owns other => ?_⟩
  · rcases List.mem_append.1 member with isUpper | isLower
    · rcases first.fresh level isUpper with ⟨absent, present⟩
      refine ⟨absent, ?_⟩
      rwa [second.others _ (short level) (leads.owns_path level)
        fun next isNext same => present (same ▸ (second.fresh next isNext).1)]
    · rcases second.fresh level isLower with ⟨absent, present⟩
      refine ⟨?_, present⟩
      rwa [← first.others _ (short level) (leads.owns_path level)
        fun next isNext same => (first.fresh next isNext).2 (same ▸ absent)]
  · rw [second.others path short owns fun level isLower =>
        other level (List.mem_append_right _ isLower),
      first.others path short owns fun level isUpper =>
        other level (List.mem_append_left _ isUpper)]

theorem mem_iff (links : space.Links address levels before after)
    (leads : space.hierarchy.Leads address) (level : Level) :
    level ∈ levels ↔ space.hierarchy.tableAt before (level.path address) = none ∧
      space.hierarchy.tableAt after (level.path address) ≠ none := by
  refine ⟨links.fresh level, fun fresh => Classical.byContradiction fun notMember => ?_⟩
  have short : (level.path address).length ≤ 3 := level.length_path_le
  refine fresh.2 ((links.others _ short (leads.owns_path level) ?_).trans fresh.1)
  intro next isNext same
  have depth := congrArg List.length same
  rw [Level.length_path, Level.length_path] at depth
  exact notMember (Level.eq_of_depth_eq depth ▸ isNext)

end Links

def flushedByLinks (space : AddressSpace) (address : VirtualAddress) (levels : List Level) :
    List VirtualAddress :=
  levels.flatMap fun level => space.access.flushedByLink level address

theorem flushedByLinks_append :
    space.flushedByLinks address (upper ++ lower) =
      space.flushedByLinks address upper ++ space.flushedByLinks address lower :=
  List.flatMap_append

theorem flushed_linkedPaged (paged : Paged F) :
    (linkedPaged space paged address level child table frame).machine.flushed =
      paged.machine.flushed ++ space.access.flushedByLink child address := by
  rw [linkedPaged, Machine.flushed_mk_reverse_append, Machine.flushed, Machine.flushed]

theorem flushed_filledPaged {target : PhysicalAddress} {rights : Rights} (paged : Paged F) :
    (filledPaged space paged target address rights table).machine.flushed =
      paged.machine.flushed ++ space.access.flushedByLeaf address := by
  rw [filledPaged, Machine.flushed_mk_reverse_append, Machine.flushed, Machine.flushed]

/-! ## On the way down -/

section

variable [FrameSource F] {supply : Supply F} {offers keeps : Frame → Prop}

/-- What a part of mapping adds, is charged for and flushes are the tables of some levels, from
the topmost one down. -/
structure AddsTables (space : AddressSpace) (address : VirtualAddress) (below : List Level)
    (levels : List Level) (before after : Paged F) : Prop where
  order : levels.Sublist below
  links : space.Links address levels before.memory after.memory
  grants : Grants levels.length before.source after.source
  flushed : after.machine.flushed = before.machine.flushed ++ space.flushedByLinks address levels

namespace AddsTables

theorem refl (before : Paged F) : space.AddsTables address below [] before before :=
  ⟨List.nil_sublist _, .of_same fun _ _ _ => rfl, .none _, (List.append_nil _).symm⟩

theorem trans (leads : space.hierarchy.Leads address)
    (first : space.AddsTables address [child] upper before middle)
    (second : space.AddsTables address below lower middle after) :
    space.AddsTables address (child :: below) (upper ++ lower) before after where
  order := first.order.append second.order
  links := first.links.trans leads second.links
  grants := by
    rw [List.length_append, Nat.add_comm]
    exact first.grants.trans second.grants
  flushed := by
    rw [second.flushed, first.flushed, flushedByLinks_append, List.append_assoc]

theorem mono (first : space.AddsTables address [child] levels before after) :
    space.AddsTables address (child :: below) levels before after :=
  ⟨first.order.trans (List.singleton_sublist.2 List.mem_cons_self), first.links, first.grants,
    first.flushed⟩

end AddsTables

theorem flushed_of_take (quiet : FrameSource.FlushesNothing F) {answer : Option Frame}
    (taken : (FrameSource.take : Operation (Paged F) MapError (Option Frame)).run before =
      (.done answer, after)) : after.machine.flushed = before.machine.flushed :=
  congrArg List.reverse ((quiet MapError before.machine.history).of_run rfl taken)

theorem Ready.tableAt_of_take (ready : space.Ready supply before offers keeps)
    {answer : Option Frame}
    (taken : (FrameSource.take : Operation (Paged F) MapError (Option Frame)).run before =
      (.done answer, after)) (path : TablePath) (short : path.length ≤ 3)
    (owns : space.hierarchy.Owns path) :
    space.hierarchy.tableAt after.memory path = space.hierarchy.tableAt before.memory path := by
  rcases ready.take (ε := MapError) with ⟨_, _, _, ran, _, agrees, _⟩
  rw [taken] at ran
  cases ran
  exact Hierarchy.tableAt_congr (fun table index isTable =>
    agrees.entry_eq (fun isKept => ready.kept table isKept isTable) index) path (by omega) owns

variable (quiet : FrameSource.FlushesNothing F)

include quiet

theorem ensureChild_adds {outcome : Outcome MapError Frame}
    (ready : space.Ready supply before offers keeps) (leads : space.hierarchy.Leads address)
    (next : level.below = child :: below)
    (found : space.hierarchy.tableAt before.memory (level.path address) = some table)
    (ran : (space.ensureChild table (level.index address) child address).run before =
      (outcome, after)) : ∃ levels, space.AddsTables address [child] levels before after := by
  cases present : (before.memory.entry table (level.index address)).present with
  | true =>
      cases (run_ensureChild_of_present present).symm.trans ran
      exact ⟨[], .refl before⟩
  | false =>
      rcases ready.take (ε := MapError) with ⟨answer, asked, _, taken, _⟩
      have same := ready.tableAt_of_take taken
      have asking := flushed_of_take quiet taken
      cases answer with
      | none =>
          cases (run_ensureChild_of_dry present taken).symm.trans ran
          exact ⟨[], List.nil_sublist _, .of_same same, .dry taken (.none _),
            asking.trans (List.append_nil _).symm⟩
      | some frame =>
          rcases ready.linking leads next found present taken with ⟨_, advances, _, linking, _⟩
          have reached := linking.reach_linked advances.ready.addressable advances.ready.served
          cases (run_ensureChild present taken reached).symm.trans ran
          refine ⟨[child], List.Sublist.refl _, ⟨?_, ?_⟩, ?_, ?_⟩
          · intro only member
            cases List.mem_singleton.1 member
            have absent : space.hierarchy.tableAt before.memory (child.path address) = none := by
              rw [linking.path_child, Hierarchy.tableAt_cons_of_some found,
                Memory.presentEntry_eq_none present, Option.map_none]
            rw [memory_linkedPaged, linking.tableAt_cleared]
            exact ⟨absent, Option.some_ne_none frame⟩
          · intro path short owns other
            rw [memory_linkedPaged, linking.tableAt_cleared_eq short owns,
              if_neg (other child List.mem_cons_self), same path short owns]
          · rw [source_linkedPaged]
            exact .handed taken (.none asked.source)
          · rw [flushed_linkedPaged, asking, flushedByLinks, List.flatMap_singleton]

theorem descend_adds {outcome : Outcome MapError Frame}
    (ready : space.Ready supply before offers keeps) (leads : space.hierarchy.Leads address)
    (next : level.below = below)
    (found : space.hierarchy.tableAt before.memory (level.path address) = some table)
    (ran : (space.descend address level table below).run before = (outcome, after)) :
    ∃ levels, space.AddsTables address below levels before after := by
  induction below generalizing level table before offers with
  | nil =>
      cases ran
      exact ⟨[], .refl _⟩
  | cons child below induction =>
      rw [descend, Operation.run_bind_of_done (ready.reach leads found)] at ran
      rcases ensureChild_spec ready leads next found with
        ⟨_, middle, between, ensured, first, _, descends⟩
      rcases ensureChild_adds quiet ready leads next found ensured with ⟨upper, adds⟩
      cases descends with
      | exhausted =>
          rw [Operation.run_bind_of_refused ensured] at ran
          cases ran
          exact ⟨upper, adds.mono⟩
      | found foundChild =>
          rw [Operation.run_bind_of_done ensured] at ran
          rcases induction first.ready (Level.below_eq_cons next).1 foundChild ran with
            ⟨lower, further⟩
          exact ⟨upper ++ lower, adds.trans leads further⟩

/-- The new tables are flushed first, and then the page if it was mapped. Memory runs out only
while the last table is missing. -/
theorem map_adds {outcome : Outcome MapError Unit} {target : PhysicalAddress} {rights : Rights}
    (ready : space.Ready supply before offers keeps) (leads : space.hierarchy.Leads address)
    (ran : (space.map target address rights).run before = (outcome, after)) :
    ∃ levels, levels.Sublist [.pdpt, .pd, .pt] ∧
      space.Links address levels before.memory after.memory ∧
      Grants levels.length before.source after.source ∧
      after.machine.flushed = before.machine.flushed ++ (space.flushedByLinks address levels ++
        if outcome = .done () then space.access.flushedByLeaf address else []) ∧
      ∀ missing, outcome = .refused (.outOfMemory missing) →
        space.hierarchy.tableAt after.memory (Level.pt.path address) = none := by
  have next : Level.pml4.below = [.pdpt, .pd, .pt] := rfl
  rcases descend_spec ready leads next Hierarchy.tableAt_nil with
    ⟨_, middle, rest, descended, advances, _, descends⟩
  rcases descend_adds quiet ready leads next Hierarchy.tableAt_nil descended with
    ⟨levels, order, links, grants, flushed⟩
  refine ⟨levels, order, ?_⟩
  cases descends with
  | exhausted _ absent =>
      cases (run_map_of_refused descended).symm.trans ran
      rw [if_neg (by simp), List.append_nil]
      exact ⟨links, grants, flushed, fun _ _ => absent⟩
  | @found table found =>
      have mapped := run_map_of_done target rights descended (advances.ready.reach leads found)
      cases existing : middle.memory.presentEntry _ (Level.pt.index address) with
      | some leaf =>
          rw [existing] at mapped
          cases mapped.symm.trans ran
          rw [if_neg (by simp), List.append_nil]
          exact ⟨links, grants, flushed, by simp⟩
      | none =>
          rw [existing] at mapped
          cases mapped.symm.trans ran
          have filling : space.Filling middle.memory address table :=
            ⟨advances.ready.tree, leads, found⟩
          have filled : space.Links address [] middle.memory
              (filledPaged space middle target address rights table).memory := by
            rw [memory_filledPaged]
            exact .of_same fun path short owns => Hierarchy.tableAt_of_filled filling.tree
              filling.rewrites (PageEntry.present_leaf _ rights) found rfl (leads.owns_path .pt)
              path short owns
          have linked := links.trans leads filled
          rw [List.append_nil] at linked
          refine ⟨linked, by rwa [source_filledPaged], ?_, by simp⟩
          rw [flushed_filledPaged, flushed, if_pos rfl, List.append_assoc]

end

/-! ## From a strip -/

section

variable {before : Paged FrameStrip} {offers keeps : Frame → Prop} {first stop : Frame}

/-- The tables that are missing on the walk for an address. -/
def missingTables (space : AddressSpace) (memory : Memory) (address : VirtualAddress) :
    List Level :=
  Level.pml4.below.filter fun level => (space.hierarchy.tableAt memory (level.path address)).isNone

theorem length_le_missingTables {memory : Memory} (order : levels.Sublist Level.pml4.below)
    (missing : ∀ level ∈ levels, space.hierarchy.tableAt memory (level.path address) = none) :
    levels.length ≤ (space.missingTables memory address).length := by
  have all : levels.filter (fun level =>
      (space.hierarchy.tableAt memory (level.path address)).isNone) = levels :=
    List.filter_eq_self.2 fun level member => Option.isNone_iff_eq_none.2 (missing level member)
  rw [← all]
  exact (order.filter _).length_le

theorem Links.length_lt (links : space.Links address levels before.memory after.memory)
    (leads : space.hierarchy.Leads address) (order : levels.Sublist Level.pml4.below)
    (absent : space.hierarchy.tableAt after.memory (Level.pt.path address) = none) :
    levels.length < (space.missingTables before.memory address).length := by
  have notLast : Level.pt ∉ levels := fun member => (links.fresh .pt member).2 absent
  have upper : levels.Sublist [.pdpt, .pd] := by
    have all : levels.filter (fun level => decide (level ≠ .pt)) = levels :=
      List.filter_eq_self.2 fun level member => decide_eq_true fun same =>
        notLast (same ▸ member)
    have kept := order.filter fun level => decide (level ≠ .pt)
    rwa [all] at kept
  have last : space.hierarchy.tableAt before.memory (Level.pt.path address) = none := by
    rw [← links.others _ (Nat.le_refl _) (leads.owns_path .pt), absent]
    intro level member same
    have depth := congrArg List.length same
    rw [Level.length_path, Level.length_path] at depth
    exact notLast (Level.eq_of_depth_eq depth ▸ member)
  have wider : (levels ++ [Level.pt]).Sublist Level.pml4.below :=
    upper.append (.refl [Level.pt])
  have counted := length_le_missingTables wider fun level member => by
    rcases List.mem_append.1 member with isUpper | isLast
    · exact (links.fresh level isUpper).1
    · cases List.mem_singleton.1 isLast
      exact last
  rwa [List.length_append] at counted

/-- A strip that has a frame for each missing table does not run out. -/
theorem run_map_of_strip (target : PhysicalAddress) (rights : Rights)
    (ready : space.Ready (FrameStrip.recordsBetween first stop).supply before offers keeps)
    (leads : space.hierarchy.Leads address)
    (enough : before.source.next.number + (space.missingTables before.memory address).length ≤
      stop.number) :
    ∃ outcome after rest, (space.map target address rights).run before = (outcome, after) ∧
      space.Advances (FrameStrip.recordsBetween first stop).supply keeps offers rest before after ∧
      space.Maps target address rights before after outcome ∧
      (∀ level, outcome ≠ .refused (.outOfMemory level)) ∧
      after.source.next.number ≤
        before.source.next.number + (space.missingTables before.memory address).length := by
  rcases map_spec target rights ready leads with ⟨outcome, after, rest, ran, advances, maps⟩
  rcases map_adds FrameStrip.flushesNothing ready leads ran with
    ⟨levels, order, links, grants, _, lacking⟩
  have next := FrameStrip.next_of_grants grants
  have few := length_le_missingTables order fun level member => (links.fresh level member).1
  refine ⟨outcome, after, rest, ran, advances, maps, ?_, by omega⟩
  rintro level rfl
  cases maps with
  | exhausted dry _ _ =>
      rcases advances.ready.supplied with ⟨⟨_, isStop, _, _⟩, _, _⟩
      have spent := (FrameStrip.of_run_take dry).2 rfl
      have fewer := links.length_lt leads order (lacking _ rfl)
      rw [isStop] at spent
      omega

end

end EarlyMemory.AddressSpace
