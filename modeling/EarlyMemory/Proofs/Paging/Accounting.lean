import EarlyMemory.Proofs.Endings
import EarlyMemory.Proofs.Paging.Laying
import EarlyMemory.Proofs.Paging.Refinement

/-!
# Accounting for the frames of a mapping

Mapping a page asks its source for one frame for each table that is missing on the walk, from
the topmost one down, and stops at the first one that it does not get. Besides the frames it
writes one entry. What it lacked can be given to it later, and a page that is mapped already
costs nothing.
-/

namespace EarlyMemory.AddressSpace

open Hierarchy (shown)
open Memory (AgreesOutside)
open FrameSource (Asks)

variable {root : Frame} {memory : Memory} {address : VirtualAddress} {level child : Level}
  {below : List Level} {table frame : Frame} {frames : List Frame} {last : PageEntry}

section

variable {F : Type} [FrameSource F] {supply : Supply F} {before after asked : Paged F}
  {offers keeps : Frame → Prop}

/-! ## Mapping a page -/

variable {target : PhysicalAddress} {rights : Rights} {leaf : PageEntry}

/-- A supply whose frames are in the memory and off the walk for an address, and are not its
own. -/
structure Stocks (root : Frame) (supply : Supply F) (address : VirtualAddress) (paged : Paged F)
    (offers keeps : Frame → Prop) : Prop where
  supplied : supply.Holds paged.memory paged.source offers keeps
  offered : ∀ frame, offers frame → paged.memory.HasFrame frame ∧
    ¬ (shown root).IsOnWalk paged.memory address frame ∧ ¬ keeps frame
  kept : ∀ frame, keeps frame → ¬ (shown root).IsOnWalk paged.memory address frame

/-- How mapping a page ends, with the frames it took: the last table that was there and its
level, what was asked of the source and what hangs below that table afterwards. -/
inductive Accounts (root : Frame) (keeps : Frame → Prop) (address : VirtualAddress)
    (leaf : PageEntry) (before after : Paged F) : List Frame → Outcome MapError Unit → Prop
  | placed {level : Level} {table : Frame} {frames : List Frame}
      (found : (shown root).tableAt before.memory (level.path address) = some table)
      (absent : (before.memory.entry table (level.index address)).present = false)
      (missing : missingTables ⟨root, .direct⟩ before.memory address = level.below)
      (enough : frames.length = level.below.length)
      (asks : Asks keeps (frames.map some) before after)
      (hangs : Hangs after.memory address leaf level table frames)
      (writes : WritesBelow keeps level address table frames before.memory after.memory) :
      Accounts root keeps address leaf before after frames (.done ())
  | present {existing : PageEntry}
      (found : (shown root).entryAt before.memory address.leafPath = some existing)
      (same : after = before) :
      Accounts root keeps address leaf before after []
        (.refused (.alreadyMapped address existing.frame.base))
  | exhausted {level lacking : Level} {upper rest : List Level} {table : Frame}
      {frames : List Frame} {last : PageEntry}
      (found : (shown root).tableAt before.memory (level.path address) = some table)
      (absent : (before.memory.entry table (level.index address)).present = false)
      (missing : missingTables ⟨root, .direct⟩ before.memory address = level.below)
      (split : level.below = upper ++ lacking :: rest) (count : upper.length = frames.length)
      (asks : Asks keeps (frames.map some ++ [none]) before after)
      (hangs : Hangs after.memory address last level table frames)
      (ends : last.present = false) (cleared : frames ≠ [] → last = .zero)
      (writes : WritesBelow keeps level address table frames before.memory after.memory)
      (idle : frames = [] → AgreesOutside keeps before.memory after.memory) :
      Accounts root keeps address leaf before after frames (.refused (.outOfMemory lacking))

theorem accounts_of_filled {middle : Paged F} (target : PhysicalAddress) (rights : Rights)
    (found : (shown root).tableAt before.memory (level.path address) = some table)
    (absent : (before.memory.entry table (level.index address)).present = false)
    (enough : frames.length = level.below.length) (distinct : (table :: frames).Nodup)
    (spared : ∀ frame ∈ table :: frames, ¬ keeps frame)
    (inside : middle.memory.HasFrame (lowest table frames))
    (asks : Asks keeps (frames.map some) before middle)
    (hangs : Hangs middle.memory address last level table frames)
    (writes : WritesBelow keeps level address table frames before.memory middle.memory) :
    Accounts root keeps address (.leaf (target.page .small) rights) before
      (filledPaged ⟨root, .direct⟩ middle target address rights (lowest table frames)) frames
      (.done ()) := by
  have isHung : lowest table frames ∈ table :: frames := lowest_mem
  have filled := Memory.agreesOutside_setEntry middle.memory (lowest table frames)
    (Level.pt.index address) (.leaf (target.page .small) rights)
  have memoryEq : (filledPaged ⟨root, .direct⟩ middle target address rights
      (lowest table frames)).memory = _ := memory_filledPaged middle
  rw [← memoryEq] at filled
  refine .placed found absent (missingTables_eq_below found fun _ => absent) enough ?_ ?_ ⟨?_, ?_⟩
  · have written : Asks keeps [] middle
        (filledPaged ⟨root, .direct⟩ middle target address rights (lowest table frames)) := by
      refine .written (filled.mono ?_) (source_filledPaged middle) (.done _)
      rintro _ rfl
      exact spared _ isHung
    have asked := asks.trans written
    rwa [List.append_nil] at asked
  · rw [memory_filledPaged]
    exact hangs.setEntry _ enough distinct inside
  · refine writes.agrees.trans (filled.mono ?_)
    rintro _ rfl
    exact .inr ((List.mem_cons.1 isHung).symm)
  · intro index other
    rw [← writes.others index other, memory_filledPaged]
    apply Memory.entry_setEntry_other
    -- Only a last table is written itself, at another index.
    cases frames with
    | nil =>
        cases Level.eq_pt_of_below_eq_nil (List.eq_nil_of_length_eq_zero enough.symm)
        exact .inr other
    | cons frame rest =>
        exact .inl fun same => (List.nodup_cons.1 distinct).1 (same ▸ lowest_mem)

theorem map_accounts (addressable : before.memory.IsAddressable)
    (tables : (shown root).HasTables before.memory address .pt)
    (stocks : Stocks root supply address before offers keeps) (target : PhysicalAddress)
    (rights : Rights) :
    ∃ outcome after frames,
      (map ⟨root, .direct⟩ target address rights).run before = (outcome, after) ∧
      frames.Nodup ∧ (∀ frame ∈ frames, offers frame) ∧
      Accounts root keeps address (.leaf (target.page .small) rights) before after frames
        outcome := by
  rcases exists_deepest addressable tables (show Level.pml4.below = [.pdpt, .pd, .pt] from rfl)
    (Hierarchy.tableAt_nil) with ⟨level, table, found, absent, same⟩
  have inside := tables level level.depth_le table found
  have onWalk : (shown root).IsOnWalk before.memory address table := ⟨level, found⟩
  have notKept : ¬ keeps table := fun isKept => stocks.kept table isKept onWalk
  have notOffered : ¬ offers table := fun offered => (stocks.offered table offered).2.1 onWalk
  by_cases last : level.below = []
  · cases Level.eq_pt_of_below_eq_nil last
    have mapped := run_map_direct_of_found target rights addressable tables found
    have entryAt : (shown root).entryAt before.memory address.leafPath =
        before.memory.presentEntry table (Level.pt.index address) :=
      Hierarchy.entryAt_cons_of_some found
    cases existing : before.memory.presentEntry table (Level.pt.index address) with
    | some leaf =>
        rw [existing] at mapped entryAt
        exact ⟨_, before, [], mapped, List.nodup_nil, by simp, .present entryAt rfl⟩
    | none =>
        rw [existing] at mapped
        have vacant : (before.memory.entry table (Level.pt.index address)).present = false := by
          rw [Bool.eq_false_iff]
          intro present
          rw [Memory.presentEntry_eq_of_present present] at existing
          cases existing
        have hangs : Hangs before.memory address
            (before.memory.entry table (Level.pt.index address)) .pt table [] := .nil rfl
        have spared : ∀ frame ∈ [table], ¬ keeps frame := by simpa using notKept
        have accounts := accounts_of_filled target rights found vacant rfl (by simp) spared inside
          (.done before) hangs ⟨.refl _, fun _ _ => rfl⟩
        exact ⟨_, _, [], mapped, List.nodup_nil, by simp, accounts⟩
  · rcases descend_lays addressable rfl inside notOffered notKept absent stocks.supplied
      (fun frame isOffered => ⟨(stocks.offered frame isOffered).1,
        (stocks.offered frame isOffered).2.2⟩) with
      ⟨outcome, after, frames, ran, distinct, handedOut, lays, writes, idle, hangs⟩
    have vacant := absent last
    cases lays with
    | exhausted split count asks =>
        refine ⟨_, after, frames, run_map_of_refused (same.trans ran), distinct, handedOut,
          .exhausted found vacant (missingTables_eq_below found absent) split count asks hangs ?_ ?_
            writes idle⟩
        · split
          · exact vacant
          · exact PageEntry.present_zero
        · exact fun some => if_neg some
    | placed enough asks =>
        have nonempty : frames ≠ [] := by
          rintro rfl
          exact last (List.eq_nil_of_length_eq_zero enough.symm)
        have off : table ∉ frames := fun member => notOffered (handedOut table member)
        have hung : ∀ frame ∈ table :: frames,
            before.memory.HasFrame frame ∧ ¬ keeps frame := by
          rintro frame (_ | ⟨_, member⟩)
          · exact ⟨inside, notKept⟩
          · exact ⟨(stocks.offered frame (handedOut frame member)).1,
              (stocks.offered frame (handedOut frame member)).2.2⟩
        have lowestInside := (writes.agrees.hasFrame_iff _).2 (hung _ lowest_mem).1
        have mapped := run_map_of_done target rights (same.trans ran)
          (run_reachTable_direct (writes.agrees.isAddressable_iff.2 addressable) lowestInside)
        rw [if_neg nonempty] at hangs
        rw [Memory.presentEntry_eq_none (by rw [hangs.entry_lowest enough, PageEntry.present_zero])]
          at mapped
        have accounts := accounts_of_filled target rights found vacant enough
          (List.nodup_cons.2 ⟨off, distinct⟩) (fun frame member => (hung frame member).2)
          lowestInside asks hangs writes
        exact ⟨_, _, frames, mapped, distinct, handedOut, accounts⟩

theorem map_of_lasts (addressable : before.memory.IsAddressable)
    (tables : (shown root).HasTables before.memory address .pt)
    (stocks : Stocks root supply address before offers keeps)
    (unmapped : (shown root).entryAt before.memory address.leafPath = none)
    (lasts : FrameSource.Lasts keeps (missingTables ⟨root, .direct⟩ before.memory address).length
      before) (target : PhysicalAddress) (rights : Rights) :
    ∃ after frames,
      (map ⟨root, .direct⟩ target address rights).run before = (.done (), after) ∧
      frames.Nodup ∧ (∀ frame ∈ frames, offers frame) ∧
      frames.length = (missingTables ⟨root, .direct⟩ before.memory address).length ∧
      Accounts root keeps address (.leaf (target.page .small) rights) before after frames
        (.done ()) := by
  rcases map_accounts addressable tables stocks target rights with
    ⟨outcome, after, frames, ran, distinct, handedOut, accounts⟩
  cases accounts with
  | placed found absent missing enough asks hangs writes =>
      exact ⟨after, frames, ran, distinct, handedOut, enough.trans (congrArg _ missing.symm),
        .placed found absent missing enough asks hangs writes⟩
  | present found =>
      rw [unmapped] at found
      cases found
  | exhausted _ _ missing split count asks =>
      refine absurd (List.mem_append_right _ (List.mem_singleton_self _)) (lasts _ _ asks ?_)
      rw [missing, split, List.length_append, List.length_append, List.length_map, count]
      simp

/-! ## After frames were taken -/

theorem hasTables_of_hangs (stocks : Stocks root supply address before offers keeps)
    (tables : (shown root).HasTables before.memory address .pt)
    (found : (shown root).tableAt before.memory (level.path address) = some table)
    (absent : (before.memory.entry table (level.index address)).present = false)
    (handedOut : ∀ frame ∈ frames, offers frame ∧ frame.IsLinkable)
    (hangs : Hangs after.memory address last level table frames)
    (ends : last.present = false ∨ frames.length = level.below.length)
    (writes : WritesBelow keeps level address table frames before.memory after.memory) :
    (shown root).tableAt after.memory (level.path address) = some table ∧
      (shown root).HasTables after.memory address .pt := by
  -- What the walk found above the table it finds again.
  have kept : ∀ upper : Level, upper.depth ≤ level.depth → ∀ reached,
      (shown root).tableAt before.memory (upper.path address) = some reached →
      (shown root).tableAt after.memory (upper.path address) = some reached := by
    intro upper higher reached leads
    refine Hierarchy.tableAt_path_of_kept leads fun further _ other leadsThere present => ?_
    have onWalk : (shown root).IsOnWalk before.memory address other := ⟨further, leadsThere⟩
    by_cases same : other = table
    · subst same
      refine writes.others _ fun sameIndex => ?_
      rw [sameIndex, absent] at present
      cases present
    · refine writes.agrees.entry_eq ?_ _
      rintro (isKept | isHung | isTable)
      · exact stocks.kept other isKept onWalk
      · exact (stocks.offered other (handedOut other isHung).1).2.1 onWalk
      · exact same isTable
  have foundAfter := kept level (Nat.le_refl _) table found
  refine ⟨foundAfter, fun other _ frame leads => (writes.agrees.hasFrame_iff frame).2 ?_⟩
  by_cases deeper : level.depth < other.depth
  · have isHung := hangs.mem_of_tableAt (fun frame member => (handedOut frame member).2)
      foundAfter ends deeper leads
    exact (stocks.offered frame (handedOut frame isHung).1).1
  · have higher := Nat.le_of_not_lt deeper
    rcases Hierarchy.exists_tableAt_of_le found higher with ⟨reached, leadsBefore⟩
    cases leads.symm.trans (kept other higher reached leadsBefore)
    exact tables other other.depth_le _ leadsBefore

theorem walk_of_hangs (stocks : Stocks root supply address before offers keeps)
    (tables : (shown root).HasTables before.memory address .pt)
    (found : (shown root).tableAt before.memory (level.path address) = some table)
    (absent : (before.memory.entry table (level.index address)).present = false)
    (handedOut : ∀ frame ∈ frames, offers frame ∧ frame.IsLinkable)
    (hangs : Hangs after.memory address last level table frames) (ends : last.present = false)
    (writes : WritesBelow keeps level address table frames before.memory after.memory) :
    (shown root).HasTables after.memory address .pt ∧
      missingTables ⟨root, .direct⟩ after.memory address = level.below.drop frames.length ∧
      (level.below.drop frames.length ≠ [] →
        (shown root).entryAt after.memory address.leafPath = none) := by
  rcases hasTables_of_hangs stocks tables found absent handedOut hangs (.inl ends) writes with
    ⟨foundAfter, tablesAfter⟩
  rcases hangs.exists_tableAt (fun frame member => (handedOut frame member).2) foundAfter with
    ⟨lower, rest, leads, isLast⟩
  have vacant : (after.memory.entry (lowest table frames) (lower.index address)).present =
      false := isLast ▸ ends
  refine ⟨tablesAfter, (missingTables_eq_below leads fun _ => vacant).trans rest, fun more => ?_⟩
  rw [← rest] at more
  have other : lower ≠ .pt := by
    rintro rfl
    exact more rfl
  exact Hierarchy.entryAt_cons_of_none
    (Hierarchy.tableAt_of_absent leads vacant (Level.depth_lt_of_ne_pt other))

theorem map_again (addressable : before.memory.IsAddressable)
    (stocks : Stocks root supply address before offers keeps)
    (tables : (shown root).HasTables before.memory address .pt)
    (handedOut : ∀ frame ∈ frames, offers frame ∧ frame.IsLinkable) (present : leaf.present = true)
    (accounts : Accounts root keeps address leaf before after frames (.done ()))
    (target : PhysicalAddress) (rights : Rights) :
    (map ⟨root, .direct⟩ target address rights).run after =
      (.refused (.alreadyMapped address leaf.frame.base), after) := by
  cases accounts with
  | placed found absent _ enough _ hangs writes =>
      rcases hasTables_of_hangs stocks tables found absent handedOut hangs (.inr enough) writes
        with ⟨foundAfter, tablesAfter⟩
      rcases hangs.exists_tableAt (fun frame member => (handedOut frame member).2) foundAfter with
        ⟨lower, rest, leads, isLeaf⟩
      rw [enough, List.drop_length] at rest
      cases Level.eq_pt_of_below_eq_nil rest
      rw [run_map_direct_of_found target rights (writes.agrees.isAddressable_iff.2 addressable)
        tablesAfter leads, Memory.presentEntry_eq_of_present (isLeaf ▸ present), isLeaf]

/-! ## Pages that are mapped already -/

omit [FrameSource F] in
theorem of_run_reachTable_direct {reached : Frame}
    (ran : (reachTable ⟨root, .direct⟩ level address table :
      Operation (Paged F) MapError Frame).run before = (.done reached, after)) :
    reached = table ∧ after = before ∧ before.memory.HasFrame table := by
  rcases Paged.of_run_inspect ran with ⟨found, rfl⟩
  rw [TableAccess.reach] at found
  cases required : before.memory.requireFrame table with
  | error cause =>
      rw [required] at found
      cases found
  | ok nothing =>
      rw [required] at found
      cases found
      exact ⟨rfl, rfl, Memory.hasFrame_of_requireFrame required⟩

/-- A child that was not there is empty, whatever frame it is and whatever that held. -/
theorem of_run_ensureChild_direct {next : Frame}
    (ran : (ensureChild ⟨root, .direct⟩ table (level.index address) child address).run before =
      (.done next, after)) :
    (before.memory.entry table (level.index address)).present = true ∧ after = before ∨
      (before.memory.entry table (level.index address)).present = false ∧
        ∀ index, (after.memory.entry next index).present = false := by
  cases present : (before.memory.entry table (level.index address)).present with
  | true =>
      rw [run_ensureChild_of_present present] at ran
      cases ran
      exact .inl ⟨rfl, rfl⟩
  | false =>
      refine .inr ⟨rfl, ?_⟩
      rw [ensureChild, Operation.run_bind_of_done (Paged.run_inspect ..),
        if_neg (by simp [present])] at ran
      rcases Operation.of_run_bind ran with ⟨answer, asked, _, linking⟩
      cases answer with
      | none => cases linking
      | some frame =>
          rcases Operation.of_run_bind linking with ⟨_, linked, _, flushing⟩
          rcases Operation.of_run_bind flushing with ⟨_, flushed, _, reaching⟩
          rcases Operation.of_run_bind reaching with ⟨reached, _, reach, clearing⟩
          rcases of_run_reachTable_direct reach with ⟨rfl, rfl, inside⟩
          rcases Operation.of_run_bind clearing with ⟨_, cleared, changed, ended⟩
          rw [Operation.run_bind_of_done (Operation.run_report ..), Operation.run_pure] at ended
          cases ended
          have memoryEq := (Paged.of_run_changeMemory changed).1
          intro index
          rw [memoryEq, Memory.entry_clearTable_same _ _ inside]
          exact PageEntry.present_zero

/-- Below an empty table the way down ends at an empty table. -/
theorem empty_of_run_descend {lowest : Frame}
    (empty : ∀ index, (before.memory.entry table index).present = false)
    (ran : (descend ⟨root, .direct⟩ address level table below).run before =
      (.done lowest, after)) :
    ∀ index, (after.memory.entry lowest index).present = false := by
  induction below generalizing level table before with
  | nil =>
      cases ran
      exact empty
  | cons child below induction =>
      rcases Operation.of_run_bind ran with ⟨reached, _, reach, ensuring⟩
      rcases of_run_reachTable_direct reach with ⟨rfl, rfl, _⟩
      rcases Operation.of_run_bind ensuring with ⟨next, _, ensured, further⟩
      rcases of_run_ensureChild_direct ensured with ⟨present, _⟩ | ⟨_, emptyNext⟩
      · rw [empty] at present
        cases present
      · exact induction emptyNext further

theorem of_run_descend {lowest : Frame}
    (ran : (descend ⟨root, .direct⟩ address level table below).run before =
      (.done lowest, after)) :
    after = before ∨ ∀ index, (after.memory.entry lowest index).present = false := by
  induction below generalizing level table before with
  | nil =>
      cases ran
      exact .inl rfl
  | cons child below induction =>
      rcases Operation.of_run_bind ran with ⟨reached, _, reach, ensuring⟩
      rcases of_run_reachTable_direct reach with ⟨rfl, rfl, _⟩
      rcases Operation.of_run_bind ensuring with ⟨next, _, ensured, further⟩
      rcases of_run_ensureChild_direct ensured with ⟨_, rfl⟩ | ⟨_, emptyNext⟩
      · exact induction further
      · exact .inr (empty_of_run_descend emptyNext further)

theorem refusesOnly_descend {space : AddressSpace} (answers : FrameSource.NeverRefuses F) :
    (space.descend address level table below : Operation (Paged F) MapError Frame).RefusesOnly
      fun cause => ∃ missing, cause = .outOfMemory missing := by
  induction below generalizing level table with
  | nil => exact .pure
  | cons child below induction =>
      refine .bind Paged.refusesOnly_inspect fun reached => .bind ?_ fun next => induction
      refine .bind Paged.refusesOnly_inspect fun entry => ?_
      split
      · exact .pure
      · refine .bind (fun paged cause refused => (answers MapError paged cause refused).elim)
          fun answer => ?_
        cases answer with
        | none => exact .refuse ⟨child, rfl⟩
        | some frame =>
            refine .bind Paged.refusesOnly_changeMemory fun _ => .bind ?_ fun _ =>
              .bind Paged.refusesOnly_inspect fun _ => .bind Paged.refusesOnly_changeMemory
                fun _ => .bind .report fun _ => .pure
            intro paged cause refused
            cases refused

theorem eq_of_alreadyMapped (answers : FrameSource.NeverRefuses F) {page : VirtualAddress}
    {existing : PhysicalAddress} {target : PhysicalAddress} {rights : Rights}
    (ran : (map ⟨root, .direct⟩ target address rights).run before =
      (.refused (.alreadyMapped page existing), after)) : after = before := by
  rcases descended : (descend ⟨root, .direct⟩ address .pml4 root [.pdpt, .pd, .pt]).run before with
    ⟨lowest | cause | cause, middle⟩
  · cases required : middle.memory.requireFrame lowest with
    | error cause =>
        have faulted : (reachTable ⟨root, .direct⟩ .pt address lowest :
            Operation (Paged F) MapError Frame).run middle = (.fault cause, middle) := by
          rw [reachTable, Paged.run_inspect, TableAccess.reach, required]
          rfl
        rw [map, Operation.run_bind_of_done descended, Operation.run_bind_of_fault faulted] at ran
        cases ran
    | ok nothing =>
        have mapped := run_map_of_done target rights descended
          (run_reachTable_direct (Memory.of_requireInside required).1
            (Memory.hasFrame_of_requireFrame required))
        rcases of_run_descend descended with rfl | empty
        · cases existing : middle.memory.presentEntry lowest (Level.pt.index address) with
          | none =>
              rw [existing] at mapped
              cases mapped.symm.trans ran
          | some leaf =>
              rw [existing] at mapped
              cases mapped.symm.trans ran
              rfl
        · rw [Memory.presentEntry_eq_none (empty _)] at mapped
          cases mapped.symm.trans ran
  · rcases refusesOnly_descend answers before cause (congrArg Prod.fst descended) with
      ⟨missing, rfl⟩
    rw [run_map_of_refused descended] at ran
    cases ran
  · rw [map, Operation.run_bind_of_fault descended] at ran
    cases ran

/-! ## The account -/

/-- Mapping a page takes a frame for each table that is missing, as far as the source has them,
and writes one entry besides. With the frames that it lacked, it succeeds from where it ended.
A page that is mapped already is left alone, whatever the source would have handed out. -/
theorem mapping_accounts_for_its_frames (root : Frame) (supply : Supply F) (start : Paged F)
    (offers keeps : Frame → Prop) (target : PhysicalAddress) (address : VirtualAddress)
    (rights : Rights) :
    (start.memory.base.number + start.memory.frames ≤ 1 <<< 40 →
      (shown root).HasTables start.memory address .pt →
      Stocks root supply address start offers keeps →
      ∃ outcome after frames,
        (map ⟨root, .direct⟩ target address rights).run start = (outcome, after) ∧
        frames.Nodup ∧ (∀ frame ∈ frames, offers frame) ∧
        Accounts root keeps address (.leaf (target.page .small) rights) start after frames
          outcome ∧
        ∀ lacking, outcome = .refused (.outOfMemory lacking) →
          (shown root).entryAt after.memory address.leafPath = none ∧
          ∀ (G : Type) [FrameSource G] (other : Supply G) (again : Paged G)
            (spare held : Frame → Prop), again.memory = after.memory →
            Stocks root other address again spare held →
            FrameSource.Lasts held (missingTables ⟨root, .direct⟩ after.memory address).length
              again →
            ∃ final more,
              (map ⟨root, .direct⟩ target address rights).run again = (.done (), final) ∧
              more.Nodup ∧ (∀ frame ∈ more, spare frame) ∧
              frames.length + more.length =
                (missingTables ⟨root, .direct⟩ start.memory address).length ∧
              Accounts root held address (.leaf (target.page .small) rights) again final more
                (.done ())) ∧
    (FrameSource.NeverRefuses F → ∀ (before after : Paged F) (page : VirtualAddress)
      (existing : PhysicalAddress),
      (map ⟨root, .direct⟩ target address rights).run before =
        (.refused (.alreadyMapped page existing), after) → after = before) := by
  refine ⟨fun fits tables stocks => ?_, fun answers _ _ _ _ => eq_of_alreadyMapped answers⟩
  have addressable : start.memory.IsAddressable := by
    simp only [Memory.IsAddressable, Nat.reduceShiftLeft] at fits ⊢
    omega
  rcases map_accounts addressable tables stocks target rights with
    ⟨outcome, after, frames, ran, distinct, handedOut, accounts⟩
  refine ⟨outcome, after, frames, ran, distinct, handedOut, accounts, ?_⟩
  rintro lacking rfl
  cases accounts with
  | @exhausted level _ upper rest table _ last found absent missing split count _ hangs ends _
      writes =>
      have linkable : ∀ frame ∈ frames, offers frame ∧ frame.IsLinkable := by
        intro frame member
        have below := (stocks.offered frame (handedOut frame member)).1.2
        refine ⟨handedOut frame member, ?_⟩
        unfold Page.IsLinkable
        omega
      rcases walk_of_hangs stocks tables found absent linkable hangs ends writes with
        ⟨tablesAfter, missingAfter, noLeaf⟩
      have left : level.below.drop frames.length = lacking :: rest := by
        rw [split, ← count, List.drop_left]
      rw [left] at missingAfter noLeaf
      have noLeaf := noLeaf (List.cons_ne_nil _ _)
      refine ⟨noLeaf, fun G _ other again spare held sameMemory stocksAgain lasts => ?_⟩
      rw [← sameMemory] at tablesAfter missingAfter noLeaf lasts
      have addressableAgain : again.memory.IsAddressable := by
        rw [sameMemory]
        exact writes.agrees.isAddressable_iff.2 addressable
      rcases map_of_lasts addressableAgain tablesAfter stocksAgain noLeaf lasts target rights with
        ⟨final, more, ranAgain, distinctMore, spared, enough, accountsAgain⟩
      refine ⟨final, more, ranAgain, distinctMore, spared, ?_, accountsAgain⟩
      rw [enough, missingAfter, missing, split, List.length_append, count]

end

/-! ## A source that runs dry -/

/-- The fresh machine with one frame for the three tables that are missing on every walk. -/
def scantMachine : Paged FramePool :=
  ⟨freshMachine.machine, { freshMachine.source with remaining := 1 }⟩

theorem absent_scantMachine (table : Frame) (index : TableIndex) :
    (scantMachine.memory.entry table index).present = false := by
  rw [scantMachine, Paged.memory, freshMachine,
    Memory.entry_of_byteAt_eq_zero fun _ _ => Memory.byteAt_zeroed ..]
  exact PageEntry.present_zero

theorem tableAt_scantMachine {address : VirtualAddress} {level : Level} {table : Frame}
    (found : (shown freshSpace.root).tableAt scantMachine.memory (level.path address) =
      some table) : level = .pml4 ∧ table = freshSpace.root := by
  have top : (shown freshSpace.root).tableAt scantMachine.memory (Level.pml4.path address) =
      some freshSpace.root := rfl
  by_cases first : level = .pml4
  · subst first
    exact ⟨rfl, (Option.some.inj found).symm⟩
  · have deeper := Level.depth_lt_of_ne_pml4 first
    rw [Hierarchy.tableAt_of_absent top (absent_scantMachine _ _) deeper] at found
    cases found

theorem stocks_of_framePool {paged : Paged FramePool}
    (orderly : paged.source.next.number + paged.source.remaining < 1 <<< 52)
    (offered : ∀ frame, paged.source.Offers frame → paged.memory.HasFrame frame ∧
      ¬ (shown root).IsOnWalk paged.memory address frame) :
    Stocks root FramePool.records.supply address paged paged.source.Offers fun _ => False where
  supplied := ⟨orderly, fun _ => Iff.rfl, fun _ => id⟩
  offered frame isOffered := ⟨(offered frame isOffered).1, (offered frame isOffered).2, id⟩
  kept _ impossible := impossible.elim

theorem offers_scantMachine_iff : scantMachine.source.Offers frame ↔ frame.number = 0x101 := by
  change 0x101 ≤ frame.number ∧ frame.number < 0x101 + 1 ↔ _
  omega

theorem hasFrame_scantMachine_iff :
    scantMachine.memory.HasFrame frame ↔ 0x100 ≤ frame.number ∧ frame.number < 0x110 :=
  Iff.rfl

theorem hasTables_scantMachine :
    (shown freshSpace.root).HasTables scantMachine.memory address .pt := by
  intro level _ table found
  rw [(tableAt_scantMachine found).2]
  exact ⟨by decide, by decide⟩

theorem stocks_scantMachine : Stocks freshSpace.root FramePool.records.supply address scantMachine
    scantMachine.source.Offers fun _ => False := by
  refine stocks_of_framePool (show 0x101 + 1 < 1 <<< 52 by decide) fun frame offered => ?_
  have only := offers_scantMachine_iff.1 offered
  refine ⟨hasFrame_scantMachine_iff.2 (by omega), ?_⟩
  rintro ⟨level, found⟩
  rw [(tableAt_scantMachine found).2] at only
  exact absurd only (by decide)

theorem length_le_one_of_scantMachine (distinct : frames.Nodup)
    (handedOut : ∀ frame ∈ frames, scantMachine.source.Offers frame) : frames.length ≤ 1 := by
  rcases frames with _ | ⟨first, _ | ⟨second, rest⟩⟩
  · exact Nat.zero_le 1
  · exact Nat.le_refl 1
  · have same : first = second := Page.ext ((offers_scantMachine_iff.1
      (handedOut first (by simp))).trans (offers_scantMachine_iff.1
        (handedOut second (by simp))).symm)
    simp [same] at distinct

theorem exhausts_scantMachine {after : Paged FramePool} {leaf : PageEntry}
    {outcome : Outcome MapError Unit} (distinct : frames.Nodup)
    (handedOut : ∀ frame ∈ frames, scantMachine.source.Offers frame)
    (accounts : Accounts freshSpace.root (fun _ => False) address leaf scantMachine after frames
      outcome) :
    outcome = .refused (.outOfMemory .pd) ∧ frames.length = 1 ∧
      ∃ last : PageEntry, last.present = false ∧
        Hangs after.memory address last .pml4 freshSpace.root frames ∧
        WritesBelow (fun _ => False) .pml4 address freshSpace.root frames scantMachine.memory
          after.memory := by
  have few := length_le_one_of_scantMachine distinct handedOut
  cases accounts with
  | placed found _ _ enough =>
      rw [enough, (tableAt_scantMachine found).1] at few
      exact absurd few (by decide)
  | present foundLeaf =>
      cases leads : (shown freshSpace.root).tableAt scantMachine.memory (Level.pt.path address) with
      | none => cases foundLeaf.symm.trans (Hierarchy.entryAt_cons_of_none leads)
      | some table => cases (tableAt_scantMachine leads).1
  | @exhausted level lacking upper rest table _ last found _ _ split count asks hangs ends _
      writes =>
      have asked : frames.length = 1 := by
        refine Nat.le_antisymm few (Nat.pos_of_ne_zero fun none => ?_)
        cases List.eq_nil_of_length_eq_zero none
        exact FramePool.none_not_mem_of_asks asks (show 0x101 + 1 < 1 <<< 52 by decide)
          (Nat.le_refl 1) List.mem_cons_self
      rcases tableAt_scantMachine found with ⟨rfl, rfl⟩
      rcases List.length_eq_one_iff.1 (count.trans asked) with ⟨first, rfl⟩
      cases (List.cons.inj (List.cons.inj split).2).1
      exact ⟨rfl, asked, last, ends, hangs, writes⟩

def furtherFrames : FramePool :=
  ⟨⟨0x102, by decide⟩, 2, 0⟩

theorem stocks_furtherFrames {machine : Machine}
    (same : ∀ frame, machine.memory.HasFrame frame ↔ scantMachine.memory.HasFrame frame)
    (outside : ∀ frame, (shown root).IsOnWalk machine.memory address frame →
      frame.number < 0x102) :
    Stocks root FramePool.records.supply address ⟨machine, furtherFrames⟩ furtherFrames.Offers
      fun _ => False := by
  refine stocks_of_framePool (show 0x102 + 2 < 1 <<< 52 by decide) fun frame offered => ?_
  rcases offered with ⟨above, below⟩
  simp only [furtherFrames] at above below
  exact ⟨(same frame).2 (hasFrame_scantMachine_iff.2 (by omega)),
    fun onWalk => absurd (outside frame onWalk) (Nat.not_lt.2 above)⟩

theorem isLinkable_of_furtherFrames (offered : furtherFrames.Offers frame) : frame.IsLinkable := by
  rcases offered with ⟨_, below⟩
  simp only [furtherFrames] at below
  simp only [Page.IsLinkable, Nat.reduceShiftLeft]
  omega

/-- The only frame becomes the table below the root. With two more the page is mapped, and from
then on it is found. -/
theorem scantMachine_lacks_the_second_table :
    ∃ after final found,
      (map freshSpace ⟨0x200000, by decide⟩ ⟨0x400000, by decide⟩ .readWrite).run scantMachine =
        (.refused (.outOfMemory .pd), after) ∧
      (map freshSpace ⟨0x200000, by decide⟩ ⟨0x400000, by decide⟩ .readWrite).run
        ⟨after.machine, furtherFrames⟩ = (.done (), final) ∧
      (map freshSpace ⟨0x200000, by decide⟩ ⟨0x400000, by decide⟩ .readWrite).run final =
        (.refused (.alreadyMapped ⟨0x400000, by decide⟩ ⟨0x200000, by decide⟩), found) ∧
      found = final := by
  have account := mapping_accounts_for_its_frames freshSpace.root FramePool.records.supply
    scantMachine scantMachine.source.Offers (fun _ => False) ⟨0x200000, by decide⟩
    ⟨0x400000, by decide⟩ .readWrite
  rcases account.1 (by decide) hasTables_scantMachine stocks_scantMachine with
    ⟨outcome, after, frames, ran, distinct, handedOut, accounts, further⟩
  rcases exhausts_scantMachine distinct handedOut accounts with
    ⟨rfl, asked, last, ends, hangs, writes⟩
  have only : ∀ frame ∈ frames, frame.number = 0x101 := fun frame member =>
    offers_scantMachine_iff.1 (handedOut frame member)
  have linkable : ∀ frame ∈ frames, scantMachine.source.Offers frame ∧ frame.IsLinkable := by
    intro frame member
    refine ⟨handedOut frame member, ?_⟩
    rw [Page.IsLinkable, only frame member]
    decide
  rcases walk_of_hangs stocks_scantMachine hasTables_scantMachine rfl
    (absent_scantMachine _ _) linkable hangs ends writes with ⟨tablesAfter, missingAfter, _⟩
  rw [asked] at missingAfter
  have stocksAgain : Stocks freshSpace.root FramePool.records.supply ⟨0x400000, by decide⟩
      ⟨after.machine, furtherFrames⟩ furtherFrames.Offers fun _ => False := by
    refine stocks_furtherFrames writes.agrees.hasFrame_iff ?_
    rintro frame ⟨level, onWalk⟩
    by_cases top : level = .pml4
    · subst top
      cases onWalk
      decide
    · have hung := hangs.mem_of_tableAt (fun frame member => (linkable frame member).2) rfl
        (.inl ends) (Level.depth_lt_of_ne_pml4 top) onWalk
      rw [only frame hung]
      decide
  rcases further .pd rfl with ⟨_, again⟩
  rcases again FramePool FramePool.records.supply ⟨after.machine, furtherFrames⟩ _ _ rfl
    stocksAgain (FramePool.lasts (show 0x102 + 2 < 1 <<< 52 by decide)
      (by rw [missingAfter]; exact Nat.le_refl 2)) with
    ⟨final, more, ranAgain, _, spared, _, accountsAgain⟩
  have handedAgain : ∀ frame ∈ more, furtherFrames.Offers frame ∧ frame.IsLinkable :=
    fun frame member => ⟨spared frame member, isLinkable_of_furtherFrames (spared frame member)⟩
  have addressable : (⟨after.machine, furtherFrames⟩ : Paged FramePool).memory.IsAddressable :=
    writes.agrees.isAddressable_iff.2 (by decide)
  have mapped := map_again addressable stocksAgain tablesAfter handedAgain
    (PageEntry.present_leaf ..) accountsAgain ⟨0x200000, by decide⟩ .readWrite
  exact ⟨after, final, final, ran, ranAgain, mapped,
    account.2 FramePool.neverRefuses final final _ _ mapped⟩

end EarlyMemory.AddressSpace
