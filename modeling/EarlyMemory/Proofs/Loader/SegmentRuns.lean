import EarlyMemory.Proofs.Loader.Exactness
import EarlyMemory.Proofs.Paging.Accounting
import EarlyMemory.Proofs.Region.Granting

/-!
# Loading a segment page by page

A segment is backed first and then mapped one page after the other. The first page that is
refused ends the run: the pages before it are mapped, no other page is, and what backs the
segment stays allocated. The tables that were built on the way took one frame each from the
region table, which is all that it was asked for besides the backing.
-/

namespace EarlyMemory.Loader

open Memory (AgreesOutside)
open Operation
open AddressSpace (Accounts Stocks missingTables)

variable {capacity : Nat} {sorting : Region.Sorting} {root : Frame}
  {before middle after : Paged (RegionTable capacity sorting)} {address : VirtualAddress}
  {backing target : PhysicalAddress} {rights : Rights} {frames : List Frame}
  {index remaining count : Nat}

/-! ## New tables -/

/-- Frames became tables, each of them one that the region table handed out. -/
structure BuildsTables (root : Frame) (frames : List Frame)
    (before after : Paged (RegionTable capacity sorting)) : Prop where
  distinct : frames.Nodup
  fresh : ∀ frame ∈ frames, ¬ (tables root).IsTable before.memory frame
  isTable_iff : ∀ frame, (tables root).IsTable after.memory frame ↔
    (tables root).IsTable before.memory frame ∨ frame ∈ frames
  handsOut : before.source.HandsOutAll frames after.source
  agrees : AgreesOutside (fun frame => (tables root).IsTable before.memory frame ∨ frame ∈ frames)
    before.memory after.memory

namespace BuildsTables

theorem refl (sound : IsSound root before) : BuildsTables root [] before before where
  distinct := List.nodup_nil
  fresh := by simp
  isTable_iff := by simp
  handsOut := .refl sound.table
  agrees := .refl _

theorem trans {rest : List Frame} (first : BuildsTables root frames before middle)
    (second : BuildsTables root rest middle after) :
    BuildsTables root (frames ++ rest) before after where
  distinct := by
    refine List.nodup_append.2 ⟨first.distinct, second.distinct, ?_⟩
    rintro frame early _ late rfl
    exact second.fresh frame late ((first.isTable_iff frame).2 (.inr early))
  fresh frame member isTable := by
    rcases List.mem_append.1 member with early | late
    · exact first.fresh frame early isTable
    · exact second.fresh frame late ((first.isTable_iff frame).2 (.inl isTable))
  isTable_iff frame := by
    rw [second.isTable_iff, first.isTable_iff, List.mem_append, or_assoc]
  handsOut := first.handsOut.trans second.handsOut
  agrees := by
    refine (first.agrees.mono ?_).trans (second.agrees.mono ?_)
    · exact fun frame touched => touched.imp_right (List.mem_append_left rest)
    · rintro frame (isTable | late)
      · exact ((first.isTable_iff frame).1 isTable).imp_right (List.mem_append_left rest)
      · exact .inr (List.mem_append_right frames late)

end BuildsTables

/-! ## One page -/

/-- Why a page is not mapped: it is already, or there is no frame for the first table that its
walk lacks. -/
inductive Refuses (root : Frame) (address : VirtualAddress)
    (after : Paged (RegionTable capacity sorting)) : BootTables.Refusal → Prop
  | present {existing : PageEntry}
      (found : (BootTables.space root).query after.memory address = .ok (some existing)) :
      Refuses root address after (.map (.alreadyMapped address existing.frame.base))
  | exhausted {lacking : Level} {further : List Level}
      (absent : (BootTables.space root).query after.memory address = .ok none)
      (missing : missingTables (BootTables.space root) after.memory address = lacking :: further)
      (dry : (RegionTable.allocateFrame : Operation (RegionTable capacity sorting) MapError _).run
        after.source = (.done none, after.source)) :
      Refuses root address after (.map (.outOfMemory lacking))

inductive EndsPage (root : Frame) (address : VirtualAddress) (leaf : PageEntry)
    (before after : Paged (RegionTable capacity sorting)) : Outcome BootTables.Refusal Unit → Prop
  | placed (fills : Fills root address leaf before.memory after.memory) :
      EndsPage root address leaf before after (.done ())
  | refused {cause : BootTables.Refusal} (refuses : Refuses root address after cause)
      (same : ∀ path : TablePath, path.length = 4 →
        (tables root).entryAt after.memory path = (tables root).entryAt before.memory path) :
      EndsPage root address leaf before after (.refused cause)

theorem stocks (sound : IsSound root before) (address : VirtualAddress) :
    Stocks root (RegionTable.recordsSince before.source).supply address before
      before.source.OffersFrame fun _ => False where
  supplied := sound.ready.supplied
  offered frame offered := by
    refine ⟨sound.inside frame offered, ?_, id⟩
    rintro ⟨level, found⟩
    exact sound.unmanaged frame ⟨_, level.length_path_le, owns_tables _, found⟩ offered.manages
  kept _ impossible := impossible.elim

/-- The frames that hang on the walk are the tables that are new. -/
theorem BuildsTables.of_hangs {level : Level} {table : Frame} {last : PageEntry}
    {answers : List (Option Frame)} (sound : IsSound root before)
    (evolves : Evolves root before after) (distinct : frames.Nodup)
    (offered : ∀ frame ∈ frames, before.source.OffersFrame frame)
    (found : (tables root).tableAt before.memory (level.path address) = some table)
    (asks : FrameSource.Asks (fun _ => False) answers before after)
    (answered : answers.filterMap id = frames)
    (hangs : AddressSpace.Hangs after.memory address last level table frames)
    (writes : AddressSpace.WritesBelow (fun _ => False) level address table frames before.memory
      after.memory) : BuildsTables root frames before after := by
  have handsOut := RegionTable.handsOutAll_of_asks asks sound.table
  rw [answered] at handsOut
  have short : (level.path address).length ≤ 3 := level.length_path_le
  have foundAfter := evolves.widened.kept _ table short (owns_tables _) found
  have linkable : ∀ frame ∈ frames, frame.IsLinkable := fun frame member =>
    (offered frame member).manages.isLinkable_number sound.table
  refine ⟨distinct, ?_, fun frame => ⟨fun isTable => ?_, ?_⟩, handsOut, writes.agrees.mono ?_⟩
  · exact fun frame member isTable =>
      sound.unmanaged frame isTable (offered frame member).manages
  · rcases evolves.widened.tables frame isTable with old | wasOffered
    · exact .inl old
    · refine .inr (Classical.byContradiction fun other => ?_)
      have still := (handsOut.offers frame).2 ⟨wasOffered, other⟩
      exact evolves.sound.unmanaged frame isTable still.manages
  · rintro (⟨path, pathShort, owns, leads⟩ | member)
    · exact ⟨path, pathShort, owns, evolves.widened.kept path frame pathShort owns leads⟩
    · rcases hangs.isOnWalk linkable foundAfter frame member with ⟨lower, leads⟩
      exact ⟨_, lower.length_path_le, owns_tables _, leads⟩
  · rintro frame (impossible | member | rfl)
    · exact impossible.elim
    · exact .inr member
    · exact .inl ⟨_, short, owns_tables _, found⟩

theorem exists_run_map (sound : IsSound root before) (target : PhysicalAddress)
    (address : VirtualAddress) (rights : Rights) :
    ∃ outcome after frames, (BootTables.map root target address rights).run before =
        (outcome, after) ∧
      Evolves root before after ∧ BuildsTables root frames before after ∧
      EndsPage root address (.leaf (target.page .small) rights) before after outcome := by
  have standing := sound.tree.hasTables (leads_tables address) .pt
  have stocked := stocks sound address
  rcases AddressSpace.map_accounts sound.addressable standing stocked target rights with
    ⟨outcome, after, frames, ran, distinct, offered, accounts⟩
  cases accounts with
  | @placed level table _ found absent missing enough asks hangs writes =>
      have mapped : (BootTables.map root target address rights).run before = (.done (), after) := by
        rw [BootTables.map, run_mapRefusal]
        exact ran ▸ rfl
      rcases evolves_of_map sound mapped with ⟨evolves, _, fills⟩
      exact ⟨_, after, frames, mapped, evolves,
        .of_hangs sound evolves distinct offered found asks (by simp) hangs writes,
        .placed (fills rfl)⟩
  | @present existing found same =>
      subst same
      have queried : (BootTables.space root).query after.memory address = .ok (some existing) :=
        (query_eq sound address).trans (congrArg _ found)
      refine ⟨_, _, [], ?_, .refl sound, .refl sound, .refused (.present queried) fun _ _ => rfl⟩
      rw [BootTables.map, run_mapRefusal]
      exact ran ▸ rfl
  | @exhausted level lacking upper rest table _ last found absent missing split count asks hangs
      ends cleared writes idle =>
      have mapped : (BootTables.map root target address rights).run before =
          (.refused (.map (.outOfMemory lacking)), after) := by
        rw [BootTables.map, run_mapRefusal]
        exact ran ▸ rfl
      rcases evolves_of_map sound mapped with ⟨evolves, targets, _⟩
      have linkable : ∀ frame ∈ frames, frame.IsLinkable := fun frame member =>
        (offered frame member).manages.isLinkable_number sound.table
      rcases AddressSpace.walk_of_hangs stocked standing found absent
        (fun frame member => ⟨offered frame member, linkable frame member⟩) hangs ends writes with
        ⟨_, lacks, unmapped⟩
      rw [split, ← count, List.drop_left] at lacks unmapped
      have vacant : (tables root).entryAt after.memory address.leafPath = none :=
        unmapped (List.cons_ne_nil _ _)
      refine ⟨_, after, frames, mapped, evolves,
        .of_hangs sound evolves distinct offered found asks (by simp) hangs writes,
        .refused (.exhausted ?_ lacks ?_) fun path long => ?_⟩
      · rw [query_eq evolves.sound, vacant]
      · exact RegionTable.run_allocateFrame_of_asks asks sound.table (by simp)
      · cases old : (tables root).entryAt before.memory path with
        | some leaf => exact evolves.leaves path leaf long old
        | none =>
            cases new : (tables root).entryAt after.memory path with
            | none => rfl
            | some leaf =>
                rcases targets path leaf long new with early | ⟨rfl, _⟩
                · cases old.symm.trans early
                · cases vacant.symm.trans new

/-! ## Page by page -/

/-- The pages of a segment from an index on, as many as this, are mapped to their part of the
backing. No other page is touched. -/
structure MapsPages (root : Frame) (backing : PhysicalAddress) (address : VirtualAddress)
    (rights : Rights) (index count : Nat) (before after : Memory) : Prop where
  pages : ∀ position, index ≤ position → position < index + count →
    BacksPage root backing address rights position before after
  others : ∀ path : TablePath, path.length = 4 →
    (∀ position, index ≤ position → position < index + count →
      path ≠ (address.pageAfter position).leafPath) →
    (tables root).entryAt after path = (tables root).entryAt before path

namespace MapsPages

variable {before middle after : Memory}

theorem none (same : ∀ path : TablePath, path.length = 4 →
    (tables root).entryAt after path = (tables root).entryAt before path) :
    MapsPages root backing address rights index 0 before after :=
  ⟨fun position _ _ => by omega, fun path long _ => same path long⟩

theorem cons (room : address.value + index * 4096 < 1 <<< 64)
    (first : Fills root (address.pageAfter index)
      (.leaf ((backing.pageAfter index).page .small) rights) before middle)
    (rest : MapsPages root backing address rights (index + 1) count middle after) :
    MapsPages root backing address rights index (count + 1) before after where
  pages position above below := by
    have mapped := first.leaves _ (Address.length_leafPath (address.pageAfter index))
    rw [if_pos rfl] at mapped
    by_cases here : position = index
    · subst here
      refine ⟨room, first.absent, ?_⟩
      rw [rest.others _ (Address.length_leafPath _), mapped]
      intro other furtherOn furtherBelow same
      -- A page that is mapped later was not mapped by then.
      have absent := (rest.pages other furtherOn furtherBelow).absent
      rw [← same, mapped] at absent
      cases absent
    · have page := rest.pages position (by omega) (by omega)
      have absent := page.absent
      rw [first.leaves _ (Address.length_leafPath _)] at absent
      split at absent
      · cases absent
      · exact ⟨page.room, absent, page.leaf⟩
  others path long other := by
    rw [rest.others path long fun position above below => other position (by omega) (by omega),
      first.leaves path long, if_neg (other index (Nat.le_refl _) (by omega))]

end MapsPages

inductive EndsPages (root : Frame) (address : VirtualAddress) (index remaining : Nat)
    (after : Paged (RegionTable capacity sorting)) : Nat → Outcome BootTables.Refusal Unit → Prop
  | mapped : EndsPages root address index remaining after remaining (.done ())
  | stopped {count : Nat} {cause : BootTables.Refusal} (below : count < remaining)
      (refuses : Refuses root (address.pageAfter (index + count)) after cause) :
      EndsPages root address index remaining after count (.refused cause)

theorem exists_run_mapSegment (rights : Rights) (sound : IsSound root before)
    (backed : ∀ position < index + remaining, backing.value + position * 4096 < 1 <<< 64)
    (room : ∀ position < index + remaining, address.value + position * 4096 < 1 <<< 64) :
    ∃ outcome after count frames,
      (mapSegment root backing address rights index remaining).run before = (outcome, after) ∧
      Evolves root before after ∧ BuildsTables root frames before after ∧
      MapsPages root backing address rights index count before.memory after.memory ∧
      EndsPages root address index remaining after count outcome := by
  induction remaining generalizing index before with
  | zero => exact ⟨_, before, 0, [], rfl, .refl sound, .refl sound, .none fun _ _ => rfl, .mapped⟩
  | succ remaining induction =>
      have fits := room index (by omega)
      rcases exists_run_map sound (backing.pageAfter index) (address.pageAfter index) rights with
        ⟨outcome, middle, frames, ran, evolves, builds, ends⟩
      rw [run_mapSegment_succ (backed index (by omega)) fits]
      cases ends with
      | refused refuses same =>
          exact ⟨_, middle, 0, frames, run_bind_of_refused ran, evolves, builds, .none same,
            .stopped (Nat.succ_pos _) refuses⟩
      | placed fills =>
          have shift : index + 1 + remaining = index + (remaining + 1) := by omega
          rcases induction evolves.sound (shift ▸ backed) (shift ▸ room) with
            ⟨outcome, after, count, further, ranOn, evolvesOn, buildsOn, mapsOn, endsOn⟩
          refine ⟨outcome, after, count + 1, frames ++ further, (run_bind_of_done ran).trans ranOn,
            evolves.trans evolvesOn, builds.trans buildsOn, .cons fits fills mapsOn, ?_⟩
          cases endsOn with
          | mapped => exact .mapped
          | stopped below refuses =>
              rw [Nat.add_assoc, Nat.add_comm 1] at refuses
              exact .stopped (Nat.succ_lt_succ below) refuses

/-! ## A segment -/

/-- The first pages of a segment are mapped to their part of the backing. Whatever lies in none
of them translates as before, for the loader's own reading and for the walk of the hardware. -/
structure MapsFirst (root : Frame) (backing : PhysicalAddress) (address : VirtualAddress)
    (rights : Rights) (count : Nat) (before after : Memory) : Prop where
  pages : ∀ index < count, ∀ other : VirtualAddress,
    other.value / 4096 = address.value / 4096 + index →
    (BootTables.space root).query before other = .ok none ∧ ∃ frame target,
      (BootTables.space root).query after other = .ok (some (.leaf frame rights)) ∧
      frame.number * 4096 = backing.value + index * 4096 ∧
      (BootTables.space root).translate after other = .ok (some target) ∧
      target.value = backing.value + index * 4096 + other.value % 4096
  others : ∀ other : VirtualAddress,
    (∀ index < count, other.pageKey ≠ (address.pageAfter index).pageKey) →
    (BootTables.space root).query after other = (BootTables.space root).query before other ∧
    (BootTables.space root).translate after other = (BootTables.space root).translate before other
  walk : ∀ other, after.translate root other = (BootTables.space root).translate after other

theorem MapsPages.mapsFirst {pages : Nat} (soundBefore : IsSound root before)
    (soundAfter : IsSound root after)
    (aligned : backing.value % 4096 = 0)
    (within : backing.value + pages * 4096 ≤ physicalLimit.value) (fits : count ≤ pages)
    (maps : MapsPages root backing address rights 0 count before.memory after.memory) :
    MapsFirst root backing address rights count before.memory after.memory where
  pages index below other inPage := by
    have page := maps.pages index (Nat.zero_le _) (by omega)
    have room := page.room
    have path : other.leafPath = (address.pageAfter index).leafPath := by
      refine Address.leafPath_eq_iff.2 (Fin.ext ?_)
      simp only [Address.pageKey, Address.value_pageAfter room, Nat.reduceShiftLeft]
      omega
    have number := number_pageAfter within (Nat.lt_of_lt_of_le below fits)
    have limit : physicalLimit.value = 0x10000000000000 := rfl
    have linkable : ((backing.pageAfter index).page .small).IsLinkable := by
      unfold Page.IsLinkable
      omega
    rw [query_eq soundBefore, query_eq soundAfter, translate_eq soundAfter, path, page.absent,
      page.leaf]
    refine ⟨rfl, _, _, rfl, by omega, rfl, ?_⟩
    simp only [PageEntry.frame_leaf linkable, Page.join, Address.offset, PageSize.bytes, number]
    omega
  others other apart := by
    have same := maps.others _ (Address.length_leafPath other) fun position _ below equal =>
      apart position (by omega) (Address.leafPath_eq_iff.1 equal)
    rw [query_eq soundBefore, query_eq soundAfter, translate_eq soundBefore,
      translate_eq soundAfter, same]
    exact ⟨rfl, rfl⟩
  walk other := translate_walked soundAfter other

inductive EndsSegment (root : Frame) (backing : PhysicalAddress) (address : VirtualAddress)
    (pages : Nat) (after : Paged (RegionTable capacity sorting)) :
    Nat → Outcome BootTables.Refusal PhysicalAddress → Prop
  | loaded : EndsSegment root backing address pages after pages (.done backing)
  | stopped {count : Nat} {cause : BootTables.Refusal} (below : count < pages)
      (refuses : Refuses root (address.pageAfter count) after cause) :
      EndsSegment root backing address pages after count (.refused cause)

/-- What loading a segment leaves once it is backed, however far it gets: the pages mapped so
far, the tables that were built for them, which with the old ones are all that was written, and
the grants for the backing and for the new tables. -/
structure LoadsFirst (root : Frame) (backing : PhysicalAddress) (address : VirtualAddress)
    (pages : Nat) (rights : Rights) (count : Nat)
    (before after : Paged (RegionTable capacity sorting)) : Prop where
  maps : MapsFirst root backing address rights count before.memory after.memory
  builds : ∃ frames : List Frame, frames.Nodup ∧
    (∀ frame ∈ frames, ¬ (tables root).IsTable before.memory frame) ∧
    (∀ frame, (tables root).IsTable after.memory frame ↔
      (tables root).IsTable before.memory frame ∨ frame ∈ frames) ∧
    AgreesOutside (fun frame => (tables root).IsTable before.memory frame ∨ frame ∈ frames)
      before.memory after.memory ∧
    before.source.CutsOut (⟨⟨backing, pages⟩, .allocated⟩ :: frames.map Page.grant) after.source

theorem run_loadSegment_of_none {pages : Nat}
    (allocated : (RegionTable.allocateAs pages .allocated :
      Operation (RegionTable capacity sorting) BootTables.Refusal _).run before.source =
      (.done none, before.source)) :
    (loadSegment root address pages rights).run before = (.refused .outOfMemory, before) := by
  have asked : (Paged.onSource (RegionTable.allocateAs pages .allocated) :
      Operation (Paged (RegionTable capacity sorting)) BootTables.Refusal _).run before =
      (.done none, before) := Paged.run_onSource_of_run allocated
  rw [loadSegment, run_bind_of_done asked]
  exact (run_bind_of_done (run_report ..)).trans (run_refuse ..)

theorem run_loadSegment_of_refused {pages : Nat} {cause : BootTables.Refusal}
    (allocated : (Paged.onSource (RegionTable.allocateAs pages .allocated) :
      Operation (Paged (RegionTable capacity sorting)) BootTables.Refusal _).run before =
      (.done (some backing), middle))
    (mapped : (mapSegment root backing address rights 0 pages).run middle =
      (.refused cause, after)) :
    (loadSegment root address pages rights).run before = (.refused cause, after) := by
  rw [loadSegment, run_bind_of_done allocated]
  exact run_bind_of_refused mapped

theorem exists_run_loadSegment_of_some {pages : Nat} {table : RegionTable capacity sorting}
    (sound : IsSound root before) (room : address.value + pages * 4096 ≤ 1 <<< 64)
    (allocated : (RegionTable.allocateAs pages .allocated :
      Operation (RegionTable capacity sorting) BootTables.Refusal _).run before.source =
      (.done (some backing), table)) :
    ∃ outcome after count, (loadSegment root address pages rights).run before = (outcome, after) ∧
      LoadsFirst root backing address pages rights count before after ∧
      EndsSegment root backing address pages after count outcome := by
  have asked : (Paged.onSource (RegionTable.allocateAs pages .allocated) :
      Operation (Paged (RegionTable capacity sorting)) BootTables.Refusal _).run before =
      (.done (some backing), ⟨before.machine, table⟩) := Paged.run_onSource_of_run allocated
  rcases evolves_of_allocateAs sound asked with ⟨evolves, memory, backs⟩
  have backed := backs backing rfl
  have within := backed.within
  have limit : physicalLimit.value = 0x10000000000000 := rfl
  have targets : ∀ position < 0 + pages, backing.value + position * 4096 < 1 <<< 64 := by
    intro position below
    omega
  have addresses : ∀ position < 0 + pages, address.value + position * 4096 < 1 <<< 64 := by
    intro position below
    omega
  rcases exists_run_mapSegment rights evolves.sound targets addresses with
    ⟨outcome, after, count, frames, mapped, evolvesOn, builds, maps, ends⟩
  have fits : count ≤ pages := by
    cases ends with
    | mapped => exact Nat.le_refl _
    | stopped below _ => exact Nat.le_of_lt below
  have loads : LoadsFirst root backing address pages rights count before after := by
    rcases RegionTable.allocates_of_allocateAs allocated with ⟨_, ⟨⟩, allocates⟩
    have isTable_iff := builds.isTable_iff
    have fresh := builds.fresh
    have agrees := builds.agrees
    rw [memory] at isTable_iff fresh agrees maps
    exact ⟨maps.mapsFirst sound evolvesOn.sound backed.aligned within fits, frames,
      builds.distinct, fresh, isTable_iff, agrees,
      (allocates.cutsOut sound.table (by decide)).trans builds.handsOut.cutsOut⟩
  cases ends with
  | mapped => exact ⟨_, after, pages, run_loadSegment asked mapped, loads, .loaded⟩
  | stopped below refuses =>
      rw [Nat.zero_add] at refuses
      exact ⟨_, after, count, run_loadSegment_of_refused asked mapped, loads,
        .stopped below refuses⟩

/-- Loading a segment changes nothing if it cannot be backed. Otherwise its backing becomes
allocated and its pages are mapped up to the first one that is refused, for one more reserved
page in the region table for each new page table. -/
theorem loadSegment_maps_up_to_a_refusal (start before : Paged (RegionTable capacity sorting))
    (root : Frame) (built : start.source.Built) (apart : start.source.regions.Pairwise Region.Apart)
    (inside : ∀ region ∈ start.source.regions, region.code = RegionKind.available.code →
      ∀ address, region.Covers address → lowMemoryEnd.value ≤ address →
        start.memory.Contains address)
    (reaches : Reaches start root before) (address : VirtualAddress) (pages : Nat)
    (rights : Rights) (room : address.value + pages * 4096 ≤ 1 <<< 64) :
    ∃ answer table, (RegionTable.allocateAs pages .allocated :
        Operation (RegionTable capacity sorting) BootTables.Refusal _).run before.source =
        (.done answer, table) ∧
      (answer = none →
        (loadSegment root address pages rights).run before = (.refused .outOfMemory, before)) ∧
      ∀ backing : PhysicalAddress, answer = some backing → ∃ outcome after count,
        (loadSegment root address pages rights).run before = (outcome, after) ∧
        LoadsFirst root backing address pages rights count before after ∧
        EndsSegment root backing address pages after count outcome := by
  have sound := reaches.isSound (isStart_of_built built apart inside)
  rcases RegionTable.allocateAs_spec (ε := BootTables.Refusal) before.source pages .allocated with
    ⟨answer, table, allocated, allocates⟩
  refine ⟨answer, table, allocated, ?_, ?_⟩
  · rintro rfl
    cases allocates
    exact run_loadSegment_of_none allocated
  · rintro backing rfl
    exact exists_run_loadSegment_of_some sound room allocated

def smallTaken : RegionTable 8 :=
  ⟨[Region.of .reserved (.ofNat 0x100000) (.ofNat 0x104000),
    Region.of .allocated (.ofNat 0x104000) (.ofNat 0x105000),
    Region.of .reserved (.ofNat 0x105000) (.ofNat 0x106000),
    Region.of .allocated (.ofNat 0x106000) (.ofNat 0x107000),
    Region.of .available (.ofNat 0x107000) (.ofNat 0x110000)]⟩

/-- The small segment is loaded once. Another time its first page is refused, which leaves the
second backing allocated. -/
theorem smallSegment_is_loaded_once : ∃ created loaded again existing,
    Reaches smallStart smallRoot created ∧
    (loadSegment smallRoot ⟨0x200000, by decide⟩ 1 .readExecute).run created =
      (.done ⟨0x104000, by decide⟩, loaded) ∧
    LoadsFirst smallRoot ⟨0x104000, by decide⟩ ⟨0x200000, by decide⟩ 1 .readExecute 1 created
      loaded ∧
    (loadSegment smallRoot ⟨0x200000, by decide⟩ 1 .readExecute).run loaded =
      (.refused (.map (.alreadyMapped ⟨0x200000, by decide⟩ existing)), again) ∧
    LoadsFirst smallRoot ⟨0x106000, by decide⟩ ⟨0x200000, by decide⟩ 1 .readExecute 0 loaded
      again := by
  rcases exists_created with ⟨created, last, creating, identity, source⟩
  have reaches : Reaches smallStart smallRoot created := .created creating
  have allocated : (RegionTable.allocateAs 1 .allocated :
      Operation (RegionTable 8) BootTables.Refusal _).run created.source =
      (.done (some ⟨0x104000, by decide⟩), smallBacked) := by
    rw [source]
    decide
  have given : (RegionTable.allocateFrame : Operation (RegionTable 8) MapError _).run smallBacked =
      (.done (some ⟨0x105, by decide⟩), smallHanded) := by
    decide
  have onePage : smallSegment.pages = 1 := rfl
  obtain ⟨loaded, loading, sourceLoaded⟩ : ∃ loaded,
      (loadSegment smallRoot ⟨0x200000, by decide⟩ 1 .readExecute).run created =
        (.done ⟨0x104000, by decide⟩, loaded) ∧ loaded.source = smallHanded :=
    exists_run_loadSegment identity onePage (show Level.pd.below = [.pt] from rfl) (by decide)
      (by decide) allocated (yields_of_allocateFrame given (.nil _)) rfl
  have allocatedAgain : (RegionTable.allocateAs 1 .allocated :
      Operation (RegionTable 8) BootTables.Refusal _).run loaded.source =
      (.done (some ⟨0x106000, by decide⟩), smallTaken) := by
    rw [sourceLoaded]
    decide
  rcases loadSegment_maps_up_to_a_refusal smallStart created smallRoot built_smallStart (by decide)
    contains_smallStart reaches ⟨0x200000, by decide⟩ 1 .readExecute (by decide) with
    ⟨_, _, same, _, ends⟩
  rw [allocated] at same
  cases same
  rcases ends _ rfl with ⟨_, _, _, ran, loads, endsOnce⟩
  rw [loading] at ran
  cases ran
  cases endsOnce
  rcases loadSegment_maps_up_to_a_refusal smallStart loaded smallRoot built_smallStart (by decide)
    contains_smallStart (.segment reaches loading) ⟨0x200000, by decide⟩ 1 .readExecute (by decide)
    with ⟨_, _, same, _, ends⟩
  rw [allocatedAgain] at same
  cases same
  rcases ends _ rfl with ⟨_, again, _, ran, loadsAgain, endsAgain⟩
  -- The first page is mapped by now, so it is neither mapped again nor missing.
  rcases (loads.maps.pages 0 (by decide) ⟨0x200000, by decide⟩ rfl).2 with ⟨frame, _, queried, _⟩
  cases endsAgain with
  | loaded =>
      have free := (loadsAgain.maps.pages 0 (by decide) ⟨0x200000, by decide⟩ rfl).1
      cases free.symm.trans queried
  | @stopped count cause below refuses =>
      cases Nat.lt_one_iff.1 below
      have still := (loadsAgain.maps.others ⟨0x200000, by decide⟩ (by simp)).1.trans queried
      rw [Address.pageAfter_zero] at refuses
      cases refuses with
      | present found => exact ⟨created, loaded, again, _, reaches, loading, loads, ran, loadsAgain⟩
      | exhausted absent => cases absent.symm.trans still

end EarlyMemory.Loader
