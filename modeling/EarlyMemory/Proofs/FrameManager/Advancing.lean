import EarlyMemory.Proofs.FrameManager.Spanning
import EarlyMemory.Proofs.Paging.Flushing
import EarlyMemory.Proofs.Paging.Window

/-!
# Advancing behind the image

Each page that is mapped behind the image moves the manager's next virtual address behind
itself, and a page that is refused leaves it where it is. So a call that stops halfway neither
skips a page nor uses one twice, and the next call goes on right where it stopped. However many
calls there are and whatever source of frames each of them brings along, their pages do not
meet, stay mapped as they were, and are all that changes outside the recursive slot.
-/

namespace EarlyMemory.FrameManager

open Hierarchy (without)
open Operation

/-! ## As many pages as possible -/

section

variable {F : Type} [FrameSource F] {space : AddressSpace} {supply : Supply F}
  {offers rest keeps : Frame → Prop} {before middle after : Paged (FrameManager × F)}
  {base : PhysicalAddress} {start : VirtualAddress} {rights : Rights} {index count mapped : Nat}

structure MapsExactly (space : AddressSpace) (supply : Supply F) (keeps offers : Frame → Prop)
    (base : PhysicalAddress) (start : VirtualAddress) (rights : Rights) (index count : Nat)
    (before after : Paged (FrameManager × F)) : Prop
    extends MapsPages space supply keeps offers base start rights index count before after where
  absent : ∀ position, index ≤ position → position < index + count →
    space.hierarchy.entryAt before.memory (start.pageAfter position).leafPath = none
  others : ∀ path : TablePath, path.length = 4 → space.hierarchy.Owns path →
    (∀ position, index ≤ position → position < index + count →
      path ≠ (start.pageAfter position).leafPath) →
    space.hierarchy.entryAt after.memory path = space.hierarchy.entryAt before.memory path

/-- How mapping pages from an index on ends once some of them are mapped. -/
inductive StopsAfter {α : Type} (space : AddressSpace) (start : VirtualAddress)
    (index count mapped : Nat) (after : Paged (FrameManager × F)) (value : α) :
    Outcome Refusal α → Prop
  | done (all : mapped = count) :
      StopsAfter space start index count mapped after value (.done value)
  | met {leaf : PageEntry} (short : mapped < count)
      (existing : space.hierarchy.entryAt after.memory
        (start.pageAfter (index + mapped)).leafPath = some leaf) :
      StopsAfter space start index count mapped after value
        (.refused (.map (.alreadyMapped (start.pageAfter (index + mapped)) leaf.frame.base)))
  | dry {asked : Paged F} {missing : Level} (short : mapped < count)
      (dry : (FrameSource.take : Operation (Paged F) MapError (Option Frame)).run asked =
        (.done none, after.second))
      (absent : space.hierarchy.entryAt after.memory
        (start.pageAfter (index + mapped)).leafPath = none) :
      StopsAfter space start index count mapped after value
        (.refused (.map (.outOfMemory missing)))

theorem StopsAfter.le {α : Type} {value : α} {outcome : Outcome Refusal α}
    (stops : StopsAfter space start index count mapped after value outcome) : mapped ≤ count := by
  cases stops with
  | done all => exact Nat.le_of_eq all
  | met short => exact Nat.le_of_lt short
  | dry short => exact Nat.le_of_lt short

theorem StopsAfter.of_next {α : Type} {value : α} {outcome : Outcome Refusal α}
    (stops : StopsAfter space start (index + 1) count mapped after value outcome) :
    StopsAfter space start index (count + 1) (mapped + 1) after value outcome := by
  have onward : index + 1 + mapped = index + (mapped + 1) := by omega
  cases stops with
  | done all => exact .done (by omega)
  | met short existing =>
      rw [onward] at existing ⊢
      exact .met (Nat.succ_lt_succ short) existing
  | dry short dry absent =>
      rw [onward] at absent
      exact .dry (Nat.succ_lt_succ short) dry absent

/-- A page that is refused leaves everything as it was, but for tables on the way to it. -/
theorem mapsExactly_none (advances : space.Advances supply keeps offers rest before.second
      after.second)
    (same : space.SameLeaves before.memory after.memory)
    (manager : after.source.1 = before.source.1)
    (cursor : before.source.1.nextVirtual.value = start.value + index * 4096) :
    MapsExactly space supply keeps offers base start rights index 0 before after where
  advances := ⟨rest, advances⟩
  stay path long owns _ found := (same path long owns).trans found
  leaves position above below := by omega
  manager := ⟨before.source.1.nextVirtual, manager, cursor⟩
  absent position above below := by omega
  others path long owns _ := same path long owns

theorem MapsExactly.of_map
    (further : MapsExactly space supply keeps rest base start rights (index + 1) count middle
      after)
    (advances : space.Advances supply keeps offers rest before.second middle.second)
    (maps : space.Maps (base.pageAfter index) (start.pageAfter index) rights before.second
      middle.second (.done ()))
    (leads : ∀ position, index ≤ position → position < index + (count + 1) →
      space.hierarchy.Leads (start.pageAfter position))
    (manager : ∃ next, middle.source.1 = { before.source.1 with nextVirtual := next }) :
    MapsExactly space supply keeps offers base start rights index (count + 1) before after where
  toMapsPages := .of_map further.toMapsPages advances maps
    (leads index (Nat.le_refl _) (by omega)) manager
  absent position above below := by
    cases maps with
    | placed absent leaves =>
        by_cases here : position = index
        · exact here ▸ absent
        · -- A page that is mapped later was not mapped by then, so it is not this one.
          have later := further.absent position (by omega) (by omega)
          rw [← Paged.memory_second, leaves _ (Address.length_leafPath _)
            (leads position above below).owns_leafPath] at later
          split at later
          · cases later
          · exact later
  others path long owns elsewhere := by
    cases maps with
    | placed absent leaves =>
        rw [further.others path long owns fun position above below =>
            elsewhere position (by omega) (by omega),
          ← Paged.memory_second, leaves path long owns,
          if_neg (elsewhere index (Nat.le_refl _) (by omega)), Paged.memory_second]

theorem exists_run_mapPages (rights : Rights)
    (ready : space.Ready supply before.second offers keeps)
    (cursor : before.source.1.nextVirtual.value = start.value + index * 4096)
    (backed : base.value + (index + count) * 4096 < 1 <<< 64)
    (room : start.value + (index + count) * 4096 < 1 <<< 64)
    (leads : ∀ position, index ≤ position → position < index + count →
      space.hierarchy.Leads (start.pageAfter position)) :
    ∃ outcome after mapped,
      (mapPages space base start rights index count).run before = (outcome, after) ∧
      MapsExactly space supply keeps offers base start rights index mapped before after ∧
      StopsAfter space start index count mapped after () outcome := by
  induction count generalizing index before offers with
  | zero =>
      exact ⟨_, before, 0, rfl, mapsExactly_none (.refl ready) (fun _ _ _ => rfl) rfl cursor,
        .done rfl⟩
  | succ count induction =>
      rcases before with ⟨machine, manager, source⟩
      have shift : index + 1 + count = index + (count + 1) := by omega
      have next : start.value + (index + 1) * 4096 < 1 <<< 64 :=
        Nat.lt_of_le_of_lt (by omega) room
      have framed : base.value + index * 4096 < 1 <<< 64 := Nat.lt_of_le_of_lt (by omega) backed
      have ready : space.Ready supply ⟨machine, source⟩ offers keeps := ready
      rcases AddressSpace.map_spec (base.pageAfter index) rights ready
        (leads index (Nat.le_refl _) (by omega)) with
        ⟨outcome, ⟨changed, left⟩, rest, ran, advances, maps⟩
      rw [run_mapPages_succ next framed, ran]
      cases outcome with
      | done value =>
          have ready : space.Ready supply (Paged.second
              ⟨changed, ({ manager with nextVirtual := start.pageAfter (index + 1) }, left)⟩)
              rest keeps := advances.ready
          rcases induction ready (Address.value_pageAfter next) (shift ▸ backed) (shift ▸ room)
            (fun position above below => leads position (by omega) (by omega)) with
            ⟨outcome, after, mapped, continued, exactly, stops⟩
          have few := stops.le
          exact ⟨outcome, after, mapped + 1, continued, .of_map exactly advances maps
            (fun position above beneath => leads position above (by omega)) ⟨_, rfl⟩, stops.of_next⟩
      | refused cause =>
          have owns := (leads index (Nat.le_refl _) (by omega)).owns_leafPath
          cases maps with
          | present existing same =>
              exact ⟨_, _, 0, rfl, mapsExactly_none advances same rfl cursor,
                .met (Nat.succ_pos _) ((same _ (Address.length_leafPath _) owns).trans existing)⟩
          | exhausted dry absent same =>
              exact ⟨_, _, 0, rfl, mapsExactly_none advances same rfl cursor,
                .dry (Nat.succ_pos _) dry
                  ((same _ (Address.length_leafPath _) owns).trans absent)⟩
      | fault cause => cases maps

theorem exists_run_mapBeyond {root : Frame} {machine : Machine} {manager : FrameManager}
    {source : F} (rights : Rights) (active : manager.active = root)
    (owner : manager.root = some root)
    (ready : (spaceBelow root).Ready supply ⟨machine, source⟩ offers keeps)
    (backed : base.value + count * 4096 < 1 <<< 64)
    (room : manager.nextVirtual.value + count * 4096 < 1 <<< 64)
    (leads : ∀ position < count,
      (spaceBelow root).hierarchy.Leads (manager.nextVirtual.pageAfter position)) :
    ∃ outcome after mapped,
      (mapBeyond base count rights).run ⟨machine, (manager, source)⟩ = (outcome, after) ∧
      MapsExactly (spaceBelow root) supply keeps offers base manager.nextVirtual rights 0 mapped
        ⟨machine, (manager, source)⟩ after ∧
      StopsAfter (spaceBelow root) manager.nextVirtual 0 count mapped after manager.nextVirtual
        outcome := by
  have working : (manager.space : Operation (Paged (FrameManager × F)) Refusal AddressSpace).run
      ⟨machine, (manager, source)⟩ = (.done (spaceBelow root), ⟨machine, (manager, source)⟩) := by
    rw [FrameManager.space, owner, access, active, run_pure]
  have ran : (mapBeyond base count rights).run ⟨machine, (manager, source)⟩ = _ :=
    (run_bind_of_done (run_state _)).trans (run_bind_of_done working)
  have ready : (spaceBelow root).Ready supply (Paged.second ⟨machine, (manager, source)⟩)
    offers keeps := ready
  rw [← Nat.zero_add count] at backed room
  rcases exists_run_mapPages rights ready (by rw [Nat.zero_mul, Nat.add_zero]) backed room
    (fun position _ below => leads position (by omega)) with
    ⟨outcome, after, mapped, pages, exactly, stops⟩
  cases stops with
  | done all =>
      exact ⟨_, after, mapped,
        ran.trans ((run_bind_of_done pages).trans (run_bind_of_done (run_report ..))), exactly,
        .done all⟩
  | met short existing =>
      exact ⟨_, after, mapped, ran.trans (run_bind_of_refused pages), exactly, .met short existing⟩
  | dry short dry absent =>
      exact ⟨_, after, mapped, ran.trans (run_bind_of_refused pages), exactly,
        .dry short dry absent⟩

end

/-! ## Reading a root -/

variable {root : Frame} {memory before after : Memory} {address : VirtualAddress}
  {leaf : Option PageEntry}

/-- A root that the recursive map is installed in and whose tables form a tree otherwise. -/
structure HasSelfMap (root : Frame) (memory : Memory) : Prop where
  addressable : memory.IsAddressable
  tree : (without root RecursiveMap.slot).IsTree memory
  installed : RecursiveMap.isInstalled memory root = true

/-- What the hardware finds for an address below a root, the frame it takes the address to, and
what the manager finds through the map. -/
structure Reads (root : Frame) (memory : Memory) (address : VirtualAddress)
    (leaf : Option PageEntry) : Prop where
  walk : memory.walk root address = .ok leaf
  translate : memory.translate root address =
    .ok (leaf.map fun leaf => leaf.frame.join (address.offset .small))
  query : (spaceBelow root).query memory address = .ok leaf

theorem Reads.unique {other : Option PageEntry} (first : Reads root memory address leaf)
    (second : Reads root memory address other) : leaf = other :=
  Except.ok.inj (first.walk.symm.trans second.walk)

theorem HasSelfMap.reads (selfMap : HasSelfMap root memory)
    (leads : (without root RecursiveMap.slot).Leads address) :
    Reads root memory address
      ((without root RecursiveMap.slot).entryAt memory address.leafPath) := by
  have served : (spaceBelow root).IsServed memory := ⟨rfl, selfMap.installed⟩
  have tables : (spaceBelow root).hierarchy.HasTables memory address .pt :=
    selfMap.tree.hasTables leads .pt
  have walked := Hierarchy.walk_eq selfMap.addressable (selfMap.tree.hasTables leads .pt)
  have queried := AddressSpace.query_eq selfMap.addressable served tables
  exact ⟨walked, Memory.translate_of_walk walked, queried⟩

/-- Some pages in a row were not mapped and are now mapped to as many pages from an address
on. Outside the recursive slot every other address is read as before. -/
structure MapsFirst (root : Frame) (base : PhysicalAddress) (start : VirtualAddress)
    (rights : Rights) (count : Nat) (before after : Memory) : Prop where
  pages : ∀ index < count, ∀ address : VirtualAddress,
    address.pageKey = (start.pageAfter index).pageKey →
    Reads root before address none ∧ ∃ frame : Frame, frame.number = base.value / 4096 + index ∧
      Reads root after address (some (.leaf frame rights)) ∧
      after.translate root address = .ok (some (frame.join (address.offset .small)))
  others : ∀ address : VirtualAddress, (without root RecursiveMap.slot).Leads address →
    (∀ index < count, address.pageKey ≠ (start.pageAfter index).pageKey) →
    ∃ leaf, Reads root before address leaf ∧ Reads root after address leaf

theorem leads_of_pageKey_eq {other : VirtualAddress} (same : address.pageKey = other.pageKey)
    (leads : (without root RecursiveMap.slot).Leads other) :
    (without root RecursiveMap.slot).Leads address := by
  have paths : address.leafPath = other.leafPath := Address.leafPath_eq_iff.2 same
  simp only [Address.leafPath, Level.path, List.cons.injEq, and_true] at paths
  unfold Hierarchy.Leads
  rw [paths.2.2.2]
  exact leads

theorem MapsExactly.mapsFirst {F : Type} [FrameSource F] {supply : Supply F}
    {offers keeps : Frame → Prop} {before after : Paged (FrameManager × F)}
    {base : PhysicalAddress} {start : VirtualAddress} {rights : Rights} {count : Nat}
    (exactly : MapsExactly (spaceBelow root) supply keeps offers base start rights 0 count before
      after)
    (mapBefore : HasSelfMap root before.memory) (mapAfter : HasSelfMap root after.memory)
    (within : base.value + count * 4096 < 1 <<< 52)
    (leads : ∀ position < count,
      (without root RecursiveMap.slot).Leads (start.pageAfter position)) :
    MapsFirst root base start rights count before.memory after.memory where
  pages index below address same := by
    have leadsHere := leads_of_pageKey_eq same (leads index below)
    have path : address.leafPath = (start.pageAfter index).leafPath :=
      Address.leafPath_eq_iff.2 same
    have early := mapBefore.reads leadsHere
    have late := mapAfter.reads leadsHere
    have absent : (without root RecursiveMap.slot).entryAt before.memory
        (start.pageAfter index).leafPath = none :=
      exactly.absent index (Nat.zero_le _) (by omega)
    have placed : (without root RecursiveMap.slot).entryAt after.memory
        (start.pageAfter index).leafPath =
          some (.leaf ((base.pageAfter index).page .small) rights) :=
      exactly.leaves index (Nat.zero_le _) (by omega)
    rw [path, absent] at early
    rw [path, placed] at late
    have inside : base.value + index * 4096 < 1 <<< 52 := Nat.lt_of_le_of_lt (by omega) within
    have value := Address.value_pageAfter (Nat.lt_trans inside (by decide))
    have number : ((base.pageAfter index).page .small).number = base.value / 4096 + index := by
      change (base.pageAfter index).value / 4096 = _
      omega
    have linkable : ((base.pageAfter index).page .small).IsLinkable := by
      unfold Page.IsLinkable
      omega
    refine ⟨early, _, number, late, ?_⟩
    rw [late.translate, Option.map_some, PageEntry.frame_leaf linkable]
  others address leadsHere elsewhere := by
    have same := exactly.others _ (Address.length_leafPath address) leadsHere.owns_leafPath
      fun position _ below equal => elsewhere position (by omega) (Address.leafPath_eq_iff.1 equal)
    have late := mapAfter.reads leadsHere
    have same : (without root RecursiveMap.slot).entryAt after.memory address.leafPath =
        (without root RecursiveMap.slot).entryAt before.memory address.leafPath := same
    rw [same] at late
    exact ⟨_, mapBefore.reads leadsHere, late⟩

/-! ## Calls -/

structure Attempt where
  base : PhysicalAddress
  count : Nat
  rights : Rights
  before : Paged FrameManager
  after : Paged FrameManager
  outcome : Outcome Refusal VirtualAddress

namespace Attempt

def start (attempt : Attempt) : VirtualAddress :=
  attempt.before.source.nextVirtual

def mapped (attempt : Attempt) : Nat :=
  (attempt.after.source.nextVirtual.value - attempt.start.value) / 4096

def stop (attempt : Attempt) : VirtualAddress :=
  attempt.start.pageAfter attempt.mapped

/-- How an attempt ends: all pages are mapped, or the next one is already or lacks a table. -/
inductive Ends (root : Frame) (attempt : Attempt) : Outcome Refusal VirtualAddress → Prop
  | done (all : attempt.mapped = attempt.count) : Ends root attempt (.done attempt.start)
  | met {leaf : PageEntry} (short : attempt.mapped < attempt.count)
      (existing : Reads root attempt.after.memory attempt.stop (some leaf)) :
      Ends root attempt (.refused (.map (.alreadyMapped attempt.stop leaf.frame.base)))
  | dry {missing : Level} (short : attempt.mapped < attempt.count)
      (absent : Reads root attempt.after.memory attempt.stop none) :
      Ends root attempt (.refused (.map (.outOfMemory missing)))

structure Conforms (root : Frame) (attempt : Attempt) : Prop where
  ends : attempt.Ends root attempt.outcome
  cursor : attempt.after.source.nextVirtual.value = attempt.start.value + attempt.mapped * 4096
  manager : attempt.after.source =
    { attempt.before.source with nextVirtual := attempt.after.source.nextVirtual }
  maps : MapsFirst root attempt.base attempt.start attempt.rights attempt.mapped
    attempt.before.memory attempt.after.memory

theorem Conforms.of_done {attempt : Attempt} {address : VirtualAddress}
    (conforms : attempt.Conforms root) (done : attempt.outcome = .done address) :
    address = attempt.start ∧ attempt.after.source.nextVirtual.value =
      attempt.start.value + attempt.count * 4096 := by
  have ends := conforms.ends
  have cursor := conforms.cursor
  rw [done] at ends
  cases ends with
  | done all => exact ⟨rfl, all ▸ cursor⟩

end Attempt

structure Stands (root : Frame) (paged : Paged FrameManager) : Prop
    extends HasSelfMap root paged.memory where
  active : paged.source.active = root
  owner : paged.source.root = some root

/-- A source of frames of the machine that are no tables yet. -/
structure IsFresh {F : Type} [FrameSource F] (root : Frame) (supply : Supply F)
    (offers keeps : Frame → Prop) (memory : Memory) (source : F) : Prop where
  supplied : supply.Holds memory source offers keeps
  offered : ∀ frame, offers frame → memory.HasFrame frame ∧ frame.IsLinkable ∧
    ¬ (without root RecursiveMap.slot).IsTable memory frame ∧ ¬ keeps frame
  kept : ∀ frame, keeps frame → ¬ (without root RecursiveMap.slot).IsTable memory frame

theorem Stands.ready {F : Type} [FrameSource F] {supply : Supply F} {offers keeps : Frame → Prop}
    {paged : Paged FrameManager} {source : F} (stands : Stands root paged)
    (fresh : IsFresh root supply offers keeps paged.memory source) :
    (spaceBelow root).Ready supply ⟨paged.machine, source⟩ offers keeps where
  addressable := stands.addressable
  tree := stands.tree
  served := ⟨rfl, stands.installed⟩
  supplied := fresh.supplied
  offered := fresh.offered
  kept := fresh.kept

/-- With frames enough for the tables, only a page that is mapped already is refused. -/
theorem Stands.exists_run_of_strip {paged : Paged FrameManager} {strip : FrameStrip}
    {low high : Frame} {offers keeps : Frame → Prop} {base : PhysicalAddress} {count : Nat}
    (stands : Stands root paged) (rights : Rights)
    (fresh : IsFresh root (FrameStrip.recordsBetween low high).supply offers keeps paged.memory
      strip)
    (ledTo : IsLedTo (spaceBelow root) paged.source.nextVirtual 0 count paged.memory)
    (backed : base.value + count * 4096 ≤ 1 <<< 64)
    (enough : strip.next.number + Ledger.worstCaseTables count ≤ high.number) :
    ∃ outcome after, (mapBeyond base count rights).run ⟨paged.machine, (paged.source, strip)⟩ =
        (outcome, after) ∧
      EndsMapping (spaceBelow root) paged.source.nextVirtual 0 count paged.memory outcome :=
  run_mapBeyond_of_strip rights stands.active stands.owner (stands.ready fresh) ledTo backed enough

/-- Attempts one after the other, each with a source of frames of its own. -/
inductive Attempts (root : Frame) (first : Paged FrameManager) :
    List Attempt → Paged FrameManager → Prop
  | nil : Attempts root first [] first
  | snoc {F : Type} [FrameSource F] {supply : Supply F} {offers keeps : Frame → Prop}
      {attempts : List Attempt} {before after : Paged FrameManager} {source left : F}
      {base : PhysicalAddress} {count : Nat} {rights : Rights}
      {outcome : Outcome Refusal VirtualAddress} (earlier : Attempts root first attempts before)
      (fresh : IsFresh root supply offers keeps before.memory source)
      (within : base.value + count * 4096 < 1 <<< 52)
      (room : before.source.nextVirtual.value + count * 4096 < 1 <<< 64)
      (leads : ∀ position < count, (without root RecursiveMap.slot).Leads
        (before.source.nextVirtual.pageAfter position))
      (ran : (mapBeyond base count rights).run ⟨before.machine, (before.source, source)⟩ =
        (outcome, ⟨after.machine, (after.source, left)⟩)) :
      Attempts root first (attempts ++ [⟨base, count, rights, before, after, outcome⟩]) after

section

variable {F : Type} [FrameSource F] {supply : Supply F} {offers keeps : Frame → Prop}
  {attempts : List Attempt} {first before after : Paged FrameManager} {source left : F}
  {base : PhysicalAddress} {count : Nat} {rights : Rights}
  {outcome : Outcome Refusal VirtualAddress}

theorem Attempts.exists_snoc (earlier : Attempts root first attempts before) (rights : Rights)
    (fresh : IsFresh root supply offers keeps before.memory source)
    (within : base.value + count * 4096 < 1 <<< 52)
    (room : before.source.nextVirtual.value + count * 4096 < 1 <<< 64)
    (leads : ∀ position < count, (without root RecursiveMap.slot).Leads
      (before.source.nextVirtual.pageAfter position)) :
    ∃ after outcome,
      Attempts root first (attempts ++ [⟨base, count, rights, before, after, outcome⟩]) after :=
  ⟨⟨_, _⟩, _, .snoc earlier fresh within room leads rfl⟩

theorem StopsAfter.ends {final : Paged (FrameManager × F)} {attempt : Attempt}
    (stops : StopsAfter (spaceBelow root) attempt.start 0 attempt.count attempt.mapped final
      attempt.start outcome)
    (memory : attempt.after.memory = final.memory) (selfMap : HasSelfMap root final.memory)
    (leads : ∀ position < attempt.count,
      (without root RecursiveMap.slot).Leads (attempt.start.pageAfter position)) :
    attempt.Ends root outcome := by
  have isStop : attempt.start.pageAfter (0 + attempt.mapped) = attempt.stop := by
    rw [Nat.zero_add, Attempt.stop]
  have reads : ∀ {leaf}, attempt.mapped < attempt.count →
      (spaceBelow root).hierarchy.entryAt final.memory attempt.stop.leafPath = leaf →
      Reads root attempt.after.memory attempt.stop leaf := by
    rintro _ short rfl
    rw [memory]
    exact selfMap.reads (leads _ short)
  cases stops with
  | done all => exact .done all
  | met short existing =>
      rw [isStop] at existing ⊢
      exact .met short (reads short existing)
  | dry short dry absent =>
      rw [isStop] at absent
      exact .dry short (reads short absent)

theorem Stands.attempt (stands : Stands root before)
    (fresh : IsFresh root supply offers keeps before.memory source)
    (within : base.value + count * 4096 < 1 <<< 52)
    (room : before.source.nextVirtual.value + count * 4096 < 1 <<< 64)
    (leads : ∀ position < count, (without root RecursiveMap.slot).Leads
      (before.source.nextVirtual.pageAfter position))
    (ran : (mapBeyond base count rights).run ⟨before.machine, (before.source, source)⟩ =
      (outcome, ⟨after.machine, (after.source, left)⟩)) :
    Stands root after ∧ Attempt.Conforms root ⟨base, count, rights, before, after, outcome⟩ := by
  rcases exists_run_mapBeyond rights stands.active stands.owner (stands.ready fresh)
    (Nat.lt_trans within (by decide)) room leads with
    ⟨_, _, mapped, attempted, exactly, stops⟩
  cases ran.symm.trans attempted
  rcases exactly.manager with ⟨next, moved, cursor⟩
  rcases exactly.advances with ⟨rest, advances⟩
  have ready := advances.ready
  have selfMap : HasSelfMap root after.memory := ⟨ready.addressable, ready.tree, ready.served.2⟩
  have moved : after.source = { before.source with nextVirtual := next } := moved
  have few := stops.le
  have isNext : after.source.nextVirtual = next := by rw [moved]
  have value : after.source.nextVirtual.value =
      before.source.nextVirtual.value + mapped * 4096 := by
    rw [isNext, cursor, Nat.zero_add]
  have sameCount : mapped = Attempt.mapped ⟨base, count, rights, before, after, outcome⟩ := by
    simp only [Attempt.mapped, Attempt.start, value]
    omega
  refine ⟨⟨selfMap, ?_, ?_⟩, ?_, ?_, ?_, ?_⟩
  · rw [moved]
    exact stands.active
  · rw [moved]
    exact stands.owner
  · rw [sameCount] at stops
    exact StopsAfter.ends stops rfl selfMap leads
  · rw [← sameCount]
    exact value
  · rw [isNext]
    exact moved
  · rw [← sameCount]
    exact exactly.mapsFirst stands.toHasSelfMap selfMap
      (Nat.lt_of_le_of_lt (by omega) within) fun position below => leads position (by omega)

end

/-! ## Runs of attempts -/

theorem MapsFirst.stays {base : PhysicalAddress} {start : VirtualAddress} {rights : Rights}
    {count : Nat} {leaf : PageEntry} (maps : MapsFirst root base start rights count before after)
    (leads : (without root RecursiveMap.slot).Leads address)
    (found : Reads root before address (some leaf)) : Reads root after address (some leaf) := by
  by_cases here : ∃ index < count, address.pageKey = (start.pageAfter index).pageKey
  · rcases here with ⟨index, below, same⟩
    cases found.unique (maps.pages index below address same).1
  · rcases maps.others address leads fun index below same => here ⟨index, below, same⟩ with
      ⟨other, early, late⟩
    cases found.unique early
    exact late

/-- What attempts one after the other leave behind. -/
structure RunsAhead (root : Frame) (attempts : List Attempt) (first last : Paged FrameManager) :
    Prop where
  conform : ∀ attempt ∈ attempts, attempt.Conforms root
  /-- The pages of each attempt lie behind those of all earlier ones. -/
  apart : attempts.Pairwise fun earlier later =>
    earlier.start.value + earlier.mapped * 4096 ≤ later.start.value
  /-- What is mapped once an attempt is over stays mapped as it is. -/
  stays : ∀ attempt ∈ attempts, ∀ address leaf,
    (without root RecursiveMap.slot).Leads address →
    Reads root attempt.after.memory address (some leaf) →
    Reads root last.memory address (some leaf)
  /-- Nothing else changes outside the recursive slot. -/
  others : ∀ address : VirtualAddress, (without root RecursiveMap.slot).Leads address →
    (∀ attempt ∈ attempts, ∀ index < attempt.mapped,
      address.pageKey ≠ (attempt.start.pageAfter index).pageKey) →
    ∃ leaf, Reads root first.memory address leaf ∧ Reads root last.memory address leaf

theorem Stands.runsAhead_nil {first : Paged FrameManager} (stands : Stands root first) :
    RunsAhead root [] first first where
  conform := by simp
  apart := .nil
  stays := by simp
  others _ leads _ := ⟨_, stands.reads leads, stands.reads leads⟩

theorem RunsAhead.snoc {attempts : List Attempt} {attempt : Attempt} {first : Paged FrameManager}
    (runs : RunsAhead root attempts first attempt.before) (conforms : attempt.Conforms root)
    (behind : ∀ earlier ∈ attempts,
      earlier.start.value + earlier.mapped * 4096 ≤ attempt.start.value) :
    RunsAhead root (attempts ++ [attempt]) first attempt.after where
  conform := by
    simp only [List.forall_mem_append, List.forall_mem_singleton]
    exact ⟨runs.conform, conforms⟩
  apart := by
    simp only [List.pairwise_append, List.mem_singleton, forall_eq]
    exact ⟨runs.apart, List.pairwise_singleton .., behind⟩
  stays := by
    simp only [List.forall_mem_append, List.forall_mem_singleton]
    exact ⟨fun earlier member address leaf leads found =>
      conforms.maps.stays leads (runs.stays earlier member address leaf leads found),
      fun _ _ _ found => found⟩
  others address leads elsewhere := by
    simp only [List.forall_mem_append, List.forall_mem_singleton] at elsewhere
    rcases runs.others address leads elsewhere.1 with ⟨leaf, start, early⟩
    rcases conforms.maps.others address leads elsewhere.2 with ⟨other, again, late⟩
    cases early.unique again
    exact ⟨leaf, start, late⟩

theorem Attempts.runsAhead {attempts : List Attempt} {first last : Paged FrameManager}
    (stands : Stands root first) (runs : Attempts root first attempts last) :
    Stands root last ∧ RunsAhead root attempts first last ∧
      ∀ attempt ∈ attempts,
        attempt.start.value + attempt.mapped * 4096 ≤ last.source.nextVirtual.value := by
  induction runs with
  | nil => exact ⟨stands, stands.runsAhead_nil, by simp⟩
  | snoc earlier fresh within room leads ran induction =>
      rcases induction with ⟨standing, runsBefore, behind⟩
      rcases standing.attempt fresh within room leads ran with ⟨standsAfter, conforms⟩
      refine ⟨standsAfter, runsBefore.snoc conforms behind, ?_⟩
      simp only [List.forall_mem_append, List.forall_mem_singleton]
      have moved := Nat.le_of_eq conforms.cursor.symm
      refine ⟨fun attempt member => Nat.le_trans (behind attempt member) ?_, moved⟩
      exact Nat.le_trans (Nat.le_add_right ..) moved

/-- However many attempts a manager makes to map pages behind the image, each ends after the
pages that it has mapped, its next virtual address right behind them. The pages of different
attempts lie apart and stay mapped, and nothing else changes outside the recursive slot. -/
theorem attempts_run_ahead (root : Frame) (first last : Paged FrameManager)
    (attempts : List Attempt) (addressable : first.memory.IsAddressable)
    (tree : (without root RecursiveMap.slot).IsTree first.memory)
    (installed : RecursiveMap.isInstalled first.memory root = true)
    (active : first.source.active = root) (owner : first.source.root = some root)
    (runs : Attempts root first attempts last) : RunsAhead root attempts first last :=
  (runs.runsAhead ⟨⟨addressable, tree, installed⟩, active, owner⟩).2.1

def foldedManager : Paged FrameManager :=
  ⟨AddressSpace.foldedMachine.machine,
    ⟨AddressSpace.freshSpace.root, .selfMapInstalled, some AddressSpace.freshSpace.root,
      .ofNat 0x1fe000, .empty⟩⟩

def foldedStart : Frame :=
  (.ofNat 0x101000 : PhysicalAddress).page .small

def foldedStop : Frame :=
  (.ofNat 0x110000 : PhysicalAddress).page .small

def foldedStrip : FrameStrip :=
  ⟨foldedStart, foldedStart, foldedStop⟩

def emptyStrip : FrameStrip :=
  ⟨foldedStop, foldedStop, foldedStop⟩

theorem stands_foldedManager : Stands AddressSpace.freshSpace.root foldedManager := by
  have same := RecursiveMap.sameButSlot_install AddressSpace.freshSpace.root
    AddressSpace.freshMachine.memory
  rw [← AddressSpace.memory_foldedMachine] at same
  have tree := Hierarchy.isTree_without AddressSpace.isTree_freshMachine same fun frame inside =>
    (AddressSpace.agreesOutside_foldedMachine.hasFrame_iff frame).2 inside
  have addressable : AddressSpace.foldedMachine.memory.IsAddressable :=
    AddressSpace.agreesOutside_foldedMachine.isAddressable_iff.2
      (show 0x100 + 16 < 1 <<< 52 by decide)
  exact ⟨⟨addressable, tree, AddressSpace.isInstalled_foldedMachine⟩, rfl, rfl⟩

theorem isFresh_foldedStrip : IsFresh AddressSpace.freshSpace.root
    (FrameStrip.recordsBetween foldedStart foldedStop).supply foldedStrip.Offers
    (fun _ => False) foldedManager.memory foldedStrip where
  supplied := ⟨⟨rfl, rfl, by decide, by decide⟩, fun _ => Iff.rfl, fun _ => id⟩
  offered := by
    rintro frame ⟨above, below⟩
    have above : 0x101 ≤ frame.number := above
    have below : frame.number < 0x110 := below
    refine ⟨(AddressSpace.agreesOutside_foldedMachine.hasFrame_iff frame).2 ⟨?_, ?_⟩, ?_,
      fun isTable => ?_, id⟩
    · change 0x100 ≤ frame.number
      omega
    · change frame.number < 0x100 + 16
      omega
    · unfold Page.IsLinkable
      omega
    · rw [AddressSpace.isTable_foldedMachine isTable] at above
      exact absurd above (by decide)
  kept _ impossible := impossible.elim

theorem isFresh_emptyStrip (memory : Memory) : IsFresh AddressSpace.freshSpace.root
    (FrameStrip.recordsBetween foldedStop foldedStop).supply emptyStrip.Offers
    (fun _ => False) memory emptyStrip where
  supplied := ⟨⟨rfl, rfl, by decide, by decide⟩, fun _ => Iff.rfl, fun _ => id⟩
  offered := by
    rintro frame ⟨above, below⟩
    simp only [emptyStrip] at above below
    omega
  kept _ impossible := impossible.elim

theorem entryAt_foldedManager {address : VirtualAddress}
    (leads : (without AddressSpace.freshSpace.root RecursiveMap.slot).Leads address) :
    (without AddressSpace.freshSpace.root RecursiveMap.slot).entryAt foldedManager.memory
      address.leafPath = none := by
  have empty : ∀ index, (without AddressSpace.freshSpace.root RecursiveMap.slot).hidden ≠
      some index →
      (AddressSpace.foldedMachine.memory.entry AddressSpace.freshSpace.root index).present =
        false := by
    intro index shown
    have same := RecursiveMap.sameButSlot_install AddressSpace.freshSpace.root
      AddressSpace.freshMachine.memory AddressSpace.freshSpace.root index
      (.inr fun isSlot => shown (congrArg some isSlot.symm))
    rw [AddressSpace.memory_foldedMachine, same, AddressSpace.freshMachine, Paged.memory,
      Memory.entry_of_byteAt_eq_zero fun _ _ => Memory.byteAt_zeroed ..]
    exact PageEntry.present_zero
  exact Hierarchy.entryAt_cons_of_none
    ((Hierarchy.tableAt_of_emptyRoot empty _ (leads.owns_path .pt)).trans
      (if_neg (List.cons_ne_nil _ _)))

theorem leads_pageAfter_of_low {root : Frame} {start : VirtualAddress} {position : Nat}
    (below : start.value + position * 4096 < 1 <<< 39) :
    (without root RecursiveMap.slot).Leads (start.pageAfter position) := by
  intro hidden
  have value := Address.value_pageAfter (Nat.lt_trans below (by decide))
  have index : RecursiveMap.slot.val = (Level.pml4.index (start.pageAfter position)).val :=
    congrArg Fin.val (Option.some.inj hidden)
  have slot : RecursiveMap.slot.val = 510 := rfl
  simp only [slot, Level.val_index, Level.shift, value, Nat.reduceShiftLeft] at index below
  omega

theorem exists_run_foldedManager : ∃ address after,
    (mapBeyond (.ofNat 0x300000) 2 .readWrite).run
      ⟨foldedManager.machine, (foldedManager.source, foldedStrip)⟩ = (.done address, after) := by
  have cursor : foldedManager.source.nextVirtual.value = 0x1fe000 := rfl
  have leads : ∀ position, 0 ≤ position → position < 0 + 2 →
      (spaceBelow AddressSpace.freshSpace.root).hierarchy.Leads
        (foldedManager.source.nextVirtual.pageAfter position) := by
    intro position _ below
    refine leads_pageAfter_of_low ?_
    rw [cursor]
    exact Nat.lt_of_le_of_lt (by omega : _ ≤ 0x1fe000 + 2 * 4096) (by decide)
  have ledTo : IsLedTo (spaceBelow AddressSpace.freshSpace.root) foldedManager.source.nextVirtual
      0 2 foldedManager.memory :=
    ⟨by decide, by decide, leads, fun positive => absurd positive (Nat.lt_irrefl 0)⟩
  have backed : (.ofNat 0x300000 : PhysicalAddress).value + 2 * 4096 ≤ 1 <<< 64 := by decide
  have enough : foldedStrip.next.number + Ledger.worstCaseTables 2 ≤ foldedStop.number := by
    decide
  rcases stands_foldedManager.exists_run_of_strip .readWrite isFresh_foldedStrip ledTo backed
    enough with ⟨outcome, after, ran, ends⟩
  cases ends with
  | done value free => exact ⟨value, after, ran⟩
  | met above below existing =>
      cases (entryAt_foldedManager (leads _ above below)).symm.trans existing

/-- The first two pages are mapped, and the next attempt goes on without any frame. -/
theorem folded_manager_runs_ahead : ∃ first second last,
    Attempts AddressSpace.freshSpace.root foldedManager [first, second] last ∧
      first.outcome = .done (.ofNat 0x1fe000) ∧ second.count = 2 ∧
      second.start = .ofNat 0x200000 ∧
      RunsAhead AddressSpace.freshSpace.root [first, second] foldedManager last := by
  have stands := stands_foldedManager
  have within : ∀ base : PhysicalAddress, base.value < 1 <<< 32 →
      base.value + 2 * 4096 < 1 <<< 52 :=
    fun base low => Nat.lt_of_lt_of_le (Nat.add_lt_add_right low _) (by decide)
  have leads : ∀ start : VirtualAddress, start.value ≤ 0x200000 → ∀ position < 2,
      (without AddressSpace.freshSpace.root RecursiveMap.slot).Leads (start.pageAfter position) :=
    fun start low position below => leads_pageAfter_of_low
      (Nat.lt_of_le_of_lt (by omega : _ ≤ 0x200000 + 2 * 4096) (by decide))
  have leadsFirst := leads foldedManager.source.nextVirtual (by decide)
  rcases exists_run_foldedManager with ⟨address, ⟨machine, manager, left⟩, ran⟩
  have once : Attempts AddressSpace.freshSpace.root foldedManager
      [⟨.ofNat 0x300000, 2, .readWrite, foldedManager, ⟨machine, manager⟩, .done address⟩]
      ⟨machine, manager⟩ :=
    .snoc .nil isFresh_foldedStrip (within _ (by decide)) (by decide) leadsFirst ran
  have conforms := (once.runsAhead stands).2.1.conform _ List.mem_cons_self
  rcases conforms.of_done rfl with ⟨isFirst, moved⟩
  have next : manager.nextVirtual = .ofNat 0x200000 := by
    have behind : foldedManager.source.nextVirtual.value + 2 * 4096 =
      (.ofNat 0x200000 : VirtualAddress).value := by decide
    exact Address.ext (moved.trans behind)
  have low : manager.nextVirtual.value ≤ 0x200000 := by
    rw [next]
    decide
  have room : manager.nextVirtual.value + 2 * 4096 < 1 <<< 64 :=
    Nat.lt_of_le_of_lt (Nat.add_le_add_right low _) (by decide)
  rcases once.exists_snoc .readWrite (isFresh_emptyStrip _)
    (within (.ofNat 0x400000) (by decide)) room (leads manager.nextVirtual low) with
    ⟨last, outcome, twice⟩
  exact ⟨_, _, last, twice, congrArg _ isFirst, rfl, next,
    attempts_run_ahead _ foldedManager last _ stands.addressable stands.tree stands.installed rfl
      rfl twice⟩

end EarlyMemory.FrameManager
