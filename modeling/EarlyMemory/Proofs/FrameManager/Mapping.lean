import EarlyMemory.FrameManager.Setup
import EarlyMemory.Proofs.Endings
import EarlyMemory.Proofs.FrameManager.Pages
import EarlyMemory.Proofs.Paging.Mapping
import EarlyMemory.Proofs.Region.Requests

/-!
# Mapping behind the image

Mapping consecutive pages is mapping one page after another: the space stays ready, what
was mapped stays mapped, and if all of it is done each page has its leaf. The manager
itself only moves its next virtual address right behind the pages.
-/

namespace EarlyMemory.FrameManager

open Operation

variable {F : Type} [FrameSource F] {space : AddressSpace} {supply : Supply F}
  {offers keeps : Frame → Prop} {before middle after : Paged (FrameManager × F)}
  {base : PhysicalAddress} {start : VirtualAddress} {rights : Rights} {index count : Nat}

/-- What mapping the pages from an index on leaves behind. -/
structure MapsPages (space : AddressSpace) (supply : Supply F) (keeps offers : Frame → Prop)
    (base : PhysicalAddress) (start : VirtualAddress) (rights : Rights) (index count : Nat)
    (before after : Paged (FrameManager × F)) : Prop where
  advances : ∃ rest, space.Advances supply keeps offers rest before.second after.second
  stay : ∀ path : TablePath, path.length = 4 → space.hierarchy.Owns path → ∀ leaf,
    space.hierarchy.entryAt before.memory path = some leaf →
    space.hierarchy.entryAt after.memory path = some leaf
  leaves : ∀ position, index ≤ position → position < index + count →
    space.hierarchy.entryAt after.memory (start.pageAfter position).leafPath =
      some (.leaf ((base.pageAfter position).page .small) rights)
  manager : ∃ next, after.source.1 = { before.source.1 with nextVirtual := next } ∧
    next.value = start.value + (index + count) * 4096

theorem mapsPages_zero (ready : space.Ready supply before.second offers keeps)
    (cursor : before.source.1.nextVirtual.value = start.value + index * 4096) :
    MapsPages space supply keeps offers base start rights index 0 before before where
  advances := ⟨offers, .refl ready⟩
  stay _ _ _ _ found := found
  leaves position above below := by omega
  manager := ⟨before.source.1.nextVirtual, rfl, cursor⟩

theorem MapsPages.of_map {rest : Frame → Prop}
    (further : MapsPages space supply keeps rest base start rights (index + 1) count middle
      after)
    (advances : space.Advances supply keeps offers rest before.second middle.second)
    (maps : space.Maps (base.pageAfter index) (start.pageAfter index) rights before.second
      middle.second (.done ()))
    (leads : space.hierarchy.Leads (start.pageAfter index))
    (manager : ∃ next, middle.source.1 = { before.source.1 with nextVirtual := next }) :
    MapsPages space supply keeps offers base start rights index (count + 1) before after := by
  rcases further.advances with ⟨last, later⟩
  rcases manager with ⟨next, moved⟩
  rcases further.manager with ⟨nextAfter, movedAfter, value⟩
  cases maps with
  | placed absent leaves =>
      rw [Nat.add_assoc index, Nat.add_comm 1] at value
      refine ⟨⟨last, advances.trans later⟩, ?_, ?_, ⟨nextAfter, ?_, value⟩⟩
      · intro path long owns leaf found
        apply further.stay path long owns leaf
        have different : path ≠ (start.pageAfter index).leafPath := by
          rintro rfl
          rw [Paged.memory_second, found] at absent
          cases absent
        rw [← Paged.memory_second, leaves path long owns, if_neg different]
        exact found
      · intro position above below
        by_cases here : position = index
        · subst here
          apply further.stay _ (Address.length_leafPath _) leads.owns_leafPath _
          rw [← Paged.memory_second, leaves _ (Address.length_leafPath _) leads.owns_leafPath,
            if_pos rfl]
        · exact further.leaves position (by omega) (by omega)
      · rw [movedAfter, moved]

theorem mapPages_spec (ready : space.Ready supply before.second offers keeps)
    (cursor : before.source.1.nextVirtual.value = start.value + index * 4096)
    (leads : ∀ position, index ≤ position → position < index + count →
      space.hierarchy.Leads (start.pageAfter position))
    (ran : (mapPages space base start rights index count).run before = (.done (), after)) :
    MapsPages space supply keeps offers base start rights index count before after := by
  induction count generalizing index before offers with
  | zero =>
      cases ran
      exact mapsPages_zero ready cursor
  | succ count induction =>
      rw [mapPages] at ran
      rcases of_run_bind ran with ⟨offset, _, multiplied, ran⟩
      rcases of_run_check multiplied with ⟨product, rfl⟩
      rcases of_run_bind ran with ⟨target, _, added, ran⟩
      rcases of_run_check added with ⟨targetSum, rfl⟩
      rcases of_run_bind ran with ⟨address, _, added, ran⟩
      rcases of_run_check added with ⟨addressSum, rfl⟩
      rcases of_run_bind ran with ⟨_, ⟨machine, moved, frames⟩, mapping, ran⟩
      rcases of_run_bind ran with ⟨next, _, added, ran⟩
      rcases of_run_check added with ⟨nextSum, rfl⟩
      rcases of_run_bind ran with ⟨_, _, moving, continued⟩
      cases moving
      rcases Address.pageAfter_eq product targetSum with ⟨rfl, _⟩
      rcases Address.pageAfter_eq product addressSum with ⟨rfl, room⟩
      have nextValue : next.value = start.value + (index + 1) * 4096 := by
        have value : (start.pageAfter index).value = start.value + index * 4096 :=
          Nat.mod_eq_of_lt room
        rw [Address.value_of_add nextSum, value]
        simp only [PageSize.bytes]
        omega
      have leadsHere := leads index (Nat.le_refl _) (by omega)
      rcases Paged.of_run_onSecond mapping with ⟨mapping, manager⟩
      have mapping := of_run_mapRefusal mapping
      rcases AddressSpace.map_spec (base.pageAfter index) rights ready leadsHere with
        ⟨_, _, rest, ran, advances, maps⟩
      rw [mapping] at ran
      cases ran
      have further : MapsPages space supply keeps rest base start rights (index + 1) count
          ⟨machine, ({ moved with nextVirtual := next }, frames)⟩ after :=
        induction advances.ready nextValue
          (fun position above below => leads position (by omega) (by omega)) continued
      exact MapsPages.of_map further advances maps leadsHere ⟨next, by rw [← manager]⟩

/-- The space below a root that its own recursive map serves. -/
abbrev spaceBelow (root : Frame) : AddressSpace :=
  ⟨root, .recursive root⟩

theorem of_run_space {G : Type} {root : Frame} {manager : FrameManager} {given : AddressSpace}
    {before after : Paged G} (active : manager.active = root) (owner : manager.root = some root)
    (done : (manager.space : Operation (Paged G) Refusal AddressSpace).run before =
      (.done given, after)) : given = spaceBelow root ∧ before = after := by
  rw [FrameManager.space, owner] at done
  cases done
  exact ⟨by rw [access, active], rfl⟩

theorem run_space {G : Type} {root : Frame} {manager : FrameManager} {before : Paged G}
    (active : manager.active = root) (owner : manager.root = some root) :
    (manager.space : Operation (Paged G) Refusal AddressSpace).run before =
      (.done (spaceBelow root), before) := by
  rw [FrameManager.space, owner, access, active]
  rfl

theorem run_map {root : Frame} {before : Paged FrameManager} (target : PhysicalAddress)
    (address : VirtualAddress) (rights : Rights) (ready : before.source.stage = .ready)
    (active : before.source.active = root) (owner : before.source.root = some root) :
    (FrameManager.map target address rights).run before =
      (mapRefusal Refusal.map ((spaceBelow root).map target address rights)).run before := by
  rw [FrameManager.map, run_bind_of_done (run_requireReady ready),
    run_bind_of_done (run_current before), run_bind_of_done (run_space active owner)]

theorem of_run_mapBeyond {root : Frame} {address : VirtualAddress} {machine : Machine}
    {manager : FrameManager} {source : F} (active : manager.active = root)
    (owner : manager.root = some root)
    (ready : (spaceBelow root).Ready supply ⟨machine, source⟩ offers keeps)
    (leads : ∀ position < count,
      (spaceBelow root).hierarchy.Leads (manager.nextVirtual.pageAfter position))
    (done : (mapBeyond base count rights).run ⟨machine, (manager, source)⟩ =
      (.done address, after)) :
    address = manager.nextVirtual ∧
      MapsPages (spaceBelow root) supply keeps offers base manager.nextVirtual rights 0 count
        ⟨machine, (manager, source)⟩ after := by
  rw [mapBeyond] at done
  rcases of_run_bind done with ⟨_, _, isState, done⟩
  cases isState
  rcases of_run_bind done with ⟨given, _, working, done⟩
  rcases of_run_space active owner working with ⟨rfl, rfl⟩
  rcases of_run_bind done with ⟨_, _, mapping, done⟩
  rcases of_run_bind done with ⟨_, _, reporting, done⟩
  cases reporting
  cases done
  refine ⟨rfl, mapPages_spec ready ?_ (fun position _ below => leads position (by omega)) mapping⟩
  rw [Nat.zero_mul, Nat.add_zero]

end EarlyMemory.FrameManager
