import EarlyMemory.Kernel.Takeover
import EarlyMemory.Proofs.FrameManager.Adoption
import EarlyMemory.Proofs.Loader.Runs

/-!
# Bringing up the kernel's manager

The loader leaves a tree of tables that stand on no managed page. Installing the recursive
map hides one slot of the root and leaves the rest of the tree as it was, so the manager
can take over the loader's regions.
-/

namespace EarlyMemory.Takeover

open Operation
open FrameManager (Adopts IsTaken Prepared spaceBelow)

variable {capacity : Nat} {sorting : Region.Sorting} {root : Frame}
  {loaded : Paged (RegionTable capacity sorting)} {imageEnd : VirtualAddress}
  {installed after : Paged FrameManager}

theorem regions_describe (table : RegionTable capacity sorting) (root : Frame) :
    (BootInfo.describe table root).regions = table.regions := by
  rw [BootInfo.regions, BootInfo.describe]
  exact List.take_length

theorem root_describe (table : RegionTable capacity sorting) (root : Frame) :
    (BootInfo.describe table root).root.page .small = root := by
  apply Page.ext
  change root.number * 4096 / 4096 = root.number
  omega

/-- The machine that the kernel takes over, with a manager that has yet to come up. -/
def handedOver (loaded : Paged (RegionTable capacity sorting)) (root : Frame)
    (imageEnd : VirtualAddress) : Paged FrameManager :=
  ⟨loaded.machine, manager (.describe loaded.source root) imageEnd⟩

theorem source_handedOver :
    (handedOver loaded root imageEnd).source = FrameManager.create root imageEnd := by
  rw [handedOver, manager, root_describe]

/-- Whether a frame is taken as a table while the manager comes up. -/
def TakesEarly (loaded : Paged (RegionTable capacity sorting)) (root : Frame)
    (imageEnd : VirtualAddress) (frame : Frame) : Prop :=
  FrameManager.TakesEarly loaded.source.regions
    ((FrameManager.install root).run (handedOver loaded root imageEnd)).2 frame

theorem prepared_of_install (sound : Loader.IsSound root loaded) (linkable : root.IsLinkable)
    (inside : ∀ frame, loaded.source.Manages frame → lowMemoryEnd.value ≤ frame.number * 4096 →
      loaded.memory.HasFrame frame)
    (done : (FrameManager.install root).run (handedOver loaded root imageEnd) =
      (.done (), installed)) :
    Prepared root loaded.source installed ∧
      installed.source.nextVirtual = imageEnd.alignUp .small := by
  have tree : (Hierarchy.shown root).IsTree (handedOver loaded root imageEnd).memory := sound.tree
  rcases FrameManager.of_run_install tree done with ⟨memory, source⟩
  rw [source_handedOver] at source
  have agrees := RecursiveMap.agreesOutside_install root (handedOver loaded root imageEnd).memory
  have same := RecursiveMap.sameButSlot_install root (handedOver loaded root imageEnd).memory
  rw [← memory] at agrees same
  have hasFrame : ∀ frame, loaded.memory.HasFrame frame → installed.memory.HasFrame frame :=
    fun frame isInside => (agrees.hasFrame_iff frame).2 isInside
  have served : RecursiveMap.isInstalled installed.memory root = true := by
    rw [memory]
    exact RecursiveMap.isInstalled_install tree.root_inside linkable
  refine ⟨⟨?_, ?_, ⟨rfl, served⟩, ?_, ?_, ?_, sound.table, ?_, ?_⟩, ?_⟩
  · exact agrees.isAddressable_iff.2 sound.addressable
  · exact Hierarchy.isTree_without tree same hasFrame
  · rw [source]
    rfl
  · rw [source]
  · rw [source]
    exact Address.value_alignUp_mod imageEnd
  · exact fun frame managed high => hasFrame frame (inside frame managed high)
  · intro frame isTable
    exact sound.unmanaged frame (Hierarchy.isTable_of_without tree same isTable)
  · rw [source, FrameManager.create]

theorem run_bringUp_of_refused {cause : FrameManager.Refusal}
    (installing : (FrameManager.install root).run (handedOver loaded root imageEnd) =
      (.done (), installed))
    (refused : (FrameManager.adopt loaded.source.regions).run installed = (.refused cause, after)) :
    (bringUp (.describe loaded.source root)).run (handedOver loaded root imageEnd) =
      (.refused cause, after) := by
  rw [bringUp, root_describe, regions_describe, run_bind_of_done installing]
  exact run_bind_of_refused refused

theorem run_bringUp_of_adopted {free : Nat}
    (installing : (FrameManager.install root).run (handedOver loaded root imageEnd) =
      (.done (), installed))
    (adopting : (FrameManager.adopt loaded.source.regions).run installed = (.done (), after))
    (counted : FrameManager.freePageCount after = .ok free) :
    (bringUp (.describe loaded.source root)).run (handedOver loaded root imageEnd) =
      (.done (), after) := by
  rw [bringUp, root_describe, regions_describe, run_bind_of_done installing,
    run_bind_of_done adopting, run_bind_of_done (run_state _), counted,
    run_bind_of_done (run_check_ok ..), run_report]

theorem adopts_of_bringUp (sound : Loader.IsSound root loaded) (linkable : root.IsLinkable)
    (inside : ∀ frame, loaded.source.Manages frame → lowMemoryEnd.value ≤ frame.number * 4096 →
      loaded.memory.HasFrame frame)
    (clear : ∀ layout, Ledger.Layout.ofRegions loaded.source.regions = .ok layout →
      ∀ index < layout.metadataPages,
        Level.pml4.index ((imageEnd.alignUp .small).pageAfter index) ≠ RecursiveMap.slot)
    (done : (bringUp (.describe loaded.source root)).run (handedOver loaded root imageEnd) =
      (.done (), after)) :
    ∃ layout host used, Adopts root loaded.source layout host used after ∧
      ∀ frame, TakesEarly loaded root imageEnd frame →
        IsTaken loaded.source layout host used frame := by
  rw [bringUp, root_describe, regions_describe] at done
  rcases of_run_bind done with ⟨_, installed, installing, done⟩
  rcases of_run_bind done with ⟨_, adopted, adopting, done⟩
  rcases of_run_bind done with ⟨_, _, isState, done⟩
  cases isState
  rcases of_run_bind done with ⟨_, _, checked, done⟩
  rcases of_run_check checked with ⟨_, rfl⟩
  cases done
  rcases prepared_of_install sound linkable inside installing with ⟨prepared, next⟩
  unfold TakesEarly
  rw [installing]
  refine prepared.of_run_adopt (fun layout planned index below => ?_) adopting
  rw [next]
  exact Hierarchy.leads_without.2 (clear layout planned index below)

end EarlyMemory.Takeover
