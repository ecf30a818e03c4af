import EarlyMemory.Loader.Image
import EarlyMemory.Proofs.Endings
import EarlyMemory.Proofs.Paging.Mapping
import EarlyMemory.Proofs.Region.Management

/-!
# How the loader's machine evolves

The tables form a tree, frames on offer stand in the memory and tables stand on reserved
pages. Whatever the loader does to such a machine, it writes only to tables and to frames
that were on offer, so what was settled before stays as it was. Leaves stay, and so do the
regions that are not available.
-/

namespace EarlyMemory.Loader

open Memory (AgreesOutside)

abbrev tables (root : Frame) : Hierarchy :=
  (BootTables.space root).hierarchy

variable {capacity : Nat} {sorting : Region.Sorting} {root : Frame}
  {before middle after paged : Paged (RegionTable capacity sorting)}

theorem owns_tables (path : TablePath) : (tables root).Owns path :=
  Hierarchy.owns_of_shown rfl

theorem leads_tables (address : VirtualAddress) : (tables root).Leads address := by
  intro hidden
  cases hidden

structure IsSound (root : Frame) (paged : Paged (RegionTable capacity sorting)) : Prop where
  addressable : paged.memory.IsAddressable
  tree : (tables root).IsTree paged.memory
  table : paged.source.IsSound
  inside : ∀ frame, paged.source.OffersFrame frame → paged.memory.HasFrame frame
  reserved : ∀ frame, (tables root).IsTable paged.memory frame → paged.source.IsReserved frame

/-- No table stands on a page that the kernel may come to manage. -/
theorem IsSound.unmanaged (sound : IsSound root paged) (frame : Frame)
    (isTable : (tables root).IsTable paged.memory frame) : ¬ paged.source.Manages frame :=
  (sound.reserved frame isTable).not_manages sound.table

theorem IsSound.ready (sound : IsSound root paged) :
    (BootTables.space root).Ready (RegionTable.recordsSince paged.source).supply paged
      paged.source.OffersFrame fun _ => False where
  addressable := sound.addressable
  tree := sound.tree
  served := trivial
  supplied := ⟨⟨sound.table, .refl paged.source⟩, fun _ => Iff.rfl, fun _ => id⟩
  offered frame offered := ⟨sound.inside frame offered,
    offered.manages.isLinkable_number sound.table,
    fun isTable => sound.unmanaged frame isTable offered.manages, id⟩
  kept _ impossible := impossible.elim

/-- What every step of the loader keeps. -/
structure Evolves (root : Frame) (before after : Paged (RegionTable capacity sorting)) : Prop where
  sound : IsSound root after
  widened : (tables root).Extends before.source.OffersFrame before.memory after.memory
  leaves : ∀ path : TablePath, ∀ leaf, path.length = 4 →
    (tables root).entryAt before.memory path = some leaf →
    (tables root).entryAt after.memory path = some leaf
  agrees : AgreesOutside
    (fun frame => (tables root).IsTable before.memory frame ∨ before.source.OffersFrame frame)
    before.memory after.memory
  table : before.source.Precedes after.source

namespace Evolves

theorem refl (sound : IsSound root paged) : Evolves root paged paged where
  sound := sound
  widened := .refl sound.tree
  leaves _ _ _ found := found
  agrees := .refl _
  table := .refl _

theorem trans (first : Evolves root before middle) (second : Evolves root middle after) :
    Evolves root before after where
  sound := second.sound
  widened := first.widened.trans (second.widened.mono first.table.offers)
  leaves path leaf long found := second.leaves path leaf long (first.leaves path leaf long found)
  agrees := by
    refine first.agrees.trans (second.agrees.mono ?_)
    rintro frame (isTable | offered)
    · exact first.widened.tables frame isTable
    · exact .inr (first.table.offers frame offered)
  table := first.table.trans second.table

end Evolves

/-- What loading keeps: whatever is mapped newly is mapped to a page of its own, which was on
offer before and is recorded as allocated now. -/
structure Loads (root : Frame) (before after : Paged (RegionTable capacity sorting)) : Prop
    extends Evolves root before after where
  targets : ∀ path : TablePath, ∀ leaf, path.length = 4 →
    (tables root).entryAt after.memory path = some leaf →
    (tables root).entryAt before.memory path = some leaf ∨
      before.source.OffersFrame leaf.frame ∧ after.source.BacksImage leaf.frame
  single : ∀ path other : TablePath, ∀ leaf otherLeaf, path.length = 4 → other.length = 4 →
    (tables root).entryAt after.memory path = some leaf →
    (tables root).entryAt after.memory other = some otherLeaf → leaf.frame = otherLeaf.frame →
    path = other ∨ (tables root).entryAt before.memory path = some leaf ∨
      (tables root).entryAt before.memory other = some otherLeaf

namespace Loads

theorem of_evolves (evolves : Evolves root before after)
    (nothing : ∀ path : TablePath, ∀ leaf, path.length = 4 →
      (tables root).entryAt after.memory path = some leaf →
      (tables root).entryAt before.memory path = some leaf) : Loads root before after where
  toEvolves := evolves
  targets path leaf long found := .inl (nothing path leaf long found)
  single path _ leaf _ long _ found _ _ := .inr (.inl (nothing path leaf long found))

theorem refl (sound : IsSound root paged) : Loads root paged paged :=
  of_evolves (.refl sound) fun _ _ _ found => found

theorem trans (first : Loads root before middle) (second : Loads root middle after) :
    Loads root before after where
  toEvolves := first.toEvolves.trans second.toEvolves
  targets path leaf long found := by
    rcases second.targets path leaf long found with earlier | ⟨offered, backed⟩
    · exact (first.targets path leaf long earlier).imp_right fun ⟨offered, backed⟩ =>
        ⟨offered, second.table.backsImage backed⟩
    · exact .inr ⟨first.table.offers leaf.frame offered, backed⟩
  single path other leaf otherLeaf long otherLong found otherFound same := by
    -- What the first part backed is no longer on offer to the second part.
    have taken : ∀ frame, middle.source.BacksImage frame → ¬ middle.source.OffersFrame frame :=
      fun frame backs => backs.not_offersFrame first.sound.table
    rcases second.targets path leaf long found with early | ⟨offered, _⟩
    · rcases second.targets other otherLeaf otherLong otherFound with otherEarly | ⟨offered, _⟩
      · exact first.single path other leaf otherLeaf long otherLong early otherEarly same
      · rcases first.targets path leaf long early with earlier | ⟨_, backs⟩
        · exact .inr (.inl earlier)
        · exact absurd (same ▸ offered) (taken leaf.frame backs)
    · rcases second.single path other leaf otherLeaf long otherLong found otherFound same with
        equal | early | otherEarly
      · exact .inl equal
      · rcases first.targets path leaf long early with earlier | ⟨_, backs⟩
        · exact .inr (.inl earlier)
        · exact absurd offered (taken leaf.frame backs)
      · rcases first.targets other otherLeaf otherLong otherEarly with earlier | ⟨_, backs⟩
        · exact .inr (.inr earlier)
        · exact absurd (same ▸ offered) (taken otherLeaf.frame backs)

end Loads

/-! ## Settled frames -/

/-- A frame that is neither a table nor on offer. -/
def Settled (root : Frame) (paged : Paged (RegionTable capacity sorting)) (frame : Frame) : Prop :=
  ¬ (tables root).IsTable paged.memory frame ∧ ¬ paged.source.OffersFrame frame

theorem Settled.evolves {frame : Frame} (settled : Settled root before frame)
    (evolves : Evolves root before after) : Settled root after frame := by
  refine ⟨fun isTable => ?_, fun offered => settled.2 (evolves.table.offers frame offered)⟩
  rcases evolves.widened.tables frame isTable with old | offered
  · exact settled.1 old
  · exact settled.2 offered

theorem Settled.byteAt_eq {frame : Frame} (settled : Settled root before frame)
    (evolves : Evolves root before after) {offset : Nat} (within : offset < 4096) :
    after.memory.byteAt (frame.number * 4096 + offset) =
      before.memory.byteAt (frame.number * 4096 + offset) := by
  refine evolves.agrees.byteAt_offset (fun touched => ?_) within
  exact touched.elim settled.1 settled.2

/-! ## Mapping -/

structure Fills (root : Frame) (address : VirtualAddress) (leaf : PageEntry)
    (before after : Memory) : Prop where
  absent : (tables root).entryAt before address.leafPath = none
  leaves : ∀ path : TablePath, path.length = 4 →
    (tables root).entryAt after path =
      if path = address.leafPath then some leaf else (tables root).entryAt before path

/-- However mapping a page ends, only its leaf can be new. -/
theorem evolves_of_map {target : PhysicalAddress} {address : VirtualAddress} {rights : Rights}
    {outcome : Outcome BootTables.Refusal Unit} (sound : IsSound root before)
    (ran : (BootTables.map root target address rights).run before = (outcome, after)) :
    Evolves root before after ∧
      (∀ path : TablePath, ∀ leaf, path.length = 4 →
        (tables root).entryAt after.memory path = some leaf →
        (tables root).entryAt before.memory path = some leaf ∨
          path = address.leafPath ∧ leaf = .leaf (target.page .small) rights) ∧
      (outcome = .done () →
        Fills root address (.leaf (target.page .small) rights) before.memory after.memory) := by
  rcases AddressSpace.map_spec target rights sound.ready (leads_tables address) with
    ⟨mapped, reached, rest, mapping, advances, maps⟩
  rw [BootTables.map, Operation.run_mapRefusal, mapping] at ran
  have reachedAfter : reached = after := by
    cases mapped <;> exact (Prod.mk.inj ran).2
  subst reachedAfter
  rcases advances.ready.supplied with ⟨⟨soundTable, handed⟩, restIff, _⟩
  have widened : (tables root).Extends before.source.OffersFrame before.memory reached.memory :=
    advances.widened.mono fun frame isNew => isNew.1
  have soundAfter : IsSound root reached := by
    refine ⟨advances.ready.addressable, advances.ready.tree, soundTable, ?_, ?_⟩
    · exact fun frame offered => (advances.ready.offered frame ((restIff frame).2 offered)).1
    · intro frame isTable
      rcases advances.widened.tables frame isTable with old | ⟨offered, gone⟩
      · exact handed.isReserved (sound.reserved frame old)
      · exact (handed.handed frame offered).resolve_left fun still => gone ((restIff frame).2 still)
  have agrees : AgreesOutside
      (fun frame => (tables root).IsTable before.memory frame ∨ before.source.OffersFrame frame)
      before.memory reached.memory := by
    apply advances.agrees.mono
    rintro frame (isTable | isNew | impossible)
    · exact .inl isTable
    · exact .inr isNew.1
    · exact impossible.elim
  -- A present leaf stays whichever way the mapping ends.
  have leavesStay : ∀ path : TablePath, ∀ leaf, path.length = 4 →
      (tables root).entryAt before.memory path = some leaf →
      (tables root).entryAt reached.memory path = some leaf := by
    intro path leaf long found
    cases maps with
    | placed absent leaves =>
        have different : path ≠ address.leafPath := by
          rintro rfl
          rw [absent] at found
          cases found
        rw [leaves path long (owns_tables path), if_neg different, found]
    | present existing same => exact (same path long (owns_tables path)).trans found
    | exhausted dry absent same => exact (same path long (owns_tables path)).trans found
  refine ⟨⟨soundAfter, widened, leavesStay, agrees, handed.toPrecedes⟩, ?_, ?_⟩
  · intro path leaf long found
    cases maps with
    | placed absent leaves =>
        rw [leaves path long (owns_tables path)] at found
        split at found
        next here => exact .inr ⟨here, (Option.some.inj found).symm⟩
        next => exact .inl found
    | present existing same => exact .inl ((same path long (owns_tables path)).symm.trans found)
    | exhausted dry absent same =>
        exact .inl ((same path long (owns_tables path)).symm.trans found)
  rintro rfl
  cases maps with
  | placed absent leaves => exact ⟨absent, fun path long => leaves path long (owns_tables path)⟩
  | present existing same => cases ran
  | exhausted dry absent same => cases ran

end EarlyMemory.Loader
