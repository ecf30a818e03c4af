import EarlyMemory.Proofs.Loader.BootTables
import EarlyMemory.Proofs.Loader.Loading

/-!
# Runs of the loader

Whatever a loader loads, and however that ends, its machine stays sound. Beyond the lowest
pages, which are mapped to themselves, every page is mapped to a page of its own that is
recorded as backing an image.
-/

namespace EarlyMemory.Loader

variable {capacity : Nat} {sorting : Region.Sorting} {root : Frame}
  {start before after : Paged (RegionTable capacity sorting)}

/-- Where a loader gets from the creation of its tables on, whatever it loads. -/
inductive Reaches (start : Paged (RegionTable capacity sorting)) (root : Frame) :
    Paged (RegionTable capacity sorting) → Prop
  | created {after : Paged (RegionTable capacity sorting)}
      (ran : (BootTables.create .long64).run start = (.done root, after)) : Reaches start root after
  | segment {before after : Paged (RegionTable capacity sorting)} {address : VirtualAddress}
      {pages : Nat} {rights : Rights} {outcome : Outcome BootTables.Refusal PhysicalAddress}
      (earlier : Reaches start root before)
      (ran : (loadSegment root address pages rights).run before = (outcome, after)) :
      Reaches start root after
  | image {before after : Paged (RegionTable capacity sorting)} {source : ImageSource}
      {outcome : Outcome Executable.Refusal KernelImage} (earlier : Reaches start root before)
      (ran : (loadImage root source).run before = (outcome, after)) : Reaches start root after

/-- What holds wherever a loader gets. -/
structure Reached (start : Paged (RegionTable capacity sorting)) (root : Frame)
    (after : Paged (RegionTable capacity sorting)) : Prop where
  sound : IsSound root after
  table : start.source.Precedes after.source
  linkable : root.IsLinkable
  hasFrame : ∀ frame, after.memory.HasFrame frame ↔ start.memory.HasFrame frame
  lowest : ∀ address : VirtualAddress, address.pageKey.val < 512 →
    (tables root).entryAt after.memory address.leafPath = identityPages 512 address.pageKey
  backed : ∀ address : VirtualAddress, ∀ leaf,
    (tables root).entryAt after.memory address.leafPath = some leaf →
      address.pageKey.val < 512 ∨ after.source.BacksImage leaf.frame
  single : ∀ address other : VirtualAddress, ∀ leaf otherLeaf, 512 ≤ address.pageKey.val →
    512 ≤ other.pageKey.val → (tables root).entryAt after.memory address.leafPath = some leaf →
    (tables root).entryAt after.memory other.leafPath = some otherLeaf →
    leaf.frame = otherLeaf.frame → address.pageKey = other.pageKey

theorem Reached.loads (reached : Reached start root before) (loads : Loads root before after) :
    Reached start root after where
  sound := loads.sound
  table := reached.table.trans loads.table
  linkable := reached.linkable
  hasFrame frame := (loads.agrees.hasFrame_iff frame).trans (reached.hasFrame frame)
  lowest address low := by
    have earlier := reached.lowest address low
    rw [identityPages, if_pos low] at earlier ⊢
    exact loads.leaves _ _ address.length_leafPath earlier
  backed address leaf found := by
    rcases loads.targets _ leaf address.length_leafPath found with earlier | ⟨_, backed⟩
    · exact (reached.backed address leaf earlier).imp_right loads.table.backsImage
    · exact .inr backed
  single address other leaf otherLeaf high otherHigh found otherFound same := by
    -- What backs a page already is not on offer for another one.
    have taken : ∀ page : VirtualAddress, ∀ entry, 512 ≤ page.pageKey.val →
        (tables root).entryAt before.memory page.leafPath = some entry →
        ¬ before.source.OffersFrame entry.frame := by
      intro page entry isHigh early
      have backs := (reached.backed page entry early).resolve_left (Nat.not_lt.2 isHigh)
      exact backs.not_offersFrame reached.sound.table
    rcases loads.targets _ leaf address.length_leafPath found with early | ⟨offered, _⟩
    · rcases loads.targets _ otherLeaf other.length_leafPath otherFound with
        otherEarly | ⟨offered, _⟩
      · exact reached.single address other leaf otherLeaf high otherHigh early otherEarly same
      · exact absurd (same ▸ offered) (taken address leaf high early)
    · rcases loads.single _ _ leaf otherLeaf address.length_leafPath other.length_leafPath found
        otherFound same with equal | early | otherEarly
      · exact Address.leafPath_eq_iff.1 equal
      · exact absurd offered (taken address leaf high early)
      · exact absurd (same ▸ offered) (taken other otherLeaf otherHigh otherEarly)

theorem Reaches.reached (reaches : Reaches start root after) (isStart : IsStart start) :
    Reached start root after := by
  induction reaches with
  | @created created ran =>
      rcases identity_of_create isStart ran with ⟨⟨last, identity⟩, precedes, linkable, agrees⟩
      have leaves : ∀ address : VirtualAddress,
          (tables root).entryAt created.memory address.leafPath =
            identityPages 512 address.pageKey := by
        intro address
        rw [← AddressSpace.pages_pageKey, identity.pages]
      have lowOnly : ∀ address : VirtualAddress, ∀ leaf,
          (tables root).entryAt created.memory address.leafPath = some leaf →
          address.pageKey.val < 512 := by
        intro address leaf found
        rw [leaves, identityPages] at found
        split at found
        next low => exact low
        next => cases found
      refine ⟨identity.sound, precedes, linkable, agrees.hasFrame_iff,
        fun address _ => leaves address,
        fun address leaf found => .inl (lowOnly address leaf found),
        fun address _ leaf _ high _ found => ?_⟩
      exact absurd (lowOnly address leaf found) (Nat.not_lt.2 high)
  | segment earlier ran induction =>
      exact induction.loads (Keeps.loadSegment _ _ _ _ _ _ induction.sound ran)
  | image earlier ran induction =>
      exact induction.loads (Keeps.loadImage _ _ _ _ induction.sound ran)

theorem Reaches.isSound (reaches : Reaches start root after) (isStart : IsStart start) :
    IsSound root after :=
  (reaches.reached isStart).sound

end EarlyMemory.Loader
