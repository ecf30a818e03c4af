import EarlyMemory.Proofs.Frames.Asking
import EarlyMemory.Proofs.Region.Canonical
import EarlyMemory.Proofs.Region.Refusals
import EarlyMemory.Proofs.Region.Tracing

/-!
# What grants cut out of a table

A grant is one more entry that is not available, and its pages are no longer available. All
other entries that are not available stay as they are, each by itself, and all other memory
that was available still is.
-/

namespace EarlyMemory

def Page.grant (frame : Frame) : RegionTable.Grant :=
  ⟨⟨frame.base, 1⟩, .reserved⟩

namespace RegionTable

variable {capacity : Nat} {sorting : Region.Sorting}
  {before middle after table : RegionTable capacity sorting} {taken host : Region}
  {others : List Region} {grant : Grant} {grants later : List Grant} {frame : Frame}
  {frames : List Frame}

def occupied (table : RegionTable capacity sorting) : List Region :=
  table.regions.filter fun region => !region.hasKind .available

/-- Grants were cut out of the available memory, and nothing else was. -/
structure CutsOut (before : RegionTable capacity sorting) (grants : List Grant)
    (after : RegionTable capacity sorting) : Prop where
  occupied : after.occupied.Perm (grants.map Grant.region ++ before.occupied)
  available : ∀ address, after.IsAvailable address ↔
    before.IsAvailable address ∧ ∀ grant ∈ grants, ¬ grant.Covers address
  supplied : ∀ grant ∈ grants, ∀ address, grant.Covers address → before.IsAvailable address

namespace CutsOut

theorem refl (table : RegionTable capacity sorting) : table.CutsOut [] table :=
  ⟨.refl _, by simp, by simp⟩

theorem trans (first : before.CutsOut grants middle) (second : middle.CutsOut later after) :
    before.CutsOut (grants ++ later) after where
  occupied := by
    have swapped : (later.map Grant.region ++ grants.map Grant.region).Perm
        (grants.map Grant.region ++ later.map Grant.region) := List.perm_append_comm
    rw [List.map_append]
    refine second.occupied.trans ((first.occupied.append_left _).trans ?_)
    rw [← List.append_assoc]
    exact swapped.append_right _
  available address := by
    rw [second.available, first.available, and_assoc]
    simp only [List.mem_append, or_imp, forall_and]
  supplied grant member address covers := by
    rcases List.mem_append.1 member with early | isLater
    · exact first.supplied grant early address covers
    · exact ((first.available address).1 (second.supplied grant isLater address covers)).1

end CutsOut

theorem isAvailable_iff_offers (table : RegionTable capacity sorting) (address : Nat) :
    table.IsAvailable address ↔ table.Offers 0 address (address + 1) := by
  unfold IsAvailable Offers Region.Covers
  simp only [Nat.zero_le, true_and, Nat.succ_le_iff]

theorem Carves.cutsOut (carves : Carves before after grant.region host others)
    (sound : before.IsSound) (other : grant.kind.code ≠ RegionKind.available.code)
    (extent : grant.region.stop.value = grant.base.value + grant.pages * 4096) :
    before.CutsOut [grant] after where
  occupied := by
    have kept : ∀ region ∈ others, region.IsProper := fun region isOther =>
      sound.proper region (carves.mem_before.2 (.inr isOther))
    have isOther : (!grant.region.hasKind .available) = true := by
      simpa [Region.hasKind, Grant.region, Region.of] using other
    have cut : ∀ start stop, (!(Region.hasKind ⟨start, stop, host.code⟩ .available)) = false := by
      simp [Region.hasKind, carves.available]
    have hostCut : (!host.hasKind .available) = false := cut host.start host.stop
    have old := carves.hosted.filter fun region => !region.hasKind .available
    have new := carves.carved.filter fun region => !region.hasKind .available
    rw [List.filter_cons, hostCut] at old
    rw [List.filter_filter] at new
    simp only [List.filter_cons, isOther, cut, Bool.false_and, Bool.true_and, carves.proper,
      decide_true, if_true] at new
    refine new.trans (.cons _ (.trans (.of_eq ?_) old.symm))
    refine List.filter_congr fun region member => ?_
    rw [decide_eq_true (kept region member), Bool.and_true]
  available address := by
    rw [isAvailable_iff_offers, isAvailable_iff_offers,
      carves.offers_iff sound other (Nat.zero_le _) (Nat.lt_succ_self _)]
    refine and_congr_right fun _ => ?_
    have start : grant.region.start.value = grant.base.value := rfl
    simp only [List.mem_singleton, forall_eq, Extent.Covers]
    omega
  supplied := by
    intro other member address covers
    rw [List.mem_singleton.1 member] at covers
    have start := carves.start
    have stop := carves.stop
    have base : grant.region.start.value = grant.base.value := rfl
    unfold Extent.Covers at covers
    exact ⟨host, carves.mem_before.2 (.inl rfl), carves.available, by omega, by omega⟩

/-! ## Pages -/

theorem Allocates.cutsOut {pages : Nat} {kind : RegionKind} {base : PhysicalAddress}
    (allocates : Allocates before pages kind (some base) after) (sound : before.IsSound)
    (other : kind.code ≠ RegionKind.available.code) :
    before.CutsOut [⟨⟨base, pages⟩, kind⟩] after := by
  cases allocates with
  | carved _ stop host others atStart extent high carves =>
      have isStop : base.pageAfter pages = stop := by
        refine Address.ext ?_
        rw [Address.value_pageAfter (by rw [← extent]; exact stop.isLt), extent]
      have region : Grant.region ⟨⟨base, pages⟩, kind⟩ = Region.of kind base stop :=
        congrArg (Region.of kind base) isStop
      rw [← region] at carves
      refine carves.cutsOut sound other ?_
      rw [region]
      exact extent

/-! ## Frames -/

structure HandsOutAll (before : RegionTable capacity sorting) (frames : List Frame)
    (after : RegionTable capacity sorting) : Prop where
  sound : after.IsSound
  cutsOut : before.CutsOut (frames.map Page.grant) after
  offers : ∀ frame, after.OffersFrame frame ↔ before.OffersFrame frame ∧ frame ∉ frames

theorem HandsOutAll.refl (sound : table.IsSound) : table.HandsOutAll [] table :=
  ⟨sound, .refl table, by simp⟩

theorem HandsOutAll.trans {rest : List Frame} (first : before.HandsOutAll frames middle)
    (second : middle.HandsOutAll rest after) : before.HandsOutAll (frames ++ rest) after where
  sound := second.sound
  cutsOut := by
    rw [List.map_append]
    exact first.cutsOut.trans second.cutsOut
  offers frame := by
    rw [second.offers, first.offers, List.mem_append, not_or, and_assoc]

theorem HandsOut.all (handsOut : HandsOut before (some frame) after) (sound : before.IsSound) :
    before.HandsOutAll [frame] after := by
  have soundAfter := handsOut.isSound sound
  cases handsOut with
  | frame _ taken host others start stop code high whole carves =>
      have fits : frame.base.value + 1 * 4096 < 1 <<< 64 := by
        have stopBelow := taken.stop.isLt
        have base : frame.base.value = frame.number * 4096 := rfl
        omega
      have isTaken : frame.grant.region = taken := by
        cases taken
        cases code
        exact congr (congrArg (Region.of .reserved) (Address.ext start.symm))
          (Address.ext ((Address.value_pageAfter fits).trans stop.symm))
      have other : RegionKind.reserved.code ≠ RegionKind.available.code := by decide
      have notAvailable : taken.code ≠ RegionKind.available.code := code ▸ other
      refine ⟨soundAfter, ?_, fun page => ?_⟩
      · rw [← isTaken] at carves
        refine carves.cutsOut sound other ?_
        exact Address.value_pageAfter fits
      · rw [OffersFrame, carves.offers_iff sound notAvailable high (by omega), List.mem_singleton]
        refine and_congr_right fun _ => ?_
        have same : page = frame ↔ page.number = frame.number := ⟨congrArg _, Page.ext⟩
        rw [same]
        omega

/-- Whether a request for a frame finds none, whoever asks. -/
theorem run_allocateFrame_of_none {ε δ : Type}
    (dry : (allocateFrame : Operation (RegionTable capacity sorting) ε _).run table =
      (.done none, after)) :
    after = table ∧ (allocateFrame : Operation (RegionTable capacity sorting) δ _).run table =
      (.done none, table) := by
  have regular : ¬ (1 = 0 ∨ 1 <<< 64 ≤ 1 * 4096) := by decide
  rcases exists_run_allocateAs (ε := ε) table .reserved regular with ⟨answer, left, ran, vain⟩
  rcases exists_run_allocateAs (ε := δ) table .reserved regular with
    ⟨answerAgain, leftAgain, ranAgain, vainAgain⟩
  have none : answer = none ∧ left = after := by
    rw [allocateFrame, allocate, Operation.run_bind_of_done ran, Operation.run_pure] at dry
    cases answer with
    | none => exact ⟨rfl, (Prod.mk.inj dry).2⟩
    | some base => cases dry
  rcases none with ⟨rfl, rfl⟩
  cases vainAgain.2 (vain.1 rfl)
  rcases allocates_of_allocateAs ran with ⟨_, ⟨⟩, ⟨⟩⟩
  rcases allocates_of_allocateAs ranAgain with ⟨_, ⟨⟩, ⟨⟩⟩
  exact ⟨rfl, by rw [allocateFrame, allocate, Operation.run_bind_of_done ranAgain]; rfl⟩

/-! ### On request -/

section

open FrameSource (Asks)

variable {keeps : Frame → Prop} {answers : List (Option Frame)}
  {start asked reached : Paged (RegionTable capacity sorting)}

theorem handsOut_of_take {ε : Type} {answer : Option Frame}
    (taken : (FrameSource.take : Operation (Paged (RegionTable capacity sorting)) ε
      (Option Frame)).run start = (.done answer, asked)) (sound : start.source.IsSound) :
    (allocateFrame : Operation (RegionTable capacity sorting) ε _).run start.source =
        (.done answer, asked.source) ∧ HandsOut start.source answer asked.source := by
  rcases allocateFrame_spec (ε := ε) sound with ⟨given, table, ran, handsOut⟩
  have same := (Paged.run_onSource ..).symm.trans taken
  rw [ran] at same
  cases same
  exact ⟨ran, handsOut⟩

theorem handsOutAll_of_asks (asks : Asks keeps answers start reached)
    (sound : start.source.IsSound) :
    start.source.HandsOutAll (answers.filterMap id) reached.source := by
  induction asks with
  | done => exact .refl sound
  | written _ source _ induction =>
      rw [source] at induction
      exact induction sound
  | @asked _ answer _ _ _ _ taken _ induction =>
      rcases handsOut_of_take taken sound with ⟨ran, handsOut⟩
      have rest := induction (handsOut.isSound sound)
      cases answer with
      | none =>
          rw [(run_allocateFrame_of_none (δ := Unit) ran).1] at rest
          exact rest
      | some frame => exact (handsOut.all sound).trans rest

/-- After a request that found none there is still none. -/
theorem run_allocateFrame_of_asks {δ : Type} (asks : Asks keeps answers start reached)
    (sound : start.source.IsSound) (last : answers.getLast? = some none) :
    (allocateFrame : Operation (RegionTable capacity sorting) δ _).run reached.source =
      (.done none, reached.source) := by
  induction asks with
  | done => cases last
  | written _ source _ induction =>
      rw [source] at induction
      exact induction sound last
  | @asked _ answer answers _ _ _ taken further induction =>
      rcases handsOut_of_take taken sound with ⟨ran, handsOut⟩
      cases answers with
      | nil =>
          cases last
          rcases run_allocateFrame_of_none (δ := δ) ran with ⟨same, dry⟩
          rw [further.source_eq rfl, same]
          exact dry
      | cons next rest => exact induction (handsOut.isSound sound) last

end

end RegionTable

end EarlyMemory
