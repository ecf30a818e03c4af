import EarlyMemory.Proofs.FrameManager.Mapping
import EarlyMemory.Proofs.Paging.NewTables
import EarlyMemory.Proofs.Paging.Refinement
import Mathlib.Algebra.GroupWithZero.Nat
import Mathlib.Algebra.Order.BigOperators.Group.List
import Mathlib.Algebra.Order.Ring.Nat
import Mathlib.Order.Interval.Finset.Nat

/-!
# Tables for consecutive pages

Consecutive pages share their tables with the page before them unless they cross into the
range of another table. So they take no more tables than they are spread over, wherever they
start, and the number that a ledger sets aside is always enough. Mapping them from as many
frames is refused only at a page that is mapped already.
-/

namespace EarlyMemory

namespace Level

def pagesBelow : Level → Nat
  | .pml4 => 68719476736
  | .pdpt => 134217728
  | .pd => 262144
  | .pt => 512

theorem path_eq_of_div_eq {level : Level} {left right : VirtualAddress}
    (same : left.value / 4096 / level.pagesBelow = right.value / 4096 / level.pagesBelow) :
    level.path left = level.path right := by
  cases level <;>
    simp only [pagesBelow, path, List.cons.injEq, and_true, Fin.ext_iff, val_index, shift]
      at same ⊢ <;>
    omega

theorem path_pageAfter (level : Level) (start : VirtualAddress) (index : Nat) :
    level.path (start.pageAfter index) = level.path (.ofNat
      ((start.value / 4096 + index) / level.pagesBelow * level.pagesBelow * 4096)) := by
  cases level <;>
    simp only [path, pagesBelow, Address.pageAfter, Address.ofNat, List.cons.injEq, and_true,
      Fin.ext_iff, val_index, shift, Nat.reduceShiftLeft] <;>
    omega

end Level

/-- The number of tables of a level that consecutive pages are spread over. -/
def spannedTables (first count : Nat) (level : Level) : Nat :=
  if count = 0 then 0
  else (first + count - 1) / level.pagesBelow + 1 - first / level.pagesBelow

/-- The number of tables below the root that consecutive pages are spread over. -/
def tablesSpanned (first count : Nat) : Nat :=
  (Level.pml4.below.map (spannedTables first count)).sum

@[simp] theorem tablesSpanned_zero (first : Nat) : tablesSpanned first 0 = 0 :=
  rfl

theorem tablesSpanned_eq (first count : Nat) :
    tablesSpanned first count = spannedTables first count .pdpt + spannedTables first count .pd +
      spannedTables first count .pt := by
  simp [tablesSpanned, Level.below, Nat.add_assoc]

theorem spannedTables_mono {first count further : Nat} {level : Level} (fewer : count ≤ further) :
    spannedTables first count level ≤ spannedTables first further level := by
  cases level <;> simp only [spannedTables, Level.pagesBelow] <;> split <;> split <;> omega

theorem tablesSpanned_mono {first count further : Nat} (fewer : count ≤ further) :
    tablesSpanned first count ≤ tablesSpanned first further := by
  rw [tablesSpanned_eq, tablesSpanned_eq]
  have spread : ∀ level, spannedTables first count level ≤ spannedTables first further level :=
    fun level => spannedTables_mono fewer
  exact Nat.add_le_add (Nat.add_le_add (spread .pdpt) (spread .pd)) (spread .pt)

theorem spannedTables_lt {first count : Nat} {level : Level}
    (apart : 0 < count →
      (first + count - 1) / level.pagesBelow ≠ (first + count) / level.pagesBelow) :
    spannedTables first count level < spannedTables first (count + 1) level := by
  cases level <;> simp only [spannedTables, Level.pagesBelow] at apart ⊢ <;> split <;> split <;>
    omega

theorem tablesSpanned_le_worstCaseTables (first count : Nat) :
    tablesSpanned first count ≤ Ledger.worstCaseTables count := by
  rw [tablesSpanned_eq]
  simp only [spannedTables, Level.pagesBelow, Ledger.worstCaseTables]
  split <;> omega

/-- The tables of a level on the walks for consecutive pages, by the paths that lead to them. -/
def tablesOnWalks (start : VirtualAddress) (count : Nat) (level : Level) : Finset TablePath :=
  (Finset.range count).image fun index => level.path (start.pageAfter index)

theorem card_tablesOnWalks_le (start : VirtualAddress) (count : Nat) (level : Level) :
    (tablesOnWalks start count level).card ≤ spannedTables (start.value / 4096) count level := by
  let first := start.value / 4096
  let group : Nat → Nat := fun index => (first + index) / level.pagesBelow
  let pathTo : Nat → TablePath := fun group => level.path (.ofNat (group * level.pagesBelow * 4096))
  have grouped : tablesOnWalks start count level =
      ((Finset.range count).image group).image pathTo := by
    rw [Finset.image_image]
    exact Finset.image_congr fun index _ => level.path_pageAfter start index
  have between : (Finset.range count).image group ⊆
      Finset.Ico (first / level.pagesBelow)
        (first / level.pagesBelow + spannedTables first count level) := by
    intro member isMember
    rcases Finset.mem_image.1 isMember with ⟨index, inRange, rfl⟩
    have below := Finset.mem_range.1 inRange
    have lower : first / level.pagesBelow ≤ (first + index) / level.pagesBelow :=
      Nat.div_le_div_right (Nat.le_add_right ..)
    have upper : (first + index) / level.pagesBelow ≤ (first + count - 1) / level.pagesBelow :=
      Nat.div_le_div_right (by omega)
    rw [Finset.mem_Ico, spannedTables, if_neg (by omega)]
    exact ⟨lower, Nat.lt_of_le_of_lt upper (by omega)⟩
  calc (tablesOnWalks start count level).card
    _ = (((Finset.range count).image group).image pathTo).card := by rw [grouped]
    _ ≤ ((Finset.range count).image group).card := Finset.card_image_le
    _ ≤ (Finset.Ico (first / level.pagesBelow)
          (first / level.pagesBelow + spannedTables first count level)).card :=
        Finset.card_le_card between
    _ = spannedTables first count level := by rw [Nat.card_Ico, Nat.add_sub_cancel_left]

/-- Wherever consecutive pages start, the tables on their walks are no more than are set aside. -/
theorem sum_card_tablesOnWalks_le (start : VirtualAddress) (count : Nat) :
    (Level.pml4.below.map fun level => (tablesOnWalks start count level).card).sum ≤
      Ledger.worstCaseTables count :=
  Nat.le_trans (List.sum_le_sum fun level _ => card_tablesOnWalks_le start count level)
    (tablesSpanned_le_worstCaseTables _ count)

namespace AddressSpace

variable {space : AddressSpace} {memory : Memory} {start : VirtualAddress} {index : Nat}

theorem length_filter_add_sum_le {levels : List Level} {test : Level → Bool}
    {before after : Level → Nat}
    (step : ∀ level ∈ levels, (if test level then 1 else 0) + before level ≤ after level) :
    (levels.filter test).length + (levels.map before).sum ≤ (levels.map after).sum := by
  induction levels with
  | nil => exact Nat.le_refl _
  | cons level rest induction =>
      rw [List.forall_mem_cons] at step
      have here := step.1
      have further := induction step.2
      rw [List.filter_cons, List.map_cons, List.map_cons, List.sum_cons, List.sum_cons]
      cases missing : test level <;> rw [missing] at here
      · rw [if_neg (by simp)] at here ⊢
        omega
      · rw [if_pos rfl] at here ⊢
        rw [List.length_cons]
        omega

/-- A page takes no more tables than its predecessors leave it of those that all of them are
spread over. -/
theorem missingTables_add_le (room : start.value + index * 4096 < 1 <<< 64)
    (linked : 0 < index → ∀ level : Level,
      space.hierarchy.tableAt memory (level.path (start.pageAfter (index - 1))) ≠ none) :
    (space.missingTables memory (start.pageAfter index)).length +
        tablesSpanned (start.value / 4096) index ≤
      tablesSpanned (start.value / 4096) (index + 1) := by
  have value := Address.value_pageAfter room
  refine length_filter_add_sum_le fun level _ => ?_
  cases missing : space.hierarchy.tableAt memory (level.path (start.pageAfter index)) with
  | some table =>
      rw [Option.isNone_some, if_neg (by simp), Nat.zero_add]
      exact spannedTables_mono (Nat.le_succ index)
  | none =>
      rw [Option.isNone_none, if_pos rfl, Nat.add_comm]
      -- The table of the page before is there, so this page lies below another one.
      refine spannedTables_lt fun positive same => linked positive level ?_
      have earlier : start.value + (index - 1) * 4096 < 1 <<< 64 :=
        Nat.lt_of_le_of_lt (by omega) room
      rw [← missing]
      refine congrArg _ (Level.path_eq_of_div_eq ?_)
      rw [value, Address.value_pageAfter earlier, Nat.add_mul_div_right _ _ (by decide),
        Nat.add_mul_div_right _ _ (by decide), ← Nat.add_sub_assoc positive, same]

end AddressSpace

theorem Address.leafPath_pageAfter_ne {start : VirtualAddress} {left right : Nat}
    (before : left < right) (few : right < left + 1 <<< 36)
    (room : start.value + right * 4096 < 1 <<< 64) :
    (start.pageAfter right).leafPath ≠ (start.pageAfter left).leafPath := by
  have earlier : start.value + left * 4096 < 1 <<< 64 := Nat.lt_of_le_of_lt (by omega) room
  intro same
  have keys := congrArg Fin.val (leafPath_eq_iff.1 same)
  simp only [pageKey, value_pageAfter earlier, value_pageAfter room, Nat.reduceShiftLeft]
    at keys few
  omega

namespace FrameManager

open Operation

variable {space : AddressSpace} {offers keeps : Frame → Prop}
  {before : Paged (FrameManager × FrameStrip)} {first stop root : Frame} {base : PhysicalAddress}
  {start : VirtualAddress} {rights : Rights} {index count : Nat}

/-- Few enough consecutive pages that a walk can get to, with the tables of the page before
them. -/
structure IsLedTo (space : AddressSpace) (start : VirtualAddress) (index count : Nat)
    (memory : Memory) : Prop where
  room : start.value + (index + count) * 4096 < 1 <<< 64
  few : index + count ≤ 1 <<< 36
  leads : ∀ position, index ≤ position → position < index + count →
    space.hierarchy.Leads (start.pageAfter position)
  linked : 0 < index → ∀ level : Level,
    space.hierarchy.tableAt memory (level.path (start.pageAfter (index - 1))) ≠ none

structure IsUnmapped (space : AddressSpace) (start : VirtualAddress) (index count : Nat)
    (memory : Memory) : Prop extends IsLedTo space start index count memory where
  free : ∀ position, index ≤ position → position < index + count →
    space.hierarchy.entryAt memory (start.pageAfter position).leafPath = none

/-- How mapping ends while there is a frame for each missing table: no page was mapped before,
or one that was is met. -/
inductive EndsMapping {α : Type} (space : AddressSpace) (start : VirtualAddress)
    (index count : Nat) (memory : Memory) : Outcome Refusal α → Prop
  | done (value : α) (free : ∀ position, index ≤ position → position < index + count →
      space.hierarchy.entryAt memory (start.pageAfter position).leafPath = none) :
      EndsMapping space start index count memory (.done value)
  | met {position : Nat} {leaf : PageEntry} (above : index ≤ position)
      (below : position < index + count)
      (existing : space.hierarchy.entryAt memory (start.pageAfter position).leafPath =
        some leaf) :
      EndsMapping space start index count memory
        (.refused (.map (.alreadyMapped (start.pageAfter position) leaf.frame.base)))

section

variable {F : Type} [FrameSource F] {target : PhysicalAddress} {paged after : Paged F}
  (maps : space.Maps target (start.pageAfter index) rights paged after (.done ()))
  (ledTo : IsLedTo space start index (count + 1) paged.memory)

include maps ledTo

theorem IsLedTo.next : IsLedTo space start (index + 1) count after.memory := by
  have room := ledTo.room
  have few := ledTo.few
  rw [Nat.add_comm count, ← Nat.add_assoc] at room few
  refine ⟨room, few, fun position above below => ledTo.leads position (by omega) (by omega),
    fun _ level missing => ?_⟩
  cases maps with
  | placed absent leaves =>
      have leads := ledTo.leads index (Nat.le_refl _) (by omega)
      have placed := leaves _ (Address.length_leafPath _) leads.owns_leafPath
      rw [Nat.add_sub_cancel] at missing
      rw [if_pos rfl, Hierarchy.entryAt_leafPath_of_none missing] at placed
      cases placed

theorem IsLedTo.entryAt_later {position : Nat} (above : index + 1 ≤ position)
    (below : position < index + 1 + count) :
    space.hierarchy.entryAt after.memory (start.pageAfter position).leafPath =
      space.hierarchy.entryAt paged.memory (start.pageAfter position).leafPath := by
  have few := ledTo.few
  cases maps with
  | placed absent leaves =>
      have leads := ledTo.leads position (by omega) (by omega)
      rw [leaves _ (Address.length_leafPath _) leads.owns_leafPath, if_neg]
      exact Address.leafPath_pageAfter_ne (by omega) (by omega)
        (Nat.lt_of_le_of_lt (by omega) ledTo.room)

theorem EndsMapping.of_next {α : Type} {outcome : Outcome Refusal α}
    (ends : EndsMapping space start (index + 1) count after.memory outcome) :
    EndsMapping space start index (count + 1) paged.memory outcome := by
  cases ends with
  | done value free =>
      refine .done value fun position above below => ?_
      rcases Nat.eq_or_lt_of_le above with rfl | later
      · cases maps with
        | placed absent => exact absent
      · rw [← ledTo.entryAt_later maps later (by omega)]
        exact free position later (by omega)
  | met above below existing =>
      rw [ledTo.entryAt_later maps above below] at existing
      exact .met (by omega) (by omega) existing

end

theorem run_mapPages_succ {F : Type} [FrameSource F] {machine : Machine} {manager : FrameManager}
    {source : F} (room : start.value + (index + 1) * 4096 < 1 <<< 64)
    (backed : base.value + index * 4096 < 1 <<< 64) :
    (mapPages space base start rights index (count + 1)).run ⟨machine, (manager, source)⟩ =
      match (space.map (base.pageAfter index) (start.pageAfter index) rights).run
        ⟨machine, source⟩ with
      | (.done _, ⟨changed, left⟩) =>
          (mapPages space base start rights (index + 1) count).run
            ⟨changed, ({ manager with nextVirtual := start.pageAfter (index + 1) }, left)⟩
      | (.refused cause, ⟨changed, left⟩) => (.refused (.map cause), ⟨changed, (manager, left)⟩)
      | (.fault cause, ⟨changed, left⟩) => (.fault cause, ⟨changed, (manager, left)⟩) := by
  have here : start.value + index * 4096 < 1 <<< 64 := Nat.lt_of_le_of_lt (by omega) room
  have product : Word.multiply index PageSize.small.bytes = .ok (index * 4096) :=
    if_pos (Nat.lt_of_le_of_lt (Nat.le_add_left ..) here)
  have next : (start.pageAfter index).add PageSize.small.bytes =
    .ok (start.pageAfter (index + 1)) := Address.pageAfter_add room
  rw [mapPages, product, run_bind_of_done (run_check_ok ..), Address.add_eq_pageAfter backed,
    run_bind_of_done (run_check_ok ..), Address.add_eq_pageAfter here,
    run_bind_of_done (run_check_ok ..), run_bind, Paged.run_onSecond, run_mapRefusal, next]
  rcases (space.map (base.pageAfter index) (start.pageAfter index) rights).run
    ⟨machine, source⟩ with ⟨value | cause | cause, changed, left⟩
  · exact run_bind_of_done (run_check_ok ..)
  · rfl
  · rfl

/-- A strip that has a frame for each table that consecutive pages are spread over does not run
out: they are all mapped, unless one was mapped already. -/
theorem run_mapPages_of_strip (rights : Rights)
    (ready : space.Ready (FrameStrip.recordsBetween first stop).supply before.second offers keeps)
    (ledTo : IsLedTo space start index count before.memory)
    (backed : base.value + (index + count) * 4096 ≤ 1 <<< 64)
    (enough : before.source.2.next.number + tablesSpanned (start.value / 4096) (index + count) ≤
      stop.number + tablesSpanned (start.value / 4096) index) :
    ∃ outcome after,
      (mapPages space base start rights index count).run before = (outcome, after) ∧
        EndsMapping space start index count before.memory outcome := by
  induction count generalizing index before offers with
  | zero => exact ⟨_, before, rfl, .done () fun position above below => by omega⟩
  | succ count induction =>
      rcases before with ⟨machine, manager, strip⟩
      have ready : space.Ready (FrameStrip.recordsBetween first stop).supply ⟨machine, strip⟩
        offers keeps := ready
      have room : start.value + (index + 1) * 4096 < 1 <<< 64 :=
        Nat.lt_of_le_of_lt (by omega) ledTo.room
      have spread := AddressSpace.missingTables_add_le
        (Nat.lt_of_le_of_lt (by omega) room : start.value + index * 4096 < _) ledTo.linked
      rw [Nat.add_comm count, ← Nat.add_assoc] at backed enough
      have more : tablesSpanned (start.value / 4096) (index + 1) ≤
        tablesSpanned (start.value / 4096) (index + 1 + count) :=
          tablesSpanned_mono (Nat.le_add_right ..)
      have served : strip.next.number +
          (space.missingTables machine.memory (start.pageAfter index)).length ≤ stop.number := by
        simp only [Paged.memory] at enough spread
        omega
      have framed : base.value + index * 4096 < 1 <<< 64 :=
        Nat.lt_of_lt_of_le (by omega) backed
      rcases AddressSpace.run_map_of_strip (base.pageAfter index) rights ready
        (ledTo.leads index (Nat.le_refl _) (by omega)) served with
        ⟨outcome, ⟨changed, left⟩, rest, ran, advances, maps, supplied, few⟩
      cases outcome with
      | done value =>
          have enough : left.next.number +
              tablesSpanned (start.value / 4096) (index + 1 + count) ≤
                stop.number + tablesSpanned (start.value / 4096) (index + 1) := by
            simp only [Paged.memory] at enough few spread
            omega
          have ready : space.Ready (FrameStrip.recordsBetween first stop).supply
              (Paged.second
                ⟨changed, ({ manager with nextVirtual := start.pageAfter (index + 1) }, left)⟩)
              rest keeps := advances.ready
          have further := IsLedTo.next maps ledTo
          rcases induction ready further backed enough with ⟨outcome, after, continued, ends⟩
          refine ⟨outcome, after, ?_, EndsMapping.of_next maps ledTo ends⟩
          rw [run_mapPages_succ room framed, ran]
          exact continued
      | refused cause =>
          refine ⟨.refused (.map cause), ⟨changed, (manager, left)⟩, ?_, ?_⟩
          · rw [run_mapPages_succ room framed, ran]
          · cases maps with
            | present existing => exact .met (Nat.le_refl _) (by omega) existing
            | exhausted => exact absurd rfl (supplied _)
      | fault cause => cases maps

theorem run_mapBeyond_of_strip {machine : Machine} {manager : FrameManager} {strip : FrameStrip}
    (rights : Rights) (active : manager.active = root) (owner : manager.root = some root)
    (ready : (spaceBelow root).Ready (FrameStrip.recordsBetween first stop).supply
      ⟨machine, strip⟩ offers keeps)
    (ledTo : IsLedTo (spaceBelow root) manager.nextVirtual 0 count machine.memory)
    (backed : base.value + count * 4096 ≤ 1 <<< 64)
    (enough : strip.next.number + Ledger.worstCaseTables count ≤ stop.number) :
    ∃ outcome after, (mapBeyond base count rights).run ⟨machine, (manager, strip)⟩ =
        (outcome, after) ∧
      EndsMapping (spaceBelow root) manager.nextVirtual 0 count machine.memory outcome := by
  have working : (manager.space : Operation (Paged (FrameManager × FrameStrip)) Refusal
      AddressSpace).run ⟨machine, (manager, strip)⟩ =
        (.done (spaceBelow root), ⟨machine, (manager, strip)⟩) := by
    rw [FrameManager.space, owner, access, active, run_pure]
  have spread := tablesSpanned_le_worstCaseTables (manager.nextVirtual.value / 4096) count
  have served : strip.next.number + tablesSpanned (manager.nextVirtual.value / 4096) (0 + count) ≤
      stop.number + tablesSpanned (manager.nextVirtual.value / 4096) 0 := by
    rw [Nat.zero_add, tablesSpanned_zero]
    omega
  have ready : (spaceBelow root).Ready (FrameStrip.recordsBetween first stop).supply
    (Paged.second ⟨machine, (manager, strip)⟩) offers keeps := ready
  have framed : base.value + (0 + count) * 4096 ≤ 1 <<< 64 := by rwa [Nat.zero_add]
  rcases run_mapPages_of_strip rights ready ledTo framed served with ⟨outcome, after, pages, ends⟩
  have ran : (mapBeyond base count rights).run ⟨machine, (manager, strip)⟩ = _ :=
    (run_bind_of_done (run_state _)).trans (run_bind_of_done working)
  cases ends with
  | done value free =>
      exact ⟨_, after,
        ran.trans ((run_bind_of_done pages).trans (run_bind_of_done (run_report ..))),
        .done _ free⟩
  | met above below existing =>
      exact ⟨_, after, ran.trans (run_bind_of_refused pages), .met above below existing⟩

end FrameManager

end EarlyMemory
