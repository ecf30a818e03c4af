import EarlyMemory.Proofs.Paging.Turning

/-!
# What a descent has done

Going down to a table asks the source for frames, and nothing need be known of what it hands out.
A descent that came to its table tells: each frame that it was given is linked on the walk, and
stays there. For it links only where nothing was, and had it cleared a table of the walk, its next
access through the window would have faulted. So it is enough to know that the frames of the new
tables were in no use before.
-/

namespace EarlyMemory

open Hierarchy (shown without)
open Memory (AgreesOutside)

/-! ## What an access tells -/

section

variable {memory after : Memory} {root table hint : Frame} {address : VirtualAddress}
  {level : Level}

theorem Hierarchy.entryAt_of_walkDown {hierarchy : Hierarchy} {rest : List Level} {leaf : PageEntry}
    (below : level.below = rest)
    (found : hierarchy.tableAt memory (level.path address) = some table)
    (walked : memory.walkDown address table (level :: rest) = .ok (some leaf)) :
    hierarchy.entryAt memory address.leafPath = some leaf := by
  induction rest generalizing level table with
  | nil =>
      cases Level.eq_pt_of_below_eq_nil below
      rw [Address.leafPath, entryAt_cons_of_some found, Memory.presentEntry]
      simp only [Memory.walkDown, bind, Except.bind] at walked
      split at walked
      · cases walked
      · cases present : (memory.entry table (Level.pt.index address)).present <;>
          simp_all [pure, Except.pure]
  | cons child rest induction =>
      rcases Level.below_eq_cons below with ⟨further, _, path⟩
      simp only [Memory.walkDown, bind, Except.bind] at walked
      split at walked
      · cases walked
      · cases present : (memory.entry table (level.index address)).present with
        | false => simp [present, pure, Except.pure] at walked
        | true =>
            simp only [present, Bool.not_true, Bool.false_eq_true, if_false,
              List.isEmpty_cons] at walked
            refine induction further ?_ walked
            rw [path]
            exact tableAt_cons_eq_some.2 ⟨table, found, present, rfl⟩

/-- Whether an access through the window finds the table of a level. -/
def RecursiveMap.Shows (root : Frame) (memory : Memory) (address : VirtualAddress) (level : Level)
    (table : Frame) : Prop :=
  ∃ hint, (TableAccess.recursive root).reach memory level address hint = .ok table

namespace RecursiveMap.Shows

theorem leads (shows : Shows root memory address level table) :
    memory.requireFrame table = .ok () ∧ ∃ leaf, leaf.frame = table ∧
      (shown root).entryAt memory (tableAddress level address).leafPath = some leaf := by
  rcases shows with ⟨hint, reached⟩
  simp only [TableAccess.reach, Memory.resolve, Memory.translate, bind, Except.bind] at reached
  cases walked : memory.walk root (tableAddress level address) with
  | error cause => simp [walked] at reached
  | ok found =>
      cases found with
      | none => simp [walked, pure, Except.pure] at reached
      | some leaf =>
          simp only [walked, pure, Except.pure, Option.map_some, Page.page_join] at reached
          split at reached
          · cases reached
          next required =>
            cases reached
            exact ⟨required, leaf, rfl, Hierarchy.entryAt_of_walkDown
              (show Level.pml4.below = _ from rfl) rfl walked⟩

theorem inside (shows : Shows root memory address level table) : memory.HasFrame table :=
  Memory.hasFrame_of_requireFrame shows.leads.1

theorem addressable (shows : Shows root memory address level table) : memory.IsAddressable :=
  (Memory.of_requireInside shows.leads.1).1

theorem slot_present (shows : Shows root memory address level table) :
    (memory.entry root slot).present = true := by
  rcases shows.leads with ⟨_, leaf, _, found⟩
  cases present : (memory.entry root slot).present with
  | true => rfl
  | false =>
      rw [← first_index_tableAddress level address] at present
      have isRoot : (shown root).tableAt memory (Level.pml4.path (tableAddress level address)) =
          some root := rfl
      have missing := Hierarchy.tableAt_of_absent isRoot present
        (show Level.pml4.depth < Level.pt.depth by decide)
      rw [Hierarchy.entryAt_leafPath_of_none missing] at found
      cases found

theorem tableAt (shows : Shows root memory address level table)
    (installed : isInstalled memory root = true) :
    (without root slot).tableAt memory (level.path address) = some table := by
  rcases shows.leads with ⟨_, leaf, rfl, found⟩
  have leads := Hierarchy.tableAt_eq_map_entryAt (shown root) memory (List.cons_ne_nil
    (Level.pt.index (tableAddress level address)) (Level.pt.path (tableAddress level address)))
  rw [← Address.leafPath, found, leafPath_tableAddress,
    ← Hierarchy.tableAt_eq_shown (without root slot), Hierarchy.tableAt_append_slot installed]
    at leads
  exact leads

end RecursiveMap.Shows

end

namespace AddressSpace

open RecursiveMap (Shows)

variable {F : Type} [FrameSource F] {source : F} {records old : Frame → Prop}
  {before middle after : Paged F} {root table next last lower : Frame} {index : TableIndex}
  {address : VirtualAddress} {level upper child lowest : Level} {levels : List Level}

/-- Whether requests to a source leave it as it is, and all but some frames of the memory. -/
def KeepsTo (source : F) (records : Frame → Prop) : Prop :=
  ∀ {answer : Option Frame} {before after : Paged F}, before.source = source →
    before.memory.IsAddressable →
    (FrameSource.take : Operation (Paged F) MapError (Option Frame)).run before =
      (.done answer, after) →
    after.source = source ∧ AgreesOutside records before.memory after.memory

/-! ## One level -/

/-- How the next table of a walk is come to: it is there, or a frame is linked and what the window
then shows is cleared. -/
inductive Ensures (root table : Frame) (index : TableIndex) (child : Level)
    (address : VirtualAddress) (before after : Paged F) : Frame → Prop
  | found (present : (before.memory.entry table index).present = true) (same : after = before) :
      Ensures root table index child address before after (before.memory.entry table index).frame
  | linked {asked : Paged F} {frame shown : Frame}
      (absent : (before.memory.entry table index).present = false)
      (taken : (FrameSource.take : Operation (Paged F) MapError (Option Frame)).run before =
        (.done (some frame), asked))
      (reaches : Shows root (asked.memory.setEntry table index (.table frame)) address child shown)
      (memory : after.memory =
        (asked.memory.setEntry table index (.table frame)).clearTable shown)
      (same : after.source = asked.source) :
      Ensures root table index child address before after frame

theorem ensures_of_run
    (done : (ensureChild ⟨root, .recursive root⟩ table index child address).run before =
      (.done next, after)) : Ensures root table index child address before after next := by
  rw [ensureChild, Operation.run_bind_of_done (Paged.run_inspect ..)] at done
  cases present : (before.memory.entry table index).present with
  | true =>
      rw [if_pos present] at done
      cases done
      exact .found present rfl
  | false =>
      rw [if_neg (by simp [present])] at done
      rcases Operation.of_run_bind done with ⟨answer, asked, taken, done⟩
      cases answer with
      | none => cases done
      | some frame =>
          rcases Operation.of_run_bind done with ⟨_, linked, linking, done⟩
          rcases Paged.of_run_changeMemory linking with ⟨written, linkedSource⟩
          rcases Operation.of_run_bind done with ⟨_, flushed, flushing, done⟩
          cases flushing
          rcases Operation.of_run_bind done with ⟨shown, _, reaching, done⟩
          rcases Paged.of_run_inspect reaching with ⟨reached, rfl⟩
          rcases Operation.of_run_bind done with ⟨_, cleared, clearing, done⟩
          rcases Paged.of_run_changeMemory clearing with ⟨memory, clearedSource⟩
          cases done
          have reaches : Shows root (asked.memory.setEntry table index (.table next)) address child
              shown := by
            rw [← written]
            exact ⟨next, reached⟩
          refine .linked present taken reaches ?_ (clearedSource.trans linkedSource)
          rw [memory, ← written]
          rfl

/-! ## The walk stays -/

/-- Whether the tables down to a level are those that they were. -/
def SameWalk (root : Frame) (address : VirtualAddress) (level : Level) (before after : Memory) :
    Prop :=
  ∀ upper : Level, upper.depth ≤ level.depth →
    (without root RecursiveMap.slot).tableAt after (upper.path address) =
      (without root RecursiveMap.slot).tableAt before (upper.path address)

/-- Whether a walk comes down to a level, over tables that hold no records of the source. -/
structure ComesTo (root : Frame) (records : Frame → Prop) (address : VirtualAddress)
    (level : Level) (memory : Memory) : Prop where
  installed : RecursiveMap.isInstalled memory root = true
  found : ∃ table, (without root RecursiveMap.slot).tableAt memory (level.path address) = some table
  apart : ¬ records root
  missed : ∀ upper : Level, upper.depth < level.depth → ∀ table,
    (without root RecursiveMap.slot).tableAt memory (upper.path address) = some table →
      ¬ records table

theorem ComesTo.of_sameWalk {before after : Memory}
    (comes : ComesTo root records address level before)
    (same : SameWalk root address level before after)
    (installed : RecursiveMap.isInstalled after root = true) :
    ComesTo root records address level after where
  installed := installed
  found := by
    rw [same level (Nat.le_refl _)]
    exact comes.found
  apart := comes.apart
  missed upper above table leads :=
    comes.missed upper above table ((same upper (Nat.le_of_lt above)) ▸ leads)

/-- Neither a request nor a link moves the tables above. -/
theorem ComesTo.sameWalk_linked {before asked : Memory}
    (comes : ComesTo root records address level before)
    (agrees : AgreesOutside records before asked)
    (absent : (before.entry table index).present = false) (entry : PageEntry) :
    SameWalk root address level before (asked.setEntry table index entry) ∧
      RecursiveMap.isInstalled (asked.setEntry table index entry) root = true := by
  have kept : ∀ other otherIndex, ¬ records other →
      (before.entry other otherIndex).present = true →
      (asked.setEntry table index entry).entry other otherIndex =
        before.entry other otherIndex := by
    intro other otherIndex untouched present
    rw [Memory.entry_setEntry_other, agrees.entry_eq untouched]
    by_cases same : other = table
    · refine .inr fun sameIndex => ?_
      rw [same, sameIndex, absent] at present
      cases present
    · exact .inl same
  constructor
  · intro upper higher
    rcases comes.found with ⟨_, found⟩
    rcases Hierarchy.exists_tableAt_of_le found higher with ⟨reached, leads⟩
    rw [leads]
    exact Hierarchy.tableAt_path_of_kept leads fun above isAbove other isOther =>
      kept other _ (comes.missed above (by omega) other isOther)
  · rw [RecursiveMap.isInstalled, RecursiveMap.entryOf, kept root RecursiveMap.slot comes.apart
      (RecursiveMap.steps_of_isInstalled comes.installed).present]
    exact comes.installed

/-- A table of the walk was not cleared if the walk can be followed further down afterwards. -/
theorem sameWalk_cleared {linked : Memory} {shown : Frame}
    (installed : RecursiveMap.isInstalled linked root = true) (inside : linked.HasFrame shown)
    (shows : Shows root (linked.clearTable shown) address child lower)
    (higher : level.depth ≤ child.depth) :
    SameWalk root address level linked (linked.clearTable shown) ∧
      RecursiveMap.isInstalled (linked.clearTable shown) root = true := by
  have keeps := Memory.keepsEntries_clearTable inside
  have still : RecursiveMap.isInstalled (linked.clearTable shown) root = true := by
    rw [RecursiveMap.isInstalled, RecursiveMap.entryOf, ← keeps root _ shows.slot_present]
    exact installed
  refine ⟨fun upper above => ?_, still⟩
  rcases Hierarchy.exists_tableAt_of_le (shows.tableAt still)
    (show upper.depth ≤ child.depth by omega) with ⟨reached, leads⟩
  rw [leads, Hierarchy.tableAt_of_keepsEntries keeps leads]

theorem SameWalk.trans {before middle after : Memory}
    (first : SameWalk root address level before middle)
    (second : SameWalk root address level middle after) :
    SameWalk root address level before after :=
  fun upper higher => (second upper higher).trans (first upper higher)

theorem Ensures.sameWalk (ensures : Ensures root table index child address before after next)
    (keepsTo : KeepsTo before.source records) (addressable : before.memory.IsAddressable)
    (comes : ComesTo root records address level before.memory)
    (shows : Shows root after.memory address child lower) (higher : level.depth ≤ child.depth) :
    SameWalk root address level before.memory after.memory ∧
      RecursiveMap.isInstalled after.memory root = true ∧ after.source = before.source := by
  cases ensures with
  | found present same =>
      rw [same]
      exact ⟨fun _ _ => rfl, comes.installed, rfl⟩
  | linked absent taken reaches memory same =>
      rcases keepsTo rfl addressable taken with ⟨source, agrees⟩
      rcases comes.sameWalk_linked agrees absent (.table next) with ⟨first, installed⟩
      rw [memory] at shows
      rcases sameWalk_cleared installed reaches.inside shows higher with ⟨second, still⟩
      rw [memory]
      exact ⟨first.trans second, still, same.trans source⟩

/-- Whatever goes further down starts with an access to the table it is at. -/
theorem shows_of_descend {below : List Level}
    (done : (descend ⟨root, .recursive root⟩ address child next below).run before =
      (.done last, after))
    (depth : lowest.depth = child.depth + below.length)
    (shows : Shows root after.memory address lowest lower) :
    ∃ table, Shows root before.memory address child table := by
  cases below with
  | nil =>
      cases Level.eq_of_depth_eq depth
      cases done
      exact ⟨lower, shows⟩
  | cons further below =>
      rw [descend] at done
      rcases Operation.of_run_bind done with ⟨table, _, reaching, _⟩
      rcases Paged.of_run_inspect reaching with ⟨reached, _⟩
      exact ⟨table, next, reached⟩

theorem sameWalk_of_descend (keepsTo : KeepsTo source records) (isSource : before.source = source)
    (comes : ComesTo root records address upper before.memory)
    (done : (descend ⟨root, .recursive root⟩ address level table levels).run before =
      (.done last, after))
    (part : levels <+: level.below) (depth : lowest.depth = level.depth + levels.length)
    (shows : Shows root after.memory address lowest lower) (higher : upper.depth ≤ level.depth) :
    SameWalk root address upper before.memory after.memory ∧
      RecursiveMap.isInstalled after.memory root = true := by
  induction levels generalizing level table before with
  | nil =>
      cases done
      exact ⟨fun _ _ => rfl, comes.installed⟩
  | cons child levels induction =>
      rcases part with ⟨further, next⟩
      have next := next.symm
      rw [List.cons_append] at next
      rcases Level.below_eq_cons next with ⟨below, childDepth, _⟩
      rw [List.length_cons] at depth
      rw [descend] at done
      rcases Operation.of_run_bind done with ⟨_, _, reaching, done⟩
      rcases Paged.of_run_inspect reaching with ⟨reaches, rfl⟩
      rcases Operation.of_run_bind done with ⟨_, middle, ensured, done⟩
      rcases shows_of_descend done (by omega) shows with ⟨_, showsChild⟩
      rcases (ensures_of_run ensured).sameWalk (isSource ▸ keepsTo)
        (Shows.addressable ⟨_, reaches⟩) comes showsChild (by omega) with ⟨same, installed, source⟩
      rcases induction (source.trans isSource) (comes.of_sameWalk same installed) done
        ⟨further, below.symm⟩ (by omega) (by omega) with ⟨still, kept⟩
      exact ⟨same.trans still, kept⟩

/-! ## Down to a table -/

structure ComesDown (space : AddressSpace) (address : VirtualAddress) (lowest : Level)
    (last : Frame) (before after : Memory) : Prop where
  usable : space.IsUsable after
  same : space.SameLeaves before after
  links : ∃ linked : List Level, (∀ level ∈ linked, level.depth ≤ lowest.depth) ∧
    space.Links address linked before after
  found : space.hierarchy.tableAt after (lowest.path address) = some last

theorem ComesDown.trans {space : AddressSpace} {first : Frame} {before middle after : Memory}
    (leads : space.hierarchy.Leads address)
    (upper : space.ComesDown address level first before middle)
    (lower : space.ComesDown address lowest last middle after)
    (higher : level.depth ≤ lowest.depth) : space.ComesDown address lowest last before after := by
  rcases upper.links with ⟨early, earlyDepth, earlyLinks⟩
  rcases lower.links with ⟨late, lateDepth, lateLinks⟩
  refine ⟨lower.usable, upper.same.trans lower.same, ⟨early ++ late, fun linked member => ?_,
    earlyLinks.trans leads lateLinks⟩, lower.found⟩
  rcases List.mem_append.1 member with isEarly | isLate
  · exact Nat.le_trans (earlyDepth linked isEarly) higher
  · exact lateDepth linked isLate

theorem ComesDown.tableAt_of_deeper {space : AddressSpace} {before after : Memory} {further : Level}
    (comes : space.ComesDown address lowest last before after)
    (leads : space.hierarchy.Leads address) (deeper : lowest.depth < further.depth) :
    space.hierarchy.tableAt after (further.path address) =
      space.hierarchy.tableAt before (further.path address) := by
  rcases comes.links with ⟨linked, shallow, links⟩
  refine links.others _ further.length_path_le (leads.owns_path further) fun level member same => ?_
  have depth := congrArg List.length same
  rw [Level.length_path, Level.length_path] at depth
  exact absurd (shallow level member) (by omega)

/-- A frame that is linked in a usable space and was no table of it leaves the space usable. -/
theorem Linking.comesDown {space : AddressSpace} {memory : Memory} {frame : Frame}
    (linking : space.Linking memory address level child table frame)
    (usable : space.IsUsable memory) :
    space.ComesDown address child frame memory
      ((linkedMemory memory address level table frame).clearTable frame) where
  usable := {
    addressable := linking.agrees_cleared.isAddressable_iff.2 usable.addressable
    tree := linking.grows.tree
    served := linking.isServed usable.served (Memory.agreesOutside_clearTable ..) }
  same := linking.grows.leaves
  links := by
    refine ⟨[child], by simp, ?_, fun path short owns other => ?_⟩
    · intro only member
      cases List.mem_singleton.1 member
      have absent : space.hierarchy.tableAt memory (child.path address) = none := by
        rw [linking.path_child, Hierarchy.tableAt_cons_of_some linking.found,
          Memory.presentEntry_eq_none linking.absent, Option.map_none]
      rw [linking.tableAt_cleared]
      exact ⟨absent, Option.some_ne_none frame⟩
    · rw [linking.tableAt_cleared_eq short owns, if_neg (other child List.mem_cons_self)]
  found := linking.tableAt_cleared

theorem IsUsable.comesTo {memory : Memory} (usable : IsUsable ⟨root, .recursive root⟩ memory)
    (unrecorded : ∀ frame, records frame → ¬ (without root RecursiveMap.slot).IsTable memory frame)
    (leads : (without root RecursiveMap.slot).Leads address)
    (found : (without root RecursiveMap.slot).tableAt memory (level.path address) = some table) :
    ComesTo root records address level memory where
  installed := usable.served.2
  found := ⟨table, found⟩
  apart isRecord := unrecorded root isRecord Hierarchy.isTable_root
  missed _ _ other isOther isRecord :=
    unrecorded other isRecord (leads.isTable isOther)

/-- The link leads to the table that is found below it. -/
theorem frame_table_eq_of_found {asked : Memory}
    (childPath : child.path address = level.index address :: level.path address)
    (inside : asked.HasFrame table)
    (found : (without root RecursiveMap.slot).tableAt
      (asked.setEntry table (level.index address) (.table next)) (level.path address) = some table)
    (foundChild : (without root RecursiveMap.slot).tableAt
      (asked.setEntry table (level.index address) (.table next)) (child.path address) =
        some lower) : (PageEntry.table next).frame = lower := by
  rw [childPath, Hierarchy.tableAt_cons_of_some found, Memory.presentEntry,
    Memory.entry_setEntry_same _ _ _ _ inside, if_pos (PageEntry.present_table next)] at foundChild
  exact Option.some.inj foundChild

/-- What was cleared is no table above one that the walk still comes to. -/
theorem tableAt_ne_of_cleared {linked : Memory} (inside : linked.HasFrame lower)
    (found : (without root RecursiveMap.slot).tableAt (linked.clearTable lower)
      (child.path address) = some last) (higher : upper.depth < child.depth) :
    (without root RecursiveMap.slot).tableAt (linked.clearTable lower) (upper.path address) ≠
      some lower := by
  intro onWalk
  have cleared : ((linked.clearTable lower).entry lower (upper.index address)).present = false := by
    rw [Memory.entry_clearTable_same _ _ inside]
    exact PageEntry.present_zero
  rw [Hierarchy.tableAt_of_absent onWalk cleared higher] at found
  cases found

theorem comesDown_of_agrees {before asked : Memory}
    (usable : IsUsable ⟨root, .recursive root⟩ before)
    (unrecorded : ∀ frame, records frame → ¬ (without root RecursiveMap.slot).IsTable before frame)
    (leads : (without root RecursiveMap.slot).Leads address)
    (found : (without root RecursiveMap.slot).tableAt before (level.path address) = some table)
    (agrees : AgreesOutside records before asked) :
    ComesDown ⟨root, .recursive root⟩ address level table before asked := by
  rcases usable.of_agrees agrees fun frame isFrame isRecord =>
    unrecorded frame isRecord isFrame with ⟨usableAsked, asking⟩
  refine ⟨usableAsked, asking.leaves, ⟨[], by simp, .of_same fun path short owns => ?_⟩,
    asking.kept _ _ level.length_path_le (leads.owns_path level) found⟩
  exact Hierarchy.tableAt_congr (fun other index isOther => agrees.entry_eq
    (fun isRecord => unrecorded other isRecord isOther) index) path (by omega) owns

/-- A frame that was in no use is linked and cleared after a request. -/
theorem comesDown_of_linked {before asked : Memory}
    (usable : IsUsable ⟨root, .recursive root⟩ before)
    (unrecorded : ∀ frame, records frame → ¬ (without root RecursiveMap.slot).IsTable before frame)
    (leads : (without root RecursiveMap.slot).Leads address)
    (further : ∃ below, level.below = child :: below)
    (found : (without root RecursiveMap.slot).tableAt before (level.path address) = some table)
    (agrees : AgreesOutside records before asked)
    (absent : (before.entry table (level.index address)).present = false)
    (inside : asked.HasFrame lower) (linkable : lower.IsLinkable)
    (unused : ¬ (without root RecursiveMap.slot).IsTable before lower) :
    ComesDown ⟨root, .recursive root⟩ address child lower before
        ((linkedMemory asked address level table lower).clearTable lower) ∧
      ∀ frame, (without root RecursiveMap.slot).IsTable
          ((linkedMemory asked address level table lower).clearTable lower) frame →
        (without root RecursiveMap.slot).IsTable before frame ∨ frame = lower := by
  rcases further with ⟨below, further⟩
  rcases Level.below_eq_cons further with ⟨_, childDepth, _⟩
  have first := comesDown_of_agrees usable unrecorded leads found agrees
  rcases usable.of_agrees agrees fun frame isFrame isRecord =>
    unrecorded frame isRecord isFrame with ⟨_, asking⟩
  have isTable := leads.isTable found
  have linking : Linking ⟨root, .recursive root⟩ asked address level child table lower := {
    tree := first.usable.tree
    leads := leads
    next := ⟨below, further⟩
    found := first.found
    absent := by rw [agrees.entry_eq fun isRecord => unrecorded table isRecord isTable, absent]
    inside := inside
    linkable := linkable
    unused := fun isLower => unused ((asking.tables lower isLower).resolve_right id) }
  refine ⟨first.trans leads (linking.comesDown first.usable) (by omega), fun frame isFrame => ?_⟩
  rcases linking.grows.tables frame isFrame with isOld | isNew
  · exact .inl ((asking.tables frame isOld).resolve_right id)
  · exact .inr isNew

/-- One level further down, if the frame that the walk then leads to was in no use. -/
theorem Ensures.comesDown
    (ensures : Ensures root table (level.index address) child address before middle next)
    (keepsTo : KeepsTo before.source records)
    (usable : IsUsable ⟨root, .recursive root⟩ before.memory)
    (unrecorded : ∀ frame, records frame →
      ¬ (without root RecursiveMap.slot).IsTable before.memory frame)
    (leads : (without root RecursiveMap.slot).Leads address)
    (further : ∃ below, level.below = child :: below)
    (found : (without root RecursiveMap.slot).tableAt before.memory (level.path address) =
      some table)
    (shows : Shows root middle.memory address child lower)
    (known : ∀ frame, (without root RecursiveMap.slot).IsTable before.memory frame →
      old frame ∨ ∃ upper : Level, upper.depth ≤ level.depth ∧
        (without root RecursiveMap.slot).tableAt before.memory (upper.path address) = some frame)
    (fresh : (without root RecursiveMap.slot).tableAt before.memory (child.path address) = none →
      ¬ old lower ∧ ¬ records lower) :
    ComesDown ⟨root, .recursive root⟩ address child lower before.memory middle.memory ∧
      middle.source = before.source ∧
      ∀ frame, (without root RecursiveMap.slot).IsTable middle.memory frame →
        (without root RecursiveMap.slot).IsTable before.memory frame ∨
          frame = lower ∧ ¬ records lower := by
  rcases further with ⟨below, further⟩
  rcases Level.below_eq_cons further with ⟨_, childDepth, childPath⟩
  have comes := usable.comesTo unrecorded leads found
  rcases ensures.sameWalk keepsTo usable.addressable comes shows (by omega) with
    ⟨same, installed, source⟩
  have lowerFound := shows.tableAt installed
  cases ensures with
  | found present unchanged =>
      rw [unchanged] at lowerFound ⊢
      exact ⟨⟨usable, fun _ _ _ => rfl, ⟨[], by simp, .of_same fun _ _ _ => rfl⟩, lowerFound⟩, rfl,
        fun frame isFrame => .inl isFrame⟩
  | @linked asked _ shown absent taken reaches memory _ =>
      rcases keepsTo rfl usable.addressable taken with ⟨_, agrees⟩
      have asking := comesDown_of_agrees usable unrecorded leads found agrees
      rcases comes.sameWalk_linked agrees absent (.table next) with ⟨walk, linked⟩
      have inside := asking.usable.tree.inside table (leads.isTable asking.found)
      have shownFound := reaches.tableAt linked
      -- The link leads to what the window shows, and that is the table that is found afterwards.
      have link := frame_table_eq_of_found (childPath address) inside
        ((walk level (Nat.le_refl _)).trans found) shownFound
      have isLower : lower = shown := by
        rw [memory] at lowerFound
        have back := Hierarchy.tableAt_of_keepsEntries
          (Memory.keepsEntries_clearTable reaches.inside) lowerFound
        exact Option.some.inj (back.symm.trans shownFound)
      subst isLower
      have missing : (without root RecursiveMap.slot).tableAt before.memory (child.path address) =
          none := Hierarchy.tableAt_of_absent found absent (by omega)
      have unused : ¬ (without root RecursiveMap.slot).IsTable before.memory lower := by
        intro isOld
        rcases known lower isOld with wasOld | ⟨upper, higher, onWalk⟩
        · exact (fresh missing).1 wasOld
        · rw [← same upper higher, memory] at onWalk
          rw [memory] at lowerFound
          exact tableAt_ne_of_cleared reaches.inside lowerFound (by omega) onWalk
      rw [← PageEntry.table_frame_table, link] at memory reaches
      rcases comesDown_of_linked usable unrecorded leads ⟨below, further⟩ found agrees absent
        ((Memory.agreesOutside_setEntry ..).hasFrame_iff lower |>.1 reaches.inside)
        (link ▸ PageEntry.isLinkable_frame _) unused with ⟨down, tables⟩
      rw [memory]
      exact ⟨down, source, fun frame isFrame =>
        (tables frame isFrame).imp_right fun isNew => ⟨isNew, (fresh missing).2⟩⟩

/-- All the way down, if the frames of the new tables were in no use. -/
theorem comesDown_of_descend (keepsTo : KeepsTo source records) (isSource : before.source = source)
    (usable : IsUsable ⟨root, .recursive root⟩ before.memory)
    (unrecorded : ∀ frame, records frame →
      ¬ (without root RecursiveMap.slot).IsTable before.memory frame)
    (leads : (without root RecursiveMap.slot).Leads address)
    (part : levels <+: level.below) (depth : lowest.depth = level.depth + levels.length)
    (done : (descend ⟨root, .recursive root⟩ address level table levels).run before =
      (.done last, after))
    (shows : Shows root after.memory address lowest lower)
    (known : ∀ frame, (without root RecursiveMap.slot).IsTable before.memory frame →
      old frame ∨ ∃ upper : Level, upper.depth ≤ level.depth ∧
        (without root RecursiveMap.slot).tableAt before.memory (upper.path address) = some frame)
    (fresh : ∀ further : Level, level.depth < further.depth → further.depth ≤ lowest.depth →
      (without root RecursiveMap.slot).tableAt before.memory (further.path address) = none →
      ∀ frame, (without root RecursiveMap.slot).tableAt after.memory (further.path address) =
        some frame → ¬ old frame ∧ ¬ records frame) :
    ComesDown ⟨root, .recursive root⟩ address lowest lower before.memory after.memory := by
  induction levels generalizing level table before with
  | nil =>
      cases Level.eq_of_depth_eq depth
      cases done
      exact ⟨usable, fun _ _ _ => rfl, ⟨[], by simp, .of_same fun _ _ _ => rfl⟩,
        shows.tableAt usable.served.2⟩
  | cons child levels induction =>
      rcases part with ⟨rest, next⟩
      have next := next.symm
      rw [List.cons_append] at next
      rcases Level.below_eq_cons next with ⟨below, childDepth, childPath⟩
      rw [List.length_cons] at depth
      rw [descend] at done
      rcases Operation.of_run_bind done with ⟨reached, _, reaching, done⟩
      rcases Paged.of_run_inspect reaching with ⟨reaches, rfl⟩
      rcases Operation.of_run_bind done with ⟨_, middle, ensured, done⟩
      rcases shows_of_descend done (by omega) shows with ⟨linked, showsChild⟩
      have found := Shows.tableAt ⟨_, reaches⟩ usable.served.2
      have ensures := ensures_of_run ensured
      have comes := usable.comesTo unrecorded leads found
      subst isSource
      rcases ensures.sameWalk keepsTo usable.addressable comes showsChild (by omega) with
        ⟨same, installed, source⟩
      have foundChild := showsChild.tableAt installed
      have comesChild : ComesTo root records address child middle.memory := {
        installed := installed
        found := ⟨linked, foundChild⟩
        apart := comes.apart
        missed := fun upper above other isOther isRecord => unrecorded other isRecord
          (leads.isTable ((same upper (by omega)).symm.trans isOther)) }
      have stays := (sameWalk_of_descend keepsTo source comesChild done ⟨rest, below.symm⟩
        (by omega) shows (Nat.le_refl _)).1 child (Nat.le_refl _)
      rcases ensures.comesDown keepsTo usable unrecorded leads ⟨_, next⟩ found showsChild known
        (fun missing => fresh child (by omega) (by omega) missing linked
          (stays.trans foundChild)) with ⟨first, _, tables⟩
      refine first.trans leads (induction source first.usable ?_ ⟨rest, below.symm⟩ (by omega) done
        ?_ ?_) (by omega)
      · intro frame isRecord isTable
        rcases tables frame isTable with wasTable | ⟨rfl, notRecord⟩
        · exact unrecorded frame isRecord wasTable
        · exact notRecord isRecord
      · intro frame isTable
        rcases tables frame isTable with wasTable | ⟨rfl, _⟩
        · rcases known frame wasTable with wasOld | ⟨upper, higher, onWalk⟩
          · exact .inl wasOld
          · exact .inr ⟨upper, by omega, (same upper higher).trans onWalk⟩
        · exact .inr ⟨child, Nat.le_refl _, foundChild⟩
      · intro further deeper shallow missing
        exact fresh further (by omega) shallow
          ((first.tableAt_of_deeper leads deeper).symm.trans missing)

end AddressSpace

end EarlyMemory
