import EarlyMemory.Proofs.Ledger.Bits
import EarlyMemory.Proofs.Ledger.Counting

/-!
# Bitmaps one bit at a time

The search and the count work on whole bytes, and a change rewrites one. Bit by bit they are
what they are named for: the search answers with the least bit that reads clear, a change is
read back where it was made and nowhere else, and the count is the number of bits that read
set.
-/

namespace EarlyMemory.Bitmap

variable {bitmap : Bitmap} {bit other start stop : Nat} {busy was : Bool}

/-! ## Bits that read set or clear -/

def setBits (bitmap : Bitmap) : Set Nat :=
  {bit | bit < 8 * bitmap.size ∧ bitmap.get bit = .ok true}

def clearBits (bitmap : Bitmap) (start stop : Nat) : Set Nat :=
  {bit | start ≤ bit ∧ bit < stop ∧ bitmap.get bit = .ok false}

theorem get_eq_ok (within : bit < 8 * bitmap.size) :
    bitmap.get bit = .ok (bitmap.isSet bit) :=
  if_pos (by omega)

theorem of_get_eq_ok (read : bitmap.get bit = .ok was) :
    bit < 8 * bitmap.size ∧ bitmap.isSet bit = was := by
  unfold get at read
  split at read
  case isTrue within => exact ⟨by omega, Except.ok.inj read⟩
  case isFalse => cases read

theorem mem_setBits_iff : bit ∈ bitmap.setBits ↔ bitmap.isSet bit = true := by
  constructor
  · rintro ⟨_, set⟩
    exact (of_get_eq_ok set).2
  · intro set
    have within : bit < 8 * bitmap.size := by
      rw [isSet, Bool.and_eq_true, decide_eq_true_iff] at set
      omega
    exact ⟨within, by rw [get_eq_ok within, set]⟩

theorem mem_clearBits_iff (fits : stop ≤ 8 * bitmap.size) :
    bit ∈ bitmap.clearBits start stop ↔
      start ≤ bit ∧ bit < stop ∧ bitmap.isSet bit = false := by
  constructor
  · rintro ⟨above, below, clear⟩
    exact ⟨above, below, (of_get_eq_ok clear).2⟩
  · rintro ⟨above, below, clear⟩
    exact ⟨above, below, by rw [get_eq_ok (by omega), clear]⟩

/-! ## The search -/

theorem IsFirstClear.eq_some_iff {answer : Option Nat}
    (first : bitmap.IsFirstClear start stop answer) (fits : stop ≤ 8 * bitmap.size)
    (found : Nat) : answer = some found ↔ IsLeast (bitmap.clearBits start stop) found := by
  cases answer with
  | none =>
      constructor
      · intro impossible
        cases impossible
      · rintro ⟨member, _⟩
        rcases (mem_clearBits_iff fits).1 member with ⟨above, below, clear⟩
        rw [first found above below] at clear
        cases clear
  | some least =>
      rcases first with ⟨above, below, clear, before⟩
      have isLeast : IsLeast (bitmap.clearBits start stop) least := by
        refine ⟨(mem_clearBits_iff fits).2 ⟨above, below, clear⟩, ?_⟩
        intro later member
        rcases (mem_clearBits_iff fits).1 member with ⟨isAbove, _, isClear⟩
        refine Nat.le_of_not_lt fun early => ?_
        rw [before later isAbove early] at isClear
        cases isClear
      constructor
      · intro same
        cases same
        exact isLeast
      · intro alsoLeast
        rw [isLeast.unique alsoLeast]

theorem IsFirstClear.eq_none_iff {answer : Option Nat}
    (first : bitmap.IsFirstClear start stop answer) (fits : stop ≤ 8 * bitmap.size) :
    answer = none ↔ bitmap.clearBits start stop = ∅ := by
  constructor
  · rintro rfl
    refine Set.eq_empty_of_forall_notMem fun bit member => ?_
    rcases (mem_clearBits_iff fits).1 member with ⟨above, below, clear⟩
    rw [first bit above below] at clear
    cases clear
  · intro empty
    cases answer with
    | none => rfl
    | some found =>
        have member := ((first.eq_some_iff fits found).1 rfl).1
        rw [empty] at member
        cases member

/-! ## A change -/

theorem set_eq_ok (within : bit < 8 * bitmap.size) (busy : Bool) :
    bitmap.set bit busy = .ok (bitmap.changed bit busy) := by
  rw [set, changedByte_eq_ok (by omega)]
  rfl

theorem get_changed (within : bit < 8 * bitmap.size) :
    (bitmap.changed bit busy).get bit = .ok busy := by
  have stillWithin : bit < 8 * (bitmap.changed bit busy).size := within
  rw [get_eq_ok stillWithin, isSet_changed (by omega), if_pos rfl]

theorem get_changed_of_ne (within : bit < 8 * bitmap.size) (different : other ≠ bit) :
    (bitmap.changed bit busy).get other = bitmap.get other := by
  unfold get
  rw [isSet_changed (by omega), if_neg different]
  rfl

/-! ## The count -/

/-- The set bits are counted, bits that stand for no page included. -/
theorem countSet_eq_ncard (bitmap : Bitmap) : bitmap.countSet = bitmap.setBits.ncard := by
  have beyond : ∀ bit, 8 * bitmap.size ≤ bit → bitmap.isSet bit = false := by
    intro bit late
    rw [isSet, decide_eq_false (by omega), Bool.false_and]
  rw [countSet_eq_card (Nat.le_refl _) beyond, ← Set.ncard_coe_finset]
  congr 1
  ext bit
  rw [Finset.mem_coe, Finset.mem_filter, Finset.mem_range, mem_setBits_iff]
  constructor
  · exact And.right
  · intro set
    exact ⟨(mem_setBits_iff.2 set).1, set⟩

theorem finite_setBits (bitmap : Bitmap) : bitmap.setBits.Finite :=
  (Set.finite_lt_nat (8 * bitmap.size)).subset fun _ => And.left

theorem setBits_changed (within : bit < 8 * bitmap.size) (busy : Bool) :
    (bitmap.changed bit busy).setBits =
      if busy then insert bit bitmap.setBits else bitmap.setBits \ {bit} := by
  ext other
  rw [mem_setBits_iff, isSet_changed (by omega)]
  cases busy <;> by_cases same : other = bit <;> simp [same, mem_setBits_iff]

theorem countSet_changed (read : bitmap.get bit = .ok was) (busy : Bool) :
    (bitmap.changed bit busy).countSet + was.toNat = bitmap.countSet + busy.toNat := by
  rcases of_get_eq_ok read with ⟨within, isSet⟩
  have member : bit ∈ bitmap.setBits ↔ was = true := by rw [mem_setBits_iff, isSet]
  have absent : was = false → bit ∉ bitmap.setBits := by
    rw [member, Bool.not_eq_true]
    exact id
  rw [countSet_eq_ncard, countSet_eq_ncard, setBits_changed within]
  cases busy with
  | true =>
      rw [if_pos rfl]
      cases was with
      | true => rw [Set.insert_eq_of_mem (member.2 rfl)]
      | false =>
          rw [Set.ncard_insert_of_notMem (absent rfl) (finite_setBits bitmap)]
          rfl
  | false =>
      rw [if_neg Bool.false_ne_true]
      cases was with
      | true => exact Set.ncard_sdiff_singleton_add_one (member.2 rfl) (finite_setBits bitmap)
      | false => rw [Set.sdiff_singleton_eq_self (absent rfl)]

/-! ## All of it -/

/-- Search, change and count do on whole bytes what a scan of the bits would do: the search
ends and finds the least clear bit of its stretch, whether or not the stretch starts with a
byte; a bit that is changed is the only one to change; and the count is that of the set bits,
so a change moves it by one if it turns the bit over and not at all otherwise. -/
theorem bits_are_scanned_one_by_one (bitmap : Bitmap) :
    (∀ start stop, stop ≤ 8 * bitmap.size → ∃ answer,
      bitmap.firstClear start stop = .ok answer ∧
      (answer = none ↔ bitmap.clearBits start stop = ∅) ∧
      ∀ found, answer = some found ↔ IsLeast (bitmap.clearBits start stop) found) ∧
    bitmap.countSet = bitmap.setBits.ncard ∧
    ∀ bit busy, bit < 8 * bitmap.size → ∃ next,
      bitmap.set bit busy = .ok next ∧ next.size = bitmap.size ∧
      next.get bit = .ok busy ∧
      (∀ other, other ≠ bit → next.get other = bitmap.get other) ∧
      (bitmap.get bit = .ok busy → next.countSet = bitmap.countSet) ∧
      (bitmap.get bit = .ok (!busy) →
        if busy then next.countSet = bitmap.countSet + 1
        else next.countSet + 1 = bitmap.countSet) := by
  refine ⟨?_, countSet_eq_ncard bitmap, ?_⟩
  · intro start stop fits
    rcases firstClear_spec bitmap start stop fits with ⟨answer, ends, first⟩
    exact ⟨answer, ends, first.eq_none_iff fits, first.eq_some_iff fits⟩
  · intro bit busy within
    refine ⟨bitmap.changed bit busy, set_eq_ok within busy, rfl, get_changed within,
      fun other different => get_changed_of_ne within different, ?_, ?_⟩
    · intro kept
      exact Nat.add_right_cancel (countSet_changed kept busy)
    · intro turned
      have moved := countSet_changed turned busy
      cases busy with
      | true => exact moved
      | false => exact moved

def nineteenBusy : Bitmap :=
  ⟨3, fun index => if index < 2 then 255 else 7⟩

/-- The search steps over the full bytes and ends with the first bit behind the busy ones;
setting that bit makes the set bits twenty. -/
theorem nineteenBusy_is_scanned :
    24 ≤ 8 * nineteenBusy.size ∧ nineteenBusy.firstClear 0 24 = .ok (some 19) ∧
    nineteenBusy.firstClear 0 19 = .ok none ∧
    ∃ next, nineteenBusy.set 19 true = .ok next ∧ next.countSet = nineteenBusy.countSet + 1 := by
  rcases bits_are_scanned_one_by_one nineteenBusy with ⟨search, _, change⟩
  have busy : ∀ bit, bit < 19 → nineteenBusy.get bit ≠ .ok false := by decide
  refine ⟨by decide, ?_, ?_, ?_⟩
  · rcases search 0 24 (by decide) with ⟨answer, ends, _, least⟩
    have isLeast : IsLeast (nineteenBusy.clearBits 0 24) 19 := by
      refine ⟨⟨by decide, by decide, rfl⟩, ?_⟩
      rintro bit ⟨_, _, clear⟩
      exact Nat.le_of_not_lt fun early => busy bit early clear
    rw [ends, (least 19).2 isLeast]
  · rcases search 0 19 (by decide) with ⟨answer, ends, none, _⟩
    have isEmpty : nineteenBusy.clearBits 0 19 = ∅ := by
      refine Set.eq_empty_of_forall_notMem ?_
      rintro bit ⟨_, below, clear⟩
      exact busy bit below clear
    rw [ends, none.2 isEmpty]
  · rcases change 19 true (by decide) with ⟨next, ends, _, _, _, _, counted⟩
    exact ⟨next, ends, counted rfl⟩

end EarlyMemory.Bitmap
