/-!
# Blanks

The characters that separate words: every character with the property White
Space, in and beyond ASCII.
-/

namespace EarlyMemory.Text

/-- The code points of blanks, as inclusive ranges in ascending order. -/
def blankRanges : List (Nat × Nat) :=
  [(0x9, 0xd), (0x20, 0x20), (0x85, 0x85), (0xa0, 0xa0), (0x1680, 0x1680),
    (0x2000, 0x200a), (0x2028, 0x2029), (0x202f, 0x202f), (0x205f, 0x205f),
    (0x3000, 0x3000)]

def isBlank (character : Char) : Bool :=
  blankRanges.any fun (first, last) =>
    first ≤ character.toNat && character.toNat ≤ last

theorem isBlank_of_isWhitespace {character : Char}
    (whitespace : character.isWhitespace = true) : isBlank character = true := by
  simp only [Char.isWhitespace, Bool.or_eq_true, decide_eq_true_eq] at whitespace
  rcases whitespace with ((rfl | rfl) | rfl) | rfl <;> decide

/-- The characters up to the first blank after leading blanks; empty if there
are only blanks. -/
def firstWord (text : List Char) : List Char :=
  (text.dropWhile isBlank).takeWhile fun character => !isBlank character

end EarlyMemory.Text
