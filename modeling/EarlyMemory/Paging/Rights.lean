/-!
# Access rights

What a mapping allows. Presence implies reading, so a missing read right is
kept in the value but has no effect on a leaf.
-/

namespace EarlyMemory

structure Rights where
  read : Bool
  write : Bool
  execute : Bool
deriving DecidableEq

namespace Rights

def none : Rights :=
  ⟨false, false, false⟩

def readWrite : Rights :=
  ⟨true, true, false⟩

def readExecute : Rights :=
  ⟨true, false, true⟩

def all : Rights :=
  ⟨true, true, true⟩

def bits (rights : Rights) : Nat :=
  rights.read.toNat + 2 * rights.write.toNat + 4 * rights.execute.toNat

/-- The rights with these bits; `none` if an unknown bit is set. -/
def ofBits? (bits : Nat) : Option Rights :=
  if bits < 8 then
    some ⟨bits.testBit 0, bits.testBit 1, bits.testBit 2⟩
  else
    Option.none

theorem ofBits?_bits (rights : Rights) : ofBits? rights.bits = some rights := by
  rcases rights with ⟨_ | _, _ | _, _ | _⟩ <;> rfl

def names (rights : Rights) : List String :=
  (if rights.read then ["READ"] else []) ++
    (if rights.write then ["WRITE"] else []) ++
    (if rights.execute then ["EXECUTE"] else [])

def text (rights : Rights) : String :=
  match rights.names with
  | [] => "PagePermissions(0x0)"
  | names => "PagePermissions(" ++ " | ".intercalate names ++ ")"

end Rights

end EarlyMemory
