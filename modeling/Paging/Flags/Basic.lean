import Paging.Word.Basic

/-!
# Flag sets

A flag set is a bit vector read through a vocabulary that names some of its bits. Bits without a
name are carried along by every operation but `complement` and `truncate`, which keep named bits
only.
-/

namespace Paging

/-- The names of some bits of a `w`-bit vector, in the order in which they are listed. -/
structure Vocabulary (w : Nat) where
  title : String
  names : List (String × Fin w)

/-- A set of flags over a vocabulary. -/
structure Flags {w : Nat} (v : Vocabulary w) where
  bits : BitVec w
deriving DecidableEq

namespace Vocabulary

variable {w : Nat}

/-- The bits that have a name. -/
def known (v : Vocabulary w) : BitVec w :=
  v.names.foldl (fun acc n => acc ||| BitVec.twoPow w n.2) 0

end Vocabulary

namespace Flags

variable {w : Nat} {v : Vocabulary w}

/-! ## Sets of flags -/

/-- The set without flags. -/
def empty : Flags v := ⟨0⟩

/-- The set of all named flags. -/
def all : Flags v := ⟨v.known⟩

/-- The set of the single flag at position `i`. -/
def single (i : Fin w) : Flags v := ⟨BitVec.twoPow w i⟩

/-- Whether bit `i` is set. -/
def has (a : Flags v) (i : Fin w) : Bool := a.bits.getLsbD i

/-- Whether `a` has every bit of `b`. -/
def contains (a b : Flags v) : Bool := a.bits &&& b.bits == b.bits

/-- Whether `a` and `b` share a bit. -/
def intersects (a b : Flags v) : Bool := a.bits &&& b.bits != 0

/-- Whether every named flag is set. -/
def isAll (a : Flags v) : Bool := a.contains all

/-- Whether no bit is set. -/
def isEmpty (a : Flags v) : Bool := a.bits == 0

/-- The flags of either set. -/
def union (a b : Flags v) : Flags v := ⟨a.bits ||| b.bits⟩

/-- The flags of both sets. -/
def inter (a b : Flags v) : Flags v := ⟨a.bits &&& b.bits⟩

/-- The flags of the first set that are not in the second. -/
def diff (a b : Flags v) : Flags v := ⟨a.bits &&& ~~~b.bits⟩

/-- The flags of exactly one of the sets. -/
def symmDiff (a b : Flags v) : Flags v := ⟨a.bits ^^^ b.bits⟩

/-- The named flags among the given bits. -/
def truncate (bits : BitVec w) : Flags v := ⟨bits &&& v.known⟩

/-- The named flags that are not set. -/
def complement (a : Flags v) : Flags v := truncate (~~~a.bits)

/-- The set with the given bits, or `none` if one of them has no name. -/
def ofBits? (bits : BitVec w) : Option (Flags v) :=
  if bits &&& ~~~v.known = 0 then some ⟨bits⟩ else none

/-! ## Text -/

/-- The names of the flags that are set. -/
def names (a : Flags v) : List String :=
  (v.names.filter fun n => a.has n.2).map (·.1)

/-- The set bits that have no name. -/
def unnamed (a : Flags v) : BitVec w := a.bits &&& ~~~v.known

/-- The names of the set flags, then the bits without a name as one number; the empty set is
written as the number zero. -/
def inspect (a : Flags v) : String :=
  let number (b : BitVec w) : List String := ["0x" ++ String.ofList (Nat.toDigits 16 b.toNat)]
  let parts :=
    if a.isEmpty then number 0
    else a.names ++ if a.unnamed = 0 then [] else number a.unnamed
  v.title ++ "(" ++ String.intercalate " | " parts ++ ")"

end Flags

end Paging
