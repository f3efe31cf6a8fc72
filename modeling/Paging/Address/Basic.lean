import Paging.Word.Basic

/-!
# Addresses

An address is a word together with the space it lives in, so that a physical address is never
used where a virtual one is meant. Memory is divided into pages of two sizes, and an address has a
position in its page. Virtual addresses are translated through their low 48 bits and are
*canonical* when the bits above repeat bit 47.
-/

namespace Paging

/-! ## Page sizes -/

/-- A page size, a power of two. -/
inductive PageSize where
  | size4K
  | size2M
deriving DecidableEq

namespace PageSize

/-- The number of address bits inside a page. -/
def shift : PageSize → Nat
  | size4K => 12
  | size2M => 21

/-- The bytes of a page. -/
def bytes (s : PageSize) : Word :=
  1#64 <<< s.shift

/-- The address bits inside a page. -/
def offsetMask (s : PageSize) : Word :=
  s.bytes - 1

/-- The short name of a size. -/
def name : PageSize → String
  | size4K => "4K"
  | size2M => "2M"

end PageSize

/-! ## Addresses -/

/-- What an address refers to. -/
inductive Space where
  /-- Any memory, physical or virtual. -/
  | memory
  /-- Main memory and devices, as the bus sees them. -/
  | physical
  /-- What instructions use; translated by the page tables. -/
  | virtual
deriving DecidableEq

/-- An address in a given space. -/
structure Address (space : Space) where
  word : Word
deriving DecidableEq

/-- An address whose space does not matter. -/
abbrev MemAddr := Address .memory

/-- A physical address. Zero stands for "nothing is mapped" and for "no frame". -/
abbrev PhysAddr := Address .physical

/-- A virtual address, canonical or not. -/
abbrev VirtAddr := Address .virtual

namespace Address

variable {space : Space}

/-- The address zero. -/
def zero : Address space := ⟨0⟩

/-- Whether the address is zero. -/
def isZero (a : Address space) : Bool := a.word == 0

instance : Ord (Address space) := ⟨fun a b => compare a.word.toNat b.word.toNat⟩

/-! ## Pages -/

/-- The position of the address inside its page. -/
def offset (size : PageSize) (a : Address space) : Word :=
  a.word.lowBits size.shift

/-- The first address of the page around the address. -/
def alignDown (size : PageSize) (a : Address space) : Address space :=
  ⟨a.word.clearLow size.shift⟩

/-- Whether the address is the first of its page. -/
def isAligned (size : PageSize) (a : Address space) : Bool :=
  a.offset size == 0

theorem isAligned_alignDown (a : Address space) (size : PageSize) :
    (a.alignDown size).isAligned size := by
  simp [isAligned, offset, alignDown]

/-- The address `n` bytes further, or `none` past the end of the space. -/
def add? (a : Address space) (n : Word) : Option (Address space) :=
  (a.word.add? n).map Address.mk

/-! ## Text -/

/-- The address as sixteen hexadecimal digits. -/
def text (a : Address space) : String :=
  a.word.hexPadded

/-- The address marked with its space. -/
def inspect {space : Space} (a : Address space) : String :=
  (match space with
    | .memory => "MemoryAddress("
    | .physical => "PA("
    | .virtual => "VA(") ++ a.text ++ ")"

end Address

/-! ## Canonical virtual addresses -/

/-- The number of address bits that the tables translate. -/
def translatedBits : Nat := 48

namespace Address

/-- The address with bit 47 copied into every bit above it. -/
def canonicalize (va : VirtAddr) : VirtAddr :=
  ⟨(va.word.setWidth translatedBits).signExtend 64⟩

/-- Whether the bits above bit 47 repeat it. -/
def isCanonical (va : VirtAddr) : Bool :=
  va.canonicalize == va

end Address

end Paging
