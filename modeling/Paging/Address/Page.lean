import Paging.Address.Basic

/-!
# Physical pages

A page is known by its base, which is aligned to the size of the page. The pages of 4 KiB are
the *frames* that hold page tables and that leaf entries map. An entry has room for the frames
below 2^52 only; these are called *encodable*.
-/

namespace Paging

/-- A physical page of a given size. -/
@[ext] structure Page (size : PageSize) where
  /-- The first address of the page. -/
  base : PhysAddr
  isAligned_base : base.isAligned size
deriving DecidableEq

/-- A 4 KiB page of physical memory. -/
abbrev Frame := Page .size4K

/-- The first physical address that an entry cannot hold. -/
def physicalLimit : Word := 1#64 <<< 52

namespace Page

variable {size : PageSize}

/-- The page around an address. -/
def containing (a : PhysAddr) : Page size :=
  ⟨a.alignDown size, a.isAligned_alignDown size⟩

/-- The page that starts at an address, if one does. -/
def ofAddr? (a : PhysAddr) : Option (Page size) :=
  if h : a.isAligned size then some ⟨a, h⟩ else none

/-- Whether an entry has room for the page's base. -/
def isEncodable (p : Page size) : Bool :=
  p.base.word < physicalLimit

instance : Ord (Page size) := ⟨fun p q => compare p.base q.base⟩

/-- The base and the size of the page. -/
def text (p : Page size) : String :=
  p.base.text ++ "/" ++ size.name

/-- The page marked with its size. -/
def inspect (p : Page size) : String :=
  "PhysicalPage<" ++ size.name ++ ">(" ++ p.base.text ++ ")"

/-! ## Bits of a base -/

theorem lowBits_base (p : Page size) : p.base.word.lowBits size.shift = 0 := by
  have h := p.isAligned_base
  simpa [Address.isAligned, Address.offset] using h

theorem isEncodable_iff (p : Page size) :
    p.isEncodable ↔ p.base.word.toNat < physicalLimit.toNat := by
  simp [isEncodable, BitVec.lt_def]

/-- A frame is aligned. -/
theorem getLsbD_base_of_lt (f : Frame) {i : Nat} (hi : i < 12) :
    f.base.word.getLsbD i = false := by
  have h := congrArg (·.getLsbD i) f.lowBits_base
  simpa [Word.getLsbD_lowBits, PageSize.shift, hi] using h

/-- An encodable page lies below 2^52. -/
theorem getLsbD_base_of_le {p : Page size} (h : p.isEncodable) {i : Nat} (hi : 52 ≤ i) :
    p.base.word.getLsbD i = false := by
  have hlt : p.base.word.toNat < 2 ^ 52 := p.isEncodable_iff.mp h
  exact Nat.testBit_lt_two_pow (Nat.lt_of_lt_of_le hlt (Nat.pow_le_pow_right (by decide) hi))

end Page

end Paging
