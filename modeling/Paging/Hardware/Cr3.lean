import Paging.Address.Page
import Paging.Word.Layout

/-!
# The root register

The processor's root register holds the frame of the root in bits 12 to 51 and two bits that say
how the root is cached. The other bits are reserved and written as zero.
-/

namespace Paging

/-- The processor's root register. -/
structure Cr3 where
  bits : Word
deriving DecidableEq

namespace Cr3

/-- The fields of the register. -/
def layout : Layout where
  title := "Cr3"
  fields :=
    [.number "reserved0" 0 3, .flag "pwt" 3, .flag "pcd" 4, .number "reserved1" 5 7,
      .number "pml4_base_4k" 12 40, .number "reserved2" 52 12]

/-- The register of all zeros. -/
def zero : Cr3 := ⟨0⟩

/-- Whether the root is written through. -/
def writeThrough (r : Cr3) : Bool := r.bits.getLsbD 3

/-- Whether the root is not cached. -/
def cacheDisabled (r : Cr3) : Bool := r.bits.getLsbD 4

/-- The reserved bits below the cache policy. -/
def reservedLow (r : Cr3) : BitVec 3 := r.bits.extractLsb' 0 3

/-- The reserved bits between the cache policy and the root. -/
def reservedMiddle (r : Cr3) : BitVec 7 := r.bits.extractLsb' 5 7

/-- The reserved bits above the root. -/
def reservedHigh (r : Cr3) : BitVec 12 := r.bits.extractLsb' 52 12

/-- The frame of the root. -/
def root (r : Cr3) : Frame := .containing ⟨r.bits.lowBits 52⟩

/-- The register for a root and a cache policy, or `none` if the address of the root is not
aligned or needs more than 52 bits. -/
def ofRoot? (root : PhysAddr) (writeThrough cacheDisabled : Bool) : Option Cr3 :=
  match Page.ofAddr? root with
  | none => none
  | some (frame : Frame) =>
    if frame.isEncodable then
      some ⟨frame.base.word ||| ((BitVec.ofBool writeThrough).setWidth 64 <<< 3) |||
        ((BitVec.ofBool cacheDisabled).setWidth 64 <<< 4)⟩
    else none

/-- The register with another root and the same cache policy. -/
def withRoot? (r : Cr3) (root : PhysAddr) : Option Cr3 :=
  ofRoot? root r.writeThrough r.cacheDisabled

/-- Every field of the register with its value. -/
def inspect (r : Cr3) : String := layout.inspect r.bits

end Cr3

end Paging
