import Paging.Address.Basic
import Paging.Table.Level

/-!
# How an operation can fail

An operation stops for one of three reasons. It can *refuse*, with an error of its own that the
caller is meant to handle; it can hit a *fault*, when a table is not where the window should
show it; or it can meet a *violation*, a value that its own code promises never to produce.
-/

namespace Paging

/-! ## Errors -/

/-- Why a page was not mapped or unmapped. -/
inductive MapError where
  /-- The address is not canonical, or lies in the window. -/
  | invalidVirtual
  /-- The frame is not aligned, or no entry has room for it. -/
  | invalidPhysical
  /-- Something is mapped and was not to be replaced. -/
  | occupied
  /-- There was no frame for a new table. -/
  | outOfFrames
  /-- Nothing is mapped. -/
  | notMapped
  /-- The hierarchy holds an entry that these operations never write. -/
  | foreignEntry
deriving DecidableEq

namespace MapError

/-- The name of the error. -/
def name : MapError → String
  | invalidVirtual => "InvalidVirtualAddress"
  | invalidPhysical => "InvalidPhysicalAddress"
  | occupied => "EntryExists"
  | outOfFrames => "AllocFailed"
  | notMapped => "NotMapped"
  | foreignEntry => "UnknownError"

/-- The error as a sentence. -/
def message : MapError → String
  | invalidVirtual => "invalid virtual address"
  | invalidPhysical => "physical address is not page aligned"
  | occupied => "an entry already exists"
  | outOfFrames => "frame allocation failed"
  | notMapped => "address is not mapped"
  | foreignEntry => "unknown paging error"

end MapError

/-- Why a hierarchy was not made the active one. -/
inductive ActivateError where
  /-- The root does not link to itself, so its frame cannot be found through the window. -/
  | selfLinkMissing
  /-- The processor does not accept the root. -/
  | invalidRoot (root : PhysAddr)
  /-- The root could not be linked to itself. -/
  | map (cause : MapError)
deriving DecidableEq

namespace ActivateError

/-- The name of the error. -/
def name : ActivateError → String
  | selfLinkMissing => "RecursiveSlotMissing"
  | invalidRoot _ => "InvalidRoot"
  | map cause => "Map." ++ cause.name

/-- The error as a sentence. -/
def message : ActivateError → String
  | selfLinkMissing => "recursive slot of the root table is empty"
  | invalidRoot root => "root table " ++ root.text ++ " is not a valid translation base"
  | map cause => cause.message

/-- The error with all its parts. -/
def inspect : ActivateError → String
  | selfLinkMissing => "RecursiveSlotMissing"
  | invalidRoot root => "InvalidRoot(" ++ root.inspect ++ ")"
  | map cause => "Map(" ++ cause.name ++ ")"

end ActivateError

/-- Why a range of pages was not mapped. -/
inductive RegionError where
  /-- The range runs past the end of an address space. -/
  | overflow (base pages : Word)
  /-- A page could not be mapped. The pages before it stay mapped. -/
  | map (virt : VirtAddr) (phys : PhysAddr) (cause : MapError)
deriving DecidableEq

namespace RegionError

/-- The name of the error. -/
def name : RegionError → String
  | overflow .. => "RangeOverflow"
  | map _ _ cause => "Map." ++ cause.name

/-- The error as a sentence. -/
def message : RegionError → String
  | overflow base pages =>
    "range of " ++ toString pages.toNat ++ " pages at " ++ base.hexPadded ++
      " overflows the address space"
  | map virt phys cause =>
    "mapping " ++ virt.text ++ " -> " ++ phys.text ++ " failed: " ++ cause.message

/-- The error with all its parts. -/
def inspect : RegionError → String
  | overflow base pages =>
    "RangeOverflow \x7b base: " ++ toString base.toNat ++ ", pages: " ++ toString pages.toNat ++
      " \x7d"
  | map virt phys cause =>
    "Map \x7b virt: " ++ virt.inspect ++ ", phys: " ++ phys.inspect ++ ", source: " ++
      cause.name ++ " \x7d"

end RegionError

/-! ## Faults -/

/-- Why a table could not be reached through the window. -/
inductive Fault where
  /-- The processor has no root. -/
  | noHierarchy
  /-- A walk arrived at an address where there is no memory. -/
  | noMemory (address : PhysAddr)
  /-- A walk met an entry that is not present. -/
  | absent (va : VirtAddr) (level : Level)
deriving DecidableEq

/-- The fault as a sentence. -/
def Fault.message : Fault → String
  | noHierarchy => "no hierarchy loaded"
  | noMemory a => "no memory at " ++ a.word.hex
  | absent va level => va.text ++ " faults at " ++ level.name

/-! ## Violations -/

/-- A value that an operation promises never to produce. -/
inductive Violation where
  /-- A frame for which an entry has no room was to be encoded. -/
  | unencodableFrame
  /-- A root that the control register cannot hold was to be loaded. -/
  | unloadableRoot
  /-- An address or a count overflowed. -/
  | overflow
  /-- The address of a table was to be made of an index that is out of range. -/
  | indexOutOfRange
deriving DecidableEq

/-- Why an operation stopped before its end. -/
inductive Stop (ε : Type) where
  | error (cause : ε)
  | fault (cause : Fault)
  | violation (cause : Violation)
deriving DecidableEq

namespace Stop

variable {ε ε' : Type}

/-- The same stop with its error renamed. -/
def mapError (f : ε → ε') : Stop ε → Stop ε'
  | .error e => .error (f e)
  | .fault c => .fault c
  | .violation c => .violation c

end Stop

/-- Why an operation stopped that has no errors of its own. -/
abbrev Halt := Stop Empty

/-- A halt stops operations of any kind. -/
def Stop.ofHalt {ε : Type} : Halt → Stop ε := mapError Empty.elim

namespace Stop

variable {ε ε' : Type}

@[simp] theorem mapError_error (f : ε → ε') (e : ε) :
    (error e : Stop ε).mapError f = .error (f e) := rfl

@[simp] theorem ofHalt_fault (c : Fault) : (ofHalt (.fault c) : Stop ε) = .fault c := rfl

@[simp] theorem ofHalt_violation (v : Violation) :
    (ofHalt (.violation v) : Stop ε) = .violation v := rfl

/-- A halt is no error, whatever operation it stops. -/
@[simp] theorem ofHalt_ne_error (c : Halt) (e : ε) : ofHalt c ≠ .error e := by
  cases c with
  | error none => exact none.elim
  | fault c => simp
  | violation v => simp

/-- Where there are no errors a halt is all that there is. -/
@[simp] theorem ofHalt_self (c : Halt) : (ofHalt c : Stop Empty) = c := by
  cases c with
  | error none => exact none.elim
  | fault c => rfl
  | violation v => rfl

@[simp] theorem mapError_ofHalt (f : ε → ε') (c : Halt) :
    (ofHalt c : Stop ε).mapError f = ofHalt c := by
  cases c with
  | error none => exact none.elim
  | fault c => rfl
  | violation v => rfl

end Stop

end Paging
