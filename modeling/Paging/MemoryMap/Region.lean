import Paging.Address.Basic

/-!
# The firmware's memory map

The firmware describes physical memory as a list of regions, each with a use. Free memory is
left alone before the hand-off; every other region has to stay reachable.
-/

namespace Paging

/-- What a region of memory is used for. -/
inductive RegionKind where
  /-- Free memory, handed out later. -/
  | conventional
  /-- The loader's image and its allocations, page tables included. -/
  | loader
  /-- Code and data of the boot services. -/
  | bootServices
  /-- Code and data of the runtime services. -/
  | runtimeServices
  /-- Configuration tables. -/
  | acpi
  /-- Memory-mapped devices. -/
  | mmio
  /-- Anything else. -/
  | reserved
deriving DecidableEq

namespace RegionKind

/-- The kinds a region can have. -/
def all : List RegionKind :=
  [conventional, loader, bootServices, runtimeServices, acpi, mmio, reserved]

/-- The kind for a memory type number of the firmware. -/
def ofFirmwareType (type : Nat) : RegionKind :=
  match type with
  | 1 | 2 => loader
  | 3 | 4 => bootServices
  | 5 | 6 => runtimeServices
  | 7 => conventional
  | 9 | 10 => acpi
  | 11 | 12 => mmio
  | _ => reserved

/-- Whether regions of the kind are mapped onto themselves before the hand-off. -/
def needsMapping (k : RegionKind) : Bool := k != conventional

/-- The name of the kind. -/
def name : RegionKind → String
  | conventional => "Conventional"
  | loader => "Loader"
  | bootServices => "BootServices"
  | runtimeServices => "RuntimeServices"
  | acpi => "Acpi"
  | mmio => "Mmio"
  | reserved => "Reserved"

/-- The kind with the given name. -/
def ofName? (s : String) : Option RegionKind :=
  all.find? (·.name == s)

end RegionKind

/-- A run of 4 KiB pages of physical memory with one use. -/
structure Region where
  base : PhysAddr
  pages : Word
  kind : RegionKind
deriving DecidableEq

/-- The region with all its parts. -/
def Region.inspect (r : Region) : String :=
  "MemoryRegion \x7b base: " ++ r.base.inspect ++ ", page_count: " ++ toString r.pages.toNat ++
    ", kind: " ++ r.kind.name ++ " \x7d"

/-- How many pages of a range were mapped and how many had been mapped before. -/
structure Tally where
  mapped : Word
  present : Word
deriving DecidableEq

namespace Tally

/-- No pages at all. -/
def zero : Tally := ⟨0, 0⟩

/-- All pages of the range, unless their number overflows. -/
def total? (t : Tally) : Option Word := t.mapped.add? t.present

/-- The tally of two ranges together, unless a count overflows. -/
def add? (t u : Tally) : Option Tally := do
  return ⟨← t.mapped.add? u.mapped, ← t.present.add? u.present⟩

/-- The tally as a sentence. -/
def text (t : Tally) : String :=
  toString t.mapped.toNat ++ " pages mapped, " ++ toString t.present.toNat ++ " already present"

/-- The tally with both counts. -/
def inspect (t : Tally) : String :=
  "RegionMapSummary \x7b mapped: " ++ toString t.mapped.toNat ++ ", already_present: " ++
    toString t.present.toNat ++ " \x7d"

end Tally

end Paging
