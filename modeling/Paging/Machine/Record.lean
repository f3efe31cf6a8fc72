import Paging.MemoryMap.Region
import Paging.Table.Entry
import Paging.Table.Indices

/-!
# Log records

What the operations report while they run. A record is a value; its severity and its text
follow from it.
-/

namespace Paging

/-- How important a record is. -/
inductive Severity where
  | trace
  | debug
  | info
  | warn
  | error
deriving DecidableEq

/-- The name of a severity. -/
def Severity.name : Severity → String
  | trace => "TRACE"
  | debug => "DEBUG"
  | info => "INFO"
  | warn => "WARN"
  | error => "ERROR"

/-- Something worth reporting. -/
inductive Record where
  /-- The root was linked to itself. -/
  | linkedSelf (root : Frame)
  /-- The root's own slot holds an entry that does not name the root. -/
  | foreignSelf (root : Frame) (entry : Entry)
  /-- A huge page stands where a link to a lower table is needed. -/
  | blocked (level : Level) (page : VirtAddr)
  /-- There was no frame for a new table. -/
  | outOfFrames (level : Level) (page : VirtAddr)
  /-- A frame was offered that no entry has room for. -/
  | unencodable (frame : Frame) (level : Level)
  /-- A new table was linked. -/
  | newTable (level : Level) (frame : Frame) (page : VirtAddr)
  /-- A page was mapped. -/
  | mapped (virt : VirtAddr) (phys : PhysAddr) (flags : PageFlags)
  /-- A page was unmapped. -/
  | unmapped (virt : VirtAddr) (old : PhysAddr)
  /-- A page to be unmapped is part of a huge page. -/
  | covered (virt : VirtAddr) (level : Level)
  /-- The hierarchy was made the active one. -/
  | activated (root : Frame)
  /-- The address offered for a new table is not the base of a frame. -/
  | unaligned (offer : PhysAddr)
  /-- The address offered for a new table is out of range. -/
  | outOfRange (offer : PhysAddr)
  /-- A region is about to be mapped onto itself. -/
  | mappingRegion (region : Region)
  /-- All regions have been mapped. -/
  | mappedRegions (tally : Tally)
deriving DecidableEq

namespace Record

/-- The severity of a record. -/
def severity : Record → Severity
  | mapped .. | unmapped .. | mappingRegion .. => .trace
  | linkedSelf .. | newTable .. | mappedRegions .. => .debug
  | activated .. => .info
  | outOfFrames .. | unencodable .. | unaligned .. | outOfRange .. => .warn
  | foreignSelf .. | blocked .. | covered .. => .error

/-- A record as a sentence. -/
def text : Record → String
  | linkedSelf root => "installed recursive slot in root " ++ root.text
  | foreignSelf root entry =>
    "root " ++ root.text ++ " slot " ++ toString selfIndex.toNat ++ " holds foreign entry " ++
      entry.bits.hexPadded
  | blocked level page =>
    level.name ++ " entry for " ++ page.text ++ " is a huge leaf, cannot descend"
  | outOfFrames level page => "out of frames for " ++ level.name ++ " table of " ++ page.text
  | unencodable frame level =>
    "allocator returned unencodable frame " ++ frame.text ++ " for " ++ level.name ++ " table"
  | newTable level frame page =>
    "new " ++ level.name ++ " table " ++ frame.text ++ " for " ++ page.text
  | mapped virt phys flags =>
    "mapped " ++ virt.text ++ " -> " ++ phys.text ++ " (" ++ flags.inspect ++ ")"
  | unmapped virt old => "unmapped " ++ virt.text ++ " (was " ++ old.text ++ ")"
  | covered virt level => virt.text ++ " is covered by a huge " ++ level.name ++ " leaf"
  | activated root => "activated page tables at " ++ root.text
  | unaligned offer => "frame allocator returned unaligned frame " ++ offer.text
  | outOfRange offer =>
    "frame allocator returned " ++ offer.text ++ ", beyond the physical address space"
  | mappingRegion region =>
    "identity mapping " ++ region.kind.name ++ " region at " ++ region.base.text ++ " (" ++
      toString region.pages.toNat ++ " pages)"
  | mappedRegions tally => "boot regions: " ++ tally.text

/-- A record as a line of a log. -/
def line (r : Record) : String :=
  r.severity.name ++ " " ++ r.text

end Record

end Paging
