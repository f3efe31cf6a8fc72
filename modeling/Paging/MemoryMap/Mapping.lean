import Paging.AddressSpace.Basic

/-!
# Mapping ranges of pages

A range is mapped page by page, over anything that maps one page at a time: what is known of a range
holds for every `Mapper` there is. Pages that are mapped already are counted and left as they are,
because the regions of a memory map may overlap or be listed twice. A range that runs past the
end of an address space is refused before its first page.
-/

namespace Paging

/-! ## Mappers -/

/-- States on which pages can be mapped. -/
class Mapper (σ : Type) where
  /-- Maps the page around a virtual address to the frame at a physical address. -/
  map : VirtAddr → PhysAddr → PageFlags → Bool → Op σ MapError Unit
  /-- Logs a record. -/
  log : Record → σ → σ

instance {η α : Type} [Mmu η] [FrameSource α] : Mapper (AddressSpace η α) where
  map := AddressSpace.map
  log r s := { s with machine := s.machine.log r }

/-! ## Ranges -/

namespace MemoryMap

variable {σ : Type}

/-- The bytes of a page. -/
def pageBytes : Word := PageSize.size4K.bytes

/-- Checks that a range of pages, together with the first address past it, fits into both address
spaces. A range that does not fit is reported at its physical base, unless only the virtual one
is at fault. -/
def checkRange (virt : VirtAddr) (phys : PhysAddr) (pages : Word) : Except RegionError Unit :=
  match pages.mul? pageBytes with
  | none => .error (.overflow phys.word pages)
  | some bytes =>
    if (phys.add? bytes).isNone then .error (.overflow phys.word pages)
    else if (virt.add? bytes).isNone then .error (.overflow virt.word pages)
    else .ok ()

/-- Maps `n` pages of a range, from page `i` on. -/
def mapPages [Mapper σ] (virt : VirtAddr) (phys : PhysAddr) (flags : PageFlags) :
    Nat → Word → Tally → Op σ RegionError Tally
  | 0, _, tally => pure tally
  | n + 1, i, tally => do
    let distance ← .demand .overflow (i.mul? pageBytes)
    let va ← .demand .overflow (virt.add? distance)
    let pa ← .demand .overflow (phys.add? distance)
    match ← (Mapper.map va pa flags false).attempt with
    | .ok () =>
      let tally ← .demand .overflow (tally.add? ⟨1, 0⟩)
      mapPages virt phys flags n (i + 1) tally
    | .error .occupied =>
      let tally ← .demand .overflow (tally.add? ⟨0, 1⟩)
      mapPages virt phys flags n (i + 1) tally
    | .error cause => .refuse (.map va pa cause)

/-- Maps `pages` pages from `virt` on to the frames from `phys` on. -/
def mapRange [Mapper σ] (virt : VirtAddr) (phys : PhysAddr) (pages : Word) (flags : PageFlags) :
    Op σ RegionError Tally :=
  match checkRange virt phys pages with
  | .error e => .refuse e
  | .ok () => mapPages virt phys flags pages.toNat 0 .zero

/-- Maps `pages` pages from a physical address on onto themselves. -/
def identityMapRange [Mapper σ] (base : PhysAddr) (pages : Word) (flags : PageFlags) :
    Op σ RegionError Tally :=
  mapRange ⟨base.word⟩ base pages flags

/-- Maps the regions of a list that need it onto themselves and adds up their tallies. -/
def mapRegionsFrom [Mapper σ] (flags : PageFlags) : List Region → Tally → Op σ RegionError Tally
  | [], tally => pure tally
  | region :: rest, tally =>
    if region.kind.needsMapping then do
      .change (Mapper.log (.mappingRegion region))
      let more ← identityMapRange region.base region.pages flags
      mapRegionsFrom flags rest (← .demand .overflow (tally.add? more))
    else
      mapRegionsFrom flags rest tally

/-- Maps every region that has to stay reachable at the hand-off onto itself. -/
def mapRegions [Mapper σ] (regions : List Region) (flags : PageFlags) :
    Op σ RegionError Tally := do
  let tally ← mapRegionsFrom flags regions .zero
  .change (Mapper.log (.mappedRegions tally))
  return tally

end MemoryMap

end Paging
