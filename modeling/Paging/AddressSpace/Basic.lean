import Paging.Hierarchy.Unmap

/-!
# Address spaces

An address space owns one hierarchy and the machine under it. It is built first and activated
later; activating it leaves open how its tables are reached, so a caller that loses direct
access to the frames has to say so with `setAccess`.
-/

namespace Paging

/-- Whether the hardware has been told to use the hierarchy. -/
inductive Phase where
  | building
  | active
deriving DecidableEq

/-- One hierarchy and the machine under it. -/
structure AddressSpace (η α : Type) where
  root : Frame
  access : Access
  phase : Phase
  machine : Machine η α

namespace AddressSpace

variable {η α ε β : Type}

/-- Takes over the root in a frame, which is neither requested nor cleared here. -/
def create (root : Frame) (access : Access) (mmu : η) (frames : α) (memory : Memory) :
    AddressSpace η α where
  root
  access
  phase := .building
  machine := { memory, mmu, frames, trace := [] }

/-- Whether the hardware may have cached mappings of the hierarchy. -/
def isLive (s : AddressSpace η α) : Bool :=
  s.access == .window || s.phase == .active

/-- The hierarchy as it is reached now. -/
def hierarchy (s : AddressSpace η α) : Hierarchy :=
  ⟨s.root, s.access, s.isLive⟩

/-- Runs an operation of the hierarchy on the machine. -/
@[inline] def onMachine (x : Hierarchy → Op (Machine η α) ε β) : Op (AddressSpace η α) ε β :=
  fun s => Op.within machine (fun m s => { s with machine := m }) (x s.hierarchy) s

/-- Maps the page around `va` to the frame at `pa`. -/
def map [Mmu η] [FrameSource α] (va : VirtAddr) (pa : PhysAddr) (flags : PageFlags)
    (force : Bool) : Op (AddressSpace η α) MapError Unit :=
  onMachine fun h => h.map va pa flags force

/-- Maps the page at a physical address onto itself. -/
def identityMap [Mmu η] [FrameSource α] (pa : PhysAddr) (flags : PageFlags) (force : Bool) :
    Op (AddressSpace η α) MapError Unit :=
  map ⟨pa.word⟩ pa flags force

/-- Removes the mapping of the page around `va` and returns the base of the frame it named. -/
def unmap [Mmu η] (va : VirtAddr) : Op (AddressSpace η α) MapError PhysAddr :=
  onMachine fun h => h.unmap va

/-- The physical address that `va` is mapped to, or zero if it is not mapped. -/
def translate [Mmu η] (s : AddressSpace η α) (va : VirtAddr) : Except Halt PhysAddr :=
  s.hierarchy.translate s.machine.mmu s.machine.memory va

/-- Makes the hierarchy the active one. -/
def activate [Mmu η] : Op (AddressSpace η α) ActivateError Unit := do
  let root ← onMachine fun h => h.resolveRoot
  onMachine fun _ m => m.loadRoot root
  .change fun s => { s with phase := .active, machine := s.machine.log (.activated root) }

/-- Says how the tables are reached from now on. -/
def setAccess (s : AddressSpace η α) (access : Access) : AddressSpace η α :=
  { s with access }

end AddressSpace

end Paging
