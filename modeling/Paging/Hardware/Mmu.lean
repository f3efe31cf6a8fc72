import Paging.Hardware.Cr3
import Paging.Machine.Basic

/-!
# Paging hardware

The hardware finds what an address reaches by following present links from the root through one
entry per level. Nothing of an entry counts but its present bit and the frame it names. There are
three kinds of hardware: the processor with its root register, a simulation that holds any address
as its root, and a fixture whose window shows one table wherever one looks.
-/

namespace Paging

namespace Hardware

/-! ## Following links -/

/-- Follows the entries at the given levels of the walk of `va`, from the table in `frame` on.
`installed` says which frames of memory there are. -/
def follow (installed : Frame → Bool) (mem : Memory) (va : VirtAddr) :
    List Level → Frame → Except Fault Frame
  | [], frame => if installed frame then .ok frame else .error (.noMemory frame.base)
  | level :: lower, frame =>
    if installed frame then
      let e := mem.read frame (va.index level)
      if e.present then follow installed mem va lower e.frame
      else .error (.absent va level)
    else .error (.noMemory frame.base)

/-- The frame that `va` reaches after all four levels. The root table is the frame around the
given address, and a root outside of memory faults with the address itself. -/
def walk (installed : Frame → Bool) (mem : Memory) (root : PhysAddr) (va : VirtAddr) :
    Except Fault Frame :=
  if installed (.containing root) then
    follow installed mem va Level.topDown (.containing root)
  else .error (.noMemory root)

/-! ## Three kinds of hardware -/

/-- The processor: the root is what the register holds. -/
structure Cpu where
  cr3 : Cr3
  installed : Frame → Bool

/-- The processor refuses frame zero and keeps the cache policy of the register. -/
instance : Mmu Cpu where
  windowTable cpu mem va := walk cpu.installed mem cpu.cr3.root.base va
  loadRoot cpu root :=
    if root.base.isZero then .error (.error (.invalidRoot root.base))
    else match cpu.cr3.withRoot? root.base with
      | none => .error (.violation .unloadableRoot)
      | some cr3 => .ok { cpu with cr3 }

/-- A simulated processor: the root is any address, or none. -/
structure Simulated where
  loaded : Option PhysAddr
  installed : Frame → Bool

/-- The simulation refuses frame zero only. -/
instance : Mmu Simulated where
  windowTable sim mem va :=
    match sim.loaded with
    -- Nothing has been loaded, so there is nothing to walk.
    | none => .error .noHierarchy
    | some root => walk sim.installed mem root va
  loadRoot sim root :=
    if root.base.isZero then .error (.error (.invalidRoot root.base))
    else .ok { sim with loaded := some root.base }

/-- A fixture that shows one table at every address of the window. -/
structure Fixed where
  loaded : Option PhysAddr
  shown : Frame
  accepts : Bool

/-- The fixture accepts every root or none. -/
instance : Mmu Fixed where
  windowTable fix _ _ := .ok fix.shown
  loadRoot fix root :=
    if fix.accepts then .ok { fix with loaded := some root.base }
    else .error (.error (.invalidRoot root.base))

end Hardware

end Paging
