import Paging.Table.Memory

/-!
# The processor's page walk

How a processor translates an address over the tables in memory. `translate` is the full rule,
with pages of 1 GiB, 2 MiB and 4 KiB. `view` is what hardware that uses 4 KiB pages only sees of
an address: the frame, and what all four entries of the walk together allow.
-/

namespace Paging

namespace Hardware

/-! ## All page sizes -/

/-- A leaf that the processor found, and the address it leads to. -/
structure Hit where
  leaf : Entry
  address : PhysAddr
deriving DecidableEq

/-- A leaf that maps a page of 4 KiB. -/
def page4K (e : Entry) (va : VirtAddr) : Hit :=
  ⟨e, ⟨(e.bits.extractLsb' 12 40 ++ va.word.extractLsb' 0 12).setWidth 64⟩⟩

/-- A leaf that maps a page of 2 MiB. -/
def page2M (e : Entry) (va : VirtAddr) : Hit :=
  ⟨e, ⟨(e.bits.extractLsb' 21 31 ++ va.word.extractLsb' 0 21).setWidth 64⟩⟩

/-- A leaf that maps a page of 1 GiB. -/
def page1G (e : Entry) (va : VirtAddr) : Hit :=
  ⟨e, ⟨(e.bits.extractLsb' 30 22 ++ va.word.extractLsb' 0 30).setWidth 64⟩⟩

/-- Translates an address. Every entry on the way has to be present, or the walk faults at its
level; the huge bit ends the walk at L3 and L2 and means nothing at L4. -/
def translate (mem : Memory) (root : Frame) (va : VirtAddr) : Except Level Hit :=
  let e4 := mem.read root (va.index .l4)
  if !e4.present then .error .l4
  else
    let e3 := mem.read e4.frame (va.index .l3)
    if !e3.present then .error .l3
    else if e3.huge then .ok (page1G e3 va)
    else
      let e2 := mem.read e3.frame (va.index .l2)
      if !e2.present then .error .l2
      else if e2.huge then .ok (page2M e2 va)
      else
        let e1 := mem.read e2.frame (va.index .l1)
        if !e1.present then .error .l1 else .ok (page4K e1 va)

/-! ## Pages of 4 KiB with their permissions -/

/-- What may be done with a page. -/
structure Permissions where
  writable : Bool
  user : Bool
  executable : Bool
deriving DecidableEq

/-- What the entries of a walk allow together: a thing is allowed if every entry allows it. -/
def Permissions.ofEntries (es : List Entry) : Permissions where
  writable := es.all (·.writable)
  user := es.all (·.userAccess)
  executable := es.all fun e => !e.noExecute

/-- The entries at the given levels of the walk of an address, if all of them are present. -/
def entries (mem : Memory) (va : VirtAddr) : List Level → Frame → Option (List Entry)
  | [], _ => some []
  | level :: lower, frame =>
    let e := mem.read frame (va.index level)
    if e.present then (entries mem va lower e.frame).map (e :: ·) else none

/-- What the processor sees of a page. -/
structure View where
  frame : Frame
  permissions : Permissions
deriving DecidableEq

/-- What the processor sees of the page around an address, if all four entries are present. -/
def view (mem : Memory) (root : Frame) (va : VirtAddr) : Option View := do
  let es ← entries mem va Level.topDown root
  let leaf ← es.getLast?
  return ⟨leaf.frame, .ofEntries es⟩

end Hardware

end Paging
