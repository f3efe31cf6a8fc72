import Paging.Machine.FrameSource
import Paging.Machine.Op

/-!
# The machine under the tables

A machine is memory, the paging hardware and a source of frames. Everything that an
operation does to it leaves an `Event` in the trace, newest first, so that the order of writes,
invalidations and requests can be read off afterwards.
-/

namespace Paging

/-- Paging hardware. -/
class Mmu (η : Type) where
  /-- The frame that an address of the window reaches. -/
  windowTable : η → Memory → VirtAddr → Except Fault Frame
  /-- The hardware after a root has been loaded, unless it does not accept the root. -/
  loadRoot : η → Frame → Except (Stop ActivateError) η

/-- Something that happened to a machine. -/
inductive Event where
  /-- An entry was written. -/
  | wrote (table : Frame) (slot : Index) (entry : Entry)
  /-- Every entry of a frame was made absent. -/
  | cleared (table : Frame)
  /-- The frame source replaced the contents of a frame. -/
  | replaced (frame : Frame) (table : Table)
  /-- The cached mapping of an address was dropped. -/
  | invalidated (va : VirtAddr)
  /-- The frame source was asked for a frame. -/
  | requested (answer : Option Frame)
  /-- The hardware was asked to load a root. -/
  | loadedRoot (root : Frame) (accepted : Bool)
  /-- A record was logged. -/
  | logged (record : Record)
deriving DecidableEq

/-- Memory, paging hardware and a frame source, with the trace of what happened. -/
structure Machine (η α : Type) where
  memory : Memory
  mmu : η
  frames : α
  trace : List Event

namespace Machine

variable {η α : Type}

/-! ## Steps -/

/-- Adds an event to the trace. -/
def note (m : Machine η α) (e : Event) : Machine η α :=
  { m with trace := e :: m.trace }

/-- Writes an entry. -/
def write (m : Machine η α) (table : Frame) (slot : Index) (e : Entry) : Machine η α :=
  { m with memory := m.memory.write table slot e }.note (.wrote table slot e)

/-- Makes every entry of a frame absent. -/
def clear (m : Machine η α) (table : Frame) : Machine η α :=
  { m with memory := m.memory.clear table }.note (.cleared table)

/-- Drops the cached mapping of an address. -/
def invalidate (m : Machine η α) (va : VirtAddr) : Machine η α :=
  m.note (.invalidated va)

/-- Logs a record. -/
def log (m : Machine η α) (r : Record) : Machine η α :=
  m.note (.logged r)

/-- Replaces the contents of a frame, as a frame source does while it answers. -/
def settle (m : Machine η α) : Option (Frame × Table) → Machine η α
  | none => m
  | some (frame, table) =>
    { m with memory := m.memory.setTable frame table }.note (.replaced frame table)

/-- The machine after a request for a frame, and the answer. -/
def request [FrameSource α] (m : Machine η α) : Option Frame × Machine η α :=
  let (grant, frames) := FrameSource.request m.frames
  let asked := { m with frames }.note (.requested grant.frame?)
  (grant.frame?, grant.records.foldl log (asked.settle grant.residue))

/-- Asks the hardware to load a root. -/
def loadRoot [Mmu η] (m : Machine η α) (root : Frame) :
    Except (Stop ActivateError) Unit × Machine η α :=
  match Mmu.loadRoot m.mmu root with
  | .ok mmu => (.ok (), { m with mmu }.note (.loadedRoot root true))
  | .error e => (.error e, m.note (.loadedRoot root false))

/-! ## What a step does to memory and to the trace -/

@[simp] theorem memory_note (m : Machine η α) (e : Event) : (m.note e).memory = m.memory := rfl

@[simp] theorem memory_write (m : Machine η α) (f : Frame) (i : Index) (e : Entry) :
    (m.write f i e).memory = m.memory.write f i e := rfl

@[simp] theorem memory_clear (m : Machine η α) (f : Frame) :
    (m.clear f).memory = m.memory.clear f := rfl

@[simp] theorem memory_invalidate (m : Machine η α) (va : VirtAddr) :
    (m.invalidate va).memory = m.memory := rfl

@[simp] theorem memory_log (m : Machine η α) (r : Record) : (m.log r).memory = m.memory := rfl

@[simp] theorem mmu_note (m : Machine η α) (e : Event) : (m.note e).mmu = m.mmu := rfl

@[simp] theorem mmu_write (m : Machine η α) (f : Frame) (i : Index) (e : Entry) :
    (m.write f i e).mmu = m.mmu := rfl

@[simp] theorem mmu_clear (m : Machine η α) (f : Frame) : (m.clear f).mmu = m.mmu := rfl

@[simp] theorem mmu_invalidate (m : Machine η α) (va : VirtAddr) :
    (m.invalidate va).mmu = m.mmu := rfl

@[simp] theorem mmu_log (m : Machine η α) (r : Record) : (m.log r).mmu = m.mmu := rfl

@[simp] theorem frames_note (m : Machine η α) (e : Event) : (m.note e).frames = m.frames := rfl

@[simp] theorem frames_write (m : Machine η α) (f : Frame) (i : Index) (e : Entry) :
    (m.write f i e).frames = m.frames := rfl

@[simp] theorem frames_clear (m : Machine η α) (f : Frame) : (m.clear f).frames = m.frames := rfl

@[simp] theorem frames_invalidate (m : Machine η α) (va : VirtAddr) :
    (m.invalidate va).frames = m.frames := rfl

@[simp] theorem frames_log (m : Machine η α) (r : Record) : (m.log r).frames = m.frames := rfl

@[simp] theorem trace_note (m : Machine η α) (e : Event) : (m.note e).trace = e :: m.trace := rfl

@[simp] theorem trace_write (m : Machine η α) (f : Frame) (i : Index) (e : Entry) :
    (m.write f i e).trace = .wrote f i e :: m.trace := rfl

@[simp] theorem trace_clear (m : Machine η α) (f : Frame) :
    (m.clear f).trace = .cleared f :: m.trace := rfl

@[simp] theorem trace_invalidate (m : Machine η α) (va : VirtAddr) :
    (m.invalidate va).trace = .invalidated va :: m.trace := rfl

@[simp] theorem trace_log (m : Machine η α) (r : Record) :
    (m.log r).trace = .logged r :: m.trace := rfl

/-! ## What the trace tells -/

/-- The addresses whose cached mappings were dropped, oldest first. -/
def invalidations (m : Machine η α) : List VirtAddr :=
  m.trace.reverse.filterMap fun
    | .invalidated va => some va
    | _ => none

/-- The answers of the frame source, oldest first. -/
def requests (m : Machine η α) : List (Option Frame) :=
  m.trace.reverse.filterMap fun
    | .requested answer => some answer
    | _ => none

/-- The logged records, oldest first. -/
def records (m : Machine η α) : List Record :=
  m.trace.reverse.filterMap fun
    | .logged r => some r
    | _ => none

/-- The frames whose contents may have changed, newest first. -/
def touched (m : Machine η α) : List Frame :=
  m.trace.filterMap fun
    | .wrote f .. | .cleared f | .replaced f _ => some f
    | _ => none

end Machine

end Paging
