import Paging.Machine.Basic
import Paging.Table.Window

/-!
# A hierarchy of tables

A hierarchy is named by the frame of its root. While the frames of the tables can be used
directly, a table is found by its frame; once only the window is left, it is found by its place
on the walk. Every operation knows both, and `Access` says which of them counts.
-/

namespace Paging

/-- How tables are reached. -/
inductive Access where
  /-- Every frame is used directly at its physical address. -/
  | identity
  /-- Tables are reached through the window of the active hierarchy. -/
  | window
deriving DecidableEq

/-- A hierarchy of tables together with the way to its tables. -/
structure Hierarchy where
  root : Frame
  access : Access
  /-- Whether the hardware may have cached mappings of this hierarchy. -/
  live : Bool
deriving DecidableEq

namespace Hierarchy

variable {η α ε : Type}

/-! ## Reaching a table -/

/-- The frame that the window shows at an address. The address must exist. -/
def shown [Mmu η] (mmu : η) (mem : Memory) : Option VirtAddr → Except Halt Frame
  | none => .error (.violation .indexOutOfRange)
  | some va => (Mmu.windowTable mmu mem va).mapError .fault

/-- The frame that is used for the table at a level of a walk. `frame` is the frame that the
link above the table names. -/
def locate [Mmu η] (h : Hierarchy) (mmu : η) (mem : Memory) (level : Level) (ix : Indices)
    (frame : Frame) : Except Halt Frame :=
  match h.access with
  | .identity => .ok frame
  | .window => shown mmu mem (Window.table? level ix)

/-- The entry on a walk at a level. -/
def entry [Mmu η] (h : Hierarchy) (mmu : η) (mem : Memory) (level : Level) (ix : Indices)
    (frame : Frame) : Except Halt Entry := do
  return mem.read (← h.locate mmu mem level ix frame) (ix.get level)

/-! ## Steps of an operation -/

/-- Reads the entry on a walk at a level. -/
def read [Mmu η] (h : Hierarchy) (level : Level) (ix : Indices) (frame : Frame) :
    Op (Machine η α) ε Entry :=
  .observe fun m => h.entry m.mmu m.memory level ix frame

/-- The frame that is used for the table at a level of a walk. -/
def find [Mmu η] (h : Hierarchy) (level : Level) (ix : Indices) (frame : Frame) :
    Op (Machine η α) ε Frame :=
  .observe fun m => h.locate m.mmu m.memory level ix frame

/-- Writes the entry on a walk at a level. -/
def write [Mmu η] (h : Hierarchy) (level : Level) (ix : Indices) (frame : Frame) (e : Entry) :
    Op (Machine η α) ε Unit := do
  let table ← h.find level ix frame
  .change (·.write table (ix.get level) e)

/-- Drops the cached mapping of an address, if there can be one. -/
def invalidate (h : Hierarchy) (va : VirtAddr) : Op (Machine η α) ε Unit :=
  if h.live then .change (·.invalidate va) else pure ()

/-- Logs a record. -/
def log (r : Record) : Op (Machine η α) ε Unit :=
  .change (·.log r)

/-- Asks for a frame. -/
def request [FrameSource α] : Op (Machine η α) ε (Option Frame) := fun m =>
  let (answer, m') := m.request
  (.ok answer, m')

/-! ## What the steps leave behind -/

/-- The machine after the cached mapping of an address was dropped, if there can be one. -/
def dropped (h : Hierarchy) (va : VirtAddr) (m : Machine η α) : Machine η α :=
  if h.live then m.invalidate va else m

/-- The machine after the leaf of a page was replaced in its table. Only what was there before can
be cached. -/
def replaced (h : Hierarchy) (ix : Indices) (table : Frame) (leaf : Entry) (m : Machine η α) :
    Machine η α :=
  if (m.memory.read table ix.l1).isZero then m.write table ix.l1 leaf
  else h.dropped ix.page (m.write table ix.l1 leaf)

section Dropped

variable (h : Hierarchy) (va : VirtAddr) (m : Machine η α)

@[simp] theorem memory_dropped : (h.dropped va m).memory = m.memory := by
  unfold dropped
  split <;> rfl

@[simp] theorem mmu_dropped : (h.dropped va m).mmu = m.mmu := by
  unfold dropped
  split <;> rfl

@[simp] theorem frames_dropped : (h.dropped va m).frames = m.frames := by
  unfold dropped
  split <;> rfl

theorem trace_dropped :
    (h.dropped va m).trace = (if h.live then [.invalidated va] else []) ++ m.trace := by
  unfold dropped
  split <;> rfl

variable (ix : Indices) (table : Frame) (leaf : Entry)

@[simp] theorem memory_replaced :
    (h.replaced ix table leaf m).memory = m.memory.write table ix.l1 leaf := by
  unfold replaced
  split
  · rfl
  · rw [memory_dropped, Machine.memory_write]

@[simp] theorem mmu_replaced : (h.replaced ix table leaf m).mmu = m.mmu := by
  unfold replaced
  split
  · rfl
  · rw [mmu_dropped, Machine.mmu_write]

@[simp] theorem frames_replaced : (h.replaced ix table leaf m).frames = m.frames := by
  unfold replaced
  split
  · rfl
  · rw [frames_dropped, Machine.frames_write]

end Dropped

/-! ## Running the steps -/

section Run

variable [Mmu η] {h : Hierarchy} {mmu : η} {mem : Memory} {level : Level} {ix : Indices}
  {frame table : Frame} {m : Machine η α} {c : Halt}

theorem locate_of_identity (ha : h.access = .identity) :
    h.locate mmu mem level ix frame = .ok frame := by
  simp only [locate, ha]

theorem locate_of_window (ha : h.access = .window) :
    h.locate mmu mem level ix frame =
      (Mmu.windowTable mmu mem (Window.table level ix)).mapError .fault := by
  simp only [locate, ha, Window.table?_eq_some, shown]

theorem windowTable_of_locate (ha : h.access = .window)
    (hl : h.locate mmu mem level ix frame = .ok table) :
    Mmu.windowTable mmu mem (Window.table level ix) = .ok table := by
  rw [locate_of_window ha] at hl
  cases htable : Mmu.windowTable mmu mem (Window.table level ix) with
  | ok table' =>
    rw [htable] at hl
    cases hl
    rfl
  | error cause =>
    rw [htable] at hl
    cases hl

/-- All that can halt a walk is that the window does not show a table. -/
theorem fault_of_locate (hl : h.locate mmu mem level ix frame = .error c) :
    h.access = .window ∧ ∃ cause, c = .fault cause ∧
      Mmu.windowTable mmu mem (Window.table level ix) = .error cause := by
  cases ha : h.access with
  | identity =>
    rw [locate_of_identity ha] at hl
    cases hl
  | window =>
    rw [locate_of_window ha] at hl
    refine ⟨rfl, ?_⟩
    cases htable : Mmu.windowTable mmu mem (Window.table level ix) with
    | ok table =>
      rw [htable] at hl
      cases hl
    | error cause =>
      rw [htable] at hl
      cases hl
      exact ⟨cause, rfl, rfl⟩

theorem entry_of_locate (hl : h.locate mmu mem level ix frame = .ok table) :
    h.entry mmu mem level ix frame = .ok (mem.read table (ix.get level)) := by
  rw [entry, hl]
  rfl

theorem entry_of_halt (hl : h.locate mmu mem level ix frame = .error c) :
    h.entry mmu mem level ix frame = .error c := by
  rw [entry, hl]
  rfl

theorem run_find (hl : h.locate m.mmu m.memory level ix frame = .ok table) :
    (h.find level ix frame : Op (Machine η α) ε Frame).run m = (.ok table, m) :=
  Op.run_observe_ok hl

theorem run_find_of_halt (hl : h.locate m.mmu m.memory level ix frame = .error c) :
    (h.find level ix frame : Op (Machine η α) ε Frame).run m = (.error (.ofHalt c), m) :=
  Op.run_observe_error hl

theorem run_read (hl : h.locate m.mmu m.memory level ix frame = .ok table) :
    (h.read level ix frame : Op (Machine η α) ε Entry).run m =
      (.ok (m.memory.read table (ix.get level)), m) :=
  Op.run_observe_ok (entry_of_locate hl)

theorem run_read_of_halt (hl : h.locate m.mmu m.memory level ix frame = .error c) :
    (h.read level ix frame : Op (Machine η α) ε Entry).run m = (.error (.ofHalt c), m) :=
  Op.run_observe_error (entry_of_halt hl)

theorem run_write (hl : h.locate m.mmu m.memory level ix frame = .ok table) (e : Entry) :
    (h.write level ix frame e : Op (Machine η α) ε Unit).run m =
      (.ok (), m.write table (ix.get level) e) :=
  Op.run_bind_ok (run_find hl) _

theorem run_write_of_halt (hl : h.locate m.mmu m.memory level ix frame = .error c) (e : Entry) :
    (h.write level ix frame e : Op (Machine η α) ε Unit).run m = (.error (.ofHalt c), m) :=
  Op.run_bind_error (run_find_of_halt hl) _

end Run

theorem run_invalidate (h : Hierarchy) (va : VirtAddr) (m : Machine η α) :
    (h.invalidate va : Op (Machine η α) ε Unit).run m = (.ok (), h.dropped va m) := by
  unfold invalidate dropped
  split <;> rfl

@[simp] theorem run_log (r : Record) (m : Machine η α) :
    (log r : Op (Machine η α) ε Unit).run m = (.ok (), m.log r) := rfl

/-- A record and a refusal. -/
theorem run_log_refuse {β : Type} (r : Record) (e : ε) (m : Machine η α) :
    (log r >>= fun _ => .refuse e : Op (Machine η α) ε β).run m = (.error (.error e), m.log r) :=
  rfl

theorem run_request [FrameSource α] (m : Machine η α) :
    (request : Op (Machine η α) ε (Option Frame)).run m = (.ok m.request.1, m.request.2) := rfl

end Hierarchy

end Paging
