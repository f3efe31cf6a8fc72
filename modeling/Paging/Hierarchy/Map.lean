import Paging.Hierarchy.SelfLink
import Paging.Hierarchy.Translate

/-!
# Mapping a page

Mapping walks down from the root and makes the tables that are missing. A new table is linked
before it is cleared, because only a linked table can be reached through the window, and the
leaf is written last: whatever stops the operation, it leaves empty tables at most.
-/

namespace Paging

namespace Hierarchy

variable {η α β : Type}

/-! ## Making missing tables -/

/-- Links a new table for `child` below the entry at a level of a walk and clears it. A frame that
no entry has room for is refused. -/
def linkTable [Mmu η] (h : Hierarchy) (ix : Indices) (level child : Level) (frame next : Frame) :
    Op (Machine η α) MapError Frame :=
  if next.isEncodable then do
    let link ← .demand .unencodableFrame (Entry.encode? next .link)
    h.write level ix frame link
    -- What the window showed before there was a link may still be cached.
    let va ← .demand .indexOutOfRange (Window.table? child ix)
    h.invalidate va
    -- Through the window the table can be reached only now that it is linked.
    let table ← h.find child ix next
    .change (·.clear table)
    log (.newTable child next ix.page)
    return next
  else do
    log (.unencodable next child)
    .refuse .outOfFrames

/-- Asks for a frame and links it as a new table below the entry at a level of a walk. -/
def makeNext [Mmu η] [FrameSource α] (h : Hierarchy) (ix : Indices) (level child : Level)
    (frame : Frame) : Op (Machine η α) MapError Frame := do
  match ← request with
  | none =>
    log (.outOfFrames child ix.page)
    .refuse .outOfFrames
  | some next => h.linkTable ix level child frame next

/-- The table that an entry at a level of a walk links to. A huge page is no table. -/
def follow (ix : Indices) (level : Level) (e : Entry) : Op (Machine η α) MapError Frame :=
  if e.huge then do
    log (.blocked level ix.page)
    .refuse .foreignEntry
  else
    pure e.frame

/-- The table below the entry at a level of a walk, made if it is missing. -/
def ensureNext [Mmu η] [FrameSource α] (h : Hierarchy) (ix : Indices) (level : Level)
    (frame : Frame) : Op (Machine η α) MapError Frame :=
  match level.next? with
  | none => .refuse .foreignEntry
  | some child => do
    let e ← h.read level ix frame
    if e.present then follow ix level e else h.makeNext ix level child frame

/-- The table below the entries at the given levels of a walk, made if it is missing. -/
def ensureBelow [Mmu η] [FrameSource α] (h : Hierarchy) (ix : Indices) :
    List Level → Frame → Op (Machine η α) MapError Frame
  | [], frame => pure frame
  | level :: lower, frame => do
    h.ensureBelow ix lower (← h.ensureNext ix level frame)

/-! ## What can be mapped -/

/-- The indices of the page around an address, if the page may be mapped: it is canonical and
outside the window. -/
def mappable? (va : VirtAddr) : Option Indices :=
  match (va.alignDown .size4K).indices? with
  | none => none
  | some ix => if Window.contains (va.alignDown .size4K) then none else some ix

/-- The frame at an address, if it can be mapped: the address is aligned and an entry has room
for it. -/
def target? (pa : PhysAddr) : Option Frame :=
  match Page.ofAddr? pa with
  | none => none
  | some frame => if frame.isEncodable then some frame else none

/-- The value that must exist for an operation to go on. -/
def require (e : MapError) : Option β → Op (Machine η α) MapError β
  | some b => pure b
  | none => .refuse e

/-- Refuses a page that translates already. -/
def requireVacant [Mmu η] (h : Hierarchy) (page : VirtAddr) : Op (Machine η α) MapError Unit := do
  let mapped ← .observe fun m => h.translate m.mmu m.memory page
  if mapped.isZero then pure () else .refuse .occupied

/-! ## Mapping -/

/-- Drops the cached mapping of a page whose leaf was not absent. -/
def invalidateOld (h : Hierarchy) (page : VirtAddr) (old : Entry) :
    Op (Machine η α) MapError Unit :=
  if old.isZero then pure () else h.invalidate page

/-- Writes the leaf of a page. An existing leaf is replaced if `force` is set and refused
otherwise. -/
def installLeaf [Mmu η] (h : Hierarchy) (page : VirtAddr) (ix : Indices) (table target : Frame)
    (flags : PageFlags) (force : Bool) : Op (Machine η α) MapError Unit := do
  let old ← h.read .l1 ix table
  if !old.isZero && !force then
    .refuse .occupied
  else
    let leaf ← .demand .unencodableFrame (Entry.encode? target (.ofPageFlags flags))
    h.write .l1 ix table leaf
    h.invalidateOld page old
    log (.mapped page target.base flags)

/-- Maps the page around `va` to the frame at `pa`. An existing mapping is replaced if `force`
is set and refused otherwise. -/
def map [Mmu η] [FrameSource α] (h : Hierarchy) (va : VirtAddr) (pa : PhysAddr)
    (flags : PageFlags) (force : Bool) : Op (Machine η α) MapError Unit := do
  let page := va.alignDown .size4K
  let ix ← require .invalidVirtual (mappable? va)
  let target ← require .invalidPhysical (target? pa)
  (if force then pure () else h.requireVacant page)
  -- The link comes before the first request, so it stays when the frames run out.
  h.ensureSelfLink
  let table ← h.ensureBelow ix Level.linking h.root
  h.installLeaf page ix table target flags force

/-! ## Running the steps -/

section Run

variable [Mmu η] (h : Hierarchy) (ix : Indices) (m : Machine η α)

/-- A link is written, the new table is cleared at the place where the link has put it, and both
places may be missing. -/
theorem run_linkTable (level child : Level) (frame next : Frame) :
    (h.linkTable ix level child frame next).run m =
      if next.isEncodable then
        match h.locate m.mmu m.memory level ix frame with
        | .error c => (.error (.ofHalt c), m)
        | .ok table =>
          let linked := h.dropped (Window.table child ix)
            (m.write table (ix.get level) (.link next))
          match h.locate linked.mmu linked.memory child ix next with
          | .error c => (.error (.ofHalt c), linked)
          | .ok new => (.ok next, (linked.clear new).log (.newTable child next ix.page))
      else (.error (.error .outOfFrames), m.log (.unencodable next child)) := by
  by_cases hnext : next.isEncodable
  · simp only [linkTable, hnext, if_true, Entry.encode?_of_isEncodable, Window.table?_eq_some]
    rw [Op.run_bind_ok (Op.run_demand_some ..)]
    cases hl : h.locate m.mmu m.memory level ix frame with
    | error c => exact Op.run_bind_error (run_write_of_halt hl _) _
    | ok table =>
      rw [Op.run_bind_ok (run_write hl _), Op.run_bind_ok (Op.run_demand_some ..),
        Op.run_bind_ok (run_invalidate ..)]
      simp only
      -- After the invalidation memory is as the write has left it.
      split
      · rename_i c hc
        exact Op.run_bind_error (run_find_of_halt hc) _
      · rename_i new hc
        exact Op.run_bind_ok (run_find hc) _
  · rw [if_neg hnext, linkTable, if_neg hnext, run_log_refuse]

/-- A frame is asked for, and linked if there is one. -/
theorem run_makeNext [FrameSource α] (level child : Level) (frame : Frame) :
    (h.makeNext ix level child frame).run m =
      match m.request.1 with
      | none => (.error (.error .outOfFrames), m.request.2.log (.outOfFrames child ix.page))
      | some next => (h.linkTable ix level child frame next).run m.request.2 := by
  simp only [makeNext]
  rw [Op.run_bind_ok (run_request m)]
  split <;> rfl

/-- Without a present entry a table is made; a huge page is refused, and a link is followed. -/
theorem run_ensureNext [FrameSource α] {level child : Level} (hchild : level.next? = some child)
    (frame : Frame) :
    (h.ensureNext ix level frame).run m =
      match h.locate m.mmu m.memory level ix frame with
      | .error c => (.error (.ofHalt c), m)
      | .ok table =>
        let e := m.memory.read table (ix.get level)
        if e.present = false then (h.makeNext ix level child frame).run m
        else if e.huge then (.error (.error .foreignEntry), m.log (.blocked level ix.page))
        else (.ok e.frame, m) := by
  simp only [ensureNext, hchild]
  cases hl : h.locate m.mmu m.memory level ix frame with
  | error c => exact Op.run_bind_error (run_read_of_halt hl) _
  | ok table =>
    rw [Op.run_bind_ok (run_read hl)]
    cases hpresent : (m.memory.read table (ix.get level)).present with
    | false => simp only [hpresent, Bool.false_eq_true, if_false, if_true]
    | true =>
      simp only [hpresent, if_true, follow, Bool.true_eq_false, if_false]
      split <;> rfl

/-- Below the last level there is no table. -/
theorem run_ensureNext_of_none [FrameSource α] {level : Level} (hnone : level.next? = none)
    (frame : Frame) :
    (h.ensureNext ix level frame).run m = (.error (.error .foreignEntry), m) := by
  simp only [ensureNext, hnone, Op.run_refuse]

/-- A page that translates is refused. -/
theorem run_requireVacant (page : VirtAddr) :
    (h.requireVacant page).run m =
      match h.translate m.mmu m.memory page with
      | .error c => (.error (.ofHalt c), m)
      | .ok pa => (if pa.isZero then .ok () else .error (.error .occupied), m) := by
  have hlook := Op.run_observe (ε := MapError)
    (fun m : Machine η α => h.translate m.mmu m.memory page) m
  simp only [requireVacant]
  cases ht : h.translate m.mmu m.memory page with
  | error c =>
    rw [ht] at hlook
    exact Op.run_bind_error hlook _
  | ok pa =>
    rw [ht] at hlook
    rw [Op.run_bind_ok hlook]
    simp only
    split <;> rfl

/-- A leaf is replaced unless it must not be. -/
theorem run_installLeaf (table target : Frame) (flags : PageFlags) (force : Bool) :
    (h.installLeaf ix.page ix table target flags force).run m =
      match h.locate m.mmu m.memory .l1 ix table with
      | .error c => (.error (.ofHalt c), m)
      | .ok t =>
        if m.memory.read t ix.l1 ≠ .zero ∧ force = false then (.error (.error .occupied), m)
        else if target.isEncodable then
          (.ok (), (h.replaced ix t (.encode target (.ofPageFlags flags)) m).log
            (.mapped ix.page target.base flags))
        else (.error (.violation .unencodableFrame), m) := by
  simp only [installLeaf]
  cases hl : h.locate m.mmu m.memory .l1 ix table with
  | error c => exact Op.run_bind_error (run_read_of_halt hl) _
  | ok t =>
    have hread : (h.read .l1 ix table : Op (Machine η α) MapError Entry).run m =
        (.ok (m.memory.read t ix.l1), m) := run_read hl
    rw [Op.run_bind_ok hread]
    -- The test as it is written, and as it is stated.
    have hcheck : (!(m.memory.read t ix.l1).isZero && !force) = true ↔
        m.memory.read t ix.l1 ≠ .zero ∧ force = false := by
      rw [Bool.and_eq_true, Bool.not_eq_true', Bool.not_eq_true', Entry.isZero_eq_false_iff]
    by_cases hold : m.memory.read t ix.l1 ≠ .zero ∧ force = false
    · rw [if_pos (hcheck.mpr hold), Op.run_refuse]
      simp only [if_pos hold]
    · rw [if_neg (mt hcheck.mp hold)]
      simp only [if_neg hold]
      cases htarget : target.isEncodable with
      | false =>
        rw [Entry.encode?_of_not_isEncodable htarget, Op.run_bind_error (Op.run_demand_none ..)]
        rfl
      | true =>
        -- What is dropped depends on the leaf before the write.
        have hinvalidate : (h.invalidateOld ix.page (m.memory.read t ix.l1) :
              Op (Machine η α) MapError Unit).run
            (m.write t ix.l1 (.encode target (.ofPageFlags flags))) =
              (.ok (), h.replaced ix t (.encode target (.ofPageFlags flags)) m) := by
          unfold invalidateOld replaced
          split
          · rfl
          · exact run_invalidate ..
        rw [Entry.encode?_of_isEncodable htarget, Op.run_bind_ok (Op.run_demand_some ..),
          Op.run_bind_ok (run_write hl _)]
        exact Op.run_bind_ok hinvalidate _

end Run

end Hierarchy

end Paging
