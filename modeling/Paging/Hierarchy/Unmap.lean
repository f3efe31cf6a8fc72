import Paging.Hierarchy.Map

/-!
# Unmapping a page

Unmapping walks down to the leaf and removes it. The tables on the way are kept, even when they
become empty.
-/

namespace Paging

namespace Hierarchy

variable {η α : Type}

/-- The table that an entry at a level of the walk of a page links to, which must exist. -/
def followPresent (page : VirtAddr) (level : Level) (e : Entry) :
    Op (Machine η α) MapError Frame :=
  if !e.present then
    .refuse .notMapped
  else if e.huge then do
    log (.covered page level)
    .refuse .foreignEntry
  else
    pure e.frame

/-- The table below the entries at the given levels of a walk, which must exist. -/
def findBelow [Mmu η] (h : Hierarchy) (page : VirtAddr) (ix : Indices) :
    List Level → Frame → Op (Machine η α) MapError Frame
  | [], frame => pure frame
  | level :: lower, frame => do
    let e ← h.read level ix frame
    h.findBelow page ix lower (← followPresent page level e)

/-- Removes the leaf of a page and returns the base of the frame it named. -/
def removeLeaf [Mmu η] (h : Hierarchy) (page : VirtAddr) (ix : Indices) (table : Frame) :
    Op (Machine η α) MapError PhysAddr := do
  let old ← h.read .l1 ix table
  if old.isZero then
    .refuse .notMapped
  else
    h.write .l1 ix table .zero
    h.invalidate page
    log (.unmapped page old.address)
    return old.address

/-- Removes the mapping of the page around `va` and returns the base of the frame it named. -/
def unmap [Mmu η] (h : Hierarchy) (va : VirtAddr) : Op (Machine η α) MapError PhysAddr := do
  let page := va.alignDown .size4K
  let ix ← require .invalidVirtual (mappable? va)
  let table ← h.findBelow page ix Level.linking h.root
  h.removeLeaf page ix table

/-! ## Running the steps -/

/-- An entry that is not present ends the walk, a huge page is refused, and a link is followed. -/
theorem run_followPresent (page : VirtAddr) (level : Level) (e : Entry) (m : Machine η α) :
    (followPresent page level e).run m =
      if e.present = false then (.error (.error .notMapped), m)
      else if e.huge then (.error (.error .foreignEntry), m.log (.covered page level))
      else (.ok e.frame, m) := by
  unfold followPresent
  cases e.present with
  | false => rfl
  | true => cases e.huge <;> rfl

/-- A leaf is replaced by the absent entry, if there is one. -/
theorem run_removeLeaf [Mmu η] (h : Hierarchy) (ix : Indices) (table : Frame) (m : Machine η α) :
    (h.removeLeaf ix.page ix table).run m =
      match h.locate m.mmu m.memory .l1 ix table with
      | .error c => (.error (.ofHalt c), m)
      | .ok t =>
        let old := m.memory.read t ix.l1
        if old = .zero then (.error (.error .notMapped), m)
        else (.ok old.address, (h.replaced ix t .zero m).log (.unmapped ix.page old.address)) := by
  simp only [removeLeaf]
  cases hl : h.locate m.mmu m.memory .l1 ix table with
  | error c => exact Op.run_bind_error (run_read_of_halt hl) _
  | ok t =>
    have hread : (h.read .l1 ix table : Op (Machine η α) MapError Entry).run m =
        (.ok (m.memory.read t ix.l1), m) := run_read hl
    rw [Op.run_bind_ok hread]
    by_cases hold : m.memory.read t ix.l1 = .zero
    · simp only [hold, if_pos (Entry.isZero_iff.mpr rfl), if_true, Op.run_refuse]
    · have hmapped : ¬ (m.memory.read t ix.l1).isZero := by rwa [Entry.isZero_iff]
      have hdropped : h.dropped ix.page (m.write t ix.l1 .zero) = h.replaced ix t .zero m := by
        rw [replaced, if_neg hmapped]
      rw [if_neg hmapped, Op.run_bind_ok (run_write hl _)]
      simp only [if_neg hold]
      rw [← hdropped]
      exact Op.run_bind_ok (run_invalidate ..) _

end Hierarchy

end Paging
