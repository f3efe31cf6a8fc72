import Paging.Hardware.Mmu
import Paging.Hierarchy.Basic
import Paging.Proofs.Placement
import Paging.Proofs.RootRegister
import Paging.Proofs.VirtualPages

/-!
# Tables seen through the window

Hardware that walks the loaded root finds, at the window address of a table, the frame that the
present entries above that table lead to: every pass through the root's own slot returns to the
root, and the indices that are left are those of the table's path. So tables are found in the window
where the links say, as they are when every frame is used directly.
-/

namespace Paging

/-! ## Following present entries -/

/-- The levels above a level, from the root down. -/
def Level.above : Level → List Level
  | l4 => []
  | l3 => [l4]
  | l2 => [l4, l3]
  | l1 => [l4, l3, l2]

namespace Memory

/-- The frame that present entries lead to, huge or not. -/
def walkTo? (mem : Memory) (frame : Frame) : List Index → Option Frame
  | [] => some frame
  | i :: p => if (mem.read frame i).present then mem.walkTo? (mem.read frame i).frame p else none

variable {mem : Memory} {root frame table : Frame} {p : List Index}

theorem walkTo?_append (mem : Memory) (frame : Frame) (p q : List Index) :
    mem.walkTo? frame (p ++ q) = (mem.walkTo? frame p).bind fun t => mem.walkTo? t q := by
  induction p generalizing frame with
  | nil => rfl
  | cons i p ih =>
    simp only [List.cons_append, walkTo?]
    split
    · exact ih _
    · rfl

theorem walkTo?_concat (h : mem.walkTo? root p = some table) {i : Index}
    (hi : (mem.read table i).present = true) :
    mem.walkTo? root (p ++ [i]) = some (mem.read table i).frame := by
  rw [walkTo?_append, h]
  simp [walkTo?, hi]

/-- Links are present entries. -/
theorem walkTo?_of_tableAt? (h : mem.tableAt? frame p = some table) :
    mem.walkTo? frame p = some table := by
  induction p generalizing frame with
  | nil => exact h
  | cons i p ih =>
    simp only [tableAt?] at h
    split at h
    · rename_i hlink
      -- That a link is not huge plays no part in a walk.
      simp only [walkTo?, (Entry.isLink_iff.mp hlink).1, if_true]
      exact ih h
    · simp at h

/-- A pass through the root's own slot returns to the root. -/
theorem SelfLinked.walkTo?_cons (h : mem.SelfLinked root) (p : List Index) :
    mem.walkTo? root (selfIndex :: p) = mem.walkTo? root p := by
  simp [walkTo?, h.1, h.2]

theorem SameTables.selfLinked {mem' : Memory} (h : mem.SameTables mem' root)
    (hself : mem.SelfLinked root) : mem'.SelfLinked root := by
  rwa [SelfLinked, h.read_self]

theorem selfLinked_of_eq_selfLink (hroot : root.isEncodable)
    (h : mem.read root selfIndex = .selfLink root) : mem.SelfLinked root := by
  simp [SelfLinked, h, hroot]

/-- Among own links it is the plain link by which a root links to itself. -/
theorem OwnLinks.read_self (hown : mem.OwnLinks root) (h : mem.SelfLinked root) :
    mem.read root selfIndex = .selfLink root := by
  rcases hown.selfLink with hzero | hlink
  · exact absurd hzero h.read_ne_zero
  · exact hlink

end Memory

/-! ## Walks of the hardware -/

namespace Hardware

/-- With all memory installed the hardware follows present entries. -/
theorem follow_eq_ok_iff {installed : Frame → Bool} (hall : ∀ f, installed f = true)
    (mem : Memory) (va : VirtAddr) (levels : List Level) (frame table : Frame) :
    follow installed mem va levels frame = .ok table ↔
      mem.walkTo? frame (levels.map va.index) = some table := by
  induction levels generalizing frame with
  | nil => simp [follow, Memory.walkTo?, hall]
  | cons level lower ih =>
    -- The one test that the hardware makes besides is whether there is memory at all.
    simp only [follow, hall, if_true, List.map_cons, Memory.walkTo?]
    split
    · exact ih _
    · simp

end Hardware

/-- Hardware whose window shows what a walk of the loaded root reaches. -/
class WalkingMmu (η : Type) [Mmu η] where
  /-- The root that is loaded. -/
  loaded? : η → Option Frame
  /-- The frames of memory that there are. -/
  installed : η → Frame → Bool
  windowTable_of_follow : ∀ {mmu : η} {root : Frame} {mem : Memory} {va : VirtAddr}
    {table : Frame}, loaded? mmu = some root →
      Hardware.follow (installed mmu) mem va Level.topDown root = .ok table →
        Mmu.windowTable mmu mem va = .ok table
  loaded_of_loadRoot : ∀ {mmu mmu' : η} {root : Frame}, Mmu.loadRoot mmu root = .ok mmu' →
    loaded? mmu' = some root
  installed_of_loadRoot : ∀ {mmu mmu' : η} {root : Frame}, Mmu.loadRoot mmu root = .ok mmu' →
    installed mmu' = installed mmu
  loadRoot_ne_fault : ∀ (mmu : η) (root : Frame) (c : Fault),
    Mmu.loadRoot mmu root ≠ .error (.fault c)

namespace Hardware

/-- A walk that arrives has started in memory. -/
theorem walk_of_follow {installed : Frame → Bool} {mem : Memory} {root : PhysAddr} {va : VirtAddr}
    {table : Frame} (h : follow installed mem va Level.topDown (.containing root) = .ok table) :
    walk installed mem root va = .ok table := by
  unfold walk
  split
  · exact h
  · -- Outside of memory it would have stopped at once.
    rename_i hroot
    simp [follow, Level.topDown, hroot] at h

instance : WalkingMmu Simulated where
  loaded? sim := sim.loaded.map Page.containing
  installed := Simulated.installed
  windowTable_of_follow {sim root mem va table} hloaded hfollow := by
    -- The loaded address may lie inside the root's frame; the walk starts in the frame.
    obtain ⟨a, ha, rfl⟩ := Option.map_eq_some_iff.mp hloaded
    simp only [Mmu.windowTable, ha]
    exact walk_of_follow hfollow
  loaded_of_loadRoot {sim sim' root} h := by
    simp only [Mmu.loadRoot] at h
    split at h
    · cases h
    · cases h
      simp
  installed_of_loadRoot {sim sim' root} h := by
    simp only [Mmu.loadRoot] at h
    split at h
    · cases h
    · cases h
      rfl
  loadRoot_ne_fault sim root c h := by
    simp only [Mmu.loadRoot] at h
    split at h <;> cases h

instance : WalkingMmu Cpu where
  loaded? cpu := some cpu.cr3.root
  installed := Cpu.installed
  windowTable_of_follow {cpu root mem va table} hloaded hfollow := by
    obtain rfl := Option.some.inj hloaded
    simp only [Mmu.windowTable]
    -- The register holds the base of its root.
    exact walk_of_follow (by rwa [Page.containing_base])
  loaded_of_loadRoot {cpu cpu' root} h := by
    simp only [Mmu.loadRoot] at h
    split at h
    · cases h
    · split at h
      · cases h
      · rename_i cr3 hcr3
        cases h
        exact congrArg some (Cr3.root_of_withRoot? hcr3)
  installed_of_loadRoot {cpu cpu' root} h := by
    simp only [Mmu.loadRoot] at h
    split at h
    · cases h
    · split at h <;> cases h
      rfl
  loadRoot_ne_fault cpu root c h := by
    simp only [Mmu.loadRoot] at h
    split at h
    · cases h
    · split at h <;> cases h

end Hardware

/-! ## Finding a table -/

namespace Hierarchy

variable {η α : Type} [Mmu η]

/-- Through the hardware the hierarchy finds every table to which present entries lead. -/
def Finds (h : Hierarchy) (mmu : η) : Prop :=
  ∀ (mem : Memory) (level : Level) (ix : Indices) (frame : Frame),
    (h.access = .window → mem.SelfLinked h.root) →
      mem.walkTo? h.root (level.above.map ix.get) = some frame →
        h.locate mmu mem level ix frame = .ok frame

/-- Frames that are used directly are always found. -/
theorem finds_of_identity {h : Hierarchy} (ha : h.access = .identity) (mmu : η) : h.Finds mmu := by
  intro mem level ix frame _ _
  exact locate_of_identity ha

/-- The window address of a table leads through the root's own slot and along the table's path. -/
theorem walkTo?_window {mem : Memory} {root : Frame} (hself : mem.SelfLinked root) (level : Level)
    (ix : Indices) :
    mem.walkTo? root (Level.topDown.map (Window.table level ix).index) =
      mem.walkTo? root (level.above.map ix.get) := by
  -- Each level below the root replaces a pass through the slot by an index of the page.
  cases level <;>
    simp [Window.table, Window.slots, Level.topDown, Level.above, Indices.get, hself.walkTo?_cons]

/-- Hardware that has the root loaded shows every table in the window. -/
theorem finds_of_window [WalkingMmu η] {h : Hierarchy} {mmu : η}
    (hloaded : WalkingMmu.loaded? mmu = some h.root)
    (hall : ∀ f, WalkingMmu.installed mmu f = true) : h.Finds mmu := by
  intro mem level ix frame hself hwalk
  cases ha : h.access with
  | identity => exact locate_of_identity ha
  | window =>
    -- The hardware walks the window address, which is the path to the table.
    rw [← walkTo?_window (hself ha)] at hwalk
    have hshown := WalkingMmu.windowTable_of_follow hloaded
      ((Hardware.follow_eq_ok_iff hall ..).mpr hwalk)
    rw [locate_of_window ha, hshown]
    rfl

end Hierarchy

end Paging
