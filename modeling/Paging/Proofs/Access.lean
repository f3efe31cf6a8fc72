import Paging.Hierarchy.Unmap
import Paging.Proofs.Growth
import Paging.Proofs.WindowWalk

/-!
# The way to the tables makes no difference

An operation finds the same table at every step of its walk, whether it uses frames directly or goes
through the window: the entries above a table have been read or written when the table is needed, so
the window shows it. Each part of an operation therefore does what it does when the frames are used
directly, and what it does is said once for both ways.
-/

namespace Paging

/-! ## Levels of a walk -/

/-- Where a walk stands tells which levels it has passed. -/
theorem Level.above_of_topDown {above lower : List Level} {level : Level}
    (h : above ++ level :: lower = topDown) : above = level.above := by
  -- There are four levels, so at most three have been passed.
  rcases above with _ | ⟨a, _ | ⟨b, _ | ⟨c, _ | ⟨d, rest⟩⟩⟩⟩ <;> simp [topDown] at h
  · obtain ⟨rfl, -⟩ := h
    rfl
  · obtain ⟨rfl, rfl, -⟩ := h
    rfl
  · obtain ⟨rfl, rfl, rfl, -⟩ := h
    rfl
  · obtain ⟨rfl, rfl, rfl, rfl, -⟩ := h
    rfl

theorem Level.above_of_linking {above lower : List Level} {level : Level}
    (h : above ++ level :: lower = linking) : above = level.above ∧
      ∃ child, level.next? = some child ∧ child.above = above ++ [level] := by
  rcases above with _ | ⟨a, _ | ⟨b, _ | ⟨c, rest⟩⟩⟩ <;> simp [linking] at h
  · obtain ⟨rfl, -⟩ := h
    exact ⟨rfl, _, rfl, rfl⟩
  · obtain ⟨rfl, rfl, -⟩ := h
    exact ⟨rfl, _, rfl, rfl⟩
  · obtain ⟨rfl, rfl, rfl, -⟩ := h
    exact ⟨rfl, _, rfl, rfl⟩

namespace Hierarchy

variable {η α ε : Type} [Mmu η]

/-- The same hierarchy with its frames used directly. -/
def direct (h : Hierarchy) : Hierarchy := { h with access := .identity }

@[simp] theorem root_direct (h : Hierarchy) : h.direct.root = h.root := rfl

@[simp] theorem live_direct (h : Hierarchy) : h.direct.live = h.live := rfl

@[simp] theorem access_direct (h : Hierarchy) : h.direct.access = .identity := rfl

@[simp] theorem locate_direct (h : Hierarchy) (mmu : η) (mem : Memory) (level : Level)
    (ix : Indices) (frame : Frame) : h.direct.locate mmu mem level ix frame = .ok frame := rfl

/-- The hierarchy finds its tables in the state of a machine. -/
structure Usable (h : Hierarchy) (m : Machine η α) : Prop where
  finds : h.Finds m.mmu
  selfLinked : h.access = .window → m.memory.SelfLinked h.root

theorem usable_of_identity {h : Hierarchy} (ha : h.access = .identity) (m : Machine η α) :
    h.Usable m :=
  ⟨finds_of_identity ha m.mmu, fun hw => by simp [ha] at hw⟩

theorem usable_direct (h : Hierarchy) (m : Machine η α) : h.direct.Usable m :=
  usable_of_identity rfl m

/-- A table is found where present entries lead. -/
theorem Usable.locate {h : Hierarchy} {m : Machine η α} (hu : h.Usable m) {level : Level}
    {ix : Indices} {frame : Frame}
    (hwalk : m.memory.walkTo? h.root (level.above.map ix.get) = some frame) :
    h.locate m.mmu m.memory level ix frame = .ok frame :=
  hu.finds _ _ _ _ hu.selfLinked hwalk

/-- Through the window nothing could be reached without the root's link to itself. -/
theorem Usable.access_of_not_selfLinked {h : Hierarchy} {m : Machine η α} (hu : h.Usable m)
    (hself : ¬ m.memory.SelfLinked h.root) : h.access = .identity := by
  cases ha : h.access with
  | identity => rfl
  | window => exact absurd (hu.selfLinked ha) hself

/-- The table of a page's leaf is found where links lead. -/
theorem Usable.locate_leaf {h : Hierarchy} {m : Machine η α} (hu : h.Usable m) {ix : Indices}
    {table : Frame} (ht : m.memory.tableAt? h.root ix.path = some table) :
    h.locate m.mmu m.memory .l1 ix table = .ok table :=
  hu.locate (Memory.walkTo?_of_tableAt? ht)

/-- Growth leaves the tables where they can be found, since it leaves the root's link to itself. -/
theorem Usable.growsTo [FrameSource α] {h : Hierarchy} {m m' : Machine η α} (hu : h.Usable m)
    (hg : GrowsTo h m m') (ho : m.Orderly h.root) : h.Usable m' where
  finds := by
    rw [hg.mmu_eq]
    exact hu.finds
  selfLinked hw := by
    -- Growth leaves present entries alone, and the link to the root is one.
    have hself := hu.selfLinked hw
    have hread := hg.read_of_present ho (Memory.isTable_root m.memory h.root) hself.1
    rwa [Memory.SelfLinked, hread]

/-! ## Translating -/

theorem translateFrom_eq_direct {h : Hierarchy} {m : Machine η α} (hu : h.Usable m) (va : VirtAddr)
    (ix : Indices) (levels above : List Level) (frame : Frame)
    (hlevels : above ++ levels = Level.topDown)
    (hwalk : m.memory.walkTo? h.root (above.map ix.get) = some frame) :
    h.translateFrom m.mmu m.memory va ix levels frame =
      h.direct.translateFrom m.mmu m.memory va ix levels frame := by
  induction levels generalizing above frame with
  | nil => rfl
  | cons level lower ih =>
    -- The entries above this level were present, so the window shows the table.
    have habove := Level.above_of_topDown hlevels
    rw [translateFrom_cons (hu.locate (habove ▸ hwalk)), translateFrom_cons (h := h.direct) rfl]
    simp only
    split
    · -- Nothing is mapped there.
      rfl
    · rename_i hpresent
      split
      · -- The walk ends at this entry, so no other table is needed.
        rfl
      · rename_i hends
        -- The walk goes on, so the entry is present and what it names is found below.
        have hlevel : level ≠ .l1 := by
          intro heq
          simp [endsWalk, heq] at hends
        have hp : (m.memory.read frame (ix.get level)).present = true := by
          simpa [hlevel] using hpresent
        apply ih (above ++ [level])
        · simpa using hlevels
        · simpa using Memory.walkTo?_concat hwalk hp

theorem translate_eq_direct {h : Hierarchy} {m : Machine η α} (hu : h.Usable m) (va : VirtAddr) :
    h.translate m.mmu m.memory va = h.direct.translate m.mmu m.memory va := by
  cases hva : va.isCanonical with
  | true =>
    rw [translate_of_isCanonical hva, translate_of_isCanonical hva]
    exact translateFrom_eq_direct hu va _ _ [] _ rfl rfl
  | false => rw [translate_of_not_isCanonical hva, translate_of_not_isCanonical hva]

/-- With the frames used directly a translation never faults. -/
theorem translateFrom_direct_ok (h : Hierarchy) (mmu : η) (mem : Memory) (va : VirtAddr)
    (ix : Indices) (levels : List Level) (frame : Frame) :
    ∃ pa, h.direct.translateFrom mmu mem va ix levels frame = .ok pa := by
  induction levels generalizing frame with
  | nil => exact ⟨_, rfl⟩
  | cons level lower ih =>
    rw [translateFrom_cons (h := h.direct) rfl]
    simp only
    split
    · exact ⟨_, rfl⟩
    · split
      · exact ⟨_, rfl⟩
      · exact ih _

/-- Where the tables are found a translation never faults. -/
theorem translate_ok {h : Hierarchy} {m : Machine η α} (hu : h.Usable m) (va : VirtAddr) :
    ∃ pa, h.translate m.mmu m.memory va = .ok pa := by
  rw [translate_eq_direct hu]
  cases hva : va.isCanonical with
  | true =>
    rw [translate_of_isCanonical hva]
    exact translateFrom_direct_ok ..
  | false => exact ⟨_, translate_of_not_isCanonical hva⟩

end Hierarchy

end Paging
