import Paging.Proofs.Access

/-!
# A leaf is replaced

An operation that succeeds ends with one write: after the hierarchy has grown as far as needed, the
leaf of a page is replaced, and its cached mapping is dropped unless there was none. The slot of a
leaf is on no path, so the tables stay where they are and every other page keeps its leaf.
-/

namespace Paging

variable {η α : Type}

theorem Hierarchy.continues_replaced (h : Hierarchy) (ix : Indices) (table : Frame) (leaf : Entry)
    (m : Machine η α) : ∃ events, m.Continues (h.replaced ix table leaf m) events ∧
      ∀ a, Event.requested a ∉ events := by
  unfold replaced
  split
  · exact ⟨_, m.continues_write _ _ _, by simp⟩
  · -- The write is followed by an invalidation at most.
    refine ⟨_, (m.continues_write _ _ _).trans (h.continues_dropped _ _), fun a ha => ?_⟩
    rcases List.mem_append.mp ha with hmem | hmem
    · split at hmem <;> simp at hmem
    · simp at hmem

variable [FrameSource α]

/-- The hierarchy grows, and then the leaf of a page is replaced. -/
inductive SetsLeaf (h : Hierarchy) (ix : Indices) (leaf : Entry) :
    Machine η α → Machine η α → Prop where
  | intro (m m₁ : Machine η α) (table : Frame) (r : Record) (hg : GrowsTo h m m₁)
      (ht : m₁.memory.tableAt? h.root ix.path = some table) :
      SetsLeaf h ix leaf m ((h.replaced ix table leaf m₁).log r)

/-- What an operation does to the machine, whether it succeeds or not. -/
inductive Changes (h : Hierarchy) (m m' : Machine η α) : Prop where
  | grows (hg : GrowsTo h m m')
  | setsLeaf (ix : Indices) (leaf : Entry) (hix : ix.l4 ≠ selfIndex) (hs : SetsLeaf h ix leaf m m')

/-! ## Setting a leaf -/

/-- The table and the slot of a leaf are those of one page only. -/
theorem Indices.eq_of_path_eq {ix jx : Indices} (hpath : ix.path = jx.path) (hl1 : ix.l1 = jx.l1) :
    ix = jx := by
  obtain ⟨_, _, _, _⟩ := ix
  obtain ⟨_, _, _, _⟩ := jx
  simp only [path_eq, List.cons.injEq] at hpath
  simp_all

namespace SetsLeaf

variable {h : Hierarchy} {ix : Indices} {leaf : Entry} {m m' : Machine η α}

theorem mmu_eq (hs : SetsLeaf h ix leaf m m') : m'.mmu = m.mmu := by
  cases hs with
  | intro m₁ table r hg ht => rw [Machine.mmu_log, Hierarchy.mmu_replaced, hg.mmu_eq]

theorem continues (hs : SetsLeaf h ix leaf m m') : ∃ events, m.Continues m' events := by
  cases hs with
  | intro m₁ table r hg ht =>
    -- Growth, the write with what follows it, and a record.
    obtain ⟨grown, hgrown⟩ := hg.continues
    obtain ⟨written, hwritten, -⟩ := h.continues_replaced ix table leaf m₁
    exact ⟨_, (hgrown.trans hwritten).trans (Machine.continues_log _ r)⟩

variable (hs : SetsLeaf h ix leaf m m') (hix : ix.l4 ≠ selfIndex) (ho : m.Orderly h.root)

include hs hix ho

theorem orderly : m'.Orderly h.root := by
  cases hs with
  | intro m₁ table r hg ht =>
    have ho₁ := hg.orderly ho
    have hend := Memory.isEndSlot_leaf hix ht
    refine ⟨?_, ?_⟩
    · rw [Machine.memory_log, Hierarchy.memory_replaced]
      exact Memory.apart_write ho₁.apart hend
    · -- No frame becomes a table by the write, so the source has no less to offer.
      rw [Machine.frames_log, Hierarchy.frames_replaced]
      refine ho₁.fresh.mono fun f hf => ?_
      rwa [Machine.memory_log, Hierarchy.memory_replaced, Memory.isTable_write_iff ho₁.apart hend]

theorem ownLinks (hown : m.memory.OwnLinks h.root) : m'.memory.OwnLinks h.root := by
  cases hs with
  | intro m₁ table r hg ht =>
    rw [Machine.memory_log, Hierarchy.memory_replaced]
    apply Memory.ownLinks_write (hg.orderly ho).apart (Memory.isEndSlot_leaf hix ht)
      (hg.ownLinks ho hown)
    -- The path to a table of leaves has three links, so the slot is not the root's own.
    intro hnil
    simp [Indices.path_eq] at hnil

theorem accounted (ha : m.Accounted h.root) : m'.Accounted h.root := by
  cases hs with
  | intro m₁ table r hg ht =>
    intro f
    -- Setting the leaf takes no frame and makes no table.
    obtain ⟨events, hc, hno⟩ := h.continues_replaced ix table leaf m₁
    rw [Machine.memory_log, Hierarchy.memory_replaced,
      Memory.isTable_write_iff (hg.orderly ho).apart (Memory.isEndSlot_leaf hix ht),
      ← hg.accounted ho ha f, Machine.trace_log, hc.1]
    simp [hno]

/-- The page gets the new leaf, and no other page is touched. -/
theorem leaf_eq {jx : Indices} (hjx : jx.l4 ≠ selfIndex) :
    m'.memory.leaf h.root jx = if jx = ix then leaf else m.memory.leaf h.root jx := by
  cases hs with
  | intro m₁ table r hg ht =>
    rw [Machine.memory_log, Hierarchy.memory_replaced,
      Memory.leaf_write (hg.orderly ho).apart (Memory.isEndSlot_leaf hix ht) hjx, hg.leaf_eq ho hjx]
    -- A page is known by the path to its leaf.
    have hsame : jx.path = ix.path ∧ jx.l1 = ix.l1 ↔ jx = ix := by
      constructor
      · intro heq
        exact Indices.eq_of_path_eq heq.1 heq.2
      · intro heq
        rw [heq]
        exact ⟨rfl, rfl⟩
    simp only [hsame]

/-- A link that is present stays as it is, and so does the root's own slot. -/
theorem read_of_present {t : Frame} {j : Index}
    (hslot : m.memory.IsLinkSlot h.root t j ∨ t = h.root)
    (hpresent : (m.memory.read t j).present = true) : m'.memory.read t j = m.memory.read t j := by
  cases hs with
  | intro m₁ table r hg ht =>
    have ho₁ := hg.orderly ho
    have hend := Memory.isEndSlot_leaf hix ht
    have hread := hg.read_of_present ho (Memory.isTable_of_slot hslot) hpresent
    rw [Machine.memory_log, Hierarchy.memory_replaced, ← hread, Memory.read_write, if_neg]
    intro heq
    obtain ⟨rfl, rfl⟩ := heq
    -- The slot of the leaf is neither a slot for a link nor in the root.
    rcases hslot with ⟨p, hp, hpt⟩ | rfl
    · have hpt₁ := hg.tableAt?_of_some ho hp.of_append_left hpt
      -- Growth moves no table, so both paths lead to the table of the leaf.
      obtain rfl := ho₁.apart hp.of_append_left hend.isPath hpt₁ ht
      exact hend.ends hp
    · have hnil := ho₁.apart IsPath.nil hend.isPath rfl ht
      simp [Indices.path_eq] at hnil

end SetsLeaf

/-! ## Every operation -/

namespace Changes

variable {h : Hierarchy} {m m' : Machine η α}

theorem mmu_eq (hc : Changes h m m') : m'.mmu = m.mmu := by
  cases hc with
  | grows hg => exact hg.mmu_eq
  | setsLeaf ix leaf hix hs => exact hs.mmu_eq

/-- What an operation does to memory is in the trace. -/
theorem continues (hc : Changes h m m') : ∃ events, m.Continues m' events := by
  cases hc with
  | grows hg => exact hg.continues
  | setsLeaf ix leaf hix hs => exact hs.continues

variable (hc : Changes h m m') (ho : m.Orderly h.root)

include hc ho

theorem orderly : m'.Orderly h.root := by
  cases hc with
  | grows hg => exact hg.orderly ho
  | setsLeaf ix leaf hix hs => exact hs.orderly hix ho

theorem ownLinks (hown : m.memory.OwnLinks h.root) : m'.memory.OwnLinks h.root := by
  cases hc with
  | grows hg => exact hg.ownLinks ho hown
  | setsLeaf ix leaf hix hs => exact hs.ownLinks hix ho hown

theorem accounted (ha : m.Accounted h.root) : m'.Accounted h.root := by
  cases hc with
  | grows hg => exact hg.accounted ho ha
  | setsLeaf ix leaf hix hs => exact hs.accounted hix ho ha

theorem read_of_present {t : Frame} {j : Index}
    (hslot : m.memory.IsLinkSlot h.root t j ∨ t = h.root)
    (hpresent : (m.memory.read t j).present = true) : m'.memory.read t j = m.memory.read t j := by
  cases hc with
  | grows hg => exact hg.read_of_present ho (Memory.isTable_of_slot hslot) hpresent
  | setsLeaf ix leaf hix hs => exact hs.read_of_present hix ho hslot hpresent

theorem isLinkSlot {t : Frame} {j : Index} (hslot : m.memory.IsLinkSlot h.root t j) :
    m'.memory.IsLinkSlot h.root t j := by
  cases hc with
  | grows hg =>
    exact hg.memory_induction ho (fun _ _ hap hstep => hstep.isLinkSlot hap) hslot
  | setsLeaf ix leaf hix hs =>
    cases hs with
    | intro m₁ table r hg ht =>
      rw [Machine.memory_log, Hierarchy.memory_replaced,
        Memory.isLinkSlot_write_iff (hg.orderly ho).apart (Memory.isEndSlot_leaf hix ht)]
      exact hg.memory_induction ho (fun _ _ hap hstep => hstep.isLinkSlot hap) hslot

/-- The root's link to itself is kept. -/
theorem selfLinked (hself : m.memory.SelfLinked h.root) : m'.memory.SelfLinked h.root := by
  rwa [Memory.SelfLinked, hc.read_of_present ho (Or.inr rfl) hself.1]

end Changes

end Paging
