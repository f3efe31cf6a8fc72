import Mathlib.Data.Set.Card
import Paging.Proofs.Answers
import Paging.Proofs.TreeInvariant

/-!
# Tables counted by their paths

The tables of a hierarchy are counted by the paths that lead to them. A new table adds one path, and
writes beside the links add none, so that the paths say how many frames have been handed out: one
for each of them.
-/

namespace Paging

/-- The paths of the tables below the root on the way to a page. -/
def Indices.way (ix : Indices) : Finset (List Index) :=
  {[ix.l4], [ix.l4, ix.l3], [ix.l4, ix.l3, ix.l2]}

theorem Indices.mem_way_iff {ix : Indices} {p : List Index} :
    p ∈ ix.way ↔ p ≠ [] ∧ p <+: ix.path := by
  simp only [way, path_eq, Finset.mem_insert, Finset.mem_singleton, List.prefix_cons_iff,
    List.prefix_nil]
  grind

namespace Memory

variable {mem mem' : Memory} {root table next : Frame} {p : List Index} {i : Index}
  {ix : Indices}

/-- The paths of the tables below the root. -/
def tablePaths (mem : Memory) (root : Frame) : Set (List Index) :=
  {p | IsPath p ∧ p ≠ [] ∧ ∃ t, mem.tableAt? root p = some t}

/-! ## How paths are added -/

theorem tablePaths_of_zero (h : mem.table root = .zero) : mem.tablePaths root = ∅ := by
  rw [Set.eq_empty_iff_forall_notMem]
  intro p hp
  obtain ⟨-, hne, t, ht⟩ := hp
  simp [tableAt?_of_zero h, hne] at ht

theorem tablePaths_write_of_isEndSlot {e : Entry} (hap : mem.Apart root)
    (hend : mem.IsEndSlot root p table i) :
    (mem.write table i e).tablePaths root = mem.tablePaths root := by
  ext q
  refine and_congr_right fun hq => ?_
  -- No path goes through a slot at which paths end.
  rw [tableAt?_write_of_isEndSlot hap hend hq]

/-- A new table adds its own path. -/
theorem Extends.tablePaths (h : mem.Extends mem' root p i table next) (hap : mem.Apart root) :
    mem'.tablePaths root = insert (p ++ [i]) (mem.tablePaths root) := by
  ext q
  rw [Set.mem_insert_iff]
  constructor
  · intro hq
    obtain ⟨hpath, hne, t, ht⟩ := hq
    -- What is found now was found before, or it is the new table.
    rcases (h.tableAt?_iff hap hpath).mp ht with ⟨rfl, -⟩ | ht
    · exact Or.inl rfl
    · exact Or.inr ⟨hpath, hne, t, ht⟩
  · intro hq
    rcases hq with rfl | ⟨hpath, hne, t, ht⟩
    · exact ⟨h.isPath, by simp, next, h.tableAt?_child hap⟩
    · exact ⟨hpath, hne, t, h.tableAt?_of_some hap hpath ht⟩

/-- If a page has a table for its leaf, it has all tables on the way. -/
theorem way_subset_tablePaths (hix : ix.l4 ≠ selfIndex)
    (ht : mem.tableAt? root ix.path = some table) : ↑ix.way ⊆ mem.tablePaths root := by
  intro p hp
  obtain ⟨hne, hpre⟩ := Indices.mem_way_iff.mp hp
  exact ⟨(Indices.isPath_path hix).of_isPrefix hpre, hne, tableAt?_prefix ht hpre⟩

/-- A page with a leaf has a table for it. -/
theorem exists_table_of_leaf (hleaf : mem.leaf root ix ≠ .zero) :
    ∃ t, mem.tableAt? root ix.path = some t := by
  cases ht : mem.tableAt? root ix.path with
  | none => exact absurd (leaf_of_none ht) hleaf
  | some t => exact ⟨t, rfl⟩

end Memory

/-! ## Paths under growth -/

section Growth

variable {η α : Type} [FrameSource α] {h : Hierarchy} {ix : Indices} {leaf : Entry}
  {m m' : Machine η α}

/-- No table goes away while a hierarchy grows. -/
theorem GrowsTo.tablePaths_subset (hg : GrowsTo h m m') (ho : m.Orderly h.root) :
    m.memory.tablePaths h.root ⊆ m'.memory.tablePaths h.root := by
  intro p hp
  obtain ⟨hpath, hne, t, ht⟩ := hp
  exact ⟨hpath, hne, t, hg.tableAt?_of_some ho hpath ht⟩

/-- After a leaf was set the tables on the way to it are there, and all that were there before. -/
theorem SetsLeaf.subset_tablePaths (hs : SetsLeaf h ix leaf m m') (hix : ix.l4 ≠ selfIndex)
    (ho : m.Orderly h.root) :
    m.memory.tablePaths h.root ∪ ix.way ⊆ m'.memory.tablePaths h.root := by
  cases hs with
  | intro m₁ table r hg ht =>
    rw [Machine.memory_log, Hierarchy.memory_replaced, Memory.tablePaths_write_of_isEndSlot
      (hg.orderly ho).apart (Memory.isEndSlot_leaf hix ht)]
    exact Set.union_subset (hg.tablePaths_subset ho) (Memory.way_subset_tablePaths hix ht)

end Growth

/-! ## One frame for each path -/

/-- The frames that were handed out are the tables other than the root, each handed out once. -/
structure Machine.Booked {η α : Type} (m : Machine η α) (root : Frame) : Prop where
  accounted : m.Accounted root
  nodup : m.handedOut.Nodup

/-- As many frames have been handed out as there are paths to tables. -/
theorem Machine.Booked.length_handedOut {η α : Type} {m : Machine η α} {root : Frame}
    (hb : m.Booked root) (hap : m.memory.Apart root) :
    m.handedOut.length = (m.memory.tablePaths root).ncard := by
  -- Different paths lead to different frames, and to all that were handed out: so they are as many.
  let frameAt (p : List Index) : Frame := (m.memory.tableAt? root p).getD root
  have hinj : Set.InjOn frameAt (m.memory.tablePaths root) := by
    intro p hp q hq heq
    obtain ⟨hp, -, t, ht⟩ := hp
    obtain ⟨hq, -, u, hu⟩ := hq
    obtain rfl : t = u := by simpa [frameAt, ht, hu] using heq
    exact hap hp hq ht hu
  have himage : frameAt '' m.memory.tablePaths root = ↑m.handedOut.toFinset := by
    ext f
    rw [List.coe_toFinset, Set.mem_ofPred_eq, mem_handedOut_iff, hb.accounted f]
    constructor
    · intro hf
      obtain ⟨p, ⟨hp, hne, t, ht⟩, rfl⟩ := hf
      have hframe : frameAt p = t := by simp [frameAt, ht]
      rw [hframe]
      refine ⟨fun hroot => hne ?_, p, hp, ht⟩
      -- The root is found at its own path only.
      exact hap hp IsPath.nil ht (hroot ▸ rfl)
    · intro hf
      obtain ⟨hroot, p, hp, ht⟩ := hf
      refine ⟨p, ⟨hp, fun hnil => hroot ?_, f, ht⟩, by simp [frameAt, ht]⟩
      subst hnil
      exact (Option.some.inj ht).symm
  rw [← hinj.ncard_image, himage, Set.ncard_coe_finset, List.toFinset_card_of_nodup hb.nodup]

namespace AddressSpace

variable {η α : Type} [Mmu η] [WalkingMmu η] [FrameSource α] {s : AddressSpace η α}

/-- Every action keeps the frames booked. -/
theorem Sound.booked_perform (hs : s.Sound) (hb : s.machine.Booked s.root) (a : Action) :
    (s.perform a).2.machine.Booked (s.perform a).2.root := by
  obtain ⟨n, hn⟩ := hs.perform_asks a
  exact ⟨hs.accounted_perform hb.accounted a, hn.nodup_handedOut hs.orderly hb.accounted hb.nodup⟩

theorem Sound.booked_performAll (hs : s.Sound) (hb : s.machine.Booked s.root)
    {actions : List Action} (hp : s.PermitsAll actions) :
    (s.performAll actions).2.machine.Booked (s.performAll actions).2.root := by
  induction actions generalizing s with
  | nil => exact hb
  | cons a rest ih => exact ih (hs.perform hp.1) (hs.booked_perform hb a) hp.2

omit [Mmu η] [WalkingMmu η] [FrameSource α] in
theorem booked_create {root : Frame} {mem : Memory} {frames : α} (mmu : η)
    (hzero : mem.table root = .zero) :
    (create root .identity mmu frames mem).machine.Booked root :=
  ⟨accounted_create mmu hzero, List.nodup_nil⟩

end AddressSpace

end Paging
