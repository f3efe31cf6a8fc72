import Paging.Proofs.Placement

/-!
# A new table

A new table is linked into an empty slot first and cleared afterwards. As soon as it is linked its
path leads to it, whatever the frame still holds; once it is cleared that path is the only one that
has been added. No table moves, no link changes, and every page keeps its leaf, because the new
table has none.
-/

namespace Paging

namespace Memory

variable {mem mem' : Memory} {root table next frame : Frame} {p q : List Index} {i : Index}

/-- `mem'` is `mem` with `next`, which was no table before, linked into the empty slot `i` of the
table at `p`. Nothing is said of the contents of `next`. -/
structure Links (mem mem' : Memory) (root : Frame) (p : List Index) (i : Index)
    (table next : Frame) : Prop where
  isPath : IsPath (p ++ [i])
  parent : mem.tableAt? root p = some table
  vacant : (mem.read table i).present = false
  unused : ¬ mem.IsTable root next
  isEncodable : next.isEncodable
  slot : mem'.read table i = .link next
  other : ∀ f j, f ≠ next → ¬ (f = table ∧ j = i) → mem'.read f j = mem.read f j

/-- `mem'` is `mem` with a new table that is empty. -/
structure Extends (mem mem' : Memory) (root : Frame) (p : List Index) (i : Index)
    (table next : Frame) : Prop extends Links mem mem' root p i table next where
  empty : ∀ j, mem'.read next j = .zero

/-! ## Once the table is linked -/

namespace Links

variable (h : mem.Links mem' root p i table next)

include h

theorem isPath_parent : IsPath p := h.isPath.of_append_left

theorem ne_next_of_isTable {t : Frame} (ht : mem.IsTable root t) : t ≠ next := by
  intro heq
  exact h.unused (heq ▸ ht)

theorem root_ne_next : root ≠ next := h.ne_next_of_isTable (isTable_root mem root)

theorem isLink_vacant : (mem.read table i).isLink = false := by
  simp [Entry.isLink, h.vacant]

/-- The slot of the new table is not the root's own. -/
theorem not_self (hap : mem.Apart root) : ¬ (root = table ∧ selfIndex = i) := by
  intro heq
  obtain ⟨rfl, rfl⟩ := heq
  obtain rfl := hap h.isPath_parent IsPath.nil h.parent rfl
  exact h.isPath.2 rfl

/-- The root's own slot is left alone. -/
theorem read_self (hap : mem.Apart root) : mem'.read root selfIndex = mem.read root selfIndex :=
  h.other _ _ h.root_ne_next (h.not_self hap)

/-- The paths that do not lead through the new table are left alone. -/
theorem tableAt?_of_not_isPrefix (hap : mem.Apart root) (hq : IsPath q)
    (hpre : ¬ p ++ [i] <+: q) : mem'.tableAt? root q = mem.tableAt? root q := by
  apply tableAt?_congr
  intro p' j r t hsplit ht'
  have hp' : IsPath p' := hq.of_isPrefix ⟨j :: r, hsplit.symm⟩
  -- The slot is in a table, so it is not in the new frame; nor is it the slot that was filled.
  refine h.other _ _ (h.ne_next_of_isTable ⟨p', hp', ht'⟩) ?_
  intro heq
  obtain ⟨rfl, rfl⟩ := heq
  obtain rfl := hap hp' h.isPath_parent ht' h.parent
  exact hpre ⟨r, by simp [hsplit]⟩

/-- The new table is found at its place. -/
theorem tableAt?_child (hap : mem.Apart root) : mem'.tableAt? root (p ++ [i]) = some next := by
  have hparent : mem'.tableAt? root p = some table := by
    rw [h.tableAt?_of_not_isPrefix hap h.isPath_parent, h.parent]
    intro hpre
    exact absurd hpre.length_le (by simp)
  simp [tableAt?_concat hparent, h.slot, h.isEncodable]

/-- Clearing the new table is all that is left to be done. -/
theorem clear : mem.Extends (mem'.clear next) root p i table next where
  toLinks :=
    { h with
      slot := by
        rw [read_clear, if_neg (h.ne_next_of_isTable ⟨p, h.isPath_parent, h.parent⟩), h.slot]
      other := fun f j hf hslot => by rw [read_clear, if_neg hf, h.other f j hf hslot] }
  empty j := by rw [read_clear, if_pos rfl]

end Links

/-- A link is written into an empty slot. -/
theorem links_write (hp : IsPath (p ++ [i])) (ht : mem.tableAt? root p = some table)
    (hvacant : (mem.read table i).present = false) (hnext : ¬ mem.IsTable root next)
    (henc : next.isEncodable) :
    mem.Links (mem.write table i (.link next)) root p i table next where
  isPath := hp
  parent := ht
  vacant := hvacant
  unused := hnext
  isEncodable := henc
  slot := read_write_self ..
  other f j _ hslot := by rw [read_write, if_neg hslot]

/-! ## Once the table is cleared -/

namespace Extends

variable (h : mem.Extends mem' root p i table next)

include h

theorem read (f : Frame) (j : Index) :
    mem'.read f j =
      if f = next then .zero else if f = table ∧ j = i then .link next else mem.read f j := by
  split
  · rename_i heq
    exact heq ▸ h.empty j
  · rename_i hne
    split
    · rename_i hslot
      rw [hslot.1, hslot.2, h.slot]
    · rename_i hslot
      exact h.other f j hne hslot

/-- A new table adds one path, which leads to it. -/
theorem tableAt?_iff (hap : mem.Apart root) (hq : IsPath q) :
    mem'.tableAt? root q = some frame ↔
      (q = p ++ [i] ∧ frame = next) ∨ mem.tableAt? root q = some frame := by
  by_cases hpre : p ++ [i] <+: q
  · -- The path goes through the new link, where there was none before.
    obtain ⟨r, rfl⟩ := hpre
    have hbefore : mem.tableAt? root (p ++ [i] ++ r) = none := by
      simpa using tableAt?_eq_none_of_not_isLink h.parent h.isLink_vacant r
    have hchild := h.tableAt?_child hap
    rw [hbefore]
    cases r with
    | nil => simp [hchild, eq_comm]
    | cons j r =>
      -- The new table is empty, so nothing is below it.
      have hempty : (mem'.read next j).isLink = false := by simp [h.empty]
      rw [tableAt?_eq_none_of_not_isLink hchild hempty]
      simp
  · rw [h.tableAt?_of_not_isPrefix hap hq hpre]
    constructor
    · exact Or.inr
    · intro hq'
      rcases hq' with ⟨rfl, -⟩ | heq
      · exact absurd (List.prefix_refl _) hpre
      · exact heq

/-- A path that led to a table still leads there. -/
theorem tableAt?_of_some (hap : mem.Apart root) (hq : IsPath q)
    (hqf : mem.tableAt? root q = some frame) : mem'.tableAt? root q = some frame :=
  (h.tableAt?_iff hap hq).mpr (Or.inr hqf)

/-- A new table in a frame of its own keeps the tables apart. -/
theorem apart (hap : mem.Apart root) : mem'.Apart root := by
  intro q r f hq hr hqf hrf
  rw [h.tableAt?_iff hap hq] at hqf
  rw [h.tableAt?_iff hap hr] at hrf
  rcases hqf with ⟨rfl, rfl⟩ | hqf
  · -- Two new paths are the same one, and an old path does not lead to the new table.
    rcases hrf with ⟨rfl, -⟩ | hrf
    · rfl
    · exact absurd ⟨r, hr, hrf⟩ h.unused
  · rcases hrf with ⟨-, rfl⟩ | hrf
    · exact absurd ⟨q, hq, hqf⟩ h.unused
    · exact hap hq hr hqf hrf

/-- The new table is the only frame that becomes a table. -/
theorem isTable_iff (hap : mem.Apart root) :
    mem'.IsTable root frame ↔ frame = next ∨ mem.IsTable root frame := by
  constructor
  · intro htable
    obtain ⟨q, hq, hqf⟩ := htable
    rcases (h.tableAt?_iff hap hq).mp hqf with ⟨-, rfl⟩ | hqf
    · exact Or.inl rfl
    · exact Or.inr ⟨q, hq, hqf⟩
  · intro htable
    rcases htable with rfl | ⟨q, hq, hqf⟩
    · exact ⟨p ++ [i], h.isPath, h.tableAt?_child hap⟩
    · exact ⟨q, hq, h.tableAt?_of_some hap hq hqf⟩

/-- A new table keeps all links plain. -/
theorem ownLinks (hap : mem.Apart root) (hown : mem.OwnLinks root) : mem'.OwnLinks root where
  link {t j} hslot := by
    obtain ⟨q, hq, ht⟩ := hslot
    rw [h.read]
    -- A slot of the new table is empty, and of the others one holds a link more.
    rcases (h.tableAt?_iff hap hq.of_append_left).mp ht with ⟨-, rfl⟩ | ht
    · exact Or.inl (if_pos rfl)
    · rw [if_neg (h.ne_next_of_isTable ⟨q, hq.of_append_left, ht⟩)]
      split
      · exact Or.inr ⟨next, h.isEncodable, rfl⟩
      · exact hown.link ⟨q, hq, ht⟩
  selfLink := by
    rw [h.read_self hap]
    exact hown.selfLink

/-- A new table leaves every leaf as it was. -/
theorem leaf_eq (hap : mem.Apart root) {ix : Indices} (hix : ix.l4 ≠ selfIndex) :
    mem'.leaf root ix = mem.leaf root ix := by
  have hpath := Indices.isPath_path hix
  cases hbefore : mem.tableAt? root ix.path with
  | some t =>
    -- The slot that was filled is not in a table of leaves.
    have hslot : ¬ (t = table ∧ ix.l1 = i) := by
      intro heq
      obtain ⟨rfl, -⟩ := heq
      obtain rfl := hap hpath h.isPath_parent hbefore h.parent
      have hlen := h.isPath.length_le_of_concat
      simp [Indices.path_eq] at hlen
    rw [leaf_of_some hbefore, leaf_of_some (h.tableAt?_of_some hap hpath hbefore), h.read,
      if_neg (h.ne_next_of_isTable ⟨_, hpath, hbefore⟩), if_neg hslot]
  | none =>
    rw [leaf_of_none hbefore]
    cases hafter : mem'.tableAt? root ix.path with
    | none => exact leaf_of_none hafter
    | some t =>
      -- If the new table is the page's own, it holds no leaf.
      rcases (h.tableAt?_iff hap hpath).mp hafter with ⟨-, rfl⟩ | hsome
      · rw [leaf_of_some hafter, h.empty]
      · simp [hbefore] at hsome

end Extends

end Memory

end Paging
