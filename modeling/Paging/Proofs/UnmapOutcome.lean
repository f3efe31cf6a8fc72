import Paging.Hierarchy.Unmap
import Paging.Proofs.Descent
import Paging.Proofs.LeafChange
import Paging.Proofs.VirtualPages

/-!
# How unmapping ends

Unmapping removes the leaf of its page and returns the frame that the leaf named, or it is refused
and leaves all memory alone. In a hierarchy of own links the only reason for which a page outside
of the window is refused is that it has no leaf.
-/

namespace Paging

namespace Hierarchy

variable {η α : Type} [Mmu η]

/-! ## Following the links that are there -/

omit [Mmu η] in
/-- An entry that is no link stops the descent: one that is not present, or a huge page, which
covers the page that is looked for. -/
theorem followPresent_ends (page : VirtAddr) (level : Level) (e : Entry) (m : Machine η α) :
    (followPresent page level e).Ends m
      (fun t m' => m' = m ∧ e.isLink = true ∧ t = e.frame)
      (fun stop m' => e.isLink = false ∧ ((stop = .error .notMapped ∧ m' = m) ∨
        (e.present = true ∧ stop = .error .foreignEntry ∧ m' = m.log (.covered page level)))) := by
  have hrun := run_followPresent page level e m
  -- Present is looked at before huge.
  cases hpresent : e.present with
  | false =>
    rw [hpresent, if_pos rfl] at hrun
    exact .error hrun ⟨by simp [Entry.isLink, hpresent], Or.inl ⟨rfl, rfl⟩⟩
  | true =>
    rw [hpresent, if_neg (by simp)] at hrun
    split at hrun
    · rename_i hhuge
      exact .error hrun ⟨by simp [Entry.isLink, hhuge], Or.inr ⟨rfl, rfl, rfl⟩⟩
    · rename_i hhuge
      exact .ok hrun ⟨rfl, Entry.isLink_iff.mpr ⟨hpresent, eq_false_of_ne_true hhuge⟩, rfl⟩

section Find

variable {h : Hierarchy} {m : Machine η α} {ix : Indices} {levels : List Level} {frame : Frame}
  (hu : h.Usable m) (hr : m.memory.Reached h.root ix levels frame)

include hu hr

/-- The descent comes to the last table of the page if there is one, and changes nothing; if it
meets a huge page, which own links never hold, the log says so. -/
theorem findBelow_ends (hix : ix.l4 ≠ selfIndex) (page : VirtAddr) :
    (h.findBelow page ix levels frame).Ends m
      (fun t m' => m' = m ∧ m.memory.tableAt? h.root ix.path = some t)
      (fun stop m' => m.memory.tableAt? h.root ix.path = none ∧
        ((stop = .error .notMapped ∧ m' = m) ∨ (¬ m.memory.OwnLinks h.root ∧
          stop = .error .foreignEntry ∧ ∃ level, m' = m.log (.covered page level)))) := by
  induction levels generalizing frame with
  -- All links have been followed, so this is the last table.
  | nil => exact Op.Ends.pure ⟨rfl, hr.table⟩
  | cons level lower ih =>
    apply Op.Ends.of_run_eq _ (Op.run_bind_ok (run_read (hr.locate hu)) _)
    apply Op.Ends.bind
    · apply (followPresent_ends page level _ m).mono (fun _ _ hend => hend)
      intro stop m' hend
      obtain ⟨hlink, habsent | ⟨hpresent, hstop, hlog⟩⟩ := hend
      · exact ⟨hr.tableAt?_path_eq_none hlink, Or.inl habsent⟩
      · refine ⟨hr.tableAt?_path_eq_none hlink, Or.inr ⟨fun hown => ?_, hstop, level, hlog⟩⟩
        -- An own entry that is no link is not present at all.
        rw [hown.isLink_of_present (hr.isLinkSlot hix) hpresent] at hlink
        cases hlink
    · intro t m' hend
      obtain ⟨rfl, hlink, rfl⟩ := hend
      exact ih (hr.next hlink)

theorem run_findBelow_eq_direct (page : VirtAddr) :
    (h.findBelow page ix levels frame : Op (Machine η α) MapError Frame).run m =
      (h.direct.findBelow page ix levels frame).run m := by
  induction levels generalizing frame with
  | nil => rfl
  | cons level lower ih =>
    simp only [findBelow]
    rw [Op.run_bind_ok (run_read (hr.locate hu)), Op.run_bind_ok (run_read (h := h.direct) rfl)]
    -- The same entry is read either way, and what it links to is found in both ways again.
    apply Op.run_bind_congr rfl (followPresent_ends page level _ m)
    intro t m' hend
    obtain ⟨rfl, hlink, rfl⟩ := hend
    exact ih (hr.next hlink)

end Find

/-! ## Removing the leaf -/

section Leaf

variable {h : Hierarchy} {m : Machine η α} {ix : Indices} {table : Frame}

theorem run_removeLeaf_of_absent (hl : h.locate m.mmu m.memory .l1 ix table = .ok table)
    (hold : m.memory.read table ix.l1 = .zero) :
    (h.removeLeaf ix.page ix table).run m = (.error (.error .notMapped), m) := by
  rw [run_removeLeaf, hl]
  exact if_pos hold

theorem run_removeLeaf_of_mapped (hl : h.locate m.mmu m.memory .l1 ix table = .ok table)
    (hold : m.memory.read table ix.l1 ≠ .zero) :
    (h.removeLeaf ix.page ix table).run m =
      (.ok (m.memory.read table ix.l1).address, (h.replaced ix table .zero m).log
        (.unmapped ix.page (m.memory.read table ix.l1).address)) := by
  rw [run_removeLeaf, hl]
  exact if_neg hold

theorem run_removeLeaf_eq_direct (hl : h.locate m.mmu m.memory .l1 ix table = .ok table) :
    (h.removeLeaf ix.page ix table).run m = (h.direct.removeLeaf ix.page ix table).run m := by
  rw [run_removeLeaf, run_removeLeaf, hl, locate_direct]
  rfl

end Leaf

/-! ## The whole operation -/

theorem run_unmap_of_unmappable (h : Hierarchy) {va : VirtAddr} (hva : mappable? va = none)
    (m : Machine η α) : (h.unmap va).run m = (.error (.error .invalidVirtual), m) := by
  simp only [unmap, hva]
  rfl

theorem run_unmap_of_mappable (h : Hierarchy) {va : VirtAddr} {ix : Indices}
    (hva : mappable? va = some ix) (m : Machine η α) :
    (h.unmap va).run m =
      (h.findBelow ix.page ix Level.linking h.root >>= h.removeLeaf ix.page ix).run m := by
  -- The page of the indices is the page around the address.
  obtain ⟨hcanonical, rfl, -⟩ := mappable?_eq_some_iff.mp hva
  simp only [unmap, hva, Address.page_indices hcanonical]
  rfl

section Whole

variable [FrameSource α] {h : Hierarchy} {m : Machine η α} (hu : h.Usable m)

include hu

/-- Unmapping removes the leaf of the page and returns the address that it held, or it is refused
because there is no leaf. -/
theorem unmap_ends (va : VirtAddr) :
    (h.unmap va).Ends m
      (fun pa m' => ∃ ix, mappable? va = some ix ∧ m.memory.leaf h.root ix ≠ .zero ∧
        pa = (m.memory.leaf h.root ix).address ∧ SetsLeaf h ix .zero m m')
      (fun stop m' => GrowsTo h m m' ∧ ∃ cause, stop = .error cause ∧
        (mappable? va = none → cause = .invalidVirtual) ∧
        ∀ ix, mappable? va = some ix → m.memory.leaf h.root ix = .zero ∧
          (m.memory.OwnLinks h.root → cause = .notMapped)) := by
  cases hva : mappable? va with
  | none =>
    apply Op.Ends.error (run_unmap_of_unmappable h hva m)
    refine ⟨.refl, _, rfl, fun _ => rfl, ?_⟩
    intro ix heq
    cases heq
  | some ix =>
    obtain ⟨-, -, hix⟩ := mappable?_eq_some_iff.mp hva
    apply Op.Ends.of_run_eq _ (run_unmap_of_mappable h hva m)
    apply Op.Ends.bind
    · -- A page without a table has no leaf.
      apply (findBelow_ends hu (.start m.memory h.root ix) hix ix.page).mono (fun _ _ hend => hend)
      intro stop m' hend
      obtain ⟨hnone, ⟨rfl, rfl⟩ | ⟨hforeign, rfl, level, rfl⟩⟩ := hend
      · refine ⟨.refl, _, rfl, by simp, ?_⟩
        intro jx heq
        obtain rfl := Option.some.inj heq
        exact ⟨Memory.leaf_of_none hnone, fun _ => rfl⟩
      · -- A huge page covers the page, which own links do not do; all that it leaves is a record.
        refine ⟨.single (.log m _), _, rfl, by simp, ?_⟩
        intro jx heq
        obtain rfl := Option.some.inj heq
        exact ⟨Memory.leaf_of_none hnone, fun hown => absurd hown hforeign⟩
    · intro t m' hend
      obtain ⟨rfl, ht⟩ := hend
      have hl := hu.locate_leaf ht
      by_cases hold : m'.memory.read t ix.l1 = .zero
      · -- The table is there, and the leaf is not.
        apply Op.Ends.error (run_removeLeaf_of_absent hl hold)
        refine ⟨.refl, _, rfl, ?_, ?_⟩
        · intro heq
          cases heq
        · intro jx heq
          obtain rfl := Option.some.inj heq
          exact ⟨by rw [Memory.leaf_of_some ht, hold], fun _ => rfl⟩
      · -- The leaf of the page is what stands in the last table.
        apply Op.Ends.ok (run_removeLeaf_of_mapped hl hold)
        exact ⟨ix, rfl, by rwa [Memory.leaf_of_some ht], by rw [Memory.leaf_of_some ht],
          .intro m' m' t _ .refl ht⟩

omit [FrameSource α] in
/-- The way to the tables makes no difference to unmapping. -/
theorem run_unmap_eq_direct (va : VirtAddr) : (h.unmap va).run m = (h.direct.unmap va).run m := by
  cases hva : mappable? va with
  | none => rw [run_unmap_of_unmappable h hva, run_unmap_of_unmappable h.direct hva]
  | some ix =>
    obtain ⟨-, -, hix⟩ := mappable?_eq_some_iff.mp hva
    rw [run_unmap_of_mappable h hva, run_unmap_of_mappable h.direct hva]
    apply Op.run_bind_congr
      (run_findBelow_eq_direct hu (.start m.memory h.root ix) ix.page)
      (findBelow_ends hu (.start m.memory h.root ix) hix ix.page)
    intro t m' hend
    obtain ⟨rfl, ht⟩ := hend
    exact run_removeLeaf_eq_direct (hu.locate_leaf ht)

end Whole

end Hierarchy

end Paging
