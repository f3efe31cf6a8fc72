import Paging.Proofs.MapReport
import Paging.Proofs.SafeStops

/-!
# Every table has a window address of its own

The tables of all four levels share the window. A walk that comes through the window passes the
root's own slot some number of times before it takes the indices of an address, and this number
tells at which level the table stands: the first index that follows is not that of the root's slot,
since the address lies outside of the window. The indices after the passes are the way to the table.
So two tables never meet at one address, and as all of them are in the window no page that can be
mapped is ever one of them.
-/

namespace Paging

/-! ## Pages and their indices -/

namespace Indices

theorem eq_of_page_eq {ix jx : Indices} (h : ix.page = jx.page) : ix = jx := by
  rw [← indices_page ix, h, indices_page]

theorem isAligned_page (ix : Indices) : ix.page.isAligned .size4K = true := by
  have hpage : ix.page = ix.page.alignDown .size4K := by
    rw [← Address.page_indices ix.isCanonical_page, indices_page]
  rw [hpage]
  exact Address.isAligned_alignDown ix.page .size4K

theorem eq_of_toList_eq {ix jx : Indices} (h : ix.toList = jx.toList) : ix = jx := by
  obtain ⟨i4, i3, i2, i1⟩ := ix
  obtain ⟨j4, j3, j2, j1⟩ := jx
  simpa [toList, Level.topDown, get] using h

/-- How often the walk of a page passes the root's own slot before anything else. -/
def passes (ix : Indices) : Nat := (ix.toList.takeWhile (· == selfIndex)).length

end Indices

/-! ## Window addresses -/

namespace Window

variable {level level' : Level} {ix jx : Indices}

/-- A window address is some passes through the root's own slot and the way to the table. -/
theorem toList_slots (level : Level) (ix : Indices) :
    (slots level ix).toList =
      List.replicate (4 - level.depth) selfIndex ++ level.above.map ix.get := by
  cases level <;> rfl

/-- The passes end where the way of an address outside of the window starts. -/
theorem passes_slots (h : ix.l4 ≠ selfIndex) : (slots level ix).passes = 4 - level.depth := by
  -- After the passes comes the first index of the address, or nothing at the root.
  cases level <;> simp [Indices.passes, Indices.toList, Level.topDown, slots, Indices.get, h,
    Level.depth]

theorem level_eq_of_slots_eq (hi : ix.l4 ≠ selfIndex) (hj : jx.l4 ≠ selfIndex)
    (h : slots level ix = slots level' jx) : level = level' := by
  -- Equal addresses have equally many passes, and the number of passes tells the level.
  have hdepth : 4 - level.depth = 4 - level'.depth := by
    rw [← passes_slots hi, h, passes_slots hj]
  cases level <;> cases level' <;> simp [Level.depth] at hdepth ⊢

/-- At one level two ways are shown at one address if and only if they are the same. -/
theorem slots_eq_slots_iff :
    slots level ix = slots level jx ↔ ∀ l ∈ level.above, ix.get l = jx.get l := by
  rw [← List.map_inj_left]
  constructor
  · intro h
    have hlist := congrArg Indices.toList h
    rw [toList_slots, toList_slots] at hlist
    -- The passes are the same, so the ways that follow them are.
    exact List.append_cancel_left hlist
  · intro h
    apply Indices.eq_of_toList_eq
    rw [toList_slots, toList_slots, h]

theorem table_eq_table_iff (hi : ix.l4 ≠ selfIndex) (hj : jx.l4 ≠ selfIndex) :
    table level ix = table level' jx ↔
      level = level' ∧ ∀ l ∈ level.above, ix.get l = jx.get l := by
  constructor
  · intro h
    -- A page determines its indices.
    have hslots : slots level ix = slots level' jx := Indices.eq_of_page_eq h
    obtain rfl := level_eq_of_slots_eq hi hj hslots
    exact ⟨rfl, slots_eq_slots_iff.mp hslots⟩
  · rintro ⟨rfl, h⟩
    exact congrArg Indices.page (slots_eq_slots_iff.mpr h)

end Window

/-! ## What is never mapped -/

namespace Address

theorem not_isPlain_of_alignDown {va : VirtAddr} {level : Level} {ix : Indices}
    (h : va.alignDown .size4K = Window.table level ix) : ¬ va.IsPlain := by
  intro hplain
  -- The page has the first index of the window address, which is that of the root's own slot.
  apply hplain.l4_ne
  have hindex : va.index .l4 = (Window.table level ix).index .l4 := by
    -- Aligning an address to its page keeps its indices.
    rw [← h, index_alignDown]
  have hself := (contains_window_iff (Window.slots level ix).isCanonical_page).mp
    (Window.contains_table level ix)
  exact hindex.trans hself

end Address

namespace AddressSpace

variable {η α : Type} [Mmu η] (s : AddressSpace η α) {va : VirtAddr}

theorem perform_unmap_of_not_isPlain [FrameSource α] (hva : ¬ va.IsPlain) :
    s.perform (.unmap va) = (.refused (.map .invalidVirtual), s) :=
  perform_unmap_of_run
    (Hierarchy.run_unmap_of_unmappable s.hierarchy (mappable?_eq_none_iff.mpr hva) s.machine)

/-- Outside of the window two addresses have a table in common exactly if they share the way to it,
and only then do window addresses coincide. Every window address is the canonical base of a page in
the window, which is what the root's own slot covers, and no action maps or unmaps a page there. -/
theorem tables_apart [FrameSource α] :
    (∀ (a b : VirtAddr) (ix jx : Indices), a.IsPlain → b.IsPlain → a.indices? = some ix →
      b.indices? = some jx → ∀ level level',
        (Window.table level ix = Window.table level' jx ↔
          level = level' ∧ ∀ l ∈ level.above, a.index l = b.index l)) ∧
    (∀ level ix, (Window.table level ix).isCanonical = true ∧
      (Window.table level ix).isAligned .size4K = true ∧
      Window.contains (Window.table level ix) = true) ∧
    (∀ va : VirtAddr, va.isCanonical = true →
      (Window.contains va = true ↔ va.index .l4 = selfIndex)) ∧
    ∀ (s : AddressSpace η α) (va : VirtAddr) (level : Level) (ix : Indices),
      va.alignDown .size4K = Window.table level ix →
        s.perform (.unmap va) = (.refused (.map .invalidVirtual), s) ∧
        ∀ pa flags force,
          s.perform (.map va pa flags force) = (.refused (.map .invalidVirtual), s) := by
  refine ⟨?_, ?_, fun va => Address.contains_window_iff, ?_⟩
  · intro a b ix jx ha hb hix hjx level level'
    obtain rfl : a.indices = ix := by simpa [Address.indices?, ha.1] using hix
    obtain rfl : b.indices = jx := by simpa [Address.indices?, hb.1] using hjx
    simp only [Window.table_eq_table_iff ha.l4_ne hb.l4_ne, Address.get_indices]
  · intro level ix
    exact ⟨Indices.isCanonical_page _, Indices.isAligned_page _, Window.contains_table level ix⟩
  · intro s va level ix hva
    have hplain := Address.not_isPlain_of_alignDown hva
    exact ⟨s.perform_unmap_of_not_isPlain hplain, s.perform_map_of_not_isPlain hplain⟩

/-- Two pages of one table, whose way repeats the index of the root's own slot below the root. The
table above theirs is shown elsewhere, and the page at which the root is shown is not mapped. -/
theorem tables_apart_specimen :
    let a : VirtAddr := ⟨0x10040201000⟩
    let b : VirtAddr := ⟨0x10040205000⟩
    Window.table .l1 a.indices = Window.table .l1 b.indices ∧
      Window.table .l2 a.indices ≠ Window.table .l1 b.indices ∧
      Specimen.start.perform (.map ⟨0x8040201abc⟩ ⟨0x9000⟩ .kernelData true) =
        (.refused (.map .invalidVirtual), Specimen.start) := by
  intro a b
  obtain ⟨hiff, -, -, hrefused⟩ :=
    tables_apart (η := Hardware.Simulated) (α := Screened Script)
  have htables := hiff a b a.indices b.indices (by decide) (by decide) (by decide) (by decide)
  refine ⟨(htables .l1 .l1).mpr ⟨rfl, by decide⟩, fun hsame => ?_, ?_⟩
  · exact absurd ((htables .l2 .l1).mp hsame).1 (by decide)
  · exact (hrefused Specimen.start ⟨0x8040201abc⟩ .l4 a.indices (by decide)).2 ..

end AddressSpace

end Paging
