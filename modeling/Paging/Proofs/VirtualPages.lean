import Paging.Hierarchy.Map

/-!
# Pages of the virtual address space

The four indices of a canonical address and the page around it determine each other, and an
address lies in the window exactly when its first index is that of the root's own slot. Mapping
and unmapping accept the canonical pages outside of the window.
-/

namespace Paging

/-! ## Canonical addresses -/

namespace Address

theorem getLsbD_canonicalize (va : VirtAddr) {i : Nat} (hi : i < 64) :
    va.canonicalize.word.getLsbD i = va.word.getLsbD (min i 47) := by
  simp only [canonicalize, translatedBits, BitVec.getLsbD_signExtend, hi, decide_true,
    Bool.true_and]
  by_cases h : i < 48
  · -- Below the sign bit nothing changes.
    have hmin : min i 47 = i := by omega
    simp [h, hmin]
  · -- Above it there are only copies of it.
    have hmin : min i 47 = 47 := by omega
    simp [h, hmin, BitVec.msb_eq_getLsbD_last]

/-- An address is canonical if the bits above its sign bit repeat the sign. -/
theorem isCanonical_iff (va : VirtAddr) :
    va.isCanonical ↔ ∀ i, 48 ≤ i → i < 64 → va.word.getLsbD i = va.word.getLsbD 47 := by
  have hword : va.isCanonical ↔ va.canonicalize.word = va.word := by
    obtain ⟨w⟩ := va
    simp only [isCanonical, beq_iff_eq]
    constructor
    · exact fun h => congrArg word h
    · exact fun h => congrArg mk h
  rw [hword]
  constructor
  · intro h i hlow hhigh
    rw [← h, getLsbD_canonicalize va hhigh, getLsbD_canonicalize va (by omega)]
    congr 1
    omega
  · intro h
    apply BitVec.eq_of_getLsbD_eq
    intro i hi
    rw [getLsbD_canonicalize va hi]
    by_cases hlow : i < 48
    · rw [Nat.min_eq_left (by omega)]
    · rw [h i (by omega) hi, Nat.min_eq_right (by omega)]

theorem getLsbD_alignDown_4K (va : VirtAddr) (i : Nat) :
    (va.alignDown .size4K).word.getLsbD i = (decide (12 ≤ i) && va.word.getLsbD i) := by
  simp [alignDown, Word.getLsbD_clearLow, PageSize.shift]

@[simp] theorem isCanonical_alignDown (va : VirtAddr) :
    (va.alignDown .size4K).isCanonical = va.isCanonical := by
  rw [Bool.eq_iff_iff, isCanonical_iff, isCanonical_iff]
  have h47 : (va.alignDown .size4K).word.getLsbD 47 = va.word.getLsbD 47 := by
    rw [getLsbD_alignDown_4K]
    simp
  -- The sign and the bits above it are not among those that are cleared.
  refine forall_congr' fun i => forall_congr' fun hi => forall_congr' fun _ => ?_
  rw [h47, getLsbD_alignDown_4K, decide_eq_true (by omega), Bool.true_and]

/-! ## Indices -/

theorem getLsbD_index (va : VirtAddr) (level : Level) (i : Nat) :
    (va.index level).getLsbD i = (decide (i < 9) && va.word.getLsbD (level.shift + i)) := by
  simp [index]

@[simp] theorem index_alignDown (va : VirtAddr) (level : Level) :
    (va.alignDown .size4K).index level = va.index level := by
  apply BitVec.eq_of_getLsbD_eq
  intro i _
  -- No index reaches into the offset.
  have h : 12 ≤ level.shift + i := by cases level <;> simp [Level.shift] <;> omega
  simp [getLsbD_index, getLsbD_alignDown_4K, h]

@[simp] theorem indices_alignDown (va : VirtAddr) :
    (va.alignDown .size4K).indices = va.indices := by
  simp [indices]

@[simp] theorem get_indices (va : VirtAddr) (level : Level) :
    va.indices.get level = va.index level := by
  cases level <;> rfl

end Address

/-! ## Pages -/

namespace Indices

/-- The bits of a page's address: offset, four indices from the lowest level up, and the sign. -/
theorem getLsbD_page (ix : Indices) {i : Nat} (hi : i < 64) :
    ix.page.word.getLsbD i =
      if i < 12 then false
      else if i < 21 then ix.l1.getLsbD (i - 12)
      else if i < 30 then ix.l2.getLsbD (i - 21)
      else if i < 39 then ix.l3.getLsbD (i - 30)
      else ix.l4.getLsbD (min i 47 - 39) := by
  show ((ix.l4 ++ ix.l3 ++ ix.l2 ++ ix.l1 ++ 0#12 : BitVec 48).signExtend 64).getLsbD i = _
  rw [BitVec.getLsbD_signExtend, BitVec.msb_eq_getLsbD_last]
  simp only [BitVec.getLsbD_append, BitVec.getLsbD_zero]
  grind

@[simp] theorem index_page (ix : Indices) (level : Level) : ix.page.index level = ix.get level := by
  apply BitVec.eq_of_getLsbD_eq
  intro i hi
  have hlt : level.shift + i < 64 := by cases level <;> simp [Level.shift] <;> omega
  rw [Address.getLsbD_index, decide_eq_true hi, Bool.true_and, getLsbD_page ix hlt]
  -- Each level reads back the part of the address that its index was put into.
  cases level <;> simp only [Level.shift, get] <;> grind

theorem indices_page (ix : Indices) : ix.page.indices = ix := by
  simp [Address.indices, get]

theorem isCanonical_page (ix : Indices) : ix.page.isCanonical := by
  rw [Address.isCanonical_iff]
  intro i hlow hhigh
  rw [getLsbD_page ix hhigh, getLsbD_page ix (by decide)]
  grind

end Indices

namespace Address

/-- A canonical address lies in the page that its indices select. -/
theorem page_indices {va : VirtAddr} (h : va.isCanonical) :
    va.indices.page = va.alignDown .size4K := by
  have hword : va.indices.page.word = (va.alignDown .size4K).word := by
    apply BitVec.eq_of_getLsbD_eq
    intro i hi
    rw [Indices.getLsbD_page _ hi, getLsbD_alignDown_4K]
    -- The indices say what the bits below 48 are, and the sign says the others.
    have hbit := (isCanonical_iff va).mp h
    simp only [indices, getLsbD_index, Level.shift]
    grind
  exact congrArg mk hword

/-! ## The window -/

theorem toNat_index (va : VirtAddr) (level : Level) :
    (va.index level).toNat = va.word.toNat >>> level.shift % 512 := by
  simp [index, BitVec.extractLsb'_toNat]

/-- The window is what the root's own slot covers. -/
theorem contains_window_iff {va : VirtAddr} (h : va.isCanonical) :
    Window.contains va ↔ va.index .l4 = selfIndex := by
  have hindex : va.index .l4 = selfIndex ↔ va.word.toNat / 2 ^ 39 % 512 = 1 := by
    rw [← BitVec.toNat_inj, toNat_index, Nat.shiftRight_eq_div_pow]
    rfl
  have hrange : Window.contains va ↔ 2 ^ 39 ≤ va.word.toNat ∧ va.word.toNat < 2 ^ 40 := by
    simp [Window.contains, Window.start, Window.stop, BitVec.le_def, BitVec.lt_def]
  rw [hindex, hrange]
  constructor
  · intro hr
    omega
  · intro hi
    -- A canonical address with bit 47 clear lies in the lower half.
    have h47 : va.word.getLsbD 47 = false := by
      have hbit : (va.index .l4).getLsbD 8 = false := by
        rw [hindex.mpr hi]
        decide
      rwa [getLsbD_index, decide_eq_true (by decide), Bool.true_and] at hbit
    have hlt : va.word.toNat < 2 ^ 47 := by
      apply Nat.lt_pow_two_of_testBit
      intro i hlow
      by_cases hhigh : i < 64
      · by_cases heq : i = 47
        · exact heq ▸ h47
        · exact ((isCanonical_iff va).mp h i (by omega) hhigh).trans h47
      · exact BitVec.getLsbD_of_ge va.word i (by omega)
    omega

end Address

/-- Mapping and unmapping accept the canonical pages outside of the window. -/
theorem mappable?_eq_some_iff {va : VirtAddr} {ix : Indices} :
    Hierarchy.mappable? va = some ix ↔ va.isCanonical ∧ va.indices = ix ∧ ix.l4 ≠ selfIndex := by
  simp only [Hierarchy.mappable?, Address.indices?, Address.isCanonical_alignDown,
    Address.indices_alignDown]
  by_cases h : va.isCanonical
  · have hc : Window.contains (va.alignDown .size4K) ↔ va.indices.l4 = selfIndex := by
      rw [Address.contains_window_iff (by simpa using h), Address.index_alignDown]
      rfl
    grind
  · simp [h]

end Paging
