import Paging.Proofs.IdentityMapping

/-!
# Boot regions are covered exactly

The regions of a memory map are all mapped if each of them that needs mapping is aligned, lies in
the lower half of the address space and keeps clear of the window, and as long as the frame source
does not decline. Then the addresses of these regions translate to themselves unless something else
was mapped there before, and no other address translates in another way than it did.
-/

namespace Paging

/-! ## Addresses as numbers -/

namespace Address

variable {space : Space}

theorem isAligned_4K_iff {a : Address space} :
    a.isAligned .size4K = true ↔ a.word.toNat % 4096 = 0 := by
  have hoffset : a.isAligned .size4K = true ↔ a.word.lowBits 12 = 0 := by
    simp [isAligned, offset, PageSize.shift]
  rw [hoffset, ← BitVec.toNat_inj, Word.toNat_lowBits]
  rfl

theorem toNat_alignDown_4K (a : Address space) :
    (a.alignDown .size4K).word.toNat = a.word.toNat / 4096 * 4096 := by
  rw [alignDown, Word.toNat_clearLow, Nat.shiftRight_eq_div_pow, Nat.shiftLeft_eq]
  rfl

/-- An address of physical memory is canonical if it lies in the lower half. -/
theorem isCanonical_iff_lt {va : VirtAddr} (hva : va.word.toNat < 2 ^ 52) :
    va.isCanonical = true ↔ va.word.toNat < 2 ^ 47 := by
  have hhigh : ∀ i, 52 ≤ i → va.word.getLsbD i = false := fun i hi =>
    Nat.testBit_lt_two_pow (Nat.lt_of_lt_of_le hva (Nat.pow_le_pow_right (by decide) hi))
  rw [isCanonical_iff]
  constructor
  · intro h
    -- The sign is that of bit 52, which is clear.
    have hsign : va.word.getLsbD 47 = false :=
      (h 52 (by decide) (by decide)).symm.trans (hhigh 52 (Nat.le_refl 52))
    apply Nat.lt_pow_two_of_testBit
    intro i hi
    rcases Nat.lt_or_ge i 52 with hlt | hge
    · rcases Nat.eq_or_lt_of_le hi with rfl | hi
      · exact hsign
      · exact (h i hi (by omega)).trans hsign
    · exact hhigh i hge
  · intro h i hi _
    -- In the lower half all bits from the sign on are clear.
    have hclear : ∀ j, 47 ≤ j → va.word.getLsbD j = false := fun j hj =>
      Nat.testBit_lt_two_pow (Nat.lt_of_lt_of_le h (Nat.pow_le_pow_right (by decide) hj))
    rw [hclear i (by omega), hclear 47 (Nat.le_refl 47)]

theorem contains_window_iff_toNat {va : VirtAddr} :
    Window.contains va = true ↔ 2 ^ 39 ≤ va.word.toNat ∧ va.word.toNat < 2 ^ 40 := by
  simp [Window.contains, Window.start, Window.stop, BitVec.le_def, BitVec.lt_def]

/-- The pages that can be mapped onto themselves are those of the lower half outside of the
window. -/
theorem isIdentityMappable_iff {pa : PhysAddr} :
    pa.IsIdentityMappable ↔ pa.word.toNat % 4096 = 0 ∧ pa.word.toNat < 2 ^ 47 ∧
      ¬ (2 ^ 39 ≤ pa.word.toNat ∧ pa.word.toNat < 2 ^ 40) := by
  have hlimit : pa.word < physicalLimit ↔ pa.word.toNat < 2 ^ 52 := by
    rw [BitVec.lt_def]
    rfl
  rw [IsIdentityMappable, IsPlain, IsFrameBase, isAligned_4K_iff, hlimit, Bool.eq_false_iff, ne_eq,
    contains_window_iff_toNat]
  constructor
  · intro h
    obtain ⟨⟨hcanonical, hwindow⟩, haligned, hlt⟩ := h
    exact ⟨haligned, (isCanonical_iff_lt hlt).mp hcanonical, hwindow⟩
  · intro h
    obtain ⟨haligned, hlt, hwindow⟩ := h
    have hlt' : pa.word.toNat < 2 ^ 52 := Nat.lt_trans hlt (by decide)
    exact ⟨⟨(isCanonical_iff_lt hlt').mpr hlt, hwindow⟩, haligned, hlt'⟩

end Address

/-! ## Regions -/

namespace Region

variable {r : Region} {space : Space}

/-- Whether an address lies in a region, read as a number of either space. -/
def Holds (r : Region) (a : Address space) : Prop :=
  r.base.word.toNat ≤ a.word.toNat ∧ a.word.toNat < r.base.word.toNat + r.pages.toNat * 4096

instance (r : Region) (a : Address space) : Decidable (r.Holds a) :=
  inferInstanceAs (Decidable (_ ∧ _))

/-- Whether all of a region can be mapped onto itself: it is aligned, ends in the lower half at the
latest and has no page of the window. -/
structure IsMappable (r : Region) : Prop where
  aligned : r.base.isAligned .size4K = true
  below : r.base.word.toNat + r.pages.toNat * 4096 ≤ 2 ^ 47
  outside : ∀ va : VirtAddr, r.Holds va → Window.contains va = false

/-- A region without pages fits. -/
theorem fits_of_pages_eq_zero (h : r.pages = 0) : r.base.Fits r.pages.toNat := by
  rw [Address.Fits, h]
  simpa using r.base.word.isLt

theorem IsMappable.fits (h : r.IsMappable) : r.base.Fits r.pages.toNat :=
  Nat.lt_of_le_of_lt h.below (by decide)

/-- Every page of a region that can be mapped can be mapped. -/
theorem IsMappable.page (h : r.IsMappable) {j : Nat} (hj : j < r.pages.toNat) :
    (r.base.pageAt j).IsIdentityMappable := by
  have haligned := Address.isAligned_4K_iff.mp h.aligned
  have hbelow := h.below
  have hpage := Address.toNat_pageAt (h.fits.mono (Nat.le_of_lt hj))
  -- The base of the page lies in the region, and the region has nothing of the window.
  have hholds : r.Holds (⟨(r.base.pageAt j).word⟩ : VirtAddr) := by
    rw [Holds, hpage]
    omega
  have hwindow := h.outside _ hholds
  rw [Bool.eq_false_iff, ne_eq, Address.contains_window_iff_toNat] at hwindow
  rw [Address.isIdentityMappable_iff]
  exact ⟨by omega, by omega, hwindow⟩

/-- A region can be mapped if each of its pages can. -/
theorem isMappable_of_pages (hfits : r.base.Fits r.pages.toNat) (hne : r.pages ≠ 0)
    (h : ∀ j < r.pages.toNat, (r.base.pageAt j).IsIdentityMappable) : r.IsMappable := by
  have hpages : 0 < r.pages.toNat :=
    Nat.pos_of_ne_zero fun hzero => hne (BitVec.eq_of_toNat_eq hzero)
  have hpage : ∀ j < r.pages.toNat, (r.base.word.toNat + j * 4096) % 4096 = 0 ∧
      r.base.word.toNat + j * 4096 < 2 ^ 47 ∧ ¬ (2 ^ 39 ≤ r.base.word.toNat + j * 4096 ∧
        r.base.word.toNat + j * 4096 < 2 ^ 40) := by
    intro j hj
    rw [← Address.toNat_pageAt (hfits.mono (Nat.le_of_lt hj))]
    exact Address.isIdentityMappable_iff.mp (h j hj)
  -- The first page is the region's base, so the base is aligned.
  obtain ⟨haligned, -, -⟩ := hpage 0 hpages
  refine ⟨Address.isAligned_4K_iff.mpr (by omega), ?_, fun va hva => ?_⟩
  · -- The last page lies in the lower half, and so does its last address.
    obtain ⟨hlast, hlt, -⟩ := hpage (r.pages.toNat - 1) (by omega)
    omega
  · -- An address of the window would lie in a page of the window.
    obtain ⟨hle, hlt⟩ := hva
    obtain ⟨-, -, hout⟩ := hpage ((va.word.toNat - r.base.word.toNat) / 4096) (by omega)
    rw [Bool.eq_false_iff, ne_eq, Address.contains_window_iff_toNat]
    omega

end Region

/-! ## Memory maps -/

namespace MemoryMap

variable {regions : List Region} {space : Space}

/-- Whether an address lies in a region that needs mapping. -/
def Holds (regions : List Region) (a : Address space) : Prop :=
  ∃ r ∈ regions, r.kind.needsMapping = true ∧ r.Holds a

instance (regions : List Region) (a : Address space) : Decidable (Holds regions a) :=
  inferInstanceAs (Decidable (∃ r ∈ regions, _))

/-- Whether all regions that need mapping can be mapped, those without pages apart. -/
def IsMappable (regions : List Region) : Prop :=
  ∀ r ∈ regions, r.kind.needsMapping = true → r.pages ≠ 0 → r.IsMappable

theorem mem_pages_iff {p : PhysAddr} : p ∈ pages regions ↔ ∃ r ∈ regions,
    r.kind.needsMapping = true ∧ ∃ j < r.pages.toNat, r.base.pageAt j = p := by
  rw [pages, List.mem_flatMap]
  refine exists_congr fun r => and_congr_right fun _ => ?_
  unfold regionPages
  split
  · rename_i hneeds
    simp [hneeds]
  · rename_i hskip
    simp [hskip]

theorem IsMappable.fits (h : IsMappable regions) {r : Region} (hr : r ∈ regions)
    (hneeds : r.kind.needsMapping = true) : r.base.Fits r.pages.toNat := by
  by_cases hne : r.pages = 0
  · exact r.fits_of_pages_eq_zero hne
  · exact (h r hr hneeds hne).fits

/-- A memory map can be mapped exactly if each of its pages can. -/
theorem isMappable_iff (hfits : ∀ r ∈ regions, r.kind.needsMapping = true →
    r.base.Fits r.pages.toNat) :
    IsMappable regions ↔ ∀ p ∈ pages regions, p.IsIdentityMappable := by
  constructor
  · intro h p hp
    obtain ⟨r, hr, hneeds, j, hj, rfl⟩ := mem_pages_iff.mp hp
    have hne : r.pages ≠ 0 := by
      intro hzero
      simp [hzero] at hj
    exact (h r hr hneeds hne).page hj
  · intro h r hr hneeds hne
    apply Region.isMappable_of_pages (hfits r hr hneeds) hne
    exact fun j hj => h _ (mem_pages_iff.mpr ⟨r, hr, hneeds, j, hj, rfl⟩)

/-- The pages of a memory map are those around the addresses of its regions. -/
theorem mem_identityPages_iff (h : IsMappable regions) {va : VirtAddr}
    (hva : va.isCanonical = true) :
    va.indices ∈ (pages regions).map Address.identityPage ↔ Holds regions va := by
  have hdown := va.toNat_alignDown_4K
  rw [List.mem_map]
  constructor
  · intro hmem
    obtain ⟨p, hp, hpage⟩ := hmem
    have hmappable := (isMappable_iff fun r hr hneeds => h.fits hr hneeds).mp h p hp
    obtain ⟨r, hr, hneeds, j, hj, rfl⟩ := mem_pages_iff.mp hp
    -- Both addresses have the same page, and the page's base is the sum.
    have hword := hmappable.page_identityPage
    rw [hpage, Address.page_indices hva] at hword
    have hnat := Address.toNat_pageAt ((h.fits hr hneeds).mono (Nat.le_of_lt hj))
    have hbase : (va.alignDown .size4K).word.toNat = (r.base.pageAt j).word.toNat := by rw [hword]
    exact ⟨r, hr, hneeds, by omega, by omega⟩
  · intro hholds
    obtain ⟨r, hr, hneeds, hle, hlt⟩ := hholds
    -- The page around the address is one of the region, since the region is aligned.
    have hj : (va.word.toNat - r.base.word.toNat) / 4096 < r.pages.toNat := by omega
    have hne : r.pages ≠ 0 := by
      intro hzero
      simp [hzero] at hj
    have haligned := Address.isAligned_4K_iff.mp (h r hr hneeds hne).aligned
    have hnat := Address.toNat_pageAt ((h.fits hr hneeds).mono (Nat.le_of_lt hj))
    refine ⟨_, mem_pages_iff.mpr ⟨r, hr, hneeds, _, hj, rfl⟩, ?_⟩
    -- Base and distance are whole pages, so the sum is the address aligned down.
    have hpage : (⟨(r.base.pageAt ((va.word.toNat - r.base.word.toNat) / 4096)).word⟩ : VirtAddr) =
        va.alignDown .size4K := by
      apply congrArg Address.mk
      apply BitVec.eq_of_toNat_eq
      show _ = (va.alignDown .size4K).word.toNat
      omega
    rw [Address.identityPage, hpage, Address.indices_alignDown]

end MemoryMap

/-! ## Translations -/

/-- The leaf that maps a page onto itself translates its addresses to themselves, but page zero
looks as if nothing were mapped. -/
theorem Hierarchy.leafAddress_identityLeaf {p : PhysAddr} (hp : p.IsIdentityMappable)
    {va : VirtAddr} (hva : va.isCanonical = true) (hpage : p.identityPage = va.indices)
    (flags : PageFlags) :
    leafAddress .l1 (va.indices.identityLeaf flags) va =
      if va.word < 4096 then .zero else ⟨va.word⟩ := by
  have hencodable := (target?_eq_some_iff.mp (target?_eq_some_containing.mpr hp.2)).2
  have hbase : (Page.containing p : Frame).base = p := Address.alignDown_of_isAligned hp.2.1
  have hdown := va.toNat_alignDown_4K
  have hword : (va.alignDown .size4K).word = p.word := by
    rw [← Address.page_indices hva, ← hpage, hp.page_identityPage]
  have hoffset : (va.offset .size4K).toNat = va.word.toNat % 4096 := Word.toNat_lowBits 12 va.word
  -- The frame at zero is that of the first 4096 addresses.
  have hzero : p = .zero ↔ va.word < 4096 := by
    have hnat : p = .zero ↔ p.word.toNat = 0 := by
      obtain ⟨w⟩ := p
      simp [Address.zero, ← BitVec.toNat_inj]
    have hlow : va.word < 4096 ↔ va.word.toNat < 4096 := BitVec.lt_def
    rw [hnat, hlow, ← hword]
    omega
  rw [leafAddress_l1, Entry.address, ← hpage, hp.identityLeaf, Entry.frame_leaf hencodable, hbase]
  simp only [hzero]
  split
  · rfl
  · apply congrArg Address.mk
    apply BitVec.eq_of_toNat_eq
    rw [BitVec.toNat_add, ← hword, hoffset, hdown, Nat.div_add_mod', Nat.mod_eq_of_lt va.word.isLt]

namespace AddressSpace

variable {η α : Type} [Mmu η] [WalkingMmu η]

theorem Sound.translate_eq_leafAddress [FrameSource α] {s : AddressSpace η α} (hs : s.Sound)
    {va : VirtAddr} (hva : va.IsPlain) : s.translate va =
      .ok (Hierarchy.leafAddress .l1 (s.machine.memory.leaf s.root va.indices) va) :=
  Hierarchy.translate_of_ownLinks hs.usable hs.ownLinks hva

/-! ## Mapping a memory map -/

variable [FrameSource α] {s s' : AddressSpace η α} {flags : PageFlags} {regions : List Region}
  {t : Tally}

/-- A memory map that can be mapped fails only because the frames run out or a count is too
large. -/
theorem RegionsFailure.of_isMappable {stop : Stop RegionError}
    (h : RegionsFailure flags regions s stop s') (hmappable : MemoryMap.IsMappable regions) :
    (∃ before q after k, MemoryMap.pages regions = before ++ q :: after ∧
      stop = .error (.map ⟨q.word⟩ q .outOfFrames) ∧ RunsOut flags before q s k s') ∨
    stop = .violation .overflow ∧ ∃ before after k l, MemoryMap.pages regions = before ++ after ∧
      IdentityMaps flags before s k s' ∧ k + l = before.length ∧ (2 ^ 64 ≤ k ∨ 2 ^ 64 ≤ l) := by
  -- Of the four reasons two would show a region that cannot be mapped.
  have hpages := (MemoryMap.isMappable_iff fun r hr hneeds => hmappable.fits hr hneeds).mp hmappable
  cases h with
  | range hr hneeds hrange hdone => exact absurd (hmappable.fits hr hneeds) hrange
  | page hmem hq => exact absurd (hpages _ hmem) hq
  | outOfFrames hsplit hout => exact Or.inl ⟨_, _, _, _, hsplit, rfl, hout⟩
  | overflow hsplit hbefore hlength hcount =>
    exact Or.inr ⟨rfl, _, _, _, _, hsplit, hbefore, hlength, hcount⟩

namespace BooksFrames

variable (hs : s.BooksFrames) (hpresent : flags.contains PageFlags.present = true)

include hs hpresent

/-- The call that has mapped all regions has found all of them to be mappable, and has counted their
pages. -/
theorem mapRegions_ok (hrun : (MemoryMap.mapRegions regions flags).run s = (.ok t, s')) :
    MemoryMap.IsMappable regions ∧ t.mapped.toNat + t.present.toNat = MemoryMap.pageCount regions ∧
      IdentityMaps flags (MemoryMap.pages regions) s t.mapped.toNat s' := by
  cases hs.mapRegions_ends hpresent regions with
  | ok hrun' hend =>
    rw [hrun] at hrun'
    cases hrun'
    obtain ⟨hfits, hcount, hmaps⟩ := hend
    exact ⟨(MemoryMap.isMappable_iff hfits).mpr hmaps.mappable, hcount, hmaps⟩
  | error hrun' _ => simp [hrun] at hrun'

/-- Without a request that was declined a memory map that is not too long is mapped exactly if it
can be mapped. -/
theorem mapRegions_ok_iff (hcount : MemoryMap.pageCount regions < 2 ^ 64)
    (hgranted : ¬ s.machine.DeclinedSince
      ((MemoryMap.mapRegions regions flags).run s).2.machine) :
    (∃ t, ((MemoryMap.mapRegions regions flags).run s).1 = .ok t) ↔
      MemoryMap.IsMappable regions := by
  constructor
  · intro hok
    -- A call that succeeds has mapped or found every page.
    obtain ⟨t, ht⟩ := hok
    exact (hs.mapRegions_ok hpresent (Prod.ext ht rfl)).1
  · intro hmappable
    cases hs.mapRegions_ends hpresent regions with
    | ok hrun hend => exact ⟨_, congrArg Prod.fst hrun⟩
    | error hrun hfailure =>
      rw [hrun] at hgranted
      rcases hfailure.of_isMappable hmappable with hout | hoverflow
      · obtain ⟨before, q, after, k, hsplit, -, hout⟩ := hout
        exact absurd hout.declinedSince hgranted
      · -- No count exceeds the number of all pages.
        obtain ⟨-, before, after, k, l, hsplit, -, hlength, hlarge⟩ := hoverflow
        have hle := congrArg List.length hsplit
        rw [MemoryMap.length_pages, List.length_append] at hle
        omega

end BooksFrames

/-- The pages without a leaf are those whose addresses lie in the regions. -/
theorem coe_vacant_pages {mem : Memory} {root : Frame} (h : MemoryMap.IsMappable regions) :
    ↑(mem.vacant root ((MemoryMap.pages regions).map Address.identityPage)) =
      {x : Indices | x.l4 ≠ selfIndex ∧ MemoryMap.Holds regions x.page ∧
        mem.leaf root x = .zero} := by
  have hpages := (MemoryMap.isMappable_iff fun r hr hneeds => h.fits hr hneeds).mp h
  ext x
  have hmem := MemoryMap.mem_identityPages_iff h x.isCanonical_page
  rw [Indices.indices_page] at hmem
  rw [Finset.mem_coe, Memory.mem_vacant_iff, hmem, Set.mem_ofPred_eq]
  constructor
  · intro hx
    obtain ⟨p, hp, rfl⟩ := List.mem_map.mp (hmem.mpr hx.1)
    -- A page of the list can be mapped, so it is outside of the window.
    exact ⟨(hpages p hp).l4_ne, hx⟩
  · exact fun hx => hx.2

/-- What the addresses outside of the window translate to after a memory map has been mapped. -/
theorem IdentityMaps.translate_eq {k : Nat}
    (h : IdentityMaps flags (MemoryMap.pages regions) s k s') (hs : s.Sound)
    (hmappable : MemoryMap.IsMappable regions) {va : VirtAddr} (hva : va.IsPlain) :
    (MemoryMap.Holds regions va ∧ s.machine.memory.leaf s.root va.indices = .zero →
      s'.translate va = .ok (if va.word < 4096 then .zero else ⟨va.word⟩)) ∧
    (¬ (MemoryMap.Holds regions va ∧ s.machine.memory.leaf s.root va.indices = .zero) →
      s'.translate va = s.translate va) := by
  have hholds := MemoryMap.mem_identityPages_iff hmappable hva.1
  -- The page of the address is newly mapped if it lies in the regions and had no leaf.
  have hvacant : va.indices ∈ s.machine.memory.vacant s.root
      ((MemoryMap.pages regions).map Address.identityPage) ↔
        MemoryMap.Holds regions va ∧ s.machine.memory.leaf s.root va.indices = .zero := by
    rw [Memory.mem_vacant_iff, hholds]
  rw [h.books.translate_eq_leafAddress hva, hs.translate_eq_leafAddress hva, h.root,
    h.covers.leaf va.indices hva.l4_ne, ← hvacant]
  constructor
  · intro hmem
    obtain ⟨p, hp, hpage⟩ := List.mem_map.mp (hholds.mpr (hvacant.mp hmem).1)
    rw [if_pos hmem, Hierarchy.leafAddress_identityLeaf (h.mappable p hp) hva.1 hpage]
  · intro hkept
    rw [if_neg hkept]

/-- After any sensible run from an empty root, and without a request that is declined, a memory map
is mapped exactly if each of its regions can be mapped. Then the addresses of the regions whose
pages had no leaf translate to themselves, all others as before, and both counts are exact: how many
pages were mapped, and how many had been mapped already. -/
theorem coverage_of_performAll {root : Frame} {mem : Memory} {frames : α} (mmu : η)
    (hroot : root.isEncodable) (hzero : mem.table root = .zero)
    (hfresh : FrameSource.Fresh (· ≠ root) frames) {actions : List Action}
    (hactions : (create root .identity mmu frames mem).PermitsAll actions)
    (hpresent : flags.contains PageFlags.present = true)
    (hcount : MemoryMap.pageCount regions < 2 ^ 64) :
    let s := ((create root .identity mmu frames mem).performAll actions).2
    let r := (MemoryMap.mapRegions regions flags).run s
    ¬ s.machine.DeclinedSince r.2.machine →
      ((∃ t, r.1 = .ok t) ↔ MemoryMap.IsMappable regions) ∧
      ∀ t, r.1 = .ok t →
        (∀ va : VirtAddr, va.IsPlain →
          (MemoryMap.Holds regions va ∧ s.machine.memory.leaf s.root va.indices = .zero →
            r.2.translate va = .ok (if va.word < 4096 then .zero else ⟨va.word⟩)) ∧
          (¬ (MemoryMap.Holds regions va ∧ s.machine.memory.leaf s.root va.indices = .zero) →
            r.2.translate va = s.translate va)) ∧
        t.mapped.toNat = {x : Indices | x.l4 ≠ selfIndex ∧ MemoryMap.Holds regions x.page ∧
          s.machine.memory.leaf s.root x = .zero}.ncard ∧
        t.mapped.toNat + t.present.toNat = MemoryMap.pageCount regions := by
  intro s r hgranted
  have hs : s.BooksFrames := booksFrames_performAll mmu hroot hzero hfresh hactions
  refine ⟨hs.mapRegions_ok_iff hpresent hcount hgranted, fun t ht => ?_⟩
  obtain ⟨hmappable, hpages, hmaps⟩ := hs.mapRegions_ok hpresent (Prod.ext ht rfl)
  refine ⟨fun va hva => hmaps.translate_eq hs.toSound hmappable hva, ?_, hpages⟩
  rw [hmaps.count, ← coe_vacant_pages hmappable, Set.ncard_coe_finset]

/-- Two regions overlap, one is free memory and one has no pages. Page zero is mapped, though it
looks as if it were not; a page that had been mapped elsewhere stays there. -/
theorem coverage_of_performAll_specimen :
    let elsewhere : Action := .map ⟨0x2000⟩ ⟨0x9000⟩ .kernelData false
    let regions : List Region := [⟨⟨0⟩, 3, .loader⟩, ⟨⟨0x40000000⟩, 7, .conventional⟩,
      ⟨⟨0x1000⟩, 4, .acpi⟩, ⟨⟨0x123⟩, 0, .mmio⟩, ⟨⟨0x200000⟩, 1, .reserved⟩]
    let s := (Specimen.start.performAll [elsewhere, elsewhere]).2
    let call : Op (AddressSpace Hardware.Simulated (Screened Script)) RegionError Tally :=
      MemoryMap.mapRegions regions .bootIdentity
    MemoryMap.IsMappable regions ∧ (call.run s).1 = .ok ⟨5, 3⟩ ∧ MemoryMap.pageCount regions = 8 ∧
      (call.run s).2.translate ⟨0x1234⟩ = .ok ⟨0x1234⟩ ∧
      (call.run s).2.translate ⟨0x234⟩ = .ok .zero ∧
      (call.run s).2.translate ⟨0x2345⟩ = .ok ⟨0x9345⟩ ∧
      {x : Indices | x.l4 ≠ selfIndex ∧ MemoryMap.Holds regions x.page ∧
        s.machine.memory.leaf s.root x = .zero}.ncard = 5 := by
  intro elsewhere regions s call
  have hok : (call.run s).1 = .ok ⟨5, 3⟩ := by decide +kernel
  have hgranted : ¬ s.machine.DeclinedSince (call.run s).2.machine := by
    unfold Machine.DeclinedSince
    decide +kernel
  have hcount : MemoryMap.pageCount regions = 8 := by decide +kernel
  have hone : MemoryMap.Holds regions (⟨0x1234⟩ : VirtAddr) ∧
      s.machine.memory.leaf s.root (⟨0x1234⟩ : VirtAddr).indices = .zero := by decide +kernel
  have hzero : MemoryMap.Holds regions (⟨0x234⟩ : VirtAddr) ∧
      s.machine.memory.leaf s.root (⟨0x234⟩ : VirtAddr).indices = .zero := by decide +kernel
  have hother : ¬ (MemoryMap.Holds regions (⟨0x2345⟩ : VirtAddr) ∧
      s.machine.memory.leaf s.root (⟨0x2345⟩ : VirtAddr).indices = .zero) := by decide +kernel
  have helsewhere : s.translate ⟨0x2345⟩ = .ok ⟨0x9345⟩ := by decide +kernel
  have hactions : Specimen.start.PermitsAll [elsewhere, elsewhere] := ⟨trivial, trivial, trivial⟩
  have hlarge : MemoryMap.pageCount regions < 2 ^ 64 := by
    rw [hcount]
    decide
  -- Which regions and actions they are does not matter any more.
  clear_value regions elsewhere
  obtain ⟨hiff, hcovered⟩ := coverage_of_performAll Specimen.hardware Specimen.isEncodable_root
    Specimen.table_root Specimen.fresh_source hactions (by decide +kernel) hlarge hgranted
  obtain ⟨htranslate, hmapped, -⟩ := hcovered _ hok
  refine ⟨hiff.mp ⟨_, hok⟩, hok, hcount, ?_, ?_, ?_, hmapped.symm⟩
  · exact (htranslate ⟨0x1234⟩ (by decide +kernel)).1 hone
  · exact (htranslate ⟨0x234⟩ (by decide +kernel)).1 hzero
  · exact ((htranslate ⟨0x2345⟩ (by decide +kernel)).2 hother).trans helsewhere

end AddressSpace

end Paging
