import Paging.Proofs.WindowAddresses

/-!
# Addresses, indices and pages

A canonical address is four indices and an offset. Taken apart and put together again it is the base
of its page, and four indices put together and taken apart are the same four; so an index for each
level is as good a name for a page as its base. An address is canonical if its sign, bit 47, is
repeated in every bit above, and making an address canonical touches those bits only. In words this
is done by shifts and masks, the sign being extended by a shift that keeps it.
-/

namespace Paging

/-! ## The sign -/

namespace Address

/-- Whether bits 47 to 63 of an address are all equal. -/
def IsSignExtended (va : VirtAddr) : Prop :=
  ∀ i j, 47 ≤ i → i < 64 → 47 ≤ j → j < 64 → va.word.getLsbD i = va.word.getLsbD j

variable (va : VirtAddr)

theorem isCanonical_iff_isSignExtended : va.isCanonical = true ↔ va.IsSignExtended := by
  rw [isCanonical_iff]
  constructor
  · intro h i j hi hi' hj hj'
    -- Two bits are equal because both are equal to the sign.
    have hsign : ∀ k, 47 ≤ k → k < 64 → va.word.getLsbD k = va.word.getLsbD 47 := by
      intro k hk hk'
      rcases Nat.eq_or_lt_of_le hk with rfl | hlt
      · rfl
      · exact h k hlt hk'
    rw [hsign i hi hi', hsign j hj hj']
  · intro h i hlow hhigh
    exact h i 47 (by omega) hhigh (by decide) (by decide)

theorem canonicalize_eq_self_iff : va.canonicalize = va ↔ va.isCanonical = true := by
  rw [isCanonical, beq_iff_eq]

theorem isCanonical_canonicalize : va.canonicalize.isCanonical = true := by
  rw [isCanonical_iff]
  intro i hlow hhigh
  rw [getLsbD_canonicalize va hhigh, getLsbD_canonicalize va (by decide),
    Nat.min_eq_right (by omega)]
  rfl

theorem getLsbD_canonicalize_of_lt {i : Nat} (hi : i < 48) :
    va.canonicalize.word.getLsbD i = va.word.getLsbD i := by
  rw [getLsbD_canonicalize va (by omega), Nat.min_eq_left (by omega)]

/-- The sign is extended by shifting it to the top and back again. -/
theorem word_canonicalize : va.canonicalize.word = (va.word <<< 16).sshiftRight 16 := by
  apply BitVec.eq_of_getLsbD_eq
  intro i hi
  -- The shift to the left makes the sign the topmost bit, which the shift to the right repeats.
  rw [getLsbD_canonicalize va hi, BitVec.getLsbD_sshiftRight, BitVec.msb_eq_getLsbD_last]
  simp only [BitVec.getLsbD_shiftLeft]
  grind

/-! ## Taking an address apart -/

/-- An index is nine bits of the address, shifted down. -/
theorem setWidth_index (level : Level) :
    (va.index level).setWidth 64 = va.word >>> level.shift &&& 511 := by
  have hmask : (511 : Word).toNat = 2 ^ 9 - 1 := rfl
  apply BitVec.eq_of_toNat_eq
  rw [BitVec.toNat_setWidth, toNat_index, BitVec.toNat_and, BitVec.toNat_ushiftRight, hmask,
    Nat.and_two_pow_sub_one_eq_mod]
  omega

theorem indices?_eq_some_iff {ix : Indices} :
    va.indices? = some ix ↔ va.isCanonical = true ∧ va.indices = ix := by
  rw [indices?, Option.ite_none_right_eq_some, Option.some.injEq]

/-- Two addresses have the same indices if they are in the same page. -/
theorem indices_eq_indices_iff {a b : VirtAddr} (ha : a.isCanonical = true)
    (hb : b.isCanonical = true) :
    a.indices = b.indices ↔ a.alignDown .size4K = b.alignDown .size4K := by
  constructor
  · intro h
    -- The indices make the base of the page.
    rw [← page_indices ha, h, page_indices hb]
  · intro h
    rw [← indices_alignDown a, h, indices_alignDown]

end Address

/-! ## Putting an address together -/

namespace Indices

/-- The four indices shifted to their places in an address, without the sign. -/
def word (ix : Indices) : Word :=
  ix.l4.setWidth 64 <<< 39 ||| ix.l3.setWidth 64 <<< 30 ||| ix.l2.setWidth 64 <<< 21 |||
    ix.l1.setWidth 64 <<< 12

theorem indices?_page (ix : Indices) : ix.page.indices? = some ix :=
  (Address.indices?_eq_some_iff _).mpr ⟨ix.isCanonical_page, ix.indices_page⟩

/-- No two of the shifted indices overlap. -/
theorem getLsbD_word (ix : Indices) {i : Nat} (hi : i < 48) :
    ix.word.getLsbD i =
      if i < 12 then false
      else if i < 21 then ix.l1.getLsbD (i - 12)
      else if i < 30 then ix.l2.getLsbD (i - 21)
      else if i < 39 then ix.l3.getLsbD (i - 30)
      else ix.l4.getLsbD (i - 39) := by
  simp only [word, BitVec.getLsbD_or, BitVec.getLsbD_shiftLeft, BitVec.getLsbD_setWidth]
  grind

theorem page_eq_canonicalize (ix : Indices) : ix.page = Address.canonicalize ⟨ix.word⟩ := by
  have hword : ix.page.word = (Address.canonicalize ⟨ix.word⟩).word := by
    apply BitVec.eq_of_getLsbD_eq
    intro i hi
    rw [getLsbD_page ix hi, Address.getLsbD_canonicalize _ hi, getLsbD_word ix (by omega)]
    -- Bit 47, which the bits above repeat, belongs to the first index.
    grind
  exact congrArg Address.mk hword

end Indices

namespace Address

/-- An address has indices exactly if bits 47 to 63 are equal, and they make the base of its page.
Four values are indices if none exceeds 511, and the page that they make has these indices. So
canonical addresses have the same indices exactly if they are in the same page. Making an address
canonical a second time changes nothing, the first time it changes bits 48 to 63 only, and only if
the address is not canonical. Shifts and masks of words compute all of this. -/
theorem indices_round_trip :
    (∀ va : VirtAddr, (va.indices?.isSome = true ↔ va.IsSignExtended) ∧
      ∀ ix, va.indices? = some ix → ix.page = va.alignDown .size4K) ∧
    (∀ l4 l3 l2 l1 : Word,
      ((Indices.ofWords? l4 l3 l2 l1).isSome = true ↔
        l4 ≤ 511 ∧ l3 ≤ 511 ∧ l2 ≤ 511 ∧ l1 ≤ 511) ∧
      ∀ ix, Indices.ofWords? l4 l3 l2 l1 = some ix → ix.page.indices? = some ix ∧
        Level.topDown.map (fun level => (ix.get level).setWidth 64) = [l4, l3, l2, l1]) ∧
    (∀ a b : VirtAddr, a.isCanonical = true → b.isCanonical = true →
      (a.indices? = b.indices? ↔ a.alignDown .size4K = b.alignDown .size4K)) ∧
    (∀ va : VirtAddr, va.canonicalize.canonicalize = va.canonicalize ∧
      (∀ i < 48, va.canonicalize.word.getLsbD i = va.word.getLsbD i) ∧
      (va.canonicalize = va ↔ va.IsSignExtended)) ∧
    (∀ va : VirtAddr, va.canonicalize.word = (va.word <<< 16).sshiftRight 16 ∧
      ∀ level, (va.index level).setWidth 64 = va.word >>> level.shift &&& 511) ∧
    ∀ ix : Indices, ix.page = canonicalize ⟨ix.word⟩ := by
  refine ⟨fun va => ⟨?_, ?_⟩, fun l4 l3 l2 l1 => ⟨Indices.isSome_ofWords?_iff, ?_⟩, ?_,
    fun va => ⟨?_, fun i hi => va.getLsbD_canonicalize_of_lt hi, ?_⟩,
    fun va => ⟨va.word_canonicalize, va.setWidth_index⟩, Indices.page_eq_canonicalize⟩
  · rw [← isCanonical_iff_isSignExtended, indices?, Option.isSome_ite]
  · intro ix h
    obtain ⟨hva, rfl⟩ := va.indices?_eq_some_iff.mp h
    exact page_indices hva
  · intro ix h
    -- Each index holds the value that it was made from.
    have hvalues := Indices.ofWords?_eq_some_iff.mp h
    rw [Indices.toList, List.map_map] at hvalues
    exact ⟨ix.indices?_page, hvalues⟩
  · intro a b ha hb
    rw [indices?, indices?, if_pos ha, if_pos hb, Option.some.injEq, indices_eq_indices_iff ha hb]
  · exact (canonicalize_eq_self_iff _).mpr va.isCanonical_canonicalize
  · rw [canonicalize_eq_self_iff, isCanonical_iff_isSignExtended]

/-- An address of the upper half with an offset, the first index of the upper half, and two
addresses of one page. -/
theorem indices_round_trip_specimen :
    let va : VirtAddr := ⟨0xffff888801234567⟩
    (∃ ix, va.indices? = some ix ∧ ix.page = ⟨0xffff888801234000⟩) ∧
      (∃ ix, Indices.ofWords? 256 511 0 1 = some ix ∧ ix.page.indices? = some ix) ∧
      va.indices? = (⟨0xffff888801234000⟩ : VirtAddr).indices? := by
  intro va
  obtain ⟨hapart, htogether, hpages, -⟩ := indices_round_trip
  refine ⟨?_, ?_, (hpages va _ (by decide) (by decide)).mpr (by decide)⟩
  · refine ⟨va.indices, by decide, ?_⟩
    exact ((hapart va).2 va.indices (by decide)).trans (by decide)
  · obtain ⟨ix, hix⟩ := Option.isSome_iff_exists.mp
      ((htogether 256 511 0 1).1.mpr (by decide))
    exact ⟨ix, hix, ((htogether 256 511 0 1).2 ix hix).1⟩

end Address

end Paging
