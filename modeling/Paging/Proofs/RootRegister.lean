import Paging.Hardware.Cr3
import Paging.Proofs.EntryCodec

/-!
# What the root register holds

The register is compared with a frame bit by bit: the frame of the root that it was given comes back
out of it, the cache policy below is the one that it had, and all other bits are clear.
-/

namespace Paging

namespace Cr3

/-- The register takes every root that an entry has room for. -/
theorem exists_withRoot? (r : Cr3) {f : Frame} (hf : f.isEncodable) :
    ∃ r', r.withRoot? f.base = some r' := by
  have hof : Page.ofAddr? f.base = some f := by simp [Page.ofAddr?, f.isAligned_base]
  simp [withRoot?, ofRoot?, hof, hf]

/-- It takes no other root, and bit by bit it is the base of the root with the cache policy below.
-/
theorem getLsbD_ofRoot? {f : Frame} {writeThrough cacheDisabled : Bool} {r : Cr3}
    (h : ofRoot? f.base writeThrough cacheDisabled = some r) :
    f.isEncodable ∧ ∀ i, r.bits.getLsbD i =
      (f.base.word.getLsbD i || (i == 3 && writeThrough) || (i == 4 && cacheDisabled)) := by
  have hof : Page.ofAddr? f.base = some f := by simp [Page.ofAddr?, f.isAligned_base]
  simp only [ofRoot?, hof] at h
  split at h
  · rename_i hf
    refine ⟨hf, fun i => ?_⟩
    obtain rfl := Option.some.inj h
    -- A policy bit that was shifted to its place has no other bits.
    have hpolicy : ∀ (b : Bool) (k : Nat), k < 64 →
        (((BitVec.ofBool b).setWidth 64 <<< k : Word)).getLsbD i = (i == k && b) := by
      intro b k hk
      rw [BitVec.getLsbD_shiftLeft, BitVec.getLsbD_setWidth, BitVec.getLsbD_ofBool]
      by_cases hik : i = k
      · simp [hik, hk]
      · simp only [beq_eq_false_iff_ne.mpr hik]
        grind
    rw [BitVec.getLsbD_or, BitVec.getLsbD_or, hpolicy _ 3 (by decide), hpolicy _ 4 (by decide)]
  · cases h

section Bits

variable {r r' : Cr3} {f : Frame} (h : r.withRoot? f.base = some r')

include h

/-- The register holds the root that was put into it. -/
theorem root_of_withRoot? : r'.root = f := by
  obtain ⟨hf, hbits⟩ := getLsbD_ofRoot? h
  apply Page.containing_lowBits_eq hf
  intro i hlow _
  -- The cache policy stays below the root.
  have h3 : (i == 3) = false := beq_eq_false_iff_ne.mpr (by omega)
  have h4 : (i == 4) = false := beq_eq_false_iff_ne.mpr (by omega)
  simp [hbits, h3, h4]

/-- It keeps its cache policy. -/
theorem policy_of_withRoot? :
    r'.writeThrough = r.writeThrough ∧ r'.cacheDisabled = r.cacheDisabled := by
  obtain ⟨-, hbits⟩ := getLsbD_ofRoot? h
  have h3 := f.getLsbD_base_of_lt (i := 3) (by decide)
  have h4 := f.getLsbD_base_of_lt (i := 4) (by decide)
  constructor
  · show r'.bits.getLsbD 3 = r.writeThrough
    rw [hbits, h3]
    simp
  · show r'.bits.getLsbD 4 = r.cacheDisabled
    rw [hbits, h4]
    simp

/-- Nothing else is set in it. -/
theorem reserved_of_withRoot? :
    r'.reservedLow = 0 ∧ r'.reservedMiddle = 0 ∧ r'.reservedHigh = 0 := by
  obtain ⟨hf, hbits⟩ := getLsbD_ofRoot? h
  -- The bits at these places belong neither to the base of a frame nor to the policy.
  have hclear : ∀ i, (i < 3 ∨ (5 ≤ i ∧ i < 12) ∨ 52 ≤ i) → r'.bits.getLsbD i = false := by
    intro i hi
    have h3 : (i == 3) = false := beq_eq_false_iff_ne.mpr (by omega)
    have h4 : (i == 4) = false := beq_eq_false_iff_ne.mpr (by omega)
    have hbase : f.base.word.getLsbD i = false := by
      by_cases hlow : i < 12
      · exact f.getLsbD_base_of_lt hlow
      · exact Page.getLsbD_base_of_le hf (by omega)
    simp [hbits, h3, h4, hbase]
  exact ⟨BitField.get_eq_zero (f := ⟨0, 3⟩) fun i _ hi => hclear i (by grind [BitField.Covers]),
    BitField.get_eq_zero (f := ⟨5, 7⟩) fun i _ hi => hclear i (by grind [BitField.Covers]),
    BitField.get_eq_zero (f := ⟨52, 12⟩) fun i _ hi => hclear i (by grind [BitField.Covers])⟩

end Bits

end Cr3

end Paging
