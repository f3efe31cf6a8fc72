import Paging.Table.Entry

/-!
# What an entry holds

An entry and a frame are compared bit by bit. The facts that the tables rest on: a frame is known
by its base, an entry that was made from an encodable frame names that frame again, and links are
present and never huge.
-/

namespace Paging

/-! ## Frames -/

theorem Word.clearLow_of_lowBits_eq_zero {n : Nat} {w : Word} (h : w.lowBits n = 0) :
    w.clearLow n = w := by
  -- A word is what is left of it together with what was cleared, which is nothing.
  have hsplit := Word.clearLow_or_lowBits n w
  rw [h] at hsplit
  simpa using hsplit

namespace Page

variable {size : PageSize}

/-- A page is the page around its base. -/
@[simp] theorem containing_base (p : Page size) : (containing p.base : Page size) = p := by
  ext1
  simp [containing, Address.alignDown, Word.clearLow_of_lowBits_eq_zero p.lowBits_base]

theorem getLsbD_containing_lowBits (w : Word) (i : Nat) :
    (containing ⟨w.lowBits 52⟩ : Frame).base.word.getLsbD i =
      (decide (12 ≤ i ∧ i < 52) && w.getLsbD i) := by
  simp only [containing, Address.alignDown, Word.getLsbD_clearLow, Word.getLsbD_lowBits,
    PageSize.shift]
  by_cases h : 12 ≤ i <;> simp [h]

/-- Bits 12 to 51 of a word name a frame, whatever stands around them. -/
theorem containing_lowBits_eq {w : Word} {f : Frame} (hf : f.isEncodable)
    (hbits : ∀ i, 12 ≤ i → i < 52 → w.getLsbD i = f.base.word.getLsbD i) :
    (containing ⟨w.lowBits 52⟩ : Frame) = f := by
  have hword : (containing ⟨w.lowBits 52⟩ : Frame).base.word = f.base.word := by
    apply BitVec.eq_of_getLsbD_eq
    intro i _
    rw [getLsbD_containing_lowBits]
    by_cases hlow : i < 12
    · -- Both are aligned.
      have hout : ¬ (12 ≤ i ∧ i < 52) := by omega
      rw [f.getLsbD_base_of_lt hlow, decide_eq_false hout, Bool.false_and]
    · by_cases hhigh : i < 52
      · have hin : 12 ≤ i ∧ i < 52 := by omega
        rw [decide_eq_true hin, Bool.true_and, hbits i hin.1 hin.2]
      · -- Both are encodable.
        have hout : ¬ (12 ≤ i ∧ i < 52) := by omega
        rw [getLsbD_base_of_le hf (by omega), decide_eq_false hout, Bool.false_and]
  ext1
  exact congrArg Address.mk hword

end Page

/-! ## Bits of an entry -/

namespace EntryFlags

theorem getLsbD_link (i : Nat) : link.bits.getLsbD i = decide (i < 3) :=
  Word.getLsbD_eq_decide (P := fun j => j < 3) (by decide) (by omega) i

theorem getLsbD_selfLink (i : Nat) : selfLink.bits.getLsbD i = decide (i < 2 ∨ i = 63) :=
  Word.getLsbD_eq_decide (P := fun j => j < 2 ∨ j = 63) (by decide) (by omega) i

end EntryFlags

namespace Entry

theorem getLsbD_encode (f : Frame) (flags : EntryFlags) (i : Nat) :
    (encode f flags).bits.getLsbD i =
      (flags.bits.getLsbD i || (f.base.word.getLsbD i && decide (12 ≤ i ∧ i < 52))) := by
  simp [encode, getLsbD_addressMask]

/-- Whatever an entry names, an entry has room for it. -/
theorem isEncodable_frame (e : Entry) : e.frame.isEncodable := by
  have hlimit : physicalLimit.toNat = 2 ^ 52 := rfl
  -- Nothing is left of the bits from 52 on.
  rw [Page.isEncodable_iff, hlimit]
  simp only [frame, Page.containing, Address.alignDown, Word.toNat_clearLow, Word.toNat_lowBits,
    PageSize.shift, Nat.one_shiftLeft]
  omega

/-- An entry names the frame that it was made from, if its flags stay clear of the address. -/
theorem frame_encode {f : Frame} {flags : EntryFlags} (hf : f.isEncodable)
    (hflags : ∀ i, 12 ≤ i → i < 52 → flags.bits.getLsbD i = false) :
    (encode f flags).frame = f := by
  -- At the positions of the frame the entry has the bits of the base.
  apply Page.containing_lowBits_eq hf
  intro i hlow hhigh
  simp [getLsbD_encode, hflags i hlow hhigh, hlow, hhigh]

/-! ## Links -/

/-- Whether an entry links to a lower table: it is present and maps no huge page. -/
def isLink (e : Entry) : Bool := e.present && !e.huge

@[simp] theorem isLink_iff {e : Entry} : e.isLink ↔ e.present = true ∧ e.huge = false := by
  simp [isLink]

@[simp] theorem isLink_zero : zero.isLink = false := by decide

@[simp] theorem present_link (f : Frame) : (link f).present = true := by
  simp [link, present, getLsbD_encode, EntryFlags.getLsbD_link]

@[simp] theorem huge_link (f : Frame) : (link f).huge = false := by
  show (link f).bits.getLsbD 7 = false
  rw [link, getLsbD_encode, EntryFlags.getLsbD_link]
  simp

@[simp] theorem frame_link {f : Frame} (hf : f.isEncodable) : (link f).frame = f := by
  apply frame_encode hf
  intro i hlow _
  -- A link has its three flags below bit 12.
  have hflag : ¬ i < 3 := by omega
  rw [EntryFlags.getLsbD_link, decide_eq_false hflag]

@[simp] theorem present_selfLink (f : Frame) : (selfLink f).present = true := by
  simp [selfLink, present, getLsbD_encode, EntryFlags.getLsbD_selfLink]

@[simp] theorem huge_selfLink (f : Frame) : (selfLink f).huge = false := by
  show (selfLink f).bits.getLsbD 7 = false
  rw [selfLink, getLsbD_encode, EntryFlags.getLsbD_selfLink]
  simp

@[simp] theorem frame_selfLink {f : Frame} (hf : f.isEncodable) : (selfLink f).frame = f := by
  apply frame_encode hf
  intro i hlow hhigh
  -- So has the link of a root, but for the one at the top.
  have hflag : ¬ (i < 2 ∨ i = 63) := by omega
  rw [EntryFlags.getLsbD_selfLink, decide_eq_false hflag]

end Entry

end Paging
