import Paging.Address.Page
import Paging.Flags.Entry
import Paging.Word.Layout

/-!
# Table entries

An entry is a word that holds the number of a frame in bits 12 to 51 and flags around it. The
same layout serves all four levels: whether an entry links to a lower table or maps memory
follows from the level it stands at. The entry of all zeros is absent.
-/

namespace Paging

/-- A 64-bit table entry. -/
structure Entry where
  bits : Word
deriving DecidableEq

/-- The bits of an entry that hold the frame. -/
def addressMask : Word := (physicalLimit - 1) &&& ~~~PageSize.size4K.offsetMask

/-- The bits of a constant are found by going through all 64 of them. -/
theorem Word.getLsbD_eq_decide {w : Word} {P : Nat → Prop} [DecidablePred P]
    (hlow : ∀ j : Fin 64, w.getLsbD j = decide (P j)) (hhigh : ∀ j, 64 ≤ j → ¬ P j) (i : Nat) :
    w.getLsbD i = decide (P i) := by
  by_cases h : i < 64
  · exact hlow ⟨i, h⟩
  · -- A word has no bits up there.
    have hi : 64 ≤ i := Nat.le_of_not_lt h
    rw [BitVec.getLsbD_of_ge w i hi, decide_eq_false (hhigh i hi)]

theorem getLsbD_addressMask (i : Nat) : addressMask.getLsbD i = decide (12 ≤ i ∧ i < 52) :=
  Word.getLsbD_eq_decide (P := fun j => 12 ≤ j ∧ j < 52) (by decide) (by omega) i

namespace Entry

/-- The fields of an entry. -/
def layout : Layout where
  title := "PageEntry"
  fields :=
    [.flag "present" 0, .flag "writable" 1, .flag "user_access" 2, .flag "write_through" 3,
      .flag "cache_disabled" 4, .flag "accessed" 5, .flag "dirty" 6, .flag "huge_page" 7,
      .flag "global" 8, .number "os_available_low" 9 3, .number "frame_bits_51_12" 12 40,
      .number "os_available_high" 52 7, .number "protection_key" 59 4, .flag "no_execute" 63]

/-- The absent entry. -/
def zero : Entry := ⟨0⟩

/-- Whether the entry is absent. -/
def isZero (e : Entry) : Bool := e.bits == 0

/-! ## Fields -/

/-- Whether the entry is valid for the hardware. -/
def present (e : Entry) : Bool := e.bits.getLsbD 0

/-- Whether writes are allowed through the entry. -/
def writable (e : Entry) : Bool := e.bits.getLsbD 1

/-- Whether user mode may access memory through the entry. -/
def userAccess (e : Entry) : Bool := e.bits.getLsbD 2

/-- Whether the entry maps a huge page, when it stands at a level that has them. -/
def huge (e : Entry) : Bool := e.bits.getLsbD 7

/-- Whether instruction fetches are forbidden through the entry. -/
def noExecute (e : Entry) : Bool := e.bits.getLsbD 63

/-- The frame that the entry names, a table or mapped memory. -/
def frame (e : Entry) : Frame := .containing ⟨e.bits.lowBits 52⟩

/-- The base of the frame that the entry names. -/
def address (e : Entry) : PhysAddr := e.frame.base

/-- The named flags of the entry. -/
def flags (e : Entry) : EntryFlags := .truncate (e.bits &&& ~~~addressMask)

/-! ## Encoding -/

/-- The entry that names a frame and carries flags. Of the frame's base only bits 12 to 51 are
kept. -/
def encode (frame : Frame) (flags : EntryFlags) : Entry :=
  ⟨flags.bits ||| (frame.base.word &&& addressMask)⟩

/-- The entry that names a frame, or `none` if the frame's base has bits outside of the address. -/
def encode? (frame : Frame) (flags : EntryFlags) : Option Entry :=
  if frame.base.word &&& ~~~addressMask = 0 then some (encode frame flags) else none

/-- The entry that links to a lower table. -/
def link (child : Frame) : Entry := encode child .link

/-- The entry through which a root refers to itself. -/
def selfLink (root : Frame) : Entry := encode root .selfLink

/-- Every field of the entry with its value. -/
def inspect (e : Entry) : String := layout.inspect e.bits

/-! ## Which entries there are -/

@[simp] theorem isZero_iff {e : Entry} : e.isZero ↔ e = .zero := by
  obtain ⟨bits⟩ := e
  simp [isZero, zero]

theorem isZero_eq_false_iff {e : Entry} : e.isZero = false ↔ e ≠ .zero := by
  rw [← Bool.not_eq_true, isZero_iff]

@[simp] theorem present_zero : zero.present = false := by decide

@[simp] theorem huge_zero : zero.huge = false := by decide

/-- The base of a frame is aligned, so all of it is address if it is below the limit. -/
theorem base_and_not_addressMask_eq_zero_iff (f : Frame) :
    f.base.word &&& ~~~addressMask = 0 ↔ f.isEncodable := by
  constructor
  · intro h
    have hlow : f.base.word = f.base.word.lowBits 52 := by
      apply BitVec.eq_of_getLsbD_eq
      intro i hi
      have hbit := congrArg (·.getLsbD i) h
      simp only [BitVec.getLsbD_and, BitVec.getLsbD_not, getLsbD_addressMask, hi, decide_true,
        Bool.true_and] at hbit
      rw [Word.getLsbD_lowBits]
      by_cases hlt : i < 52
      · simp [hlt]
      · -- Beyond the limit the mask has no bits, so the base has none.
        simpa [hlt] using hbit
    rw [Page.isEncodable_iff, hlow, Word.toNat_lowBits]
    exact Nat.mod_lt _ (by decide)
  · intro h
    apply BitVec.eq_of_getLsbD_eq
    intro i _
    simp only [BitVec.getLsbD_and, BitVec.getLsbD_not, getLsbD_addressMask,
      BitVec.ofNat_eq_ofNat, BitVec.getLsbD_zero]
    by_cases hlow : i < 12
    · -- The base has no bits below 12 and none from 52 on, and those between are in the mask.
      rw [f.getLsbD_base_of_lt hlow, Bool.false_and]
    · by_cases hhigh : i < 52
      · simp [Nat.le_of_not_lt hlow, hhigh]
      · rw [Page.getLsbD_base_of_le h (Nat.le_of_not_lt hhigh), Bool.false_and]

/-- An entry has room for the encodable frames and for no others. -/
theorem encode?_eq_some_iff {f : Frame} {flags : EntryFlags} {e : Entry} :
    encode? f flags = some e ↔ f.isEncodable ∧ encode f flags = e := by
  simp only [encode?, base_and_not_addressMask_eq_zero_iff, Option.ite_none_right_eq_some,
    Option.some.injEq]

theorem encode?_of_isEncodable {f : Frame} (hf : f.isEncodable) (flags : EntryFlags) :
    encode? f flags = some (encode f flags) :=
  encode?_eq_some_iff.mpr ⟨hf, rfl⟩

theorem encode?_of_not_isEncodable {f : Frame} (hf : f.isEncodable = false) (flags : EntryFlags) :
    encode? f flags = none := by
  rw [encode?, if_neg]
  rw [base_and_not_addressMask_eq_zero_iff, hf]
  exact Bool.false_ne_true

end Entry

end Paging
