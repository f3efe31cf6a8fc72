import Paging.Word.Basic

/-!
# Words divided into fields

A register or a table entry is a word divided into fields of consecutive bits. `BitField` reads
and replaces one field; `Layout` names the fields of a word in bit order and writes the word
field by field.
-/

namespace Paging

/-- `width` consecutive bits of a word, the lowest at position `start`. -/
structure BitField where
  start : Nat
  width : Nat
deriving DecidableEq

namespace BitField

/-- The value of the field in `w`. -/
def get (f : BitField) (w : Word) : BitVec f.width :=
  w.extractLsb' f.start f.width

/-- The bits of a word that belong to the field. -/
def mask (f : BitField) : Word :=
  (BitVec.allOnes f.width).setWidth 64 <<< f.start

/-- `w` with the field replaced by `v` and every other bit kept. -/
def put (f : BitField) (w : Word) (v : BitVec f.width) : Word :=
  (w &&& ~~~f.mask) ||| (v.setWidth 64 <<< f.start)

/-- `w` with the field replaced by the number `v`, or `none` if `v` is too wide for the field. -/
def put? (f : BitField) (w : Word) (v : Nat) : Option Word :=
  if v < 1 <<< f.width then some (f.put w (BitVec.ofNat f.width v)) else none

/-! ## Bits of a field -/

variable (f : BitField) (w : Word)

/-- Whether bit `i` of a word belongs to the field. -/
def Covers (i : Nat) : Prop := f.start ≤ i ∧ i < f.start + f.width

instance (i : Nat) : Decidable (f.Covers i) := inferInstanceAs (Decidable (_ ∧ _))

theorem getLsbD_get (i : Nat) :
    (f.get w).getLsbD i = (decide (i < f.width) && w.getLsbD (f.start + i)) :=
  BitVec.getLsbD_extractLsb' ..

theorem getLsbD_mask {i : Nat} (hi : i < 64) : f.mask.getLsbD i = decide (f.Covers i) := by
  simp only [mask, Covers, BitVec.getLsbD_shiftLeft, BitVec.getLsbD_setWidth,
    BitVec.getLsbD_allOnes]
  grind

theorem getLsbD_put (v : BitVec f.width) {i : Nat} (hi : i < 64) :
    (f.put w v).getLsbD i = if f.Covers i then v.getLsbD (i - f.start) else w.getLsbD i := by
  simp only [put, BitVec.getLsbD_or, BitVec.getLsbD_and, BitVec.getLsbD_not, f.getLsbD_mask hi,
    BitVec.getLsbD_shiftLeft, BitVec.getLsbD_setWidth]
  by_cases hlow : i < f.start
  · have hout : ¬ f.Covers i := fun h => Nat.not_lt.mpr h.1 hlow
    simp [hout, hlow, hi]
  · by_cases hcovers : f.Covers i
    · have hlt : i - f.start < 64 := by omega
      simp [hcovers, hlow, hi, hlt]
    · -- The value has no bits above the width of the field.
      have hge : f.width ≤ i - f.start := by
        simp only [Covers] at hcovers
        omega
      simp [hcovers, hi, BitVec.getLsbD_of_ge v _ hge]

theorem put?_toNat (v : BitVec f.width) : f.put? w v.toNat = some (f.put w v) := by
  have hlt : v.toNat < 1 <<< f.width := by
    rw [Nat.one_shiftLeft]
    exact v.isLt
  rw [put?, if_pos hlt, BitVec.ofNat_toNat, BitVec.setWidth_eq]

/-- A truth value always fits into a field of a single bit. -/
theorem put?_bool (i : Nat) (w : Word) (b : Bool) :
    put? ⟨i, 1⟩ w b.toNat = some (put ⟨i, 1⟩ w (.ofBool b)) := by
  rw [← put?_toNat, BitVec.toNat_ofBool]

/-- A field is zero if all its bits are clear. -/
theorem get_eq_zero {f : BitField} {w : Word} (h : ∀ i < 64, f.Covers i → w.getLsbD i = false) :
    f.get w = 0 := by
  apply BitVec.eq_of_getLsbD_eq
  intro i hi
  have hbit : w.getLsbD (f.start + i) = false := by
    by_cases hlt : f.start + i < 64
    · exact h _ hlt ⟨Nat.le_add_right .., Nat.add_lt_add_left hi _⟩
    · exact BitVec.getLsbD_of_ge w _ (Nat.le_of_not_lt hlt)
  rw [getLsbD_get, hbit, Bool.and_false]
  exact BitVec.getLsbD_zero.symm

/-- A field of a single bit. -/
theorem toNat_get_bit (i : Nat) :
    ((⟨i, 1⟩ : BitField).get w).toNat = if w.getLsbD i then 1 else 0 := by
  simp only [get, BitVec.extractLsb'_toNat, BitVec.getLsbD, Nat.testBit_eq_decide_div_mod_eq,
    Nat.shiftRight_eq_div_pow, decide_eq_true_eq]
  rcases Nat.mod_two_eq_zero_or_one (w.toNat / 2 ^ i) with h | h <;> simp [h]

end BitField

/-- How the value of a field is read: as a truth value or as a number. -/
inductive Reading where
  | flag
  | number
deriving DecidableEq

/-- A field together with its name. -/
structure NamedField where
  name : String
  field : BitField
  reading : Reading

namespace NamedField

/-- The one-bit field at position `i`. -/
def flag (name : String) (i : Nat) : NamedField :=
  ⟨name, ⟨i, 1⟩, .flag⟩

/-- A numeric field of `width` bits from position `start`. -/
def number (name : String) (start width : Nat) : NamedField :=
  ⟨name, ⟨start, width⟩, .number⟩

/-- `name: value`, the value in decimal or as `true` or `false`. -/
def inspect (f : NamedField) (w : Word) : String :=
  let value := (f.field.get w).toNat
  f.name ++ ": " ++ match f.reading with
    | .flag => if value = 0 then "false" else "true"
    | .number => toString value

end NamedField

/-- The named fields of a word, lowest bits first. -/
structure Layout where
  title : String
  fields : List NamedField

namespace Layout

/-- The field called `name`. -/
def field? (l : Layout) (name : String) : Option BitField :=
  (l.fields.find? (·.name == name)).map (·.field)

/-- The title and every field with its value. -/
def inspect (l : Layout) (w : Word) : String :=
  l.title ++ " \x7b " ++ String.intercalate ", " (l.fields.map (·.inspect w)) ++ " \x7d"

/-- The word after each of a list of edits, each naming a field and its new value. An edit that
names no field or whose value is too wide yields `none` and leaves the word as it was. -/
def edit (l : Layout) (w : Word) : List (String × Nat) → List (Option Word)
  | [] => []
  | (name, value) :: rest =>
    match (l.field? name).bind (·.put? w value) with
    | some w' => some w' :: l.edit w' rest
    | none => none :: l.edit w rest

theorem edit_cons {l : Layout} {name : String} {f : BitField} (hf : l.field? name = some f)
    (w : Word) (value : Nat) (rest : List (String × Nat)) :
    l.edit w ((name, value) :: rest) =
      f.put? w value :: l.edit ((f.put? w value).getD w) rest := by
  rw [edit, hf, Option.bind_some]
  cases f.put? w value <;> rfl

end Layout

end Paging
