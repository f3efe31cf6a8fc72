/-!
# Machine words

Addresses, entries and registers are 64-bit words. A sum or a product that does not fit is
reported by `none` and never wraps. A word is written in hexadecimal, either as short as
possible or padded to all sixteen digits.
-/

namespace Paging

/-- A 64-bit machine word. -/
abbrev Word := BitVec 64

namespace Word

/-! ## Arithmetic that reports overflow -/

/-- The sum of two words, or `none` if it needs more than 64 bits. -/
def add? (a b : Word) : Option Word :=
  if a.uaddOverflow b then none else some (a + b)

/-- The product of two words, or `none` if it needs more than 64 bits. -/
def mul? (a b : Word) : Option Word :=
  if a.umulOverflow b then none else some (a * b)

theorem add?_eq_some_iff {a b c : Word} :
    add? a b = some c ↔ a.toNat + b.toNat = c.toNat := by
  simp only [add?, BitVec.uaddOverflow, ge_iff_le, decide_eq_true_eq]
  split
  · have := c.isLt
    simp only [reduceCtorEq, false_iff]
    omega
  · rename_i h
    rw [Option.some.injEq, ← BitVec.toNat_inj, BitVec.toNat_add,
      Nat.mod_eq_of_lt (Nat.lt_of_not_le h)]

theorem mul?_eq_some_iff {a b c : Word} :
    mul? a b = some c ↔ a.toNat * b.toNat = c.toNat := by
  simp only [mul?, BitVec.umulOverflow, ge_iff_le, decide_eq_true_eq]
  split
  · have := c.isLt
    simp only [reduceCtorEq, false_iff]
    omega
  · rename_i h
    rw [Option.some.injEq, ← BitVec.toNat_inj, BitVec.toNat_mul,
      Nat.mod_eq_of_lt (Nat.lt_of_not_le h)]

/-! ## Power-of-two boundaries -/

/-- The low `n` bits of a word. -/
def lowBits (n : Nat) (w : Word) : Word :=
  (w.setWidth n).setWidth 64

/-- A word with its low `n` bits cleared. -/
def clearLow (n : Nat) (w : Word) : Word :=
  (w >>> n) <<< n

theorem toNat_lowBits (n : Nat) (w : Word) : (lowBits n w).toNat = w.toNat % (1 <<< n) := by
  have h : w.toNat % 2 ^ n < 2 ^ 64 := Nat.lt_of_le_of_lt (Nat.mod_le ..) w.isLt
  simp only [lowBits, BitVec.toNat_setWidth, Nat.one_shiftLeft]
  exact Nat.mod_eq_of_lt h

theorem toNat_clearLow (n : Nat) (w : Word) :
    (clearLow n w).toNat = w.toNat >>> n <<< n := by
  have h : w.toNat / 2 ^ n * 2 ^ n < 2 ^ 64 :=
    Nat.lt_of_le_of_lt (Nat.div_mul_le_self ..) w.isLt
  simp only [clearLow, BitVec.toNat_shiftLeft, BitVec.toNat_ushiftRight, Nat.shiftRight_eq_div_pow,
    Nat.shiftLeft_eq]
  exact Nat.mod_eq_of_lt h

theorem getLsbD_lowBits (n : Nat) (w : Word) (i : Nat) :
    (lowBits n w).getLsbD i = (decide (i < n) && w.getLsbD i) := by
  by_cases h : i < 64
  · simp [lowBits, h]
  · simp [lowBits, h, BitVec.getLsbD_of_ge w i (by omega)]

theorem getLsbD_clearLow (n : Nat) (w : Word) (i : Nat) :
    (clearLow n w).getLsbD i = (decide (n ≤ i) && w.getLsbD i) := by
  by_cases h : i < 64
  · by_cases hn : n ≤ i
    · simp [clearLow, h, hn, Nat.not_lt.mpr hn]
    · simp [clearLow, h, hn, Nat.lt_of_not_le hn]
  · simp [clearLow, h, BitVec.getLsbD_of_ge w i (by omega)]

@[simp] theorem lowBits_clearLow (n : Nat) (w : Word) : lowBits n (clearLow n w) = 0 := by
  apply BitVec.eq_of_getLsbD_eq
  intro i _
  by_cases h : i < n
  · simp [getLsbD_lowBits, getLsbD_clearLow, Nat.not_le.mpr h]
  · simp [getLsbD_lowBits, h]

/-- A word is its low bits together with the bits above. -/
theorem clearLow_or_lowBits (n : Nat) (w : Word) : clearLow n w ||| lowBits n w = w := by
  apply BitVec.eq_of_getLsbD_eq
  intro i _
  simp only [BitVec.getLsbD_or, getLsbD_clearLow, getLsbD_lowBits]
  by_cases h : n ≤ i <;> simp [h, Nat.lt_of_not_le]

/-! ## Hexadecimal text -/

/-- The hexadecimal digits of a word, lower case, without leading zeros. -/
def hexDigits (w : Word) : List Char :=
  Nat.toDigits 16 w.toNat

/-- `0x` and the digits of a word, lower case, without leading zeros. -/
def hex (w : Word) : String :=
  "0x" ++ String.ofList (hexDigits w)

/-- `0x` and all sixteen digits of a word, upper case. -/
def hexPadded (w : Word) : String :=
  "0x" ++ String.ofList ((hexDigits w).map Char.toUpper |>.leftpad 16 '0')

end Word

end Paging
