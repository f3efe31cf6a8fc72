import Paging.Table.Level

/-!
# Indices of an address

A canonical address is an index for each level followed by the offset in its page. `Indices`
holds the four indices and stands for a page of the virtual address space.
-/

namespace Paging

/-- A position in a table. -/
abbrev Index := BitVec 9

/-- The root's slot through which the root refers to itself. -/
def selfIndex : Index := 1

/-- An index for each level. -/
structure Indices where
  l4 : Index
  l3 : Index
  l2 : Index
  l1 : Index
deriving DecidableEq

namespace Index

/-- The index with the given value, if it is in range. -/
def ofWord? (w : Word) : Option Index :=
  if w.toNat < 512 then some (w.setWidth 9) else none

theorem ofWord?_eq_some_iff {w : Word} {i : Index} : ofWord? w = some i ↔ i.setWidth 64 = w := by
  rw [ofWord?, Option.ite_none_right_eq_some, Option.some.injEq]
  constructor
  · rintro ⟨hlt, rfl⟩
    apply BitVec.eq_of_toNat_eq
    rw [BitVec.toNat_setWidth, BitVec.toNat_setWidth]
    omega
  · rintro rfl
    have hlt : i.toNat < 512 := i.isLt
    constructor
    · rw [BitVec.toNat_setWidth]
      omega
    · apply BitVec.eq_of_toNat_eq
      rw [BitVec.toNat_setWidth, BitVec.toNat_setWidth]
      omega

theorem isSome_ofWord?_iff {w : Word} : (ofWord? w).isSome = true ↔ w ≤ 511 := by
  rw [ofWord?, Option.isSome_ite, BitVec.le_def]
  exact Nat.lt_succ_iff

end Index

namespace Address

/-- The index of an address at a level, whether the address is canonical or not. -/
def index (va : VirtAddr) (level : Level) : Index :=
  va.word.extractLsb' level.shift 9

/-- The four indices of an address, whether it is canonical or not. -/
def indices (va : VirtAddr) : Indices :=
  ⟨va.index .l4, va.index .l3, va.index .l2, va.index .l1⟩

/-- The four indices of a canonical address. -/
def indices? (va : VirtAddr) : Option Indices :=
  if va.isCanonical then some va.indices else none

end Address

namespace Indices

/-- The indices with the given values, if all are in range. -/
def ofWords? (l4 l3 l2 l1 : Word) : Option Indices := do
  return ⟨← Index.ofWord? l4, ← Index.ofWord? l3, ← Index.ofWord? l2, ← Index.ofWord? l1⟩

theorem isSome_ofWords?_iff {l4 l3 l2 l1 : Word} :
    (ofWords? l4 l3 l2 l1).isSome = true ↔ l4 ≤ 511 ∧ l3 ≤ 511 ∧ l2 ≤ 511 ∧ l1 ≤ 511 := by
  simp only [← Index.isSome_ofWord?_iff, ofWords?]
  cases Index.ofWord? l4 <;> cases Index.ofWord? l3 <;> cases Index.ofWord? l2 <;>
    cases Index.ofWord? l1 <;> simp

/-- The index at a level. -/
def get (ix : Indices) : Level → Index
  | .l4 => ix.l4
  | .l3 => ix.l3
  | .l2 => ix.l2
  | .l1 => ix.l1

/-- The four indices from the root down. -/
def toList (ix : Indices) : List Index :=
  Level.topDown.map ix.get

/-- The indices are read from the words that they widen to. -/
theorem ofWords?_eq_some_iff {l4 l3 l2 l1 : Word} {ix : Indices} :
    ofWords? l4 l3 l2 l1 = some ix ↔ ix.toList.map (·.setWidth 64) = [l4, l3, l2, l1] := by
  obtain ⟨i4, i3, i2, i1⟩ := ix
  simp only [ofWords?, Option.bind_eq_bind, Option.bind_eq_some_iff, Option.pure_def,
    Index.ofWord?_eq_some_iff, Option.some.injEq, mk.injEq, toList, Level.topDown, get,
    List.map_cons, List.map_nil, List.cons.injEq, and_true]
  constructor
  · rintro ⟨_, h4, _, h3, _, h2, _, h1, rfl, rfl, rfl, rfl⟩
    exact ⟨h4, h3, h2, h1⟩
  · rintro ⟨h4, h3, h2, h1⟩
    exact ⟨i4, h4, i3, h3, i2, h2, i1, h1, rfl, rfl, rfl, rfl⟩

/-- The first address of the page that the indices select. -/
def page (ix : Indices) : VirtAddr :=
  ⟨(ix.l4 ++ ix.l3 ++ ix.l2 ++ ix.l1 ++ 0#12 : BitVec translatedBits).signExtend 64⟩

/-- The four indices in decimal. -/
def inspect (ix : Indices) : String :=
  "TableIndices([" ++
    String.intercalate ", " (ix.toList.map fun i => "TableIndex(" ++ toString i.toNat ++ ")")
    ++ "])"

end Indices

end Paging
