import Paging.Table.Entry
import Paging.Table.Indices

/-!
# Page tables

A table is 512 entries, one for each index, and fills one frame.
-/

namespace Paging

/-- A page table. -/
structure Table where
  entries : Vector Entry 512
deriving DecidableEq

namespace Table

/-- The number of entries of a table. -/
def size : Nat := 512

/-- The table in which every entry is the same. -/
def replicate (e : Entry) : Table := ⟨.replicate 512 e⟩

/-- The table without entries. -/
def zero : Table := replicate .zero

/-- The entry at an index. -/
def get (t : Table) (i : Index) : Entry := getElem t.entries i.toNat i.isLt

/-- The table with the entry at an index replaced. -/
def set (t : Table) (i : Index) (e : Entry) : Table :=
  ⟨t.entries.set i.toNat e i.isLt⟩

/-- Whether every entry is absent. -/
def isEmpty (t : Table) : Bool :=
  t.entries.all (·.isZero)

/-- The entries that are not absent, with their positions. -/
def used (t : Table) : List (Nat × Entry) :=
  (t.entries.toList.zipIdx.filter fun p => !p.1.isZero).map fun p => (p.2, p.1)

/-- The positions at which two tables differ, with the entry of the second. -/
def changes (t u : Table) : List (Nat × Entry) :=
  ((t.entries.toList.zip u.entries.toList).zipIdx.filter fun p => p.1.1 ≠ p.1.2).map
    fun p => (p.2, p.1.2)

/-! ## Reading after writing -/

@[simp] theorem get_replicate (e : Entry) (i : Index) : (replicate e).get i = e := by
  simp [replicate, get]

@[simp] theorem get_zero (i : Index) : zero.get i = .zero :=
  get_replicate ..

@[simp] theorem get_set_self (t : Table) (i : Index) (e : Entry) : (t.set i e).get i = e := by
  simp [set, get]

theorem get_set_of_ne (t : Table) {i j : Index} (e : Entry) (h : i ≠ j) :
    (t.set i e).get j = t.get j := by
  have h' : i.toNat ≠ j.toNat := fun c => h (BitVec.eq_of_toNat_eq c)
  simp [set, get, h']

@[ext] theorem ext {t u : Table} (h : ∀ i, t.get i = u.get i) : t = u := by
  obtain ⟨a⟩ := t
  obtain ⟨b⟩ := u
  congr
  ext n hn : 1
  have := h ⟨⟨n, hn⟩⟩
  simpa [get] using this

end Table

end Paging
