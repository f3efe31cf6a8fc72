import Paging.Table.Indices

/-!
# The recursive window

One slot of the root links back to the root. A virtual address that starts with the index of
that slot runs through the root once more, so one index fewer is left to choose a table, and
the walk ends at a table where it would otherwise end at mapped memory. Every table of an active
hierarchy is seen this way at an address of the *window*, the 512 GiB under the slot:

```
root          self self self self
L3 of a       self self self a
L2 of a b     self self a    b
L1 of a b c   self a    b    c
```
-/

namespace Paging

namespace Window

/-- The first address of the window. -/
def start : Word := 1#64 <<< 39

/-- The first address past the window. -/
def stop : Word := 2#64 <<< 39

/-- Whether an address lies in the window. -/
def contains (va : VirtAddr) : Bool :=
  start ≤ va.word && va.word < stop

/-- The indices of the page at which the table at a level of a walk appears. They depend on the
indices above the level only. -/
def slots (level : Level) (ix : Indices) : Indices :=
  match level with
  | .l4 => ⟨selfIndex, selfIndex, selfIndex, selfIndex⟩
  | .l3 => ⟨selfIndex, selfIndex, selfIndex, ix.l4⟩
  | .l2 => ⟨selfIndex, selfIndex, ix.l4, ix.l3⟩
  | .l1 => ⟨selfIndex, ix.l4, ix.l3, ix.l2⟩

/-- The address at which the table at a level of a walk appears. -/
def table (level : Level) (ix : Indices) : VirtAddr :=
  (slots level ix).page

/-- The address at which the root appears. -/
def root : VirtAddr :=
  (Indices.mk selfIndex selfIndex selfIndex selfIndex).page

/-! ## Addresses made of plain words

An operation makes the address of a table from the values of the indices, and would have none if
one of them were out of range. -/

/-- The address of the page with the given indices, if all are in range. -/
def page? (l4 l3 l2 l1 : Word) : Option VirtAddr :=
  (Indices.ofWords? l4 l3 l2 l1).map Indices.page

/-- The value of the root's own index. -/
def selfWord : Word := selfIndex.setWidth 64

/-- The address at which the root appears, if its indices are in range. -/
def root? : Option VirtAddr := page? selfWord selfWord selfWord selfWord

/-- The address at which the table at a level of a walk appears, if its indices are in range. -/
def table? (level : Level) (ix : Indices) : Option VirtAddr :=
  let i4 : Word := ix.l4.setWidth 64
  let i3 : Word := ix.l3.setWidth 64
  let i2 : Word := ix.l2.setWidth 64
  match level with
  | .l4 => root?
  | .l3 => page? selfWord selfWord selfWord i4
  | .l2 => page? selfWord selfWord i4 i3
  | .l1 => page? selfWord i4 i3 i2

theorem page?_eq_some {l4 l3 l2 l1 : Word} {ix : Indices}
    (h : ix.toList.map (·.setWidth 64) = [l4, l3, l2, l1]) :
    page? l4 l3 l2 l1 = some ix.page := by
  rw [page?, Indices.ofWords?_eq_some_iff.mpr h, Option.map_some]

@[simp] theorem root?_eq_some : root? = some root := page?_eq_some rfl

/-- The indices under which a table appears are in range, whatever the walk. -/
@[simp] theorem table?_eq_some (level : Level) (ix : Indices) :
    table? level ix = some (table level ix) := by
  cases level with
  | l4 => exact root?_eq_some
  | l3 => exact page?_eq_some rfl
  | l2 => exact page?_eq_some rfl
  | l1 => exact page?_eq_some rfl

end Window

end Paging
