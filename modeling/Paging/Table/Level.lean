import Paging.Address.Basic

/-!
# Levels of the hierarchy

Four levels of tables translate an address, from the root at L4 to the leaves at L1. Each level
takes nine bits of the address as the index into its table.
-/

namespace Paging

/-- A level of the hierarchy. -/
inductive Level where
  | l4
  | l3
  | l2
  | l1
deriving DecidableEq

namespace Level

/-- The levels from the root down to the leaves. -/
def topDown : List Level := [l4, l3, l2, l1]

/-- The levels whose entries link to another table. -/
def linking : List Level := [l4, l3, l2]

/-- The position of the level's index in an address. -/
def shift : Level → Nat
  | l4 => 39
  | l3 => 30
  | l2 => 21
  | l1 => 12

/-- The number of levels above. -/
def depth : Level → Nat
  | l4 => 0
  | l3 => 1
  | l2 => 2
  | l1 => 3

/-- The level below, if there is one. -/
def next? : Level → Option Level
  | l4 => some l3
  | l3 => some l2
  | l2 => some l1
  | l1 => none

/-- The name of the level. -/
def name : Level → String
  | l4 => "L4"
  | l3 => "L3"
  | l2 => "L2"
  | l1 => "L1"

/-- The level with the given name. -/
def ofName? (s : String) : Option Level :=
  topDown.find? (·.name == s)

instance : Ord Level := ⟨fun a b => compare a.depth b.depth⟩

end Level

end Paging
