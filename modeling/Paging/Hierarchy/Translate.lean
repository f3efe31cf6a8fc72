import Paging.Hierarchy.Basic

/-!
# Translating an address

Translating an address follows the links from the root and ends at a leaf: at L1, or at a huge
page at L3 or L2. The answer is zero where nothing is mapped. A leaf at L1 counts as soon as it
names a frame, whether or not it is present; links and huge pages have to be present.
-/

namespace Paging

namespace Hierarchy

variable {η : Type}

/-- Whether an entry at a level ends the walk. The root has no huge pages. -/
def endsWalk (level : Level) (e : Entry) : Bool :=
  level == .l1 || (level != .l4 && e.huge)

/-- The address that a leaf at a level maps `va` to, or zero if the leaf names frame zero. -/
def leafAddress (level : Level) (e : Entry) (va : VirtAddr) : PhysAddr :=
  if e.address.isZero then .zero
  else ⟨e.address.word.clearLow level.shift ||| va.word.lowBits level.shift⟩

/-- Translates `va` from the tables at the given levels down. -/
def translateFrom [Mmu η] (h : Hierarchy) (mmu : η) (mem : Memory) (va : VirtAddr)
    (ix : Indices) : List Level → Frame → Except Halt PhysAddr
  | [], _ => .ok .zero
  | level :: lower, frame => do
    let e ← h.entry mmu mem level ix frame
    -- A leaf at L1 need not be present.
    if level != .l1 && !e.present then .ok .zero
    else if endsWalk level e then .ok (leafAddress level e va)
    else h.translateFrom mmu mem va ix lower e.frame

/-- The physical address that `va` is mapped to, or zero if it is not mapped. -/
def translate [Mmu η] (h : Hierarchy) (mmu : η) (mem : Memory) (va : VirtAddr) :
    Except Halt PhysAddr :=
  match va.indices? with
  | none => .ok .zero
  | some ix => h.translateFrom mmu mem va ix Level.topDown h.root

/-! ## Steps of a translation -/

section Steps

variable [Mmu η] {h : Hierarchy} {mmu : η} {mem : Memory} {va : VirtAddr} {level : Level}
  {lower : List Level} {ix : Indices} {frame : Frame}

theorem translate_of_isCanonical (hva : va.isCanonical = true) :
    h.translate mmu mem va =
      h.translateFrom mmu mem va va.indices Level.topDown h.root := by
  simp only [translate, Address.indices?, hva, if_true]

/-- No table is looked at for an address that is not canonical. -/
theorem translate_of_not_isCanonical (hva : va.isCanonical = false) :
    h.translate mmu mem va = .ok .zero := by
  simp only [translate, Address.indices?, hva, Bool.false_eq_true, if_false]

theorem translateFrom_cons {table : Frame} (hl : h.locate mmu mem level ix frame = .ok table) :
    h.translateFrom mmu mem va ix (level :: lower) frame =
      let e := mem.read table (ix.get level)
      if level != .l1 && !e.present then .ok .zero
      else if endsWalk level e then .ok (leafAddress level e va)
      else h.translateFrom mmu mem va ix lower e.frame := by
  simp only [translateFrom, entry_of_locate hl]
  rfl

theorem translateFrom_cons_of_halt {c : Halt} (hl : h.locate mmu mem level ix frame = .error c) :
    h.translateFrom mmu mem va ix (level :: lower) frame = .error c := by
  simp only [translateFrom, entry_of_halt hl]
  rfl

end Steps

end Hierarchy

end Paging
