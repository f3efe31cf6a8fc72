import Paging.Hardware.PageWalk
import Paging.Proofs.WalkAgreement

/-!
# Translation is the processor's walk

While frames are used directly, an address is translated as a processor translates it that walks the
same tables, for pages of 1 GiB, of 2 MiB and of 4 KiB, and whatever the entries hold around the
bits that a walk looks at. There are two differences. A leaf at L1 counts before it is present: it
is translated as the processor will translate it once it is. And a leaf that names frame zero maps
nothing. Both walks come to the same leaf; the differences are in what they make of it.
-/

namespace Paging

/-! ## Bits of a leaf -/

namespace Entry

/-- Bits 12 to 51 of an entry: the number of the frame that it names. -/
def frameNumber (e : Entry) : BitVec 40 := e.bits.extractLsb' 12 40

/-- The entry with its present bit set. -/
def marked (e : Entry) : Entry := ⟨e.bits ||| 1#64⟩

theorem getLsbD_address (e : Entry) (i : Nat) :
    e.address.word.getLsbD i = (decide (12 ≤ i ∧ i < 52) && e.bits.getLsbD i) :=
  Page.getLsbD_containing_lowBits e.bits i

theorem isZero_address_iff (e : Entry) : e.address.isZero = true ↔ e.frameNumber = 0 := by
  rw [Address.isZero, beq_iff_eq]
  constructor
  · intro hzero
    apply BitVec.eq_of_getLsbD_eq
    intro i hi
    -- Bit i of the number is bit 12 + i of the address.
    have hbit := getLsbD_address e (12 + i)
    have hin : 12 ≤ 12 + i ∧ 12 + i < 52 := by omega
    rw [hzero, decide_eq_true hin, Bool.true_and] at hbit
    simp [frameNumber, ← hbit]
  · intro hzero
    apply BitVec.eq_of_getLsbD_eq
    intro i _
    rw [getLsbD_address]
    by_cases hin : 12 ≤ i ∧ i < 52
    · have hbit := congrArg (·.getLsbD (i - 12)) hzero
      have hlt : i - 12 < 40 := by omega
      have hsum : 12 + (i - 12) = i := by omega
      simpa [frameNumber, hlt, hsum] using fun _ _ => hbit
    · simp [hin]

@[simp] theorem present_marked (e : Entry) : e.marked.present = true := by
  simp [present, marked]

theorem getLsbD_marked (e : Entry) {i : Nat} (hi : 0 < i) :
    e.marked.bits.getLsbD i = e.bits.getLsbD i := by
  have hone : (1#64).getLsbD i = false := by
    rw [BitVec.getLsbD_one]
    simp
    omega
  rw [marked, BitVec.getLsbD_or, hone, Bool.or_false]

/-- Marking an entry changes none of its bits but the lowest. -/
theorem extractLsb'_marked (e : Entry) {start : Nat} (hstart : 0 < start) (len : Nat) :
    e.marked.bits.extractLsb' start len = e.bits.extractLsb' start len := by
  apply BitVec.eq_of_getLsbD_eq
  intro i _
  rw [BitVec.getLsbD_extractLsb', BitVec.getLsbD_extractLsb', getLsbD_marked e (by omega)]

end Entry

/-! ## The address that a leaf leads to -/

namespace Hardware

/-- A leaf at a level and the address it leads to: the entry above the size of the level's pages and
the virtual address below. -/
def pageAt (level : Level) (e : Entry) (va : VirtAddr) : Hit :=
  ⟨e, ⟨(e.bits.extractLsb' level.shift (52 - level.shift) ++
    va.word.extractLsb' 0 level.shift).setWidth 64⟩⟩

/-- What a leaf is translated to: nothing, if it names frame zero. -/
def Hit.translation (hit : Hit) : PhysAddr :=
  if hit.leaf.frameNumber = 0 then .zero else hit.address

variable (level : Level) (e : Entry) (va : VirtAddr)

theorem getLsbD_pageAt (i : Nat) :
    (pageAt level e va).address.word.getLsbD i =
      if i < level.shift then va.word.getLsbD i else decide (i < 52) && e.bits.getLsbD i := by
  have hshift : level.shift ≤ 39 := by cases level <;> decide
  rw [pageAt, BitVec.getLsbD_setWidth, BitVec.getLsbD_append]
  by_cases hlow : i < level.shift
  · have hi : i < 64 := by omega
    simp [hlow, hi]
  · by_cases hhigh : i < 52
    · have hi : i < 64 := by omega
      have hlt : i - level.shift < 52 - level.shift := by omega
      have hsum : level.shift + (i - level.shift) = i := by omega
      simp [hlow, hhigh, hi, hlt, hsum]
    · -- Neither the number nor the offset has a bit up there.
      have hlt : ¬ i - level.shift < 52 - level.shift := by omega
      simp [hlow, hhigh, hlt]

theorem translation_pageAt : (pageAt level e va).translation =
    if e.frameNumber = 0 then .zero else (pageAt level e va).address := rfl

theorem translation_lt : (pageAt level e va).translation.word < physicalLimit := by
  have hlimit : physicalLimit.toNat = 2 ^ 52 := rfl
  rw [translation_pageAt]
  split
  · decide
  · rw [BitVec.lt_def, hlimit]
    -- No bit of the address is at the limit or beyond.
    apply Nat.lt_pow_two_of_testBit
    intro i hi
    have hshift : level.shift ≤ 39 := by cases level <;> decide
    have hbit := getLsbD_pageAt level e va i
    rwa [if_neg (by omega), decide_eq_false (by omega), Bool.false_and] at hbit

theorem offset_translation (h : (pageAt level e va).translation ≠ .zero) :
    (pageAt level e va).translation.offset .size4K = va.offset .size4K := by
  rw [translation_pageAt] at h ⊢
  split at h
  · exact absurd rfl h
  · rename_i hnumber
    rw [if_neg hnumber]
    apply BitVec.eq_of_getLsbD_eq
    intro i _
    -- Pages of every size keep the offset in 4 KiB, which is the lowest part of theirs.
    have hshift : 12 ≤ level.shift := by cases level <;> decide
    rw [Address.offset, Address.offset, Word.getLsbD_lowBits, Word.getLsbD_lowBits, getLsbD_pageAt]
    by_cases hi : i < 12
    · rw [if_pos (by omega)]
    · simp [PageSize.shift, hi]

theorem translation_marked :
    (pageAt level e.marked va).translation = (pageAt level e va).translation := by
  have hnumber : e.marked.frameNumber = e.frameNumber := e.extractLsb'_marked (by decide) 40
  -- Neither the frame nor the address has anything to do with the lowest bit.
  have hshift : 0 < level.shift := by cases level <;> decide
  have haddress : (pageAt level e.marked va).address = (pageAt level e va).address := by
    simp only [pageAt, e.extractLsb'_marked hshift]
  rw [translation_pageAt, translation_pageAt, haddress, hnumber]

end Hardware

theorem Hierarchy.leafAddress_eq (level : Level) (e : Entry) (va : VirtAddr) :
    leafAddress level e va = (Hardware.pageAt level e va).translation := by
  simp only [leafAddress, e.isZero_address_iff, Hardware.translation_pageAt]
  split
  · rfl
  · -- Both addresses are made of the same bits.
    have hword : ((e.address.word).clearLow level.shift ||| va.word.lowBits level.shift) =
        (Hardware.pageAt level e va).address.word := by
      apply BitVec.eq_of_getLsbD_eq
      intro i _
      have hshift : 12 ≤ level.shift := by cases level <;> decide
      rw [Hardware.getLsbD_pageAt, BitVec.getLsbD_or, Word.getLsbD_clearLow, Word.getLsbD_lowBits,
        Entry.getLsbD_address]
      by_cases hlow : i < level.shift
      · simp [hlow, Nat.not_le.mpr hlow]
      · -- Above the shift the base counts, and the mask starts at bit 12 at the latest.
        have hmid : 12 ≤ i := by omega
        simp [hlow, Nat.le_of_not_lt hlow, hmid]
    exact congrArg Address.mk hword

/-! ## Where a walk ends -/

/-- Where the walk of an address ends. -/
inductive WalkEnd where
  /-- At a link of this level that is not present. -/
  | absent (level : Level)
  /-- At a leaf of this level, in the table in `frame`. -/
  | leaf (level : Level) (frame : Frame)
deriving DecidableEq

namespace Memory

/-- Where the walk of an address from the table in `frame` down through the given levels ends. -/
def walkEnd (mem : Memory) (va : VirtAddr) : List Level → Frame → WalkEnd
  | [], _ => .absent .l1
  | level :: lower, frame =>
    let e := mem.read frame (va.index level)
    if level != .l1 && !e.present then .absent level
    else if Hierarchy.endsWalk level e then .leaf level frame
    else mem.walkEnd va lower e.frame

variable {mem : Memory} {va : VirtAddr} {levels : List Level} {root frame table : Frame}

/-- At L1 the walk ends, whatever the entry. -/
theorem walkEnd_l1 (mem : Memory) (va : VirtAddr) (lower : List Level) (frame : Frame) :
    mem.walkEnd va (.l1 :: lower) frame = .leaf .l1 frame := by
  simp [walkEnd, Hierarchy.endsWalk]

theorem walkEnd_of_absent {level : Level} (hlevel : level ≠ .l1)
    (hp : (mem.read frame (va.index level)).present = false) :
    mem.walkEnd va (level :: levels) frame = .absent level := by
  simp [walkEnd, hlevel, hp]

theorem walkEnd_of_huge {level : Level} (hp : (mem.read frame (va.index level)).present = true)
    (hends : Hierarchy.endsWalk level (mem.read frame (va.index level)) = true) :
    mem.walkEnd va (level :: levels) frame = .leaf level frame := by
  simp [walkEnd, hp, hends]

theorem walkEnd_of_link {level : Level} (hp : (mem.read frame (va.index level)).present = true)
    (hends : Hierarchy.endsWalk level (mem.read frame (va.index level)) = false) :
    mem.walkEnd va (level :: levels) frame =
      mem.walkEnd va levels (mem.read frame (va.index level)).frame := by
  simp [walkEnd, hp, hends]

/-- A walk that goes down to L1 misses a link, or finds a huge page, or comes to the last table. -/
theorem walkEnd_cases (mem : Memory) (va : VirtAddr) {levels : List Level} (hlevels : .l1 ∈ levels)
    (frame : Frame) :
    (∃ level, level ≠ .l1 ∧ mem.walkEnd va levels frame = .absent level) ∨
    (∃ level table, level ≠ .l1 ∧ mem.walkEnd va levels frame = .leaf level table ∧
      (mem.read table (va.index level)).present = true) ∨
    ∃ table, mem.walkEnd va levels frame = .leaf .l1 table := by
  -- The walk is followed level by level; only a link that is present leads on.
  induction levels generalizing frame with
  | nil => cases hlevels
  | cons level lower ih =>
    by_cases hlevel : level = .l1
    · subst hlevel
      exact Or.inr (Or.inr ⟨frame, walkEnd_l1 ..⟩)
    -- Above L1 the walk can still miss a link or find a huge page.
    have hlower : .l1 ∈ lower := (List.mem_cons.mp hlevels).resolve_left (Ne.symm hlevel)
    cases hp : (mem.read frame (va.index level)).present with
    | false => exact Or.inl ⟨level, hlevel, walkEnd_of_absent hlevel hp⟩
    | true =>
      cases hends : Hierarchy.endsWalk level (mem.read frame (va.index level)) with
      | true => exact Or.inr (Or.inl ⟨level, frame, hlevel, walkEnd_of_huge hp hends, hp⟩)
      | false =>
        rw [walkEnd_of_link hp hends]
        exact ih hlower _

/-- A slot that is not present is no link of any walk, so filling it leaves alone every walk down to
L1. -/
theorem walkEnd_write_of_absent {i : Index} (hslot : (mem.read table i).present = false) (e : Entry)
    {last : Frame} (hend : mem.walkEnd va levels frame = .leaf .l1 last) :
    (mem.write table i e).walkEnd va levels frame = .leaf .l1 last := by
  induction levels generalizing frame with
  | nil => cases hend
  | cons level lower ih =>
    by_cases hlevel : level = .l1
    · subst hlevel
      rw [walkEnd_l1] at hend ⊢
      exact hend
    cases hp : (mem.read frame (va.index level)).present with
    | false => simp [walkEnd_of_absent hlevel hp] at hend
    | true =>
      have hread : (mem.write table i e).read frame (va.index level) =
          mem.read frame (va.index level) := by
        rw [read_write, if_neg]
        -- What the walk passes is present, so it is not the slot that is filled.
        rintro ⟨rfl, rfl⟩
        simp [hslot] at hp
      cases hends : Hierarchy.endsWalk level (mem.read frame (va.index level)) with
      | true => simp [walkEnd_of_huge hp hends, hlevel] at hend
      | false =>
        rw [walkEnd_of_link hp hends] at hend
        rw [walkEnd_of_link (by rwa [hread]) (by rwa [hread]), hread, ih hend]

end Memory

/-! ## What the two walks make of it -/

namespace WalkEnd

/-- What the processor makes of the end of a walk: a leaf that is not present is a fault. -/
def seen (mem : Memory) (va : VirtAddr) : WalkEnd → Except Level Hardware.Hit
  | absent level => .error level
  | leaf level frame =>
    if (mem.read frame (va.index level)).present then
      .ok (Hardware.pageAt level (mem.read frame (va.index level)) va)
    else .error level

/-- What translating an address makes of the end of its walk. -/
def translation (mem : Memory) (va : VirtAddr) : WalkEnd → PhysAddr
  | absent _ => .zero
  | leaf level frame => (Hardware.pageAt level (mem.read frame (va.index level)) va).translation

end WalkEnd

namespace Memory

variable (mem : Memory) (va : VirtAddr) (level : Level) (lower : List Level) (frame : Frame)

/-- The processor faults at an entry that is not present and stops at a leaf. -/
theorem seen_walkEnd_cons : (mem.walkEnd va (level :: lower) frame).seen mem va =
    if !(mem.read frame (va.index level)).present then .error level
    else if Hierarchy.endsWalk level (mem.read frame (va.index level)) then
      .ok (Hardware.pageAt level (mem.read frame (va.index level)) va)
    else (mem.walkEnd va lower (mem.read frame (va.index level)).frame).seen mem va := by
  by_cases hlevel : level = .l1
  · subst hlevel
    -- At L1 both stop; only the processor minds whether the entry is present.
    rw [walkEnd_l1, WalkEnd.seen]
    cases (mem.read frame (va.index .l1)).present <;> simp [Hierarchy.endsWalk]
  · cases hp : (mem.read frame (va.index level)).present with
    | false => simp only [walkEnd_of_absent hlevel hp, WalkEnd.seen, Bool.not_false, if_true]
    | true =>
      cases hends : Hierarchy.endsWalk level (mem.read frame (va.index level)) with
      | true => simp [walkEnd_of_huge hp hends, WalkEnd.seen, hp]
      | false => simp [walkEnd_of_link hp hends]

end Memory

/-- The processor sees the end of the walk. -/
theorem Hardware.translate_eq_seen (mem : Memory) (root : Frame) (va : VirtAddr) :
    translate mem root va = (mem.walkEnd va Level.topDown root).seen mem va := by
  simp only [Level.topDown, Memory.seen_walkEnd_cons]
  rfl

/-- The processor faults at a link that is not present, or at a leaf at L1 that is not. -/
theorem Hardware.translate_eq_error {mem : Memory} {root : Frame} {va : VirtAddr} {level : Level}
    (h : translate mem root va = .error level) :
    (level ≠ .l1 ∧ mem.walkEnd va Level.topDown root = .absent level) ∨
    (level = .l1 ∧ ∃ table, mem.walkEnd va Level.topDown root = .leaf .l1 table ∧
      (mem.read table (va.index .l1)).present = false) := by
  have hlevels : Level.l1 ∈ Level.topDown := by decide
  rw [translate_eq_seen] at h
  rcases mem.walkEnd_cases va hlevels root with ⟨l, hl, hend⟩ | ⟨l, table, -, hend, hp⟩ |
    ⟨table, hend⟩
  · -- A link is missing.
    rw [hend] at h
    obtain rfl := Except.error.inj h
    exact Or.inl ⟨hl, hend⟩
  · -- A huge page is present.
    simp [hend, WalkEnd.seen, hp] at h
  · -- The walk has come to L1, and there is no fault unless the leaf is absent.
    rw [hend, WalkEnd.seen] at h
    split at h
    · cases h
    · rename_i hp
      exact Or.inr ⟨(Except.error.inj h).symm, table, hend, Bool.eq_false_iff.mpr hp⟩

namespace Hierarchy

variable {η : Type} [Mmu η] {h : Hierarchy} (ha : h.access = .identity)

include ha

theorem translateFrom_eq_translation (mmu : η) (mem : Memory) (va : VirtAddr) (levels : List Level)
    (frame : Frame) :
    h.translateFrom mmu mem va va.indices levels frame =
      .ok ((mem.walkEnd va levels frame).translation mem va) := by
  induction levels generalizing frame with
  | nil => rfl
  | cons level lower ih =>
    rw [translateFrom_cons (locate_of_identity ha ..), Address.get_indices]
    simp only [Memory.walkEnd, ih]
    split
    · rfl
    · split
      · rw [WalkEnd.translation, leafAddress_eq]
      · rfl

/-- So does a translation. -/
theorem translate_eq_translation (mmu : η) (mem : Memory) {va : VirtAddr}
    (hva : va.isCanonical = true) :
    h.translate mmu mem va =
      .ok ((mem.walkEnd va Level.topDown h.root).translation mem va) := by
  rw [translate_of_isCanonical hva]
  exact translateFrom_eq_translation ha mmu mem va Level.topDown h.root

end Hierarchy

/-! ## Both walks of an address space -/

namespace WalkEnd

variable {mem : Memory} {va : VirtAddr}

theorem translation_lt (w : WalkEnd) : (w.translation mem va).word < physicalLimit := by
  cases w with
  | absent level => exact (by decide : (Address.zero : PhysAddr).word < physicalLimit)
  | leaf level frame => exact Hardware.translation_lt ..

theorem offset_translation {w : WalkEnd} (h : w.translation mem va ≠ .zero) :
    (w.translation mem va).offset .size4K = va.offset .size4K := by
  cases w with
  | absent level => exact absurd rfl h
  | leaf level frame => exact Hardware.offset_translation level _ va h

theorem translation_of_seen {w : WalkEnd} {hit : Hardware.Hit} (h : w.seen mem va = .ok hit) :
    w.translation mem va = hit.translation := by
  cases w with
  | absent level => cases h
  | leaf level frame =>
    rw [seen] at h
    split at h
    · obtain rfl := Except.ok.inj h
      rfl
    · cases h

end WalkEnd

namespace AddressSpace

variable {η α : Type} [Mmu η] {s : AddressSpace η α} (ha : s.access = .identity) {va : VirtAddr}

include ha

theorem translate_eq_walkEnd (hva : va.isCanonical = true) :
    s.translate va =
      .ok ((s.machine.memory.walkEnd va Level.topDown s.root).translation s.machine.memory va) :=
  Hierarchy.translate_eq_translation (h := s.hierarchy) ha s.machine.mmu s.machine.memory hva

/-- A leaf at L1 is translated as the processor translates it once it is present. -/
theorem translate_of_marked (hva : va.isCanonical = true) {table : Frame}
    (hend : s.machine.memory.walkEnd va Level.topDown s.root = .leaf .l1 table)
    (hp : (s.machine.memory.read table (va.index .l1)).present = false) :
    let e := s.machine.memory.read table (va.index .l1)
    let mem := s.machine.memory.write table (va.index .l1) e.marked
    Hardware.translate mem s.root va = .ok (Hardware.page4K e.marked va) ∧
      (s.onto { s.machine with memory := mem }).translate va = s.translate va := by
  intro e mem
  -- The entry that is marked is no link, so the walk still ends at it.
  have hend' : mem.walkEnd va Level.topDown s.root = .leaf .l1 table :=
    Memory.walkEnd_write_of_absent hp e.marked hend
  have hread : mem.read table (va.index .l1) = e.marked := Memory.read_write_self ..
  constructor
  · rw [Hardware.translate_eq_seen, hend', WalkEnd.seen, hread, if_pos e.present_marked]
    rfl
  · have hafter := translate_eq_walkEnd (s := s.onto { s.machine with memory := mem }) ha hva
    -- To a translation the mark makes no difference.
    rw [hafter, translate_eq_walkEnd ha hva, hend]
    show Except.ok ((mem.walkEnd va Level.topDown s.root).translation mem va) = _
    rw [hend', WalkEnd.translation, hread, Hardware.translation_marked]
    rfl

/-- While frames are used directly an address is translated as the processor translates it. Where
the processor finds a leaf, of whatever size, both come to the same address, unless the leaf names
frame zero; where it misses a link nothing is mapped. A leaf at L1 that is not present counts as if
it were. What is translated lies below the limit of physical addresses and keeps its place in its
page. -/
theorem translation_of_walk (va : VirtAddr) :
    let mem := s.machine.memory
    (∃ pa, s.translate va = .ok pa ∧ pa.word < physicalLimit ∧
      (pa ≠ .zero → pa.offset .size4K = va.offset .size4K)) ∧
    (va.isCanonical = false → s.translate va = .ok .zero) ∧
    (va.isCanonical = true →
      (∀ hit, Hardware.translate mem s.root va = .ok hit →
        s.translate va = .ok (if hit.leaf.frameNumber = 0 then .zero else hit.address)) ∧
      (∀ level, level ≠ .l1 → Hardware.translate mem s.root va = .error level →
        s.translate va = .ok .zero) ∧
      (Hardware.translate mem s.root va = .error .l1 →
        ∃ table, mem.walkEnd va Level.topDown s.root = .leaf .l1 table ∧
          (mem.read table (va.index .l1)).present = false) ∧
      ∀ table, mem.walkEnd va Level.topDown s.root = .leaf .l1 table →
        let e := mem.read table (va.index .l1)
        (e.frameNumber = 0 → s.translate va = .ok .zero) ∧
        (e.present = false →
          let mem' := mem.write table (va.index .l1) e.marked
          Hardware.translate mem' s.root va = .ok (Hardware.page4K e.marked va) ∧
            (s.onto { s.machine with memory := mem' }).translate va = s.translate va)) := by
  intro mem
  cases hva : va.isCanonical with
  | false =>
    have hzero : s.translate va = .ok .zero := Hierarchy.translate_of_not_isCanonical hva
    exact ⟨⟨.zero, hzero, by decide, fun hne => absurd rfl hne⟩, fun _ => hzero, by simp⟩
  | true =>
    have htranslate := translate_eq_walkEnd ha hva
    refine ⟨⟨_, htranslate, WalkEnd.translation_lt _, WalkEnd.offset_translation⟩, by simp, ?_⟩
    intro _
    refine ⟨?_, ?_, ?_, ?_⟩
    · -- A leaf, of whatever size.
      intro hit hwalk
      rw [Hardware.translate_eq_seen] at hwalk
      rw [htranslate, WalkEnd.translation_of_seen hwalk]
      rfl
    · -- A missing link. At L1 there are leaves only, so the second case is none.
      intro level hlevel hwalk
      rcases Hardware.translate_eq_error hwalk with ⟨-, hend⟩ | ⟨hl, -⟩
      · rw [htranslate, hend]
        rfl
      · exact absurd hl hlevel
    · -- A fault at L1 comes from the leaf.
      intro hwalk
      rcases Hardware.translate_eq_error hwalk with ⟨hl, -⟩ | ⟨-, hlast⟩
      · exact absurd rfl hl
      · exact hlast
    · -- A leaf at L1, present or not.
      intro table hend e
      refine ⟨fun hnumber => ?_, translate_of_marked ha hva hend⟩
      rw [htranslate, hend, WalkEnd.translation, Hardware.translation_pageAt, if_pos hnumber]

omit ha in
/-- A root whose link has the huge bit, which means nothing there; below it a page of 1 GiB whose
base is not aligned, with a protection key and execution forbidden; and in the last table a leaf
that is not present. -/
theorem translation_of_walk_specimen :
    let last : Frame := .containing ⟨0x4000⟩
    let mem := ((((Memory.zero.write Specimen.root 0 ⟨0x2087⟩).write (.containing ⟨0x2000⟩) 0
      ⟨0x3007⟩).write (.containing ⟨0x2000⟩) 1 ⟨0xf8000000c0123083⟩).write (.containing ⟨0x3000⟩) 0
      ⟨0x4007⟩).write last 5 ⟨0x9002⟩
    let s : AddressSpace Hardware.Simulated (Screened Script) :=
      create Specimen.root .identity Specimen.hardware Specimen.source mem
    s.translate ⟨0x40345678⟩ = .ok ⟨0xc0345678⟩ ∧ s.translate ⟨0x8000005abc⟩ = .ok .zero ∧
      s.translate ⟨0x1000000005abc⟩ = .ok .zero ∧
      Hardware.translate mem s.root ⟨0x5abc⟩ = .error .l1 ∧
      s.translate ⟨0x5abc⟩ = .ok ⟨0x9abc⟩ := by
  intro last mem s
  have ha : s.access = .identity := rfl
  have hmem : mem = s.machine.memory := rfl
  have hhuge : Hardware.translate mem s.root ⟨0x40345678⟩ =
      .ok ⟨⟨0xf8000000c0123083⟩, ⟨0xc0345678⟩⟩ := by decide +kernel
  have hmissing : Hardware.translate mem s.root ⟨0x8000005abc⟩ = .error .l4 := by decide +kernel
  have habsent : Hardware.translate mem s.root ⟨0x5abc⟩ = .error .l1 := by decide +kernel
  have hend : mem.walkEnd ⟨0x5abc⟩ Level.topDown s.root = .leaf .l1 last := by decide +kernel
  have hread : mem.read last ((⟨0x5abc⟩ : VirtAddr).index .l1) = ⟨0x9002⟩ := by decide +kernel
  -- What the tables hold does not matter any more.
  clear_value s mem
  subst hmem
  obtain ⟨-, -, hwalk⟩ := translation_of_walk ha ⟨0x40345678⟩
  obtain ⟨-, -, hwalk'⟩ := translation_of_walk ha ⟨0x8000005abc⟩
  obtain ⟨-, hnone, -⟩ := translation_of_walk ha ⟨0x1000000005abc⟩
  obtain ⟨-, -, hleaf⟩ := translation_of_walk ha ⟨0x5abc⟩
  have hfound := (hwalk (by decide)).1 _ hhuge
  have hlost := (hwalk' (by decide)).2.1 _ (by decide) hmissing
  have hmarked := ((hleaf (by decide)).2.2.2 last hend).2
  rw [hread] at hmarked
  obtain ⟨hseen, hsame⟩ := hmarked (by decide)
  refine ⟨hfound.trans ?_, hlost, hnone (by decide), habsent, ?_⟩
  · exact congrArg Except.ok (by decide)
  · -- Once the leaf is present the processor and the translation agree.
    have hafter := translation_of_walk (s := s.onto { s.machine with
      memory := s.machine.memory.write last ((⟨0x5abc⟩ : VirtAddr).index .l1)
        (Entry.marked ⟨0x9002⟩) }) ha ⟨0x5abc⟩
    rw [← hsame, (hafter.2.2 (by decide)).1 _ hseen]
    exact congrArg Except.ok (by decide)

end AddressSpace

end Paging
