import Paging.Proofs.MapReport
import Paging.Proofs.RootLoading

/-!
# Switching from root to root

The root register takes the base of any encodable frame and no other address. It is made of three
fields, the base and the two bits of the cache policy, and a switch hands the policy on and drops
everything else. So however often the root is switched, the register is the one made of the last
root and the policy that was found at first. Switches that the processor refuses leave no trace in
it.
-/

namespace Paging

namespace Cr3

variable {r r' : Cr3} {f : Frame} {root : PhysAddr} {writeThrough cacheDisabled : Bool}

/-! ## One register from three fields -/

/-- The field that says whether the root is written through. -/
abbrev writeThroughField : BitField := ⟨3, 1⟩

/-- The field that says whether the root is not cached. -/
abbrev cacheDisabledField : BitField := ⟨4, 1⟩

/-- The field that holds the number of the root's frame. -/
abbrev rootField : BitField := ⟨12, 40⟩

theorem ofRoot?_eq_none_iff :
    ofRoot? root writeThrough cacheDisabled = none ↔ ¬ root.IsFrameBase := by
  by_cases ha : root.isAligned .size4K = true
  · simp [ofRoot?, Page.ofAddr?, ha, Page.isEncodable, Address.IsFrameBase]
  · simp [ofRoot?, Page.ofAddr?, ha, Address.IsFrameBase]

/-- The number of a frame fits into its field exactly if the frame is encodable. -/
theorem shiftRight_lt_iff (f : Frame) :
    f.base.word.toNat >>> 12 < 1 <<< rootField.width ↔ f.isEncodable := by
  have hwidth : 1 <<< rootField.width = 2 ^ 40 := rfl
  have hlimit : physicalLimit.toNat = 2 ^ 52 := rfl
  rw [f.isEncodable_iff, hwidth, hlimit, Nat.shiftRight_eq_div_pow]
  omega

/-- The register is what its fields make of it, set one after the other. -/
theorem bits_of_ofRoot? (h : ofRoot? f.base writeThrough cacheDisabled = some r) :
    r.bits = rootField.put (cacheDisabledField.put (writeThroughField.put zero.bits
      (.ofBool writeThrough)) (.ofBool cacheDisabled)) (.ofNat 40 (f.base.word.toNat >>> 12)) := by
  obtain ⟨hf, hbits⟩ := getLsbD_ofRoot? h
  apply BitVec.eq_of_getLsbD_eq
  intro i hi
  -- The base of a frame has no bits below the field and none above.
  have hlow := f.getLsbD_base_of_lt (i := i)
  have hhigh := Page.getLsbD_base_of_le hf (i := i)
  have hzero : zero.bits.getLsbD i = false := BitVec.getLsbD_zero
  rw [hbits, BitField.getLsbD_put _ _ _ hi, BitField.getLsbD_put _ _ _ hi,
    BitField.getLsbD_put _ _ _ hi]
  simp only [BitField.Covers, rootField, cacheDisabledField, writeThroughField,
    BitVec.getLsbD_ofBool, BitVec.getLsbD_ofNat, Nat.testBit_shiftRight, BitVec.testBit_toNat]
  grind

/-- Setting the three fields by name makes the register, or is refused where there is none. -/
theorem edit_zero_eq (f : Frame) (writeThrough cacheDisabled : Bool) :
    (layout.edit zero.bits [("pwt", writeThrough.toNat), ("pcd", cacheDisabled.toNat),
      ("pml4_base_4k", f.base.word.toNat >>> 12)]).getLast? =
      some ((ofRoot? f.base writeThrough cacheDisabled).map bits) := by
  have hpwt : layout.field? "pwt" = some writeThroughField := by decide
  have hpcd : layout.field? "pcd" = some cacheDisabledField := by decide
  have hroot : layout.field? "pml4_base_4k" = some rootField := by decide
  -- The two bits are set in any case, so it is only the root that can be refused.
  rw [Layout.edit_cons hpwt, BitField.put?_bool, Layout.edit_cons hpcd, Option.getD_some,
    BitField.put?_bool, Layout.edit_cons hroot, Option.getD_some]
  simp only [Layout.edit, List.getLast?_cons_cons, List.getLast?_singleton, Option.some.injEq]
  cases hr : ofRoot? f.base writeThrough cacheDisabled with
  | none =>
    have hf : ¬ f.isEncodable := fun hf =>
      ofRoot?_eq_none_iff.mp hr ⟨f.isAligned_base, of_decide_eq_true hf⟩
    rw [BitField.put?, if_neg fun hfits => hf ((shiftRight_lt_iff f).mp hfits), Option.map_none]
  | some r =>
    have hf := (getLsbD_ofRoot? hr).1
    rw [BitField.put?, if_pos ((shiftRight_lt_iff f).mpr hf), Option.map_some, bits_of_ofRoot? hr]

/-! ## One switch -/

theorem isFrameBase_of_withRoot? (h : r.withRoot? root = some r') : root.IsFrameBase := by
  apply Classical.byContradiction
  intro hroot
  rw [withRoot?, ofRoot?_eq_none_iff.mpr hroot] at h
  cases h

/-- What a switch does to the fields of the register. -/
theorem fields_of_switch (h : r.withRoot? root = some r') :
    r'.root.base = root ∧
      (r'.writeThrough = r.writeThrough ∧ r'.cacheDisabled = r.cacheDisabled) ∧
      r'.reservedLow = 0 ∧ r'.reservedMiddle = 0 ∧ r'.reservedHigh = 0 := by
  obtain ⟨f, rfl⟩ : ∃ f : Frame, f.base = root := ⟨⟨root, (isFrameBase_of_withRoot? h).1⟩, rfl⟩
  exact ⟨congrArg Page.base (root_of_withRoot? h), policy_of_withRoot? h, reserved_of_withRoot? h⟩

/-! ## Any number of switches -/

/-- The register after switching to one root after the other, or `none` if it does not take one of
them. -/
def switchRoots? (r : Cr3) (roots : List PhysAddr) : Option Cr3 :=
  roots.foldlM withRoot? r

theorem switchRoots?_cons (r : Cr3) (root : PhysAddr) (roots : List PhysAddr) :
    r.switchRoots? (root :: roots) = (r.withRoot? root).bind (·.switchRoots? roots) := by
  rw [switchRoots?, List.foldlM_cons]
  rfl

theorem switchRoots?_concat (r : Cr3) (roots : List PhysAddr) (root : PhysAddr) :
    r.switchRoots? (roots ++ [root]) = (r.switchRoots? roots).bind (·.withRoot? root) := by
  simp [switchRoots?, List.foldlM_append]

theorem switchRoots?_eq_none_iff (r : Cr3) (roots : List PhysAddr) :
    r.switchRoots? roots = none ↔ ∃ root ∈ roots, ¬ root.IsFrameBase := by
  -- Whether a root is taken does not depend on the register, which differs from step to step.
  induction roots generalizing r with
  | nil => simp [switchRoots?]
  | cons root roots ih =>
    rw [switchRoots?_cons, List.exists_mem_cons_iff]
    cases hroot : r.withRoot? root with
    | none => simp [ofRoot?_eq_none_iff.mp hroot]
    | some r' =>
      rw [Option.bind_some, ih r']
      simp [isFrameBase_of_withRoot? hroot]

/-- The cache policy is handed on from switch to switch. -/
theorem policy_of_switchRoots? {roots : List PhysAddr} (h : r.switchRoots? roots = some r') :
    r'.writeThrough = r.writeThrough ∧ r'.cacheDisabled = r.cacheDisabled := by
  induction roots generalizing r with
  | nil =>
    obtain rfl : r = r' := Option.some.inj h
    exact ⟨rfl, rfl⟩
  | cons root roots ih =>
    rw [switchRoots?_cons] at h
    obtain ⟨r₁, hfirst, hrest⟩ := Option.bind_eq_some_iff.mp h
    obtain ⟨-, ⟨hw, hc⟩, -⟩ := fields_of_switch hfirst
    obtain ⟨hw', hc'⟩ := ih hrest
    exact ⟨hw'.trans hw, hc'.trans hc⟩

/-- Only the last root and the first policy are left. -/
theorem switchRoots?_concat_eq {roots : List PhysAddr} (hroots : ∀ p ∈ roots, p.IsFrameBase)
    (r : Cr3) (last : PhysAddr) :
    r.switchRoots? (roots ++ [last]) = ofRoot? last r.writeThrough r.cacheDisabled := by
  rw [switchRoots?_concat]
  cases h : r.switchRoots? roots with
  | none =>
    obtain ⟨p, hp, hbase⟩ := (r.switchRoots?_eq_none_iff roots).mp h
    exact absurd (hroots p hp) hbase
  | some r' =>
    -- The last switch reads nothing of the register but its policy, and that is the first one.
    obtain ⟨hw, hc⟩ := policy_of_switchRoots? h
    rw [Option.bind_some, withRoot?, hw, hc]

end Cr3

/-! ## The processor's register -/

namespace Hardware

/-- The processor after it was asked to load a root, which changes nothing if it refuses. -/
def Cpu.afterLoad (cpu : Cpu) (root : Frame) : Cpu :=
  match Mmu.loadRoot cpu root with
  | .ok cpu' => cpu'
  | .error _ => cpu

/-- The roots that the processor does not refuse: all but the frame at zero. -/
def Cpu.accepted (roots : List Frame) : List Frame := roots.filter (·.base ≠ .zero)

/-- The register follows the roots that are accepted. -/
theorem switchRoots?_accepted (cpu : Cpu) {roots : List Frame}
    (hroots : ∀ f ∈ roots, f.isEncodable = true) :
    cpu.cr3.switchRoots? ((Cpu.accepted roots).map Page.base) =
      some (roots.foldl Cpu.afterLoad cpu).cr3 := by
  induction roots generalizing cpu with
  | nil => rfl
  | cons root roots ih =>
    obtain ⟨hroot, hrest⟩ := List.forall_mem_cons.mp hroots
    rw [List.foldl_cons, ← ih _ hrest]
    -- A root that is refused drops out of the list and leaves the processor as it is; any other
    -- is one switch.
    by_cases hzero : root.base = .zero
    · have hstay : cpu.afterLoad root = cpu := by
        rw [Cpu.afterLoad, cpu.loadRoot_of_isZero hzero]
      simp [Cpu.accepted, hzero, hstay]
    · obtain ⟨cr3, hcr3, hload⟩ := cpu.loadRoot_of_ne_zero hroot hzero
      have hmove : (cpu.afterLoad root).cr3 = cr3 := by
        rw [Cpu.afterLoad, hload]
      simp [Cpu.accepted, hzero, hmove, Cr3.switchRoots?_cons, hcr3]

end Hardware

namespace Cr3

/-- The register takes an address exactly if it is aligned and below 2^52, and then it has this
root, the cache policy it had, and nothing else. Any number of switches comes to one, with the
policy of the start and to the last root. The register is made field by field, and the one of the
processor follows the roots that it accepts. -/
theorem root_switching :
    (∀ (r : Cr3) (root : PhysAddr),
      (r.withRoot? root = none ↔ root.isAligned .size4K = false ∨ physicalLimit ≤ root.word) ∧
      ∀ r', r.withRoot? root = some r' →
        r'.root.base = root ∧
        (r'.writeThrough = r.writeThrough ∧ r'.cacheDisabled = r.cacheDisabled) ∧
        r'.reservedLow = 0 ∧ r'.reservedMiddle = 0 ∧ r'.reservedHigh = 0) ∧
    (∀ (r : Cr3) (roots : List PhysAddr),
      (r.switchRoots? roots = none ↔ ∃ root ∈ roots, ¬ root.IsFrameBase) ∧
      ((∀ root ∈ roots, root.IsFrameBase) → ∀ last,
        r.switchRoots? (roots ++ [last]) = ofRoot? last r.writeThrough r.cacheDisabled)) ∧
    (∀ (f : Frame) (writeThrough cacheDisabled : Bool),
      (layout.edit zero.bits [("pwt", writeThrough.toNat), ("pcd", cacheDisabled.toNat),
        ("pml4_base_4k", f.base.word.toNat >>> 12)]).getLast? =
        some ((ofRoot? f.base writeThrough cacheDisabled).map bits)) ∧
    ∀ (cpu : Hardware.Cpu) (roots : List Frame), (∀ f ∈ roots, f.isEncodable = true) →
      cpu.cr3.switchRoots? ((Hardware.Cpu.accepted roots).map Page.base) =
        some (roots.foldl Hardware.Cpu.afterLoad cpu).cr3 := by
  refine ⟨fun r root => ⟨?_, fun r' h => fields_of_switch h⟩, fun r roots => ⟨?_, fun hroots last =>
    switchRoots?_concat_eq hroots r last⟩, edit_zero_eq, fun cpu roots hroots =>
    Hardware.switchRoots?_accepted cpu hroots⟩
  · rw [withRoot?, ofRoot?_eq_none_iff, Address.IsFrameBase, not_and_or, Bool.not_eq_true,
      BitVec.not_lt]
  · exact r.switchRoots?_eq_none_iff roots

/-- A register full of reserved bits, with one bit of the cache policy set: switched by way of some
root to the topmost one, and by a processor that refuses a root in between. -/
theorem root_switching_specimen :
    let r : Cr3 := ⟨0xfffffffffffffff7⟩
    let low : Frame := .containing ⟨0x1000⟩
    let top : Frame := .containing ⟨0xffffffffff000⟩
    r.withRoot? ⟨0x10000000000000⟩ = none ∧ r.withRoot? ⟨0x1800⟩ = none ∧
      (r.withRoot? low.base = some ⟨0x1010⟩ ∧ (⟨0x1010⟩ : Cr3).root.base = low.base) ∧
      r.switchRoots? [low.base, top.base] = some ⟨0xffffffffff010⟩ ∧
      ([low, .containing .zero, top].foldl Hardware.Cpu.afterLoad ⟨r, fun _ => true⟩).cr3 =
        ⟨0xffffffffff010⟩ := by
  intro r low top
  obtain ⟨hswitch, hswitches, -, hprocessor⟩ := root_switching
  have hmoved : r.withRoot? low.base = some ⟨0x1010⟩ := by decide
  have hlast : r.switchRoots? [low.base, top.base] = some ⟨0xffffffffff010⟩ :=
    ((hswitches r [low.base]).2 (by decide) top.base).trans (by decide)
  have hfollows := hprocessor ⟨r, fun _ => true⟩ [low, .containing .zero, top] (by decide)
  have haccepted : Hardware.Cpu.accepted [low, .containing .zero, top] = [low, top] := by decide
  rw [haccepted] at hfollows
  exact ⟨(hswitch r _).1.mpr (by decide), (hswitch r _).1.mpr (by decide),
    ⟨hmoved, ((hswitch r low.base).2 _ hmoved).1⟩, hlast,
    Option.some.inj (hfollows.symm.trans hlast)⟩

end Cr3

end Paging
