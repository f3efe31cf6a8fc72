import Paging.Hardware.PageWalk
import Paging.Proofs.WindowWalk

/-!
# What the window shows

Whatever memory holds, as long as the root links to itself, the window address of a table reaches
exactly what the entries above the table lead to. Each pass through the root's own slot uses up one
level at the root, and what is left of the four levels is the address's own walk. Neither walk
looks at anything but the present bit of an entry and the frame that it names.
-/

namespace Paging

/-! ## What a walk looks at -/

/-- Two memories whose entries agree in bit 0 and in bits 12 to 51. -/
def Memory.AgreesOnWalks (mem mem' : Memory) : Prop :=
  ∀ f i n, n = 0 ∨ 12 ≤ n ∧ n < 52 →
    (mem'.read f i).bits.getLsbD n = (mem.read f i).bits.getLsbD n

namespace Memory.AgreesOnWalks

variable {mem mem' : Memory}

theorem present_eq (h : mem.AgreesOnWalks mem') (f : Frame) (i : Index) :
    (mem'.read f i).present = (mem.read f i).present := h f i 0 (Or.inl rfl)

theorem frame_eq (h : mem.AgreesOnWalks mem') (f : Frame) (i : Index) :
    (mem'.read f i).frame = (mem.read f i).frame := by
  -- The frame is made of bits 12 to 51 and of no others.
  apply Page.containing_lowBits_eq (Entry.isEncodable_frame _)
  intro n hlow hhigh
  rw [h f i n (Or.inr ⟨hlow, hhigh⟩), Entry.frame, Page.getLsbD_containing_lowBits,
    decide_eq_true ⟨hlow, hhigh⟩, Bool.true_and]

end Memory.AgreesOnWalks

namespace Hardware

variable {installed : Frame → Bool} {mem mem' : Memory} {root frame table : Frame}
  {va va' : VirtAddr} {level : Level} {levels levels' lower : List Level}

theorem follow_of_agreesOnWalks (h : mem.AgreesOnWalks mem') (installed : Frame → Bool)
    (va : VirtAddr) (levels : List Level) (frame : Frame) :
    follow installed mem' va levels frame = follow installed mem va levels frame := by
  induction levels generalizing frame with
  | nil => rfl
  | cons level lower ih => simp only [follow, h.present_eq, h.frame_eq, ih]

/-! ## The table at a level -/

/-- The table at a level of the walk of an address: the frame that the last entry above it names, if
all entries above it are present. -/
def walkedTable? (mem : Memory) (root : Frame) (va : VirtAddr) (level : Level) : Option Frame :=
  (entries mem va level.above root).map fun es => (es.getLast?.map Entry.frame).getD root

theorem map_getLast?_entries (mem : Memory) (va : VirtAddr) (levels : List Level) (frame : Frame) :
    (entries mem va levels frame).map (fun es => (es.getLast?.map Entry.frame).getD frame) =
      mem.walkTo? frame (levels.map va.index) := by
  induction levels generalizing frame with
  | nil => rfl
  | cons level lower ih =>
    simp only [entries, List.map_cons, Memory.walkTo?]
    split
    · -- The entry at hand is the last one if there is none below.
      rw [← ih, Option.map_map]
      congr 1
      funext es
      cases h : es.getLast? <;> simp [List.getLast?_cons, h]
    · rfl

theorem walkedTable?_eq_walkTo? (mem : Memory) (root : Frame) (va : VirtAddr) (level : Level) :
    walkedTable? mem root va level = mem.walkTo? root (level.above.map va.index) :=
  map_getLast?_entries mem va level.above root

/-! ## Passes through the root's own slot -/

theorem follow_of_not_installed (h : installed frame = false) (mem : Memory) (va : VirtAddr)
    (levels : List Level) :
    follow installed mem va levels frame = .error (.noMemory frame.base) := by
  cases levels <;> simp [follow, h]

/-- A pass through the root's own slot uses up a level and is back at the root. -/
theorem follow_cons_self (hself : mem.SelfLinked root) (h : va.index level = selfIndex) :
    follow installed mem va (level :: lower) root = follow installed mem va lower root := by
  cases hi : installed root with
  -- Without memory at the root neither walk gets beyond it.
  | false => rw [follow_of_not_installed hi, follow_of_not_installed hi]
  | true => simp only [follow, hi, h, hself.1, hself.2, if_true]

/-- Where a walk arrives depends on the indices alone, and not on the levels they belong to. -/
theorem follow_eq_ok_congr (h : levels.map va.index = levels'.map va'.index) :
    follow installed mem va levels frame = .ok table ↔
      follow installed mem va' levels' frame = .ok table := by
  induction levels generalizing levels' frame with
  | nil =>
    -- Lists of indices that are equal are equally long.
    obtain rfl : levels' = [] := by simpa using h.symm
    rfl
  | cons level lower ih =>
    cases levels' with
    | nil => simp at h
    | cons level' lower' =>
      simp only [List.map_cons, List.cons.injEq] at h
      simp only [follow, h.1]
      split
      · split
        · exact ih h.2
        · -- Both walks stop here, each at its own level.
          simp
      · simp

/-- At the window address of a table the walk of the root is the walk to the table. -/
theorem follow_window_iff (hself : mem.SelfLinked root) (va : VirtAddr) (level : Level) :
    follow installed mem (Window.table level va.indices) Level.topDown root = .ok table ↔
      follow installed mem va level.above root = .ok table := by
  have hindex : ∀ l, (Window.table level va.indices).index l =
      (Window.slots level va.indices).get l := Indices.index_page _
  cases level with
  | l4 =>
    -- All four levels are passes.
    rw [Level.topDown, follow_cons_self hself (hindex _), follow_cons_self hself (hindex _),
      follow_cons_self hself (hindex _), follow_cons_self hself (hindex _)]
    rfl
  | l3 =>
    rw [Level.topDown, follow_cons_self hself (hindex _), follow_cons_self hself (hindex _),
      follow_cons_self hself (hindex _)]
    apply follow_eq_ok_congr
    simp only [Level.above, List.map_cons, List.map_nil, hindex]
    rfl
  | l2 =>
    -- After two passes two indices are left, which are taken at other levels than their own.
    rw [Level.topDown, follow_cons_self hself (hindex _), follow_cons_self hself (hindex _)]
    apply follow_eq_ok_congr
    simp only [Level.above, List.map_cons, List.map_nil, hindex]
    rfl
  | l1 =>
    -- One pass, and the indices that are left are those above the last table.
    rw [Level.topDown, follow_cons_self hself (hindex _)]
    apply follow_eq_ok_congr
    simp only [Level.above, List.map_cons, List.map_nil, hindex]
    rfl

/-! ## The window of the hardware -/

/-- The window of the hardware shows what a walk from the loaded root reaches. The root may have
been loaded as any address of its frame. -/
def Walks {η : Type} [Mmu η] (mmu : η) (installed : Frame → Bool) (root : Frame) : Prop :=
  ∃ a : PhysAddr, Page.containing a = root ∧
    ∀ mem va, Mmu.windowTable mmu mem va = walk installed mem a va

theorem walks_cpu (cpu : Cpu) : Walks cpu cpu.installed cpu.cr3.root :=
  ⟨cpu.cr3.root.base, Page.containing_base _, fun _ _ => rfl⟩

theorem walks_simulated {sim : Simulated} {a : PhysAddr} (h : sim.loaded = some a) :
    Walks sim sim.installed (.containing a) := by
  refine ⟨a, rfl, fun mem va => ?_⟩
  simp only [Mmu.windowTable, h]

theorem walk_eq_ok_iff {a : PhysAddr} :
    walk installed mem a va = .ok table ↔
      follow installed mem va Level.topDown (.containing a) = .ok table := by
  refine ⟨fun h => ?_, walk_of_follow⟩
  unfold walk at h
  split at h
  · exact h
  · cases h

/-- The window shows the table at a level of a walk if and only if the entries above the level lead
there, and neither depends on more than bit 0 and bits 12 to 51 of the entries. -/
theorem windowTable_eq_ok_iff {η : Type} [Mmu η] {mmu : η} (hw : Walks mmu installed root)
    (hself : mem.SelfLinked root) {ix : Indices} (hix : va.indices? = some ix) (level : Level)
    (table : Frame) :
    (Mmu.windowTable mmu mem (Window.table level ix) = .ok table ↔
      follow installed mem va level.above root = .ok table) ∧
    ((∀ f, installed f = true) →
      (Mmu.windowTable mmu mem (Window.table level ix) = .ok table ↔
        walkedTable? mem root va level = some table)) ∧
    ∀ mem', mem.AgreesOnWalks mem' →
      Mmu.windowTable mmu mem' (Window.table level ix) =
          Mmu.windowTable mmu mem (Window.table level ix) ∧
        walkedTable? mem' root va level = walkedTable? mem root va level := by
  obtain ⟨a, rfl, hwindow⟩ := hw
  obtain rfl : va.indices = ix := by
    -- The address is canonical, so its indices are what was asked for.
    unfold Address.indices? at hix
    split at hix
    · exact Option.some.inj hix
    · cases hix
  have hiff : Mmu.windowTable mmu mem (Window.table level va.indices) = .ok table ↔
      follow installed mem va level.above (.containing a) = .ok table := by
    rw [hwindow, walk_eq_ok_iff, follow_window_iff hself]
  refine ⟨hiff, fun hall => ?_, fun mem' hagrees => ⟨?_, ?_⟩⟩
  · -- Where all memory is installed a walk stops at missing entries only.
    rw [hiff, walkedTable?_eq_walkTo?, follow_eq_ok_iff hall]
  · -- The walk of the hardware looks at these bits only.
    simp only [hwindow, walk, follow_of_agreesOnWalks hagrees]
  · -- What is followed tells where the entries lead.
    apply Option.ext
    intro f
    have hall : ∀ f : Frame, (fun _ => true : Frame → Bool) f = true := fun _ => rfl
    rw [walkedTable?_eq_walkTo?, walkedTable?_eq_walkTo?, ← follow_eq_ok_iff hall,
      ← follow_eq_ok_iff hall, follow_of_agreesOnWalks hagrees]

/-- The last table of a page with four different indices is found through the window, though the
entry above it has every flag that there is. -/
theorem windowTable_eq_ok_iff_specimen :
    let frame (n : Word) : Frame := .containing ⟨n <<< 12⟩
    let mem := (((Memory.zero.write (frame 1) selfIndex (.selfLink (frame 1))).write
      (frame 1) 256 (.link (frame 2))).write (frame 2) 3 (.link (frame 3))).write
        (frame 3) 5 (.encode (frame 4) .all)
    let hardware : Simulated := ⟨some ⟨0x1000⟩, fun _ => true⟩
    mem.SelfLinked (frame 1) ∧
      (⟨0xFFFF8000C0A07ABC⟩ : VirtAddr).indices? = some ⟨256, 3, 5, 7⟩ ∧
      walkedTable? mem (frame 1) ⟨0xFFFF8000C0A07ABC⟩ .l1 = some (frame 4) ∧
      Mmu.windowTable hardware mem (Window.table .l1 ⟨256, 3, 5, 7⟩) = .ok (frame 4) := by
  intro frame mem hardware
  have hwalks : Walks hardware (fun _ => true) (frame 1) := walks_simulated rfl
  have hself : mem.SelfLinked (frame 1) := by
    unfold Memory.SelfLinked
    decide +kernel
  have hix : (⟨0xFFFF8000C0A07ABC⟩ : VirtAddr).indices? = some ⟨256, 3, 5, 7⟩ := by decide +kernel
  have hwalked : walkedTable? mem (frame 1) ⟨0xFFFF8000C0A07ABC⟩ .l1 = some (frame 4) := by
    decide +kernel
  -- What else is in memory does not matter any more.
  clear_value mem
  have hshown := windowTable_eq_ok_iff hwalks hself hix .l1 (frame 4)
  exact ⟨hself, hix, hwalked, (hshown.2.1 fun _ => rfl).mpr hwalked⟩

end Hardware

end Paging
