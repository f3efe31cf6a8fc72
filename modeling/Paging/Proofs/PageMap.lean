import Paging.Proofs.Actions
import Paging.Proofs.ScriptedFrames

/-!
# An address space is a map of pages

While its frames are used directly an address space behaves like a function from pages to leaves.
Mapping sets one leaf or is refused, unmapping returns and clears one, translating looks one up, and
activating leaves all as they are. The tables behind it, how many there are and when one is made, do
not show.
-/

namespace Paging

/-! ## The map -/

/-- The leaf of every page, absent where nothing is mapped. -/
def PageMap : Type := Indices → Entry

/-- Whether an address is canonical and outside of the window. -/
def Address.IsPlain (va : VirtAddr) : Prop :=
  va.isCanonical = true ∧ Window.contains va = false

namespace PageMap

/-- The map without leaves. -/
def empty : PageMap := fun _ => .zero

/-- The map with one leaf replaced. -/
def set (L : PageMap) (ix : Indices) (leaf : Entry) : PageMap :=
  fun jx => if jx = ix then leaf else L jx

/-- The address that is `va` in the frame of its page's leaf, or zero if that is frame zero. -/
def lookUp (L : PageMap) (va : VirtAddr) : PhysAddr :=
  if (L va.indices).address = .zero then .zero
  else ⟨(L va.indices).address.word + va.offset .size4K⟩

/-- What an action makes of a map, and its outcome. -/
inductive Step (L : PageMap) : Action → Outcome → PageMap → Prop where
  | mapped {va : VirtAddr} {pa : PhysAddr} {flags : PageFlags} {force : Bool}
      (hva : va.IsPlain) (hfree : force = false → L va.indices = .zero) :
      Step L (.map va pa flags force) .done
        (L.set va.indices (.encode (.containing pa) (.ofPageFlags flags)))
  | mapRefused {va : VirtAddr} {pa : PhysAddr} {flags : PageFlags} {force : Bool}
      (cause : MapError) : Step L (.map va pa flags force) (.refused (.map cause)) L
  | identityMap {pa : PhysAddr} {flags : PageFlags} {force : Bool} {o : Outcome} {L' : PageMap}
      (h : Step L (.map ⟨pa.word⟩ pa flags force) o L') : Step L (.identityMap pa flags force) o L'
  | unmapped {va : VirtAddr} (hva : va.IsPlain) (hleaf : L va.indices ≠ .zero) :
      Step L (.unmap va) (.address (L va.indices).address) (L.set va.indices .zero)
  | notMapped {va : VirtAddr} (hva : va.IsPlain) (hleaf : L va.indices = .zero) :
      Step L (.unmap va) (.refused (.map .notMapped)) L
  | unmapInvalid {va : VirtAddr} (hva : ¬ va.IsPlain) :
      Step L (.unmap va) (.refused (.map .invalidVirtual)) L
  | translated {va : VirtAddr} (hva : va.IsPlain) :
      Step L (.translate va) (.address (L.lookUp va)) L
  | translatedOther {va : VirtAddr} {pa : PhysAddr} (hva : ¬ va.IsPlain)
      (hpa : va.isCanonical = false → pa = .zero) : Step L (.translate va) (.address pa) L
  | activated : Step L .activate .done L
  | activateRefused (cause : Refusal) : Step L .activate (.refused cause) L

/-- What a list of actions makes of a map, and the outcomes. -/
inductive Run : PageMap → List Action → List Outcome → PageMap → Prop where
  | nil (L : PageMap) : Run L [] [] L
  | cons {L L' L'' : PageMap} {a : Action} {o : Outcome} {rest : List Action}
      {outcomes : List Outcome} (hstep : L.Step a o L') (hrest : Run L' rest outcomes L'') :
      Run L (a :: rest) (o :: outcomes) L''

end PageMap

/-- Mapping accepts the addresses outside of the window. -/
theorem mappable?_eq_some_indices {va : VirtAddr} :
    Hierarchy.mappable? va = some va.indices ↔ va.IsPlain := by
  rw [mappable?_eq_some_iff]
  constructor
  · intro h
    refine ⟨h.1, ?_⟩
    rw [Bool.eq_false_iff, ne_eq, Address.contains_window_iff h.1]
    exact h.2.2
  · intro h
    refine ⟨h.1, rfl, ?_⟩
    intro hself
    have hin := (Address.contains_window_iff h.1).mpr hself
    simp [h.2] at hin

/-- The way of such an address does not start in the window. -/
theorem Address.IsPlain.l4_ne {va : VirtAddr} (h : va.IsPlain) : va.indices.l4 ≠ selfIndex :=
  (mappable?_eq_some_iff.mp (mappable?_eq_some_indices.mpr h)).2.2

theorem mappable?_eq_none_iff {va : VirtAddr} : Hierarchy.mappable? va = none ↔ ¬ va.IsPlain := by
  rw [← mappable?_eq_some_indices]
  constructor
  · intro h
    simp [h]
  · intro h
    cases hva : Hierarchy.mappable? va with
    | none => rfl
    | some ix =>
      obtain ⟨-, rfl, -⟩ := mappable?_eq_some_iff.mp hva
      exact absurd hva h

/-! ## Translating among own links -/

namespace Hierarchy

variable {η : Type} [Mmu η]

/-- The frame of a leaf and the offset of an address make up the translation. -/
theorem leafAddress_l1 (e : Entry) (va : VirtAddr) :
    leafAddress .l1 e va =
      if e.address = .zero then .zero else ⟨e.address.word + va.offset .size4K⟩ := by
  have hzero : e.address.isZero = true ↔ e.address = .zero := by
    obtain ⟨w⟩ := e.address
    simp [Address.isZero, Address.zero]
  unfold leafAddress
  simp only [hzero]
  split
  · rfl
  · -- The base of a frame and an offset have no bits in common.
    have hbase : e.address.word.clearLow 12 = e.address.word :=
      Word.clearLow_of_lowBits_eq_zero e.frame.lowBits_base
    have hdisjoint : e.address.word &&& va.word.lowBits 12 = 0 := by
      apply BitVec.eq_of_getLsbD_eq
      intro i _
      rw [← hbase, BitVec.getLsbD_and, Word.getLsbD_clearLow, Word.getLsbD_lowBits]
      by_cases hi : i < 12
      · -- Low bits are zero in a base, and high bits are zero in an offset.
        simp [hi, Nat.not_le.mpr hi]
      · simp [hi]
    show (⟨e.address.word.clearLow 12 ||| va.word.lowBits 12⟩ : PhysAddr) =
      ⟨e.address.word + va.word.lowBits 12⟩
    rw [hbase, BitVec.add_eq_or_of_and_eq_zero _ _ hdisjoint]

/-- Among own links a translation comes to the leaf of the page. -/
theorem translateFrom_direct_of_ownLinks (h : Hierarchy) (mmu : η) {mem : Memory}
    (hown : mem.OwnLinks h.root) (va : VirtAddr) {ix : Indices} (hix : ix.l4 ≠ selfIndex)
    {levels : List Level} (hlevels : .l1 ∉ levels) {frame : Frame}
    (hr : mem.Reached h.root ix levels frame) :
    h.direct.translateFrom mmu mem va ix (levels ++ [.l1]) frame =
      .ok (leafAddress .l1 (mem.leaf h.root ix) va) := by
  induction levels generalizing frame with
  | nil =>
    -- All links have been followed, and the leaf is next.
    rw [Memory.leaf_of_some hr.table, List.nil_append, translateFrom_cons (h := h.direct) rfl]
    rfl
  | cons level lower ih =>
    rw [List.mem_cons, not_or] at hlevels
    have hlevel : (level == .l1) = false := beq_eq_false_iff_ne.mpr (Ne.symm hlevels.1)
    rw [List.cons_append, translateFrom_cons (h := h.direct) rfl]
    cases hpresent : (mem.read frame (ix.get level)).present with
    | false =>
      -- An empty slot: there is no table for the page, and no leaf.
      have hnone : (mem.read frame (ix.get level)).isLink = false := by
        simp [Entry.isLink, hpresent]
      rw [Memory.leaf_of_none (hr.tableAt?_path_eq_none hnone)]
      simp only [bne, hlevel, hpresent, Bool.not_false, Bool.and_self, if_true]
      rfl
    | true =>
      have hlink := hown.isLink_of_present (hr.isLinkSlot hix) hpresent
      have hends : endsWalk level (mem.read frame (ix.get level)) = false := by
        simp [endsWalk, hlevel, (Entry.isLink_iff.mp hlink).2]
      simp only [hpresent, hends, Bool.not_true, Bool.and_false, Bool.false_eq_true, if_false]
      exact ih hlevels.2 (hr.next hlink)

theorem translate_of_ownLinks {α : Type} {h : Hierarchy} {m : Machine η α} (hu : h.Usable m)
    (hown : m.memory.OwnLinks h.root) {va : VirtAddr} (hva : va.IsPlain) :
    h.translate m.mmu m.memory va = .ok (leafAddress .l1 (m.memory.leaf h.root va.indices) va) := by
  rw [translate_eq_direct hu, translate_of_isCanonical hva.1]
  exact translateFrom_direct_of_ownLinks h m.mmu hown va hva.l4_ne (by decide)
    (.start m.memory h.root _)

end Hierarchy

/-! ## One action -/

namespace AddressSpace

variable {η α : Type} [Mmu η] [FrameSource α]

/-- The address space uses its frames directly, and its leaves are those of the map. -/
structure Shows (s : AddressSpace η α) (L : PageMap) : Prop extends OwnsTables s where
  identity : s.access = .identity
  leaf : ∀ ix, ix.l4 ≠ selfIndex → s.machine.memory.leaf s.root ix = L ix

namespace Shows

variable {s s' : AddressSpace η α} {m : Machine η α} {L : PageMap}

omit [Mmu η] in
theorem leaf_of_isPlain (hs : s.Shows L) {va : VirtAddr} (hva : va.IsPlain) :
    s.machine.memory.leaf s.root va.indices = L va.indices := by
  exact hs.leaf _ hva.l4_ne

theorem usable (hs : s.Shows L) : s.Usable :=
  Hierarchy.usable_of_identity hs.identity s.machine

/-- Growth shows the same map. -/
theorem of_growsTo (hs : s.Shows L) (hg : GrowsTo s.hierarchy s.machine m) (he : s.Evolves m s') :
    s'.Shows L where
  toOwnsTables := hs.toOwnsTables.evolves he
  identity := he.access.trans hs.identity
  leaf ix hix := by
    -- Making tables sets no leaf.
    rw [he.root, he.agrees.memory, ← hs.leaf ix hix]
    exact hg.leaf_eq hs.orderly hix

/-- Setting a leaf shows the map with that leaf. -/
theorem of_setsLeaf (hs : s.Shows L) {ix : Indices} {leaf : Entry} (hix : ix.l4 ≠ selfIndex)
    (hset : SetsLeaf s.hierarchy ix leaf s.machine m) : (s.onto m).Shows (L.set ix leaf) where
  toOwnsTables := hs.toOwnsTables.evolves (evolves_onto (.setsLeaf ix leaf hix hset))
  identity := hs.identity
  leaf jx hjx := by
    have hleaf := hset.leaf_eq hix hs.orderly hjx
    rw [root_hierarchy, hs.leaf jx hjx] at hleaf
    exact hleaf

/-- Mapping does to what is shown what it does to the map. -/
theorem map (hs : s.Shows L) (va : VirtAddr) (pa : PhysAddr) (flags : PageFlags) (force : Bool) :
    ∃ L', L.Step (.map va pa flags force) (s.perform (.map va pa flags force)).1 L' ∧
      (s.perform (.map va pa flags force)).2.Shows L' := by
  rcases perform_map hs.usable hs.isEncodable hs.orderly va pa flags force with hdone | hrefused
  · obtain ⟨ix, m, hrun, hmappable, hfree, hset⟩ := hdone
    obtain ⟨-, rfl, hix⟩ := mappable?_eq_some_iff.mp hmappable
    have hva := mappable?_eq_some_indices.mp hmappable
    rw [hs.leaf_of_isPlain hva] at hfree
    rw [hrun]
    exact ⟨_, .mapped hva hfree, hs.of_setsLeaf hix hset⟩
  · obtain ⟨cause, m, hrun, hg⟩ := hrefused
    rw [hrun]
    exact ⟨L, .mapRefused cause, hs.of_growsTo hg (evolves_onto (.grows hg))⟩

/-- Unmapping does to what is shown what it does to the map. -/
theorem unmap (hs : s.Shows L) (va : VirtAddr) :
    ∃ L', L.Step (.unmap va) (s.perform (.unmap va)).1 L' ∧ (s.perform (.unmap va)).2.Shows L' := by
  rcases perform_unmap hs.usable va with hdone | hrefused
  · obtain ⟨ix, m, hrun, hmappable, hleaf, hset⟩ := hdone
    obtain ⟨-, rfl, hix⟩ := mappable?_eq_some_iff.mp hmappable
    have hva := mappable?_eq_some_indices.mp hmappable
    rw [hs.leaf_of_isPlain hva] at hleaf
    rw [hrun, hs.leaf_of_isPlain hva]
    exact ⟨_, .unmapped hva hleaf, hs.of_setsLeaf hix hset⟩
  · obtain ⟨cause, m, hrun, hg, hinvalid, hmissing⟩ := hrefused
    have hshows := hs.of_growsTo hg (evolves_onto (.grows hg))
    rw [hrun]
    by_cases hva : va.IsPlain
    · -- All links are plain, so nothing but the missing leaf can be the reason.
      obtain ⟨hleaf, hcause⟩ := hmissing _ (mappable?_eq_some_indices.mpr hva)
      rw [hs.leaf_of_isPlain hva] at hleaf
      rw [hcause hs.ownLinks]
      exact ⟨L, .notMapped hva hleaf, hshows⟩
    · rw [hinvalid (mappable?_eq_none_iff.mpr hva)]
      exact ⟨L, .unmapInvalid hva, hshows⟩

/-- Translating looks up what is shown. -/
theorem translate (hs : s.Shows L) (va : VirtAddr) :
    L.Step (.translate va) (s.perform (.translate va)).1 L := by
  obtain ⟨pa, hpa, hrun⟩ := perform_translate hs.usable va
  rw [hrun]
  by_cases hva : va.IsPlain
  · have hleaf := Hierarchy.translate_of_ownLinks hs.usable hs.ownLinks hva
    rw [root_hierarchy, hs.leaf_of_isPlain hva, Hierarchy.leafAddress_l1] at hleaf
    -- An address has one translation, and this is what the leaf says it is.
    have hlookUp : pa = L.lookUp va := Except.ok.inj (hpa.symm.trans hleaf)
    rw [hlookUp]
    exact .translated hva
  · -- In the window a translation may be any address; what is not canonical has none.
    refine .translatedOther hva fun hcanonical => ?_
    have hzero : s.translate va = .ok .zero := Hierarchy.translate_of_not_isCanonical hcanonical
    exact Except.ok.inj (hpa.symm.trans hzero)

/-- Activation makes a link at most, so what is shown stays. -/
theorem activate (hs : s.Shows L) :
    L.Step .activate (s.perform .activate).1 L ∧ (s.perform .activate).2.Shows L := by
  obtain ⟨m, hg, hcases⟩ := perform_activate hs.usable hs.isEncodable
  rcases hcases with ⟨cause, hrun⟩ | ⟨hself, hrun⟩
  · rw [hrun]
    exact ⟨.activateRefused _, hs.of_growsTo hg (evolves_onto (.grows hg))⟩
  · rw [hrun]
    refine ⟨?_, hs.of_growsTo hg (evolves_load (s := s) (.grows hg) hself)⟩
    unfold load
    split
    · -- Loading succeeds or is refused, and neither shows in the map.
      exact .activated
    · exact .activateRefused _

/-- A call does to what is shown what it does to the map. -/
theorem perform (hs : s.Shows L) {a : Action} (ha : a.isCall = true) :
    ∃ L', L.Step a (s.perform a).1 L' ∧ (s.perform a).2.Shows L' := by
  cases a with
  | map va pa flags force => exact hs.map va pa flags force
  | identityMap pa flags force =>
    obtain ⟨L', hstep, hshows⟩ := hs.map ⟨pa.word⟩ pa flags force
    rw [perform_identityMap]
    exact ⟨L', .identityMap hstep, hshows⟩
  | unmap va => exact hs.unmap va
  | translate va => exact ⟨L, hs.translate va, hs⟩
  | activate => exact ⟨L, hs.activate⟩
  | setAccess access => cases ha

/-! ## A whole run -/

theorem performAll (hs : s.Shows L) {actions : List Action}
    (hcalls : ∀ a ∈ actions, a.isCall = true) :
    ∃ L', L.Run actions (s.performAll actions).1 L' ∧ (s.performAll actions).2.Shows L' := by
  -- The map that one action leaves is the map with which the next starts.
  induction actions generalizing s L with
  | nil => exact ⟨L, .nil L, hs⟩
  | cons a rest ih =>
    obtain ⟨L₁, hstep, hs₁⟩ := hs.perform (hcalls a List.mem_cons_self)
    obtain ⟨L₂, hrun, hs₂⟩ := ih hs₁ fun b hb => hcalls b (List.mem_cons_of_mem a hb)
    exact ⟨L₂, .cons hstep hrun, hs₂⟩

end Shows

omit [Mmu η] in
/-- A new address space over an empty root shows the map without leaves. -/
theorem shows_create {root : Frame} {mem : Memory} {frames : α} (mmu : η)
    (hroot : root.isEncodable) (hzero : mem.table root = .zero)
    (hfresh : FrameSource.Fresh (· ≠ root) frames) :
    (create root .identity mmu frames mem).Shows .empty where
  toOwnsTables := ownsTables_create .identity mmu hroot hzero hfresh
  identity := rfl
  leaf ix _ := Memory.leaf_of_zero hzero ix

/-- From an empty root on an address space that uses its frames directly behaves like a map of
pages, and its tables hold the leaves of that map. -/
theorem run_of_performAll {root : Frame} {mem : Memory} {frames : α} (mmu : η)
    (hroot : root.isEncodable) (hzero : mem.table root = .zero)
    (hfresh : FrameSource.Fresh (· ≠ root) frames) {actions : List Action}
    (hcalls : ∀ a ∈ actions, a.isCall = true) :
    ∃ L, PageMap.Run .empty actions
        ((create root .identity mmu frames mem).performAll actions).1 L ∧
      ∀ ix, ix.l4 ≠ selfIndex →
        ((create root .identity mmu frames mem).performAll actions).2.machine.memory.leaf
          ((create root .identity mmu frames mem).performAll actions).2.root ix = L ix := by
  obtain ⟨L, hrun, hshows⟩ := (shows_create mmu hroot hzero hfresh).performAll hcalls
  exact ⟨L, hrun, hshows.leaf⟩

/-- The first attempt to map a page runs out of frames, and the second goes on where it stopped. -/
theorem run_of_performAll_specimen :
    let actions : List Action :=
      [.map ⟨0x400123⟩ ⟨0x9000⟩ .kernelData false, .map ⟨0x400123⟩ ⟨0x9000⟩ .kernelData false,
        .activate, .translate ⟨0x400FFF⟩, .unmap ⟨0x400000⟩, .translate ⟨0x400FFF⟩]
    (Specimen.start.performAll actions).1 =
        [.refused (.map .outOfFrames), .done, .done, .address ⟨0x9FFF⟩, .address ⟨0x9000⟩,
          .address .zero] ∧
      ∃ L, PageMap.Run .empty actions (Specimen.start.performAll actions).1 L ∧
        ∀ ix, ix.l4 ≠ selfIndex →
          (Specimen.start.performAll actions).2.machine.memory.leaf
            (Specimen.start.performAll actions).2.root ix = L ix := by
  intro actions
  refine ⟨by decide +kernel, ?_⟩
  have hcalls : ∀ a ∈ actions, a.isCall = true := by decide
  -- Which actions they are does not matter any more.
  clear_value actions
  exact run_of_performAll Specimen.hardware Specimen.isEncodable_root Specimen.table_root
    Specimen.fresh_source hcalls

end AddressSpace

end Paging
