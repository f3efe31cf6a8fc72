import Paging.Proofs.Runs
import Paging.Proofs.ScriptedFrames
import Paging.Proofs.Views

/-!
# No stale translations

The processor may go on using what it has seen of a page until the page is invalidated. On a live
hierarchy, whatever an action does, a page of which the processor sees something else than before,
or nothing any more, has been invalidated after the last write that changed what is seen. This
holds for pages in the window as well: growth only fills slots that were absent, and nothing but
the leaf of a page outside of the window is ever replaced.
-/

namespace Paging

variable {η α : Type}

/-! ## One operation -/

/-- From `m` to `m'` the cached mapping of an address was dropped, and what the processor sees of
the address has been the same since. Events are listed newest first. -/
def Machine.DroppedSince (m m' : Machine η α) (root : Frame) (va : VirtAddr) : Prop :=
  ∃ late early, m.Continues m' (late ++ .invalidated va :: early) ∧
    ∀ later, later <:+ late →
      Hardware.view (m.memory.after (later ++ .invalidated va :: early)) root va =
        Hardware.view m'.memory root va

/-- Whoever invalidates an address and then only logs something has dropped it since. -/
theorem Machine.droppedSince_log {m m' : Machine η α} {va : VirtAddr} {early : List Event}
    (h : m.Continues m' (.invalidated va :: early)) (root : Frame) (r : Record) :
    m.DroppedSince (m'.log r) root va := by
  refine ⟨[.logged r], early, h.trans (m'.continues_log r), ?_⟩
  intro later hlater
  have hbefore : m.memory.after (.invalidated va :: early) = m'.memory := h.2.symm
  rw [Memory.after_append, hbefore, memory_log]
  -- What is later than the invalidation is the record, or nothing.
  rcases List.suffix_cons_iff.mp hlater with rfl | hnil
  · rfl
  · rw [List.suffix_nil.mp hnil]
    rfl

variable [FrameSource α] {h : Hierarchy} {m m' : Machine η α} {x : Indices} {v : Hardware.View}

/-- Growth keeps what the processor sees. -/
theorem GrowsTo.view_eq (hg : GrowsTo h m m') (ho : m.Orderly h.root)
    (hown : m.memory.OwnLinks h.root) (hself : m.memory.SelfLinked h.root)
    (hv : Hardware.view m.memory h.root x.page = some v) :
    Hardware.view m'.memory h.root x.page = some v := by
  apply Hardware.view_eq_of_read hown hself hv
  · -- Whatever the walk reads is present, and growth keeps what is present.
    intro t i hslot hpresent
    exact hg.read_of_present ho (Memory.isTable_of_slot hslot) hpresent
  · -- So it does with the page's own leaf.
    intro t hpath ht hpresent
    exact hg.read_of_present ho ⟨_, hpath, ht⟩ hpresent

/-- Replacing a leaf keeps what the processor sees of all other pages. -/
theorem Memory.view_write_leaf {mem : Memory} {root table : Frame} {ix : Indices} (e : Entry)
    (hap : mem.Apart root) (hown : mem.OwnLinks root) (hself : mem.SelfLinked root)
    (hix : ix.l4 ≠ selfIndex) (ht : mem.tableAt? root ix.path = some table) (hne : x ≠ ix)
    (hv : Hardware.view mem root x.page = some v) :
    Hardware.view (mem.write table ix.l1 e) root x.page = some v := by
  have hend := isEndSlot_leaf hix ht
  apply Hardware.view_eq_of_read hown hself hv
  · intro t i hslot _
    rcases hslot with hslot | rfl
    · exact read_write_of_isLinkSlot hap hend hslot
    · -- The root is no table of leaves.
      rw [read_write, if_neg]
      intro heq
      obtain ⟨rfl, -⟩ := heq
      have hnil := hap IsPath.nil hend.isPath rfl ht
      simp [Indices.path_eq] at hnil
  · intro t hxpath hxt _
    rw [Indices.indices_page] at hxpath hxt ⊢
    rw [read_write, if_neg]
    intro heq
    obtain ⟨rfl, hl1⟩ := heq
    -- The same table and the same slot would make it the same page.
    exact hne (Indices.eq_of_path_eq (hap hxpath hend.isPath hxt ht) hl1)

/-- A page whose leaf is absent is not seen. -/
theorem Memory.view_eq_none_of_zero {mem : Memory} {root table : Frame}
    (ht : mem.tableAt? root x.path = some table) (hzero : mem.read table x.l1 = .zero) :
    Hardware.view mem root x.page = none := by
  have hwalk : mem.walkTo? root (Level.linking.map x.page.index) = some table := by
    have hpath : Level.linking.map x.page.index = x.path := by
      simp [Level.linking, Indices.path_eq, Indices.get]
    rw [hpath]
    exact walkTo?_of_tableAt? ht
  have habsent : (mem.read table (x.page.index .l1)).present = false := by
    rw [Indices.index_page, Indices.get, hzero, Entry.present_zero]
  have hentries : Hardware.entries mem x.page (Level.linking ++ [.l1]) root = none :=
    Hardware.entries_eq_none_of_absent hwalk habsent
  have hlevels : Level.topDown = Level.linking ++ [.l1] := rfl
  rw [Hardware.view, hlevels, hentries]
  rfl

theorem SetsLeaf.droppedSince {ix : Indices} {leaf : Entry} (hs : SetsLeaf h ix leaf m m')
    (hlive : h.live = true) (hix : ix.l4 ≠ selfIndex) (ho : m.Orderly h.root)
    (hown : m.memory.OwnLinks h.root) (hself : m.memory.SelfLinked h.root)
    (hv : Hardware.view m.memory h.root x.page = some v)
    (hne : Hardware.view m'.memory h.root x.page ≠ some v) :
    m.DroppedSince m' h.root x.page := by
  cases hs with
  | intro m₁ table r hg ht =>
    have hown₁ := hg.ownLinks ho hown
    have hself₁ : m₁.memory.SelfLinked h.root :=
      (Changes.grows hg).selfLinked ho hself
    have hv₁ := hg.view_eq ho hown hself hv
    rw [Machine.memory_log, Hierarchy.memory_replaced] at hne
    -- Only the page whose leaf was replaced can look different.
    have hx : x = ix := by
      apply Decidable.byContradiction
      intro hother
      exact hne (Memory.view_write_leaf leaf (hg.orderly ho).apart hown₁ hself₁ hix ht hother hv₁)
    subst hx
    -- It was seen before, so there was a leaf, and replacing one invalidates the page.
    have hold : m₁.memory.read table x.l1 ≠ .zero := by
      intro hzero
      rw [Memory.view_eq_none_of_zero ht hzero] at hv₁
      cases hv₁
    -- The trace: growth, the write, the invalidation and a record, in this order.
    obtain ⟨grown, hgrown⟩ := hg.continues
    have hwrite := hgrown.trans (m₁.continues_write table x.l1 leaf)
    have hdrop := hwrite.trans (Machine.continues_invalidate _ x.page)
    have hreplaced : h.replaced x table leaf m₁ = (m₁.write table x.l1 leaf).invalidate x.page := by
      rw [Hierarchy.replaced, if_neg (by rwa [Entry.isZero_iff]), Hierarchy.dropped, if_pos hlive]
    rw [hreplaced]
    exact Machine.droppedSince_log hdrop h.root r

theorem Changes.droppedSince (hc : Changes h m m') (hlive : h.live = true)
    (ho : m.Orderly h.root) (hown : m.memory.OwnLinks h.root) (hself : m.memory.SelfLinked h.root)
    (hv : Hardware.view m.memory h.root x.page = some v)
    (hne : Hardware.view m'.memory h.root x.page ≠ some v) :
    m.DroppedSince m' h.root x.page := by
  cases hc with
  | grows hg => exact absurd (hg.view_eq ho hown hself hv) hne
  | setsLeaf ix leaf hix hs => exact hs.droppedSince hlive hix ho hown hself hv hne

/-! ## Hierarchies that were built here -/

namespace AddressSpace

variable [Mmu η] [WalkingMmu η]

/-- An address space whose hierarchy was built from an empty root with fresh frames, in sensible
runs of one owner after the other. An owner takes over a root that links to itself and is loaded,
with whatever trace and source of fresh frames, and goes on in any phase and either way to the
tables. -/
inductive Built : AddressSpace η α → Prop where
  | create {root : Frame} {mem : Memory} {frames : α} (mmu : η) (hroot : root.isEncodable)
      (hzero : mem.table root = .zero) (hfresh : FrameSource.Fresh (· ≠ root) frames) :
      Built (AddressSpace.create root .identity mmu frames mem)
  | perform {s : AddressSpace η α} {a : Action} (hb : Built s) (hp : s.Permits a) :
      Built (s.perform a).2
  | adopt {s s' : AddressSpace η α} (hb : Built s) (hroot : s'.root = s.root)
      (hmemory : s'.machine.memory = s.machine.memory) (hloaded : s'.Loaded)
      (hinstalled : s'.access = .window → s'.Installed)
      (hfresh : FrameSource.Fresh (fun f => ¬ s'.machine.memory.IsTable s'.root f)
        s'.machine.frames) : Built s'

theorem Built.sound {s : AddressSpace η α} (hb : s.Built) : s.Sound := by
  induction hb with
  | create mmu hroot hzero hfresh => exact sound_create mmu hroot hzero hfresh
  | perform hb hp ih => exact ih.perform hp
  | @adopt s s' hb hroot hmemory hloaded hinstalled hfresh ih =>
    -- The tables are as their last owner has left them.
    refine ⟨⟨?_, ⟨?_, hfresh⟩, ?_⟩, fun _ => hloaded, fun haccess => ⟨hloaded, hinstalled haccess⟩⟩
    · rw [hroot]
      exact ih.isEncodable
    · rw [hroot, hmemory]
      exact ih.orderly.apart
    · rw [hroot, hmemory]
      exact ih.ownLinks

/-- As long as a hierarchy is live its root is loaded and links to itself. -/
theorem Sound.loaded_of_isLive {s : AddressSpace η α} (hs : s.Sound) (hlive : s.isLive = true) :
    s.Loaded := by
  simp only [isLive, Bool.or_eq_true, beq_iff_eq] at hlive
  rcases hlive with haccess | hphase
  · exact (hs.window haccess).1
  · exact hs.active hphase

/-- On a live hierarchy a page of which the processor sees something else after an action than
before, or nothing any more, was invalidated by the action after the last write that changed what is
seen. -/
theorem droppedSince_of_view_ne {s : AddressSpace η α} (hb : s.Built) (hlive : s.isLive = true)
    (a : Action) (x : Indices) {v : Hardware.View}
    (hv : Hardware.view s.machine.memory s.root x.page = some v)
    (hne : Hardware.view (s.perform a).2.machine.memory s.root x.page ≠ some v) :
    s.machine.DroppedSince (s.perform a).2.machine s.root x.page := by
  have hs := hb.sound
  have hself : s.machine.memory.SelfLinked s.root :=
    Memory.selfLinked_of_eq_selfLink hs.isEncodable (hs.loaded_of_isLive hlive).selfLink
  -- Mapping and unmapping change the machine and nothing else.
  have honto : ∀ {m : Machine η α}, (s.perform a).2 = s.onto m → Changes s.hierarchy s.machine m →
      s.machine.DroppedSince (s.perform a).2.machine s.root x.page := by
    intro m hrun hc
    rw [hrun] at hne ⊢
    exact hc.droppedSince hlive hs.orderly hs.ownLinks hself hv hne
  cases a with
  | map va pa flags force =>
    obtain ⟨m, hrun, hc⟩ :=
      perform_map_onto hs.usable hs.isEncodable hs.orderly va pa flags force
    exact honto hrun hc
  | identityMap pa flags force =>
    obtain ⟨m, hrun, hc⟩ :=
      perform_map_onto hs.usable hs.isEncodable hs.orderly ⟨pa.word⟩ pa flags force
    rw [← perform_identityMap] at hrun
    exact honto hrun hc
  | unmap va =>
    obtain ⟨m, hrun, hc⟩ := perform_unmap_onto hs.usable va
    exact honto hrun hc
  | translate va => exact absurd hv hne
  | activate =>
    -- Activation adds links at most, so nothing can look different.
    obtain ⟨m, hg, hcases⟩ := perform_activate hs.usable hs.isEncodable
    have hseen : Hardware.view m.memory s.root x.page = some v :=
      hg.view_eq hs.orderly hs.ownLinks hself hv
    rcases hcases with ⟨cause, hrun⟩ | ⟨hlinked, hrun⟩
    · rw [hrun] at hne
      exact absurd hseen hne
    · have he := evolves_load (s := s) (.grows hg) hlinked
      rw [hrun, he.agrees.memory] at hne
      exact absurd hseen hne
  | setAccess access => exact absurd hv hne

/-- A page that is unmapped while it is live was seen before, is not seen after, and is invalidated.
-/
theorem droppedSince_of_view_ne_specimen :
    let page : Indices := ⟨0, 0, 2, 0⟩
    let map : Action := .map ⟨0x400000⟩ ⟨0x9000⟩ .kernelData false
    let s := (((Specimen.start.perform map).2.perform map).2.perform .activate).2
    Hardware.view s.machine.memory s.root page.page =
        some ⟨.containing ⟨0x9000⟩, ⟨true, false, false⟩⟩ ∧
      Hardware.view (s.perform (.unmap ⟨0x400000⟩)).2.machine.memory s.root page.page = none ∧
      s.machine.DroppedSince (s.perform (.unmap ⟨0x400000⟩)).2.machine s.root page.page := by
  intro page map s
  have hstart : Specimen.start.Built := .create Specimen.hardware Specimen.isEncodable_root
    Specimen.table_root Specimen.fresh_source
  have hmapped : ((Specimen.start.perform map).2.perform map).2.Built :=
    .perform (.perform hstart trivial) trivial
  have hs : s.Built := .perform (a := .activate) hmapped trivial
  have hlive : s.isLive = true := by decide +kernel
  have hseen : Hardware.view s.machine.memory s.root page.page =
      some ⟨.containing ⟨0x9000⟩, ⟨true, false, false⟩⟩ := by decide +kernel
  have hgone : Hardware.view (s.perform (.unmap ⟨0x400000⟩)).2.machine.memory s.root page.page =
      none := by decide +kernel
  clear_value s page
  refine ⟨hseen, hgone, ?_⟩
  apply droppedSince_of_view_ne hs hlive (.unmap ⟨0x400000⟩) page hseen
  rw [hgone]
  intro heq
  cases heq

end AddressSpace

end Paging
