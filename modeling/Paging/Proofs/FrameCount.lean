import Mathlib.Data.Finset.Union
import Paging.Proofs.MapReport

/-!
# How many frames a run uses

A run uses one frame for each table that the pages it was asked to map have on their ways, if it has
come to an end with each of these pages. Pages share the tables of the indices that they have in
common, so the frames are counted by the beginnings of the pages' indices. In which order the pages
were mapped, how often the frames ran out on the way and what was unmapped, replaced or activated in
between makes no difference.
-/

namespace Paging

/-! ## Beginnings of pages -/

namespace Indices

/-- The first two indices. -/
def upper (ix : Indices) : Index × Index := (ix.l4, ix.l3)

/-- The first three indices. -/
def linking (ix : Indices) : Index × Index × Index := (ix.l4, ix.l3, ix.l2)

/-- The ways of some pages have as many paths as the pages have beginnings. -/
theorem card_biUnion_way (pages : Finset Indices) :
    (pages.biUnion way).card =
      (pages.image l4).card + (pages.image upper).card + (pages.image linking).card := by
  let one (i : Index) : List Index := [i]
  let two (p : Index × Index) : List Index := [p.1, p.2]
  let three (p : Index × Index × Index) : List Index := [p.1, p.2.1, p.2.2]
  have hone : Function.Injective one := fun i j heq => by simpa [one] using heq
  have htwo : Function.Injective two := fun p q heq => by simpa [two, Prod.ext_iff] using heq
  have hthree : Function.Injective three := fun p q heq => by
    simpa [three, Prod.ext_iff] using heq
  have hsplit : pages.biUnion way = (pages.image l4).image one ∪ (pages.image upper).image two ∪
      (pages.image linking).image three := by
    ext p
    simp only [way, Finset.mem_biUnion, Finset.mem_insert, Finset.mem_singleton, Finset.mem_union,
      Finset.mem_image, exists_exists_and_eq_and, one, two, three, upper, linking]
    grind
  -- Paths of different lengths are different.
  have hshort : Disjoint ((pages.image l4).image one) ((pages.image upper).image two) := by
    simp only [Finset.disjoint_left, Finset.mem_image]
    grind
  have hlong : Disjoint ((pages.image l4).image one ∪ (pages.image upper).image two)
      ((pages.image linking).image three) := by
    simp only [Finset.disjoint_left, Finset.mem_union, Finset.mem_image]
    grind
  rw [hsplit, Finset.card_union_of_disjoint hlong, Finset.card_union_of_disjoint hshort,
    Finset.card_image_of_injective _ hone, Finset.card_image_of_injective _ htwo,
    Finset.card_image_of_injective _ hthree]

end Indices

/-! ## Pages of actions -/

/-- The page that an action is to map, if its addresses can be mapped. -/
def Action.page? : Action → Option Indices
  | .map va pa _ _ => if va.IsPlain ∧ pa.IsFrameBase then some va.indices else none
  | .identityMap pa _ _ =>
    if (⟨pa.word⟩ : VirtAddr).IsPlain ∧ pa.IsFrameBase then some (⟨pa.word⟩ : VirtAddr).indices
    else none
  | _ => none

/-- The pages that some actions are to map. -/
def Action.pages (actions : List Action) : Finset Indices :=
  (actions.filterMap page?).toFinset

/-- Whether mapping has come to an end with a page: the page is mapped, or it had been. -/
def Outcome.IsSettled (o : Outcome) : Prop := o = .done ∨ o = .refused (.map .occupied)

instance (o : Outcome) : Decidable o.IsSettled := inferInstanceAs (Decidable (_ ∨ _))

/-! ## Unmapping makes no tables -/

namespace Memory

variable {mem mem' : Memory} {root : Frame}

/-- The paths follow from the entries. -/
theorem tablePaths_congr (h : ∀ f j, mem'.read f j = mem.read f j) :
    mem'.tablePaths root = mem.tablePaths root := by
  ext p
  -- A path is followed by reading entries, and no entry has changed.
  refine and_congr_right fun _ => ?_
  rw [tableAt?_congr fun _ _ _ _ _ _ => h _ _]

end Memory

theorem UnmapEffect.tablePaths_eq {η α : Type} {root : Frame} {va : VirtAddr} {m m' : Machine η α}
    {o : Outcome} (he : UnmapEffect root va m o m') (hap : m.memory.Apart root) :
    m'.memory.tablePaths root = m.memory.tablePaths root := by
  cases he with
  | @removed _ ix table hva ht hleaf hrequests hmemory =>
    obtain ⟨-, -, hix⟩ := mappable?_eq_some_iff.mp hva
    rw [← Memory.tablePaths_write_of_isEndSlot (e := .zero) hap (Memory.isEndSlot_leaf hix ht)]
    apply Memory.tablePaths_congr
    intro f j
    rw [Memory.read_write]
    split
    · rename_i hslot
      -- The only slot that is written is that of the leaf, at which every path ends.
      obtain ⟨rfl, rfl⟩ := hslot
      exact hmemory.written _ List.mem_cons_self
    · rename_i hslot
      apply hmemory.kept f j (by simp)
      intro w hw heq
      obtain rfl := List.mem_singleton.mp hw
      exact hslot ⟨heq.1.symm, heq.2.symm⟩
  | refused hcause hrequests hmemory =>
    exact Memory.tablePaths_congr fun f j => hmemory.kept f j (by simp) (by simp)

/-! ## Tables of a run -/

namespace AddressSpace

section Tabled

variable {η α : Type}

/-- From `s` to `s'` no table went away, tables were made on the ways of the pages of some calls,
and all of them for a call that has settled its page. -/
structure Tabled (s s' : AddressSpace η α) (calls : List (Action × Outcome)) : Prop where
  kept : s.machine.memory.tablePaths s.root ⊆ s'.machine.memory.tablePaths s'.root
  made : ∀ p ∈ s'.machine.memory.tablePaths s'.root, p ∈ s.machine.memory.tablePaths s.root ∨
    ∃ call ∈ calls, ∃ x, call.1.page? = some x ∧ p ∈ x.way
  settled : ∀ call ∈ calls, ∀ x, call.1.page? = some x → call.2.IsSettled →
    ↑x.way ⊆ s'.machine.memory.tablePaths s'.root

variable {s s₁ s' : AddressSpace η α} {calls calls' : List (Action × Outcome)}

theorem Tabled.refl (s : AddressSpace η α) : s.Tabled s [] :=
  ⟨subset_rfl, fun _ hp => Or.inl hp, by simp⟩

theorem Tabled.trans (h : s.Tabled s₁ calls) (h' : s₁.Tabled s' calls') :
    s.Tabled s' (calls ++ calls') where
  kept := h.kept.trans h'.kept
  made p hp := by
    rcases h'.made p hp with hp | ⟨call, hcall, hx⟩
    · rcases h.made p hp with hp | ⟨call, hcall, hx⟩
      · exact Or.inl hp
      · exact Or.inr ⟨call, List.mem_append_left _ hcall, hx⟩
    · exact Or.inr ⟨call, List.mem_append_right _ hcall, hx⟩
  settled call hcall x hx hsettled := by
    rcases List.mem_append.mp hcall with hcall | hcall
    · exact (h.settled call hcall x hx hsettled).trans h'.kept
    · exact h'.settled call hcall x hx hsettled

/-- A call after which there are the same tables has none to settle. -/
theorem Tabled.of_eq {a : Action} {o : Outcome}
    (hpaths : s'.machine.memory.tablePaths s'.root = s.machine.memory.tablePaths s.root)
    (hpage : a.page? = none) : s.Tabled s' [(a, o)] where
  kept := hpaths.ge
  made p hp := Or.inl (hpaths ▸ hp)
  settled call hcall x hx _ := by
    obtain rfl := List.mem_singleton.mp hcall
    simp [hpage] at hx

/-- Mapping makes tables on the way of its page, and settles it as it reports. -/
theorem Tabled.of_report [FrameSource α] {a : Action} {o : Outcome} {x : Indices} {leaf : Entry}
    {force : Bool} {m : Machine η α} (hpage : a.page? = some x)
    (hreport : MapReport s.root x leaf force s.machine m o) : s.Tabled (s.onto m) [(a, o)] := by
  have hmem : ∀ call ∈ [(a, o)], call = (a, o) := fun call hcall => List.mem_singleton.mp hcall
  -- What is settled has all of its way; what is not has at most a part of it.
  cases hreport with
  | done hfree hasks hgranted hleaf hpaths =>
    refine ⟨hpaths ▸ Set.subset_union_left, fun p hp => ?_, fun call hcall y hy _ => ?_⟩
    · rw [machine_onto, root_onto, hpaths] at hp
      exact hp.imp_right fun hp => ⟨_, List.mem_singleton_self _, x, hpage, hp⟩
    · rw [hmem call hcall, hpage] at hy
      obtain rfl := Option.some.inj hy
      exact hpaths ▸ Set.subset_union_right
  | occupied hforce hold hasks hleaf hpaths hway =>
    refine ⟨hpaths.ge, fun p hp => Or.inl (hpaths ▸ hp), fun call hcall y hy _ => ?_⟩
    rw [hmem call hcall, hpage] at hy
    obtain rfl := Option.some.inj hy
    exact hpaths ▸ hway
  | outOfFrames hfree hn hasks hdeclined hleaf hmore hpaths =>
    refine ⟨hmore, fun p hp => ?_, fun call hcall y _ hsettled => ?_⟩
    · exact (hpaths hp).imp_right fun hp => ⟨_, List.mem_singleton_self _, x, hpage, hp⟩
    · -- A page for which the frames have run out is not settled.
      rw [hmem call hcall] at hsettled
      simp [Outcome.IsSettled] at hsettled

end Tabled

variable {η α : Type} [Mmu η] [WalkingMmu η] [FrameSource α] {s : AddressSpace η α}

namespace Sound

variable (hs : s.Sound)

include hs

theorem tabled_map {a : Action} (va : VirtAddr) (pa : PhysAddr) (flags : PageFlags) (force : Bool)
    (hpage : a.page? = if va.IsPlain ∧ pa.IsFrameBase then some va.indices else none) :
    s.Tabled (s.perform (.map va pa flags force)).2
      [(a, (s.perform (.map va pa flags force)).1)] := by
  by_cases hva : va.IsPlain
  · by_cases hpa : pa.IsFrameBase
    · obtain ⟨m, hm, hreport⟩ := hs.perform_map_reports hva hpa flags force
      rw [hm]
      exact .of_report (hpage.trans (if_pos ⟨hva, hpa⟩)) hreport
    · -- A page that cannot be mapped is no page of the action, and nothing is done for it.
      rw [s.perform_map_of_not_isFrameBase hva hpa]
      exact .of_eq rfl (hpage.trans (if_neg fun h => hpa h.2))
  · rw [s.perform_map_of_not_isPlain hva]
    exact .of_eq rfl (hpage.trans (if_neg fun h => hva h.1))

theorem tabled_perform (a : Action) : s.Tabled (s.perform a).2 [(a, (s.perform a).1)] := by
  cases a with
  | map va pa flags force => exact hs.tabled_map va pa flags force rfl
  | identityMap pa flags force =>
    rw [perform_identityMap]
    exact hs.tabled_map ⟨pa.word⟩ pa flags force rfl
  | unmap va =>
    obtain ⟨m, hm, heffect⟩ := perform_unmap_effect hs.usable va
    rw [hm]
    exact .of_eq (heffect.tablePaths_eq hs.orderly.apart) rfl
  | translate va => exact .of_eq rfl rfl
  | activate =>
    -- Activation links the root to itself, which adds no path.
    obtain ⟨m, -, hpaths, hrun⟩ := hs.perform_activate_eq_load
    rw [hrun]
    refine .of_eq ?_ rfl
    rw [memory_load, root_load, machine_onto, root_onto, hpaths]
  | setAccess access => exact .of_eq rfl rfl

theorem tabled_performAll {actions : List Action} (hp : s.PermitsAll actions) :
    s.Tabled (s.performAll actions).2 (actions.zip (s.performAll actions).1) := by
  induction actions generalizing s with
  | nil => exact .refl s
  | cons a rest ih => exact (hs.tabled_perform a).trans (ih (hs.perform hp.1) hp.2)

end Sound

/-- If a run from an empty root has settled every page that it was to map, then one frame has been
handed out for each first index of these pages, one for each pair of first indices, and one for each
triple. -/
theorem length_handedOut_of_performAll {root : Frame} {mem : Memory} {frames : α} (mmu : η)
    (hroot : root.isEncodable) (hzero : mem.table root = .zero)
    (hfresh : FrameSource.Fresh (· ≠ root) frames) {actions : List Action}
    (hactions : (create root .identity mmu frames mem).PermitsAll actions)
    (hsettled : ∀ x ∈ Action.pages actions,
      ∃ call ∈ actions.zip ((create root .identity mmu frames mem).performAll actions).1,
        call.1.page? = some x ∧ call.2.IsSettled) :
    ((create root .identity mmu frames mem).performAll actions).2.machine.handedOut.length =
      ((Action.pages actions).image Indices.l4).card +
        ((Action.pages actions).image Indices.upper).card +
          ((Action.pages actions).image Indices.linking).card := by
  have hcreate : (create root .identity mmu frames mem).Sound :=
    sound_create mmu hroot hzero hfresh
  have hs := hcreate.performAll hactions
  have hbooked := hcreate.booked_performAll (booked_create mmu hzero) hactions
  have htabled := hcreate.tabled_performAll hactions
  let s := ((create root .identity mmu frames mem).performAll actions).2
  -- The paths that there are in the end are the ways of the pages: each was made for a page, and
  -- every page is settled.
  have hpaths : s.machine.memory.tablePaths s.root =
      ↑((Action.pages actions).biUnion Indices.way) := by
    ext p
    rw [Finset.mem_coe, Finset.mem_biUnion]
    constructor
    · intro hp
      rcases htabled.made p hp with hp | ⟨call, hcall, x, hx, hp⟩
      · -- There was no table to begin with.
        have hnone : mem.tablePaths root = ∅ := Memory.tablePaths_of_zero hzero
        exact absurd (hnone ▸ hp : p ∈ (∅ : Set (List Index))) (Set.notMem_empty p)
      · refine ⟨x, ?_, hp⟩
        rw [Action.pages, List.mem_toFinset, List.mem_filterMap]
        exact ⟨call.1, (List.of_mem_zip hcall).1, hx⟩
    · intro hp
      obtain ⟨x, hx, hp⟩ := hp
      obtain ⟨call, hcall, hpage, hend⟩ := hsettled x hx
      exact htabled.settled call hcall x hpage hend hp
  rw [hbooked.length_handedOut hs.orderly.apart, hpaths, Set.ncard_coe_finset,
    Indices.card_biUnion_way]

/-- Three pages with one first index, two pairs and three triples: six frames, though the frames ran
out once and a page was replaced and another removed. -/
theorem length_handedOut_of_performAll_specimen :
    let map (va : VirtAddr) (force : Bool) : Action := .map va ⟨0x9000⟩ .kernelData force
    let actions : List Action := [map ⟨0x400000⟩ false, map ⟨0x40000000⟩ false, map ⟨0x400000⟩ true,
      .activate, .unmap ⟨0x400000⟩, map ⟨0x600000⟩ false, map ⟨0x400000⟩ true,
      .identityMap ⟨0x600123⟩ .kernelData false]
    let run := Specimen.start.performAll actions
    run.1 = [.refused (.map .outOfFrames), .done, .done, .done, .address ⟨0x9000⟩, .done, .done,
        .refused (.map .invalidPhysical)] ∧
      run.2.machine.handedOut.length = 1 + 2 + 3 := by
  intro map actions run
  have houtcomes : run.1 = [.refused (.map .outOfFrames), .done, .done, .done, .address ⟨0x9000⟩,
      .done, .done, .refused (.map .invalidPhysical)] := by decide +kernel
  have hsettled : ∀ x ∈ Action.pages actions, ∃ call ∈ actions.zip run.1,
      call.1.page? = some x ∧ call.2.IsSettled := by
    rw [houtcomes]
    decide +kernel
  have hfirst : ((Action.pages actions).image Indices.l4).card = 1 := by decide +kernel
  have hupper : ((Action.pages actions).image Indices.upper).card = 2 := by decide +kernel
  have hlinking : ((Action.pages actions).image Indices.linking).card = 3 := by decide +kernel
  have hactions : Specimen.start.PermitsAll actions :=
    ⟨trivial, trivial, trivial, trivial, trivial, trivial, trivial, trivial, trivial⟩
  -- Which actions they are does not matter any more.
  clear_value actions
  refine ⟨houtcomes, ?_⟩
  rw [← hfirst, ← hupper, ← hlinking]
  exact length_handedOut_of_performAll Specimen.hardware Specimen.isEncodable_root
    Specimen.table_root Specimen.fresh_source hactions hsettled

end AddressSpace

end Paging
