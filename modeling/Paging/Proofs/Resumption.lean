import Paging.Proofs.RegionCoverage

/-!
# A mapping that was interrupted can be resumed

When the frames run out while a memory map is mapped, the leaves that are there by then are those of
the pages that come first, and some tables may have been made in vain. Mapping the same memory map
again finds the leaves occupied and the tables in place, and makes what was missing. In the end
there are the same leaves and the same paths to tables as if nothing had happened, although the
tables may lie in other frames.
-/

namespace Paging

/-! ## Mapping what has been mapped in part -/

namespace Memory

variable {mem mem₁ mem' : Memory} {root : Frame} {flags : PageFlags} {pages pages' : List Indices}

theorem vacant_congr (hmem : ∀ x, x ∈ pages' ↔ x ∈ pages)
    (hleaf : ∀ x ∈ pages, mem'.leaf root x = mem.leaf root x) :
    mem'.vacant root pages' = mem.vacant root pages := by
  ext x
  rw [mem_vacant_iff, mem_vacant_iff, hmem]
  refine and_congr_right fun hx => ?_
  rw [hleaf x hx]

theorem card_vacant_le_append (mem : Memory) (root : Frame) (pages pages' : List Indices) :
    (mem.vacant root pages).card ≤ (mem.vacant root (pages ++ pages')).card := by
  apply Finset.card_le_card
  intro x hx
  rw [mem_vacant_iff] at hx ⊢
  exact ⟨List.mem_append_left _ hx.1, hx.2⟩

/-- Each further page adds one vacant page at most. -/
theorem card_vacant_append_le (mem : Memory) (root : Frame) (pages pages' : List Indices) :
    (mem.vacant root (pages ++ pages')).card ≤ (mem.vacant root pages).card + pages'.length := by
  -- A page that is vacant is in the first list, or it is one of the others.
  have hsub : mem.vacant root (pages ++ pages') ⊆ mem.vacant root pages ∪ pages'.toFinset := by
    intro x hx
    rw [mem_vacant_iff, List.mem_append] at hx
    rw [Finset.mem_union, mem_vacant_iff, List.mem_toFinset]
    exact hx.1.elim (fun hmem => Or.inl ⟨hmem, hx.2⟩) Or.inr
  calc (mem.vacant root (pages ++ pages')).card
      ≤ (mem.vacant root pages ∪ pages'.toFinset).card := Finset.card_le_card hsub
    _ ≤ (mem.vacant root pages).card + pages'.toFinset.card := Finset.card_union_le ..
    _ ≤ (mem.vacant root pages).card + pages'.length :=
        Nat.add_le_add_left (List.toFinset_card_le pages') _

namespace Covers

/-- In which order the pages come and how often makes no difference. -/
theorem of_mem_iff (h : Covers root flags pages mem mem') (hmem : ∀ x, x ∈ pages' ↔ x ∈ pages) :
    Covers root flags pages' mem mem' where
  outside x hx := h.outside x ((hmem x).mp hx)
  leaf x hx := by rw [h.leaf x hx, vacant_congr hmem fun _ _ => rfl]
  paths := by
    have hset : pages'.toFinset = pages.toFinset := by
      ext x
      rw [List.mem_toFinset, List.mem_toFinset, hmem]
    rw [h.paths, hset]

/-- Tables that were made before are no other than those that would be made now. -/
theorem of_leftovers (h : Covers root flags pages mem₁ mem')
    (hleaf : ∀ x : Indices, x.l4 ≠ selfIndex → mem₁.leaf root x = mem.leaf root x)
    (hmore : mem.tablePaths root ⊆ mem₁.tablePaths root)
    (hpaths : mem₁.tablePaths root ⊆
      mem.tablePaths root ∪ ↑(pages.toFinset.biUnion Indices.way)) :
    Covers root flags pages mem mem' where
  outside := h.outside
  leaf x hx := by
    rw [h.leaf x hx, hleaf x hx, vacant_congr (fun _ => Iff.rfl)
      fun y hy => hleaf y (h.outside y hy)]
  paths := by
    rw [h.paths]
    -- The leftovers lie on the ways of these pages, so they are made in either case.
    apply Set.Subset.antisymm
    · exact Set.union_subset hpaths Set.subset_union_right
    · exact Set.union_subset_union_left _ hmore

end Covers

end Memory

/-- Pages that are visited for the second time are no other pages. -/
theorem Address.mem_map_identityPage_iff {frames before after : List PhysAddr}
    (hframes : frames = before ++ after) (x : Indices) :
    x ∈ frames.map identityPage ↔
      x ∈ before.map identityPage ++ frames.map identityPage := by
  simp only [hframes, List.map_append, List.mem_append]
  grind

namespace AddressSpace

variable {η : Type} [Mmu η] [WalkingMmu η]

/-! ## Where the frames have run out -/

namespace RunsOut

variable {α : Type} [FrameSource α] {s s' : AddressSpace η α} {flags : PageFlags}
  {before : List PhysAddr} {q : PhysAddr} {k : Nat} (h : RunsOut flags before q s k s')

include h

/-- The page for which there was no frame has no leaf. -/
theorem leaf_eq_zero (hq : q.IsIdentityMappable) :
    s'.machine.memory.leaf s.root q.identityPage = .zero := by
  obtain ⟨s₁, -, hreport⟩ := h.exists_report
  cases hreport with
  | outOfFrames hfree hn hasks hdeclined hleaf hmore hpaths =>
    -- The call that ran out of frames has set no leaf.
    rw [hleaf _ hq.l4_ne]
    exact hfree rfl

variable (hpresent : flags.contains PageFlags.present = true)

include hpresent

/-- The pages that have got a leaf are those that came before. -/
theorem leaf_eq_zero_iff {x : Indices} (hx : x.l4 ≠ selfIndex) :
    s'.machine.memory.leaf s.root x = .zero ↔
      s.machine.memory.leaf s.root x = .zero ∧ x ∉ before.map Address.identityPage := by
  obtain ⟨s₁, hbefore, hreport⟩ := h.exists_report
  cases hreport with
  | outOfFrames hfree hn hasks hdeclined hleaf hmore hpaths =>
    rw [hleaf x hx]
    -- Nor has it taken any away, so the leaves are those of the pages before.
    exact hbefore.covers.leaf_eq_zero_iff hpresent hx

theorem leaf_ne_zero {p : PhysAddr} (hp : p ∈ before) :
    s'.machine.memory.leaf s.root p.identityPage ≠ .zero := by
  obtain ⟨s₁, hbefore, -⟩ := h.exists_report
  have hmem := List.mem_map_of_mem (f := Address.identityPage) hp
  rw [ne_eq, h.leaf_eq_zero_iff hpresent (hbefore.covers.outside _ hmem)]
  exact fun hvacant => hvacant.2 hmem

/-- As many pages have got a leaf as were counted. -/
theorem ncard_mapped : {x : Indices | x.l4 ≠ selfIndex ∧ s.machine.memory.leaf s.root x = .zero ∧
    s'.machine.memory.leaf s.root x ≠ .zero}.ncard = k := by
  obtain ⟨s₁, hbefore, -⟩ := h.exists_report
  rw [hbefore.count, ← Set.ncard_coe_finset]
  congr 1
  ext x
  rw [Set.mem_ofPred_eq, Finset.mem_coe, Memory.mem_vacant_iff]
  constructor
  · intro hx
    obtain ⟨hx, hold, hnew⟩ := hx
    rw [ne_eq, h.leaf_eq_zero_iff hpresent hx] at hnew
    -- A page that has become mapped is one of those before.
    exact ⟨Classical.byContradiction fun hmem => hnew ⟨hold, hmem⟩, hold⟩
  · intro hx
    have houtside := hbefore.covers.outside x hx.1
    refine ⟨houtside, hx.2, ?_⟩
    rw [ne_eq, h.leaf_eq_zero_iff hpresent houtside]
    exact fun hvacant => hvacant.2 hx.1

variable {frames after : List PhysAddr} (hframes : frames = before ++ q :: after)

include hframes

/-- The pages that are still vacant and those that were counted are all that had been vacant. -/
theorem card_vacant (houtside : ∀ x ∈ frames.map Address.identityPage, x.l4 ≠ selfIndex) :
    k + (s'.machine.memory.vacant s.root (frames.map Address.identityPage)).card =
      (s.machine.memory.vacant s.root (frames.map Address.identityPage)).card := by
  obtain ⟨s₁, hbefore, hreport⟩ := h.exists_report
  cases hreport with
  | outOfFrames hfree hn hasks hdeclined hleaf hmore hpaths =>
    have hall : s.machine.memory.vacant s.root (frames.map Address.identityPage) =
        s.machine.memory.vacant s.root
          (before.map Address.identityPage ++ frames.map Address.identityPage) :=
      Memory.vacant_congr (Address.mem_map_identityPage_iff hframes) fun _ _ => rfl
    -- The page at which the frames ran out is vacant still.
    have hleft : s'.machine.memory.vacant s.root (frames.map Address.identityPage) =
        s₁.machine.memory.vacant s.root (frames.map Address.identityPage) :=
      Memory.vacant_congr (fun _ => Iff.rfl) fun x hx => hleaf x (houtside x hx)
    rw [hall, hleft, hbefore.covers.card_vacant_append hpresent houtside, hbefore.count]

/-- Mapping all pages from there on has the effect of mapping them from the start. -/
theorem covers_resumed {mem' : Memory} (hresumed : Memory.Covers s.root flags
    (frames.map Address.identityPage) s'.machine.memory mem') :
    Memory.Covers s.root flags (frames.map Address.identityPage) s.machine.memory mem' := by
  obtain ⟨s₁, hbefore, hreport⟩ := h.exists_report
  cases hreport with
  | outOfFrames hfree hn hasks hdeclined hleaf hmore hpaths =>
    -- Tables that were made in vain lie on the way of a page that is mapped now.
    have hway : ↑q.identityPage.way ⊆
        (↑((frames.map Address.identityPage).toFinset.biUnion Indices.way) : Set (List Index)) := by
      intro p hp
      rw [Finset.mem_coe, Finset.mem_biUnion]
      exact ⟨q.identityPage, by simp [hframes], hp⟩
    have hrest := hresumed.of_leftovers hleaf hmore
      (hpaths.trans (Set.union_subset_union_right _ hway))
    exact (hbefore.covers.trans hpresent hrest).of_mem_iff
      (Address.mem_map_identityPage_iff hframes)

end RunsOut

/-! ## Other frame sources -/

section Supply

variable {α β : Type} {s : AddressSpace η α}

omit [Mmu η] [WalkingMmu η] in
/-- The address space with another frame source. -/
def supply (s : AddressSpace η α) (frames : β) : AddressSpace η β where
  root := s.root
  access := s.access
  phase := s.phase
  machine := { memory := s.machine.memory, mmu := s.machine.mmu, frames, trace := s.machine.trace }

/-- A source may be replaced by one that hands out no frame again. -/
theorem BooksFrames.supply [FrameSource α] [FrameSource β] (hs : s.BooksFrames) {frames : β}
    (hfresh : FrameSource.Fresh (fun f => f ≠ s.root ∧ f ∉ s.machine.handedOut) frames) :
    (s.supply frames).BooksFrames := by
  refine hs.of_handedOut_eq (hfresh.mono fun f hf htable => hf.2 ?_) rfl
  -- A table other than the root was handed out once.
  rw [Machine.mem_handedOut_iff, hs.booked.accounted f]
  exact ⟨hf.1, htable⟩

end Supply

/-! ## Equal outcomes -/

section Equal

variable {α β : Type} [FrameSource α] [FrameSource β] {s : AddressSpace η α}
  {s' : AddressSpace η β}

/-- Address spaces with the same leaves translate alike outside of the window. -/
theorem Sound.translate_congr (hs : s.Sound) (hs' : s'.Sound)
    (hleaf : ∀ x : Indices, x.l4 ≠ selfIndex →
      s'.machine.memory.leaf s'.root x = s.machine.memory.leaf s.root x)
    {va : VirtAddr} (hva : Window.contains va = false) : s'.translate va = s.translate va := by
  cases hcanonical : va.isCanonical with
  | true =>
    have hplain : va.IsPlain := ⟨hcanonical, hva⟩
    rw [hs.translate_eq_leafAddress hplain, hs'.translate_eq_leafAddress hplain,
      hleaf _ hplain.l4_ne]
  -- An address that is not canonical translates to nothing in both.
  | false =>
    exact (Hierarchy.translate_of_not_isCanonical hcanonical).trans
      (Hierarchy.translate_of_not_isCanonical hcanonical).symm

/-- Address spaces with the same paths to tables use as many frames. -/
theorem BooksFrames.length_handedOut_congr (hs : s.BooksFrames) (hs' : s'.BooksFrames)
    (hpaths : s'.machine.memory.tablePaths s'.root = s.machine.memory.tablePaths s.root) :
    s'.machine.handedOut.length = s.machine.handedOut.length := by
  rw [hs.booked.length_handedOut hs.orderly.apart, hs'.booked.length_handedOut hs'.orderly.apart,
    hpaths]

end Equal

/-! ## Mapping a memory map again -/

section Again

variable {α : Type} [FrameSource α] {s s' : AddressSpace η α} {flags : PageFlags}
  {regions : List Region}

/-- If a request is declined while a memory map is mapped that can be mapped, the call ends
there. -/
theorem BooksFrames.runsOut_of_declinedSince (hs : s.BooksFrames)
    (hpresent : flags.contains PageFlags.present = true)
    (hmappable : MemoryMap.IsMappable regions)
    (hdeclined : s.machine.DeclinedSince
      ((MemoryMap.mapRegions regions flags).run s).2.machine) :
    ∃ before q after k, MemoryMap.pages regions = before ++ q :: after ∧
      ((MemoryMap.mapRegions regions flags).run s).1 =
        .error (.error (.map ⟨q.word⟩ q .outOfFrames)) ∧
      RunsOut flags before q s k ((MemoryMap.mapRegions regions flags).run s).2 := by
  cases hs.mapRegions_ends hpresent regions with
  | ok hrun hend =>
    rw [hrun] at hdeclined
    -- A call that succeeds has been granted all its requests.
    exact absurd hdeclined hend.2.2.not_declinedSince
  | error hrun hfailure =>
    rw [hrun] at hdeclined ⊢
    rcases hfailure.of_isMappable hmappable with hout | hoverflow
    · obtain ⟨before, q, after, k, hsplit, rfl, hout⟩ := hout
      exact ⟨before, q, after, k, hsplit, rfl, hout⟩
    · -- Up to an overflow all requests have been granted, too.
      obtain ⟨-, before, after, k, l, -, hbefore, -⟩ := hoverflow
      exact absurd hdeclined hbefore.not_declinedSince

/-- Without a request that is declined such a memory map is mapped, or more pages were occupied than
can be counted. -/
theorem BooksFrames.mapRegions_of_granted (hs : s.BooksFrames)
    (hpresent : flags.contains PageFlags.present = true)
    (hmappable : MemoryMap.IsMappable regions)
    (hgranted : ¬ s.machine.DeclinedSince
      ((MemoryMap.mapRegions regions flags).run s).2.machine)
    (hvacant : (s.machine.memory.vacant s.root
      ((MemoryMap.pages regions).map Address.identityPage)).card < 2 ^ 64) :
    (∃ t, ((MemoryMap.mapRegions regions flags).run s).1 = .ok t) ∨
      ((MemoryMap.mapRegions regions flags).run s).1 = .error (.violation .overflow) ∧
      2 ^ 64 + (s.machine.memory.vacant s.root
        ((MemoryMap.pages regions).map Address.identityPage)).card ≤
          MemoryMap.pageCount regions := by
  cases hs.mapRegions_ends hpresent regions with
  | ok hrun hend => exact Or.inl ⟨_, congrArg Prod.fst hrun⟩
  | error hrun hfailure =>
    rw [hrun] at hgranted ⊢
    rcases hfailure.of_isMappable hmappable with hout | hoverflow
    · obtain ⟨before, q, after, k, -, -, hout⟩ := hout
      exact absurd hout.declinedSince hgranted
    · obtain ⟨rfl, before, after, k, l, hsplit, hbefore, hlength, hlarge⟩ := hoverflow
      -- The pages that are newly mapped can be counted, so it is the occupied ones that cannot.
      have hle := Memory.card_vacant_le_append s.machine.memory s.root
        (before.map Address.identityPage) (after.map Address.identityPage)
      have hge := Memory.card_vacant_append_le s.machine.memory s.root
        (before.map Address.identityPage) (after.map Address.identityPage)
      rw [← List.map_append, ← hsplit, ← hbefore.count] at hle hge
      have htotal := congrArg List.length hsplit
      rw [MemoryMap.length_pages, List.length_append] at htotal
      rw [List.length_map] at hge
      exact Or.inr ⟨rfl, by omega⟩

end Again

section Resumed

variable {α β γ δ : Type} [FrameSource β] [FrameSource γ] [FrameSource δ]
  {s : AddressSpace η α} {whole : β} {first : γ} {second : δ} {aborted : AddressSpace η γ}
  {uninterrupted : AddressSpace η β} {resumed : AddressSpace η δ} {flags : PageFlags}
  {frames before after : List PhysAddr} {q : PhysAddr} {k l m : Nat}
  (hout : RunsOut flags before q (s.supply first) k aborted)
  (hpresent : flags.contains PageFlags.present = true)
  (hframes : frames = before ++ q :: after)
  (huninterrupted : IdentityMaps flags frames (s.supply whole) m uninterrupted)

include hout hpresent hframes huninterrupted

omit [FrameSource δ] in
/-- What has been counted before and what is left to be counted add up. -/
theorem RunsOut.add_card_vacant :
    k + ((aborted.supply second).machine.memory.vacant (aborted.supply second).root
      (frames.map Address.identityPage)).card = m := by
  have hroot : aborted.root = s.root := hout.root
  have hleft : k + (aborted.machine.memory.vacant s.root
      (frames.map Address.identityPage)).card = m :=
    (hout.card_vacant hpresent hframes huninterrupted.covers.outside).trans
      huninterrupted.count.symm
  -- The root is the same all the time.
  rw [← hroot] at hleft
  exact hleft

variable (hresumed : IdentityMaps flags frames (aborted.supply second) l resumed)

include hresumed

/-- Mapping all pages after the frames have run out has the effect of mapping them all at once. -/
theorem RunsOut.eq_uninterrupted :
    (∀ va, Window.contains va = false → resumed.translate va = uninterrupted.translate va) ∧
      resumed.machine.handedOut.length = uninterrupted.machine.handedOut.length := by
  have hroot : aborted.root = s.root := hout.root
  have hroot₁ : uninterrupted.root = s.root := huninterrupted.root
  have hroot₂ : resumed.root = s.root := hresumed.root.trans hroot
  have hwhole : Memory.Covers s.root flags (frames.map Address.identityPage) s.machine.memory
      uninterrupted.machine.memory := huninterrupted.covers
  have hagain : Memory.Covers aborted.root flags (frames.map Address.identityPage)
      aborted.machine.memory resumed.machine.memory := hresumed.covers
  -- Both end with the leaves and paths of all pages mapped from the start.
  rw [hroot] at hagain
  have hcovers : Memory.Covers s.root flags (frames.map Address.identityPage) s.machine.memory
      resumed.machine.memory := hout.covers_resumed hpresent hframes hagain
  refine ⟨fun va hva => ?_, ?_⟩
  · apply huninterrupted.books.translate_congr hresumed.books.toSound _ hva
    intro x hx
    rw [hroot₁, hroot₂, hcovers.leaf x hx, hwhole.leaf x hx]
  · apply huninterrupted.books.length_handedOut_congr hresumed.books
    rw [hroot₁, hroot₂, hcovers.paths, hwhole.paths]

end Resumed

/-- A memory map that could be mapped from some state is mapped with a frame source that declines a
request, and then again with one that does not. The first call ends at a page without a leaf, and
all pages before it have one. After the second call the addresses outside of the window translate as
they would if nothing had been declined, both calls together have mapped as many pages, and as many
frames have been used. The second call fails only if the regions have so many pages that those which
are occupied by then cannot be counted. -/
theorem resumption_of_performAll {α β γ δ : Type} [FrameSource α] [FrameSource β] [FrameSource γ]
    [FrameSource δ] {root : Frame} {mem : Memory} {frames : α} (mmu : η) (hroot : root.isEncodable)
    (hzero : mem.table root = .zero) (hfresh : FrameSource.Fresh (· ≠ root) frames)
    {actions : List Action}
    (hactions : (create root .identity mmu frames mem).PermitsAll actions) {flags : PageFlags}
    (hpresent : flags.contains PageFlags.present = true) (regions : List Region) (whole : β)
    (first : γ) (second : δ) :
    let s := ((create root .identity mmu frames mem).performAll actions).2
    let uninterrupted := (MemoryMap.mapRegions regions flags).run (s.supply whole)
    let aborted := (MemoryMap.mapRegions regions flags).run (s.supply first)
    let resumed := (MemoryMap.mapRegions regions flags).run (aborted.2.supply second)
    let newly := {x : Indices | x.l4 ≠ selfIndex ∧ s.machine.memory.leaf s.root x = .zero ∧
      aborted.2.machine.memory.leaf s.root x ≠ .zero}.ncard
    FrameSource.Fresh (fun f => f ≠ root ∧ f ∉ s.machine.handedOut) whole →
    FrameSource.Fresh (fun f => f ≠ root ∧ f ∉ s.machine.handedOut) first →
    FrameSource.Fresh (fun f => f ≠ root ∧ f ∉ aborted.2.machine.handedOut) second →
    ∀ t, uninterrupted.1 = .ok t →
      (s.supply first).machine.DeclinedSince aborted.2.machine →
      ¬ (aborted.2.supply second).machine.DeclinedSince resumed.2.machine →
      (∃ before q after, MemoryMap.pages regions = before ++ q :: after ∧
        aborted.1 = .error (.error (.map ⟨q.word⟩ q .outOfFrames)) ∧
        (∀ p ∈ before, aborted.2.machine.memory.leaf s.root p.identityPage ≠ .zero) ∧
        aborted.2.machine.memory.leaf s.root q.identityPage = .zero) ∧
      ((∃ t', resumed.1 = .ok t' ∧
        (∀ va, Window.contains va = false →
          resumed.2.translate va = uninterrupted.2.translate va) ∧
        newly + t'.mapped.toNat = t.mapped.toNat ∧
        t'.present.toNat = t.present.toNat + newly ∧
        resumed.2.machine.handedOut.length = uninterrupted.2.machine.handedOut.length) ∨
      resumed.1 = .error (.violation .overflow) ∧ 2 ^ 64 ≤ t.present.toNat + newly ∧
        t.present.toNat + newly ≤ MemoryMap.pageCount regions) := by
  intro s uninterrupted aborted resumed newly hwhole hfirst hsecond t ht hdeclined hgranted
  have hs : s.BooksFrames := booksFrames_performAll mmu hroot hzero hfresh hactions
  have hsroot : s.root = root :=
    (sound_create mmu hroot hzero hfresh).root_performAll hactions
  rw [← hsroot] at hwhole hfirst hsecond
  -- That nothing was declined the first time shows that all regions can be mapped.
  obtain ⟨hmappable, hcount, hmaps⟩ :=
    (hs.supply hwhole).mapRegions_ok hpresent (Prod.ext ht rfl)
  obtain ⟨before, q, after, k, hsplit, herror, hout⟩ :=
    (hs.supply hfirst).runsOut_of_declinedSince hpresent hmappable hdeclined
  have hq : q.IsIdentityMappable := hmaps.mappable q (by simp [hsplit])
  refine ⟨⟨before, q, after, hsplit, herror, fun p hp => hout.leaf_ne_zero hpresent hp,
    hout.leaf_eq_zero hq⟩, ?_⟩
  -- The pages that were mapped by the first call are those that it has counted.
  have hnewly : newly = k := hout.ncard_mapped hpresent
  have hvacant : k + ((aborted.2.supply second).machine.memory.vacant (aborted.2.supply second).root
      ((MemoryMap.pages regions).map Address.identityPage)).card = t.mapped.toNat :=
    hout.add_card_vacant hpresent hsplit hmaps
  have hsame : aborted.2.root = s.root := hout.root
  have hs' : (aborted.2.supply second).BooksFrames := hout.books.supply (hsame ▸ hsecond)
  -- What is vacant now was counted by the uninterrupted call, whose count is a word.
  have hlt := t.mapped.isLt
  rcases hs'.mapRegions_of_granted hpresent hmappable hgranted (by omega) with hok | hoverflow
  · obtain ⟨t', ht'⟩ := hok
    obtain ⟨-, hcount', hmaps'⟩ := hs'.mapRegions_ok hpresent (Prod.ext ht' rfl)
    obtain ⟨htranslate, hlength⟩ := hout.eq_uninterrupted hpresent hsplit hmaps hmaps'
    rw [← hmaps'.count] at hvacant
    exact Or.inl ⟨t', ht', htranslate, by omega, by omega, hlength⟩
  · obtain ⟨hoverflow, hlarge⟩ := hoverflow
    exact Or.inr ⟨hoverflow, by omega, by omega⟩

/-- Three pages are mapped before the frames run out, and a table has been made in vain. The second
call finds it, and maps the two pages that are left. -/
theorem resumption_of_performAll_specimen :
    let elsewhere : Action := .map ⟨0x2000⟩ ⟨0x9000⟩ .kernelData false
    let regions : List Region := [⟨⟨0⟩, 3, .loader⟩, ⟨⟨0x7000⟩, 7, .conventional⟩,
      ⟨⟨0x200000⟩, 1, .reserved⟩, ⟨⟨0x40000000⟩, 2, .acpi⟩]
    let listing := fun words : List Word =>
      (⟨{ Specimen.script with words := some words }⟩ : Screened Script)
    let s := (Specimen.start.performAll [elsewhere, elsewhere]).2
    let call : Op (AddressSpace Hardware.Simulated (Screened Script)) RegionError Tally :=
      MemoryMap.mapRegions regions .bootIdentity
    (call.run (s.supply (listing [0x5000, 0x6000, 0x7000]))).1 = .ok ⟨5, 1⟩ ∧
      (call.run (s.supply (listing [0x8000, 0x9000]))).1 =
        .error (.error (.map ⟨0x40000000⟩ ⟨0x40000000⟩ .outOfFrames)) ∧
      (call.run ((call.run (s.supply (listing [0x8000, 0x9000]))).2.supply
        (listing [0x5000]))).1 = .ok ⟨2, 4⟩ ∧
      {x : Indices | x.l4 ≠ selfIndex ∧ s.machine.memory.leaf s.root x = .zero ∧
        (call.run (s.supply (listing [0x8000, 0x9000]))).2.machine.memory.leaf s.root x
          ≠ .zero}.ncard = 3 := by
  intro elsewhere regions listing s call
  have hok : (call.run (s.supply (listing [0x5000, 0x6000, 0x7000]))).1 = .ok ⟨5, 1⟩ := by
    decide +kernel
  have haborted : (call.run (s.supply (listing [0x8000, 0x9000]))).1 =
      .error (.error (.map ⟨0x40000000⟩ ⟨0x40000000⟩ .outOfFrames)) := by decide +kernel
  have hresumed : (call.run ((call.run (s.supply (listing [0x8000, 0x9000]))).2.supply
      (listing [0x5000]))).1 = .ok ⟨2, 4⟩ := by decide +kernel
  have hdeclined : (s.supply (listing [0x8000, 0x9000])).machine.DeclinedSince
      (call.run (s.supply (listing [0x8000, 0x9000]))).2.machine := by
    unfold Machine.DeclinedSince
    decide +kernel
  have hgranted : ¬ ((call.run (s.supply (listing [0x8000, 0x9000]))).2.supply
      (listing [0x5000])).machine.DeclinedSince
        (call.run ((call.run (s.supply (listing [0x8000, 0x9000]))).2.supply
          (listing [0x5000]))).2.machine := by
    unfold Machine.DeclinedSince
    decide +kernel
  have hwhole : FrameSource.Fresh (fun f => f ≠ Specimen.root ∧ f ∉ s.machine.handedOut)
      (listing [0x5000, 0x6000, 0x7000]) :=
    Screened.fresh_of_check rfl rfl (by decide +kernel) (by decide +kernel)
  have hfirst : FrameSource.Fresh (fun f => f ≠ Specimen.root ∧ f ∉ s.machine.handedOut)
      (listing [0x8000, 0x9000]) :=
    Screened.fresh_of_check rfl rfl (by decide +kernel) (by decide +kernel)
  have hsecond : FrameSource.Fresh (fun f => f ≠ Specimen.root ∧
      f ∉ (call.run (s.supply (listing [0x8000, 0x9000]))).2.machine.handedOut)
      (listing [0x5000]) :=
    Screened.fresh_of_check rfl rfl (by decide +kernel) (by decide +kernel)
  have hactions : Specimen.start.PermitsAll [elsewhere, elsewhere] := ⟨trivial, trivial, trivial⟩
  -- Which regions, actions and scripts they are does not matter any more.
  clear_value regions elsewhere listing
  obtain ⟨-, hresult⟩ := resumption_of_performAll Specimen.hardware Specimen.isEncodable_root
    Specimen.table_root Specimen.fresh_source hactions (by decide +kernel) regions _ _ _ hwhole
    hfirst hsecond _ hok hdeclined hgranted
  refine ⟨hok, haborted, hresumed, ?_⟩
  rcases hresult with hagain | hoverflow
  · obtain ⟨t, ht, -, hcount, -⟩ := hagain
    obtain rfl : ⟨2, 4⟩ = t := Except.ok.inj (hresumed.symm.trans ht)
    exact Nat.add_right_cancel hcount
  · exact absurd (hresumed.symm.trans hoverflow.1) nofun

end AddressSpace

end Paging
