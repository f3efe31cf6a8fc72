import Paging.Proofs.EffectivePermissions
import Paging.Proofs.MapReport
import Paging.Proofs.PageVisits

/-!
# Mapping pages onto themselves

Pages that are visited one after the other get the leaf that maps them onto themselves, if they had
no leaf, and keep the leaf that they had otherwise. In which order the pages come and how often
makes no difference to the leaves, to the tables or to the number of pages that were mapped. The
visit ends early only if a page cannot be mapped at all or if the frames run out.
-/

namespace Paging

/-! ## Pages that are mapped onto themselves -/

/-- The leaf that maps a page onto itself. -/
def Indices.identityLeaf (flags : PageFlags) (ix : Indices) : Entry :=
  .encode (.containing ⟨ix.page.word⟩) (.ofPageFlags flags)

namespace Address

/-- The page that is mapped to the frame at an address, if it is mapped onto itself. -/
def identityPage (pa : PhysAddr) : Indices := (⟨pa.word⟩ : VirtAddr).indices

/-- Whether the page at an address can be mapped onto itself. -/
def IsIdentityMappable (pa : PhysAddr) : Prop :=
  (⟨pa.word⟩ : VirtAddr).IsPlain ∧ pa.IsFrameBase

variable {pa : PhysAddr}

theorem alignDown_of_isAligned {space : Space} {a : Address space}
    (h : a.isAligned .size4K = true) : a.alignDown .size4K = a := by
  have hoffset : a.word.lowBits PageSize.size4K.shift = 0 := by simpa [isAligned, offset] using h
  exact congrArg mk (Word.clearLow_of_lowBits_eq_zero hoffset)

theorem IsIdentityMappable.page_identityPage (h : pa.IsIdentityMappable) :
    pa.identityPage.page = ⟨pa.word⟩ := by
  -- The word is a frame's base, so it is the base of its page as well.
  obtain ⟨⟨hcanonical, -⟩, haligned, -⟩ := h
  rw [identityPage, page_indices hcanonical]
  exact alignDown_of_isAligned haligned

theorem IsIdentityMappable.l4_ne (h : pa.IsIdentityMappable) : pa.identityPage.l4 ≠ selfIndex :=
  h.1.l4_ne

theorem IsIdentityMappable.identityLeaf (h : pa.IsIdentityMappable) (flags : PageFlags) :
    pa.identityPage.identityLeaf flags = .encode (.containing pa) (.ofPageFlags flags) := by
  rw [Indices.identityLeaf, h.page_identityPage]

end Address

theorem Indices.identityLeaf_ne_zero {flags : PageFlags}
    (hpresent : flags.contains PageFlags.present = true) (ix : Indices) :
    ix.identityLeaf flags ≠ .zero := by
  intro hzero
  -- The leaf has the present bit of the flags, and the absent entry has no bit.
  have hleaf : (ix.identityLeaf flags).present = true := by
    rw [identityLeaf, Entry.present_leaf, hpresent]
  simp [hzero] at hleaf

/-! ## What becomes of memory -/

namespace Memory

variable {mem mem₁ mem' : Memory} {root : Frame} {flags : PageFlags} {pages pages' : List Indices}
  {x : Indices}

/-- The pages of a list that have no leaf. -/
def vacant (mem : Memory) (root : Frame) (pages : List Indices) : Finset Indices :=
  pages.toFinset.filter fun x => mem.leaf root x = .zero

theorem mem_vacant_iff : x ∈ mem.vacant root pages ↔ x ∈ pages ∧ mem.leaf root x = .zero := by
  rw [vacant, Finset.mem_filter, List.mem_toFinset]

theorem card_vacant_singleton (x : Indices) :
    (mem.vacant root [x]).card = if mem.leaf root x = .zero then 1 else 0 := by
  rw [vacant, List.toFinset_cons, List.toFinset_nil, insert_empty_eq, Finset.filter_singleton]
  split <;> rfl

/-- `mem'` is what becomes of `mem` when some pages are mapped onto themselves: the pages that were
vacant have got their leaves, and there are tables on the ways of all pages. -/
structure Covers (root : Frame) (flags : PageFlags) (pages : List Indices) (mem mem' : Memory) :
    Prop where
  outside : ∀ x ∈ pages, x.l4 ≠ selfIndex
  leaf : ∀ x : Indices, x.l4 ≠ selfIndex → mem'.leaf root x =
    if x ∈ mem.vacant root pages then x.identityLeaf flags else mem.leaf root x
  paths : mem'.tablePaths root = mem.tablePaths root ∪ ↑(pages.toFinset.biUnion Indices.way)

namespace Covers

theorem nil (root : Frame) (flags : PageFlags) (mem : Memory) : Covers root flags [] mem mem where
  outside := by simp
  leaf x _ := by simp [mem_vacant_iff]
  paths := by simp

/-- A vacant page has got its leaf. -/
theorem single (hx : x.l4 ≠ selfIndex) (hvacant : mem.leaf root x = .zero)
    (hleaf : ∀ y : Indices, y.l4 ≠ selfIndex →
      mem'.leaf root y = if y = x then x.identityLeaf flags else mem.leaf root y)
    (hpaths : mem'.tablePaths root = mem.tablePaths root ∪ x.way) :
    Covers root flags [x] mem mem' where
  outside y hy := List.mem_singleton.mp hy ▸ hx
  leaf y hy := by
    rw [hleaf y hy]
    grind [mem_vacant_iff]
  paths := by simpa using hpaths

/-- A page that had a leaf keeps it. -/
theorem single_of_leaf (hx : x.l4 ≠ selfIndex) (hold : mem.leaf root x ≠ .zero)
    (hleaf : ∀ y : Indices, y.l4 ≠ selfIndex → mem'.leaf root y = mem.leaf root y)
    (hpaths : mem'.tablePaths root = mem.tablePaths root)
    (hway : ↑x.way ⊆ mem.tablePaths root) : Covers root flags [x] mem mem' where
  outside y hy := List.mem_singleton.mp hy ▸ hx
  leaf y hy := by
    rw [hleaf y hy]
    grind [mem_vacant_iff]
  paths := by simpa using hpaths.trans (Set.union_eq_left.mpr hway).symm

variable (hpresent : flags.contains PageFlags.present = true)

include hpresent

/-- What is vacant afterwards was vacant before and not among the pages. -/
theorem leaf_eq_zero_iff (h : Covers root flags pages mem mem') (hx : x.l4 ≠ selfIndex) :
    mem'.leaf root x = .zero ↔ mem.leaf root x = .zero ∧ x ∉ pages := by
  rw [h.leaf x hx]
  have hleaf := x.identityLeaf_ne_zero hpresent
  grind [mem_vacant_iff]

/-- All pages have leaves afterwards. -/
theorem leaf_ne_zero (h : Covers root flags pages mem mem') (hx : x ∈ pages) :
    mem'.leaf root x ≠ .zero := by
  rw [ne_eq, h.leaf_eq_zero_iff hpresent (h.outside x hx)]
  exact fun hvacant => hvacant.2 hx

/-- Pages that are mapped later are mapped as if they stood in the same list. -/
theorem trans (h : Covers root flags pages mem mem₁) (h' : Covers root flags pages' mem₁ mem') :
    Covers root flags (pages ++ pages') mem mem' where
  outside x hx := (List.mem_append.mp hx).elim (h.outside x) (h'.outside x)
  leaf x hx := by
    -- The first pass has left vacant what the second one maps, and no page of its own list.
    have hzero := h.leaf_eq_zero_iff hpresent hx
    rw [h'.leaf x hx, h.leaf x hx]
    grind [mem_vacant_iff]
  paths := by
    rw [h'.paths, h.paths, List.toFinset_append, Finset.union_biUnion, Finset.coe_union,
      Set.union_assoc]

/-- The pages that are found vacant by both are all that were vacant, and each is found once. -/
theorem card_vacant_append (h : Covers root flags pages mem mem')
    (houtside : ∀ x ∈ pages', x.l4 ≠ selfIndex) :
    (mem.vacant root (pages ++ pages')).card =
      (mem.vacant root pages).card + (mem'.vacant root pages').card := by
  -- A page of both lists is found vacant once, because it has a leaf when it comes again.
  have hunion : mem.vacant root (pages ++ pages') =
      mem.vacant root pages ∪ mem'.vacant root pages' := by
    ext x
    rw [Finset.mem_union, mem_vacant_iff, mem_vacant_iff, mem_vacant_iff, List.mem_append]
    have hzero := fun hx => h.leaf_eq_zero_iff hpresent (houtside x hx)
    grind
  rw [hunion, Finset.card_union_of_disjoint]
  -- What the first pass has found vacant has a leaf by now.
  rw [Finset.disjoint_left]
  intro x hx hx'
  rw [mem_vacant_iff] at hx hx'
  exact h.leaf_ne_zero hpresent hx.1 hx'.2

end Covers

end Memory

/-! ## What becomes of an address space -/

/-- A page that can be mapped is refused because it is occupied or because the frames run out. -/
theorem MapReport.cause_eq {η α : Type} [FrameSource α] {root : Frame} {ix : Indices} {leaf : Entry}
    {force : Bool} {m m' : Machine η α} {cause : Stop MapError}
    (h : MapReport root ix leaf force m m' (.refused (cause.refusal .map))) :
    cause = .error .occupied ∨ cause = .error .outOfFrames := by
  -- The report is for an outcome, and different causes have different outcomes.
  generalize ho : Outcome.refused (cause.refusal .map) = o at h
  cases h with
  | done => cases ho
  | occupied => cases cause <;> simp_all [Stop.refusal]
  | outOfFrames => cases cause <;> simp_all [Stop.refusal]

namespace AddressSpace

variable {η α : Type} [Mmu η] [WalkingMmu η] [FrameSource α] {s s₁ s' : AddressSpace η α}

/-- A sound address space whose frames are booked. -/
structure BooksFrames (s : AddressSpace η α) : Prop extends Sound s where
  booked : s.machine.Booked s.root

theorem BooksFrames.perform (hs : s.BooksFrames) {a : Action} (hp : s.Permits a) :
    (s.perform a).2.BooksFrames :=
  ⟨hs.toSound.perform hp, hs.booked_perform hs.booked a⟩

/-- Another source may go on from here if it hands out no table again, and of the trace only the
frames that were handed out matter. -/
theorem BooksFrames.of_handedOut_eq {β : Type} [FrameSource β] (hs : s.BooksFrames) {frames : β}
    {trace : List Event} (hfresh : FrameSource.Fresh (¬ s.machine.memory.IsTable s.root ·) frames)
    (hhanded : (⟨s.machine.memory, s.machine.mmu, frames, trace⟩ : Machine η β).handedOut =
      s.machine.handedOut) :
    (⟨s.root, s.access, s.phase, ⟨s.machine.memory, s.machine.mmu, frames, trace⟩⟩ :
      AddressSpace η β).BooksFrames where
  isEncodable := hs.isEncodable
  orderly := ⟨hs.orderly.apart, hfresh⟩
  ownLinks := hs.ownLinks
  -- The hardware and the root's own slot are the same.
  active hphase := ⟨(hs.active hphase).loaded, (hs.active hphase).selfLink⟩
  window haccess := ⟨⟨(hs.window haccess).1.loaded, (hs.window haccess).1.selfLink⟩,
    (hs.window haccess).2⟩
  booked := by
    refine ⟨fun f => ?_, hhanded ▸ hs.booked.nodup⟩
    rw [← Machine.mem_handedOut_iff, hhanded, Machine.mem_handedOut_iff]
    exact hs.booked.accounted f

/-- A record that is logged makes no difference. -/
theorem BooksFrames.log (hs : s.BooksFrames) (r : Record) : (Mapper.log r s).BooksFrames :=
  hs.of_handedOut_eq hs.orderly.fresh
    (congrArg (List.filterMap id) (Machine.requests_log s.machine r))

/-- In every sensible run from an empty root the frames are booked. -/
theorem booksFrames_performAll {root : Frame} {mem : Memory} {frames : α} (mmu : η)
    (hroot : root.isEncodable) (hzero : mem.table root = .zero)
    (hfresh : FrameSource.Fresh (· ≠ root) frames) {actions : List Action}
    (hactions : (create root .identity mmu frames mem).PermitsAll actions) :
    ((create root .identity mmu frames mem).performAll actions).2.BooksFrames where
  toSound := (sound_create mmu hroot hzero hfresh).performAll hactions
  booked := (sound_create mmu hroot hzero hfresh).booked_performAll (booked_create mmu hzero)
    hactions

/-! ### One page -/

section Page

variable {p : PhysAddr} {flags : PageFlags} {r : Except (Stop MapError) Unit}
  (hs : s.BooksFrames) (hrun : (Mapper.map ⟨p.word⟩ p flags false).run s = (r, s₁))

include hs hrun

theorem BooksFrames.of_run_map : s₁.BooksFrames := by
  have hbooks := hs.perform (a := .map ⟨p.word⟩ p flags false) trivial
  rwa [perform_eq_of_run_map hrun] at hbooks

/-- A page that can be mapped reports what has been done. -/
theorem BooksFrames.report_of_run_map (hp : p.IsIdentityMappable) :
    ∃ m, s₁ = s.onto m ∧ MapReport s.root p.identityPage (p.identityPage.identityLeaf flags) false
      s.machine m (.ofResult .map (fun _ => .done) r) := by
  have hreport := hs.perform_map_reports hp.1 hp.2 flags false
  rw [perform_eq_of_run_map hrun, ← hp.identityLeaf] at hreport
  exact hreport

end Page

/-! ### Many pages -/

/-- From `s` to `s'` some pages were mapped onto themselves, and `k` of them had been vacant. All
frames that were asked for were granted. -/
structure IdentityMaps (flags : PageFlags) (frames : List PhysAddr) (s : AddressSpace η α) (k : Nat)
    (s' : AddressSpace η α) : Prop where
  books : s'.BooksFrames
  root : s'.root = s.root
  asks : ∃ n, s.machine.Asks n s'.machine ∧ none ∉ FrameSource.answers n s.machine.frames
  mappable : ∀ p ∈ frames, p.IsIdentityMappable
  covers : Memory.Covers s.root flags (frames.map Address.identityPage) s.machine.memory
    s'.machine.memory
  count : k = (s.machine.memory.vacant s.root (frames.map Address.identityPage)).card

namespace IdentityMaps

variable {flags : PageFlags} {frames frames' : List PhysAddr} {k l : Nat}

theorem nil (hs : s.BooksFrames) (flags : PageFlags) : IdentityMaps flags [] s 0 s where
  books := hs
  root := rfl
  asks := ⟨0, .refl s.machine, by simp [FrameSource.answers]⟩
  mappable := by simp
  covers := .nil ..
  count := by simp [Memory.vacant]

theorem trans (hpresent : flags.contains PageFlags.present = true)
    (h : IdentityMaps flags frames s k s₁) (h' : IdentityMaps flags frames' s₁ l s') :
    IdentityMaps flags (frames ++ frames') s (k + l) s' := by
  -- The answers to both parts are those to all requests, so none was declined.
  obtain ⟨m, hm, hgranted⟩ := h.asks
  obtain ⟨n, hn, hgranted'⟩ := h'.asks
  have hcovers' := h'.covers
  rw [h.root] at hcovers'
  refine ⟨h'.books, h'.root.trans h.root, ⟨m + n, hm.trans hn, ?_⟩, ?_, ?_, ?_⟩
  · rw [FrameSource.answers_add, ← hm.frames, List.mem_append, not_or]
    exact ⟨hgranted, hgranted'⟩
  · exact fun p hp => (List.mem_append.mp hp).elim (h.mappable p) (h'.mappable p)
  · rw [List.map_append]
    exact h.covers.trans hpresent hcovers'
  · -- What was counted in the second part had been vacant from the start.
    rw [List.map_append, h.covers.card_vacant_append hpresent hcovers'.outside, h.count, h'.count,
      h.root]

/-- A record that was logged before makes no difference. -/
theorem of_log {r : Record} (h : IdentityMaps flags frames (Mapper.log r s) k s') :
    IdentityMaps flags frames s k s' where
  books := h.books
  root := h.root
  asks := by
    obtain ⟨n, hn, hgranted⟩ := h.asks
    have hasks := (Machine.Asks.log s.machine r).trans hn
    rw [Nat.zero_add] at hasks
    exact ⟨n, hasks, hgranted⟩
  mappable := h.mappable
  covers := h.covers
  count := h.count

/-- Neither does one that was logged afterwards. -/
theorem log (h : IdentityMaps flags frames s k s') (r : Record) :
    IdentityMaps flags frames s k (Mapper.log r s') where
  books := h.books.log r
  root := h.root
  asks := by
    obtain ⟨n, hn, hgranted⟩ := h.asks
    exact ⟨n, hn.trans (.log s'.machine r), hgranted⟩
  mappable := h.mappable
  covers := h.covers
  count := h.count

/-- A page that is mapped had been vacant. -/
theorem of_ok {p : PhysAddr} (hs : s.BooksFrames)
    (hrun : (Mapper.map ⟨p.word⟩ p flags false).run s = (.ok (), s₁)) :
    IdentityMaps flags [p] s 1 s₁ := by
  -- An answer other than that of an invalid address says that both addresses can be mapped.
  have hp : p.IsIdentityMappable := isPlain_and_isFrameBase_of_run_map hrun nofun nofun
  obtain ⟨m, rfl, hreport⟩ := hs.report_of_run_map hrun hp
  cases hreport with
  | done hfree hasks hgranted hleaf hpaths =>
    -- Without force a page is mapped only if it had no leaf.
    refine ⟨hs.of_run_map hrun, rfl, ⟨_, hasks, hgranted⟩, by simpa using hp, ?_, ?_⟩
    · exact .single hp.l4_ne (hfree rfl) hleaf hpaths
    · rw [List.map_singleton, Memory.card_vacant_singleton, if_pos (hfree rfl)]

/-- A page that is occupied stays as it is. -/
theorem of_occupied {p : PhysAddr} (hs : s.BooksFrames)
    (hrun : (Mapper.map ⟨p.word⟩ p flags false).run s = (.error (.error .occupied), s₁)) :
    IdentityMaps flags [p] s 0 s₁ := by
  have hp : p.IsIdentityMappable := isPlain_and_isFrameBase_of_run_map hrun nofun nofun
  obtain ⟨m, rfl, hreport⟩ := hs.report_of_run_map hrun hp
  cases hreport with
  | occupied hforce hold hasks hleaf hpaths hway =>
    -- Nothing is asked for, and the way to the page was there.
    refine ⟨hs.of_run_map hrun, rfl, ⟨0, hasks, by simp [FrameSource.answers]⟩, by simpa using hp,
      ?_, ?_⟩
    · exact .single_of_leaf hp.l4_ne hold hleaf hpaths hway
    · rw [List.map_singleton, Memory.card_vacant_singleton, if_neg hold]

end IdentityMaps

/-- The frames run out at `q`, after some pages of which `k` had been vacant. -/
structure RunsOut (flags : PageFlags) (before : List PhysAddr) (q : PhysAddr)
    (s : AddressSpace η α) (k : Nat) (s' : AddressSpace η α) : Prop where
  books : s'.BooksFrames
  root : s'.root = s.root
  exists_report : ∃ s₁, IdentityMaps flags before s k s₁ ∧
    MapReport s.root q.identityPage (q.identityPage.identityLeaf flags) false s₁.machine s'.machine
      (.refused (.map .outOfFrames))

theorem IdentityMaps.not_declinedSince {flags : PageFlags} {frames : List PhysAddr} {k : Nat}
    (h : IdentityMaps flags frames s k s') : ¬ s.machine.DeclinedSince s'.machine := by
  obtain ⟨n, hn, hgranted⟩ := h.asks
  rwa [hn.declinedSince_iff]

theorem RunsOut.declinedSince {flags : PageFlags} {before : List PhysAddr} {q : PhysAddr} {k : Nat}
    (h : RunsOut flags before q s k s') : s.machine.DeclinedSince s'.machine := by
  -- The request that was declined is the last one, at the page itself.
  obtain ⟨s₁, hbefore, hreport⟩ := h.exists_report
  obtain ⟨n, hn, -⟩ := hbefore.asks
  cases hreport with
  | outOfFrames hfree hle hasks hdeclined hleaf hmore hpaths =>
    rw [(hn.trans hasks).declinedSince_iff, FrameSource.answers_add, ← hn.frames]
    exact List.mem_append_right _ hdeclined

/-! ### A memory map -/

/-- Why the regions of a memory map were not all mapped onto themselves. -/
inductive RegionsFailure (flags : PageFlags) (regions : List Region) (s : AddressSpace η α) :
    Stop RegionError → AddressSpace η α → Prop where
  /-- A region does not fit. -/
  | range {done : List PhysAddr} {r : Region} {s' : AddressSpace η α} {k : Nat}
      (hr : r ∈ regions) (hneeds : r.kind.needsMapping = true)
      (hrange : ¬ r.base.Fits r.pages.toNat) (hdone : IdentityMaps flags done s k s') :
      RegionsFailure flags regions s (.error (.overflow r.base.word r.pages)) s'
  /-- A page cannot be mapped. -/
  | page {q : PhysAddr} {stop : Stop RegionError} {s' : AddressSpace η α}
      (hmem : q ∈ MemoryMap.pages regions) (hq : ¬ q.IsIdentityMappable) :
      RegionsFailure flags regions s stop s'
  /-- The frames run out. -/
  | outOfFrames {before after : List PhysAddr} {q : PhysAddr} {s' : AddressSpace η α} {k : Nat}
      (hpages : MemoryMap.pages regions = before ++ q :: after)
      (hout : RunsOut flags before q s k s') :
      RegionsFailure flags regions s (.error (.map ⟨q.word⟩ q .outOfFrames)) s'
  /-- A count is too large. -/
  | overflow {before after : List PhysAddr} {s' : AddressSpace η α} {k l : Nat}
      (hpages : MemoryMap.pages regions = before ++ after)
      (hbefore : IdentityMaps flags before s k s') (hlength : k + l = before.length)
      (hcount : 2 ^ 64 ≤ k ∨ 2 ^ 64 ≤ l) :
      RegionsFailure flags regions s (.violation .overflow) s'

namespace BooksFrames

open MemoryMap

variable {flags : PageFlags} {steps : List Visit} {k l : Nat} (hs : s.BooksFrames)
  (hpresent : flags.contains PageFlags.present = true) (hsteps : ∀ v ∈ steps, v.IsIdentity)

include hs hpresent hsteps

/-- The pages that were visited have been mapped onto themselves. -/
theorem identityMaps_of_visited (h : Visited flags steps s k l s') :
    IdentityMaps flags (steps.filterMap Visit.phys?) s k s' := by
  induction h with
  | nil => exact .nil hs flags
  | announce r _ ih =>
    -- A record makes no difference to tables or frames.
    exact (ih (hs.log _) fun v hv => hsteps v (List.mem_cons_of_mem _ hv)).of_log
  | mapped hrun _ ih =>
    obtain ⟨hv, hrest⟩ := List.forall_mem_cons.mp hsteps
    obtain rfl := hv
    -- This page is counted before all that follow.
    have hpage := IdentityMaps.of_ok hs hrun
    rw [Nat.add_comm]
    exact hpage.trans hpresent (ih hpage.books hrest)
  | @occupied _ _ _ _ k _ _ _ hrun _ ih =>
    obtain ⟨hv, hrest⟩ := List.forall_mem_cons.mp hsteps
    obtain rfl := hv
    have hpage := IdentityMaps.of_occupied hs hrun
    rw [← Nat.zero_add k]
    exact hpage.trans hpresent (ih hpage.books hrest)

/-- The visit ends early at a page that cannot be mapped, or the frames have run out. -/
theorem of_halted {stop : Stop RegionError} (h : Halted flags steps s stop s') :
    ∃ before q after k, steps.filterMap Visit.phys? = before ++ q :: after ∧
      (q.IsIdentityMappable → stop = .error (.map ⟨q.word⟩ q .outOfFrames) ∧
        RunsOut flags before q s k s') := by
  obtain ⟨rfl, hbefore, hrun, hcause⟩ := h
  rename_i before after virt q s₁ k l cause
  -- The pages before the one that was refused have been mapped onto themselves.
  have hpages := hs.identityMaps_of_visited hpresent
    (fun v hv => hsteps v (List.mem_append_left _ hv)) hbefore
  obtain rfl : virt = ⟨q.word⟩ := hsteps (.page virt q) (by simp)
  refine ⟨_, q, _, k, List.filterMap_append, fun hq => ?_⟩
  obtain ⟨m, rfl, hreport⟩ := hpages.books.report_of_run_map hrun hq
  -- Of the two causes that are left the visit does not end at the first.
  obtain rfl := hreport.cause_eq.resolve_left hcause
  refine ⟨rfl, hpages.books.of_run_map hrun, hpages.root, s₁, hpages, ?_⟩
  rw [← hpages.root]
  exact hreport

omit hsteps

/-- Among own links a memory map fails for one of four reasons. -/
theorem of_regionsStop {regions : List Region} {stop : Stop RegionError}
    (h : RegionsStop flags regions .zero s stop s') : RegionsFailure flags regions s stop s' := by
  obtain ⟨rfl, hneeds, hfits, hdone, hstop⟩ := h
  rename_i done rest r s₁ k l
  have hvisits : visits (done ++ r :: rest) = (visits done ++ regionVisits r) ++ visits rest := by
    rw [visits, List.flatMap_append, List.append_assoc]
    rfl
  have hsteps : ∀ v ∈ visits (done ++ r :: rest), v.IsIdentity :=
    fun v hv => isIdentity_of_mem_visits _ hv
  have hpages := filterMap_visits (done ++ r :: rest)
  cases hstop with
  | range hrange =>
    rw [hvisits, List.forall_mem_append, List.forall_mem_append] at hsteps
    -- Only the regions before this one have been visited.
    have hmaps := hs.identityMaps_of_visited hpresent hsteps.1.1 hdone
    exact .range (by simp) hneeds hrange (hmaps.log _)
  | page hhalted =>
    -- Seen from the whole list, the visit ends at a page in the middle.
    have hhalted := (hhalted.append_left hdone).append_right (visits rest)
    rw [← hvisits] at hhalted
    obtain ⟨before, q, after, k, hsplit, hend⟩ := hs.of_halted hpresent hsteps hhalted
    rw [hpages] at hsplit
    by_cases hq : q.IsIdentityMappable
    · obtain ⟨rfl, hout⟩ := hend hq
      exact .outOfFrames hsplit hout
    · exact .page (by simp [hsplit]) hq
  | overflow hvisited hcount =>
    rename_i k' l'
    have hzero : Tally.zero.mapped.toNat = 0 ∧ Tally.zero.present.toNat = 0 := ⟨rfl, rfl⟩
    -- The pages of this region have all been visited, and still a count is too large.
    have hall := hdone.append hvisited
    rw [hvisits, List.forall_mem_append] at hsteps
    rw [hvisits, List.filterMap_append] at hpages
    exact .overflow hpages.symm (hs.identityMaps_of_visited hpresent hsteps.1 hall) hall.count
      (by omega)

/-- The pages of a memory map are mapped onto themselves and counted, or there is a reason why they
are not. -/
theorem mapRegions_ends (regions : List Region) :
    (mapRegions regions flags).Ends s
      (fun t s' => (∀ r ∈ regions, r.kind.needsMapping = true → r.base.Fits r.pages.toNat) ∧
        t.mapped.toNat + t.present.toNat = pageCount regions ∧
        IdentityMaps flags (pages regions) s t.mapped.toNat s')
      (RegionsFailure flags regions s) := by
  apply (MemoryMap.mapRegions_ends regions flags s).mono
  · intro t s' hend
    obtain ⟨hfits, s₁, hvisited, rfl⟩ := hend
    have hmaps := hs.identityMaps_of_visited hpresent
      (fun v hv => isIdentity_of_mem_visits regions hv) hvisited
    rw [filterMap_visits] at hmaps
    refine ⟨hfits, ?_, hmaps.log _⟩
    rw [hvisited.count, filterMap_visits, length_pages]
  · exact fun stop s' hend => hs.of_regionsStop hpresent hend

end BooksFrames

end AddressSpace

end Paging
