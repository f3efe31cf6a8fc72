import Paging.Proofs.Descent
import Paging.Proofs.LeafChange
import Paging.Proofs.VirtualPages

/-!
# How mapping ends

Mapping either sets the leaf of its page or is refused, and a refusal leaves behind a hierarchy
that has only grown. It never faults and never meets a violation, and the way to the tables makes
no difference to it: each of its parts runs as it does when the frames are used directly, and so
does the whole.
-/

namespace Paging

/-- A frame that can be mapped is the one at the address, if the address is one of a frame. -/
theorem target?_eq_some_iff {pa : PhysAddr} {f : Frame} :
    Hierarchy.target? pa = some f ↔ f.base = pa ∧ f.isEncodable := by
  unfold Hierarchy.target? Page.ofAddr?
  by_cases ha : pa.isAligned .size4K
  · simp only [ha, dite_true]
    constructor
    · intro h
      split at h
      · rename_i he
        obtain rfl := Option.some.inj h
        exact ⟨rfl, he⟩
      · cases h
    · intro h
      obtain ⟨hbase, he⟩ := h
      -- Two frames with one base are the same frame.
      have hf : (⟨pa, ha⟩ : Frame) = f := Page.ext hbase.symm
      rw [hf, if_pos he]
  · simp only [ha, Bool.false_eq_true, dite_false]
    constructor
    · intro h
      cases h
    · intro h
      exact absurd (h.1 ▸ f.isAligned_base) ha

namespace Hierarchy

variable {η α : Type} [Mmu η]

/-! ## The root's link to itself -/

section SelfLink

variable {h : Hierarchy} {m : Machine η α}

omit [Mmu η]

/-- A root that links to itself is left as it is. -/
theorem run_ensureSelfLink_of_selfLinked (hself : m.memory.SelfLinked h.root) :
    h.ensureSelfLink.run m = (.ok (), m) := by
  rw [run_ensureSelfLink]
  exact if_pos (Or.inr hself)

/-- An empty slot is filled. -/
theorem run_ensureSelfLink_of_empty (ha : h.access = .identity) (hroot : h.root.isEncodable)
    (hempty : m.memory.read h.root selfIndex = .zero) :
    h.ensureSelfLink.run m =
      (.ok (), (m.write h.root selfIndex (.selfLink h.root)).log (.linkedSelf h.root)) := by
  have hself : ¬ m.memory.SelfLinked h.root := fun hself => hself.read_ne_zero hempty
  rw [run_ensureSelfLink, ha]
  simp only [reduceCtorEq, false_or, hself, hempty, ne_eq, not_true_eq_false, if_false, hroot,
    if_true]

/-- Anything else in the slot is refused. -/
theorem run_ensureSelfLink_of_foreign (ha : h.access = .identity)
    (hslot : m.memory.read h.root selfIndex ≠ .zero) (hself : ¬ m.memory.SelfLinked h.root) :
    h.ensureSelfLink.run m = (.error (.error .foreignEntry),
      m.log (.foreignSelf h.root (m.memory.read h.root selfIndex))) := by
  rw [run_ensureSelfLink, ha]
  simp only [reduceCtorEq, false_or, hself, if_false, if_pos hslot]

/-- Linking the root to itself has four ends. -/
theorem ensureSelfLink_cases (h : Hierarchy) (m : Machine η α) :
    (h.ensureSelfLink.run m = (.ok (), m) ∧
      (h.access = .window ∨ m.memory.SelfLinked h.root)) ∨
    (h.ensureSelfLink.run m =
        (.ok (), (m.write h.root selfIndex (.selfLink h.root)).log (.linkedSelf h.root)) ∧
      h.access = .identity ∧ m.memory.read h.root selfIndex = .zero ∧
      h.root.isEncodable = true) ∨
    (h.ensureSelfLink.run m = (.error (.violation .unencodableFrame), m) ∧
      h.access = .identity ∧ m.memory.read h.root selfIndex = .zero ∧
      h.root.isEncodable = false) ∨
    h.ensureSelfLink.run m = (.error (.error .foreignEntry),
        m.log (.foreignSelf h.root (m.memory.read h.root selfIndex))) ∧
      h.access = .identity ∧ m.memory.read h.root selfIndex ≠ .zero ∧
      ¬ m.memory.SelfLinked h.root := by
  have hrun := run_ensureSelfLink h m
  simp only at hrun
  split at hrun
  · rename_i hdone
    exact Or.inl ⟨hrun, hdone⟩
  rename_i hmissing
  obtain ⟨hwindow, hself⟩ := not_or.mp hmissing
  have ha : h.access = .identity := by
    cases ha : h.access with
    | identity => rfl
    | window => exact absurd ha hwindow
  split at hrun
  · rename_i hslot
    exact Or.inr (Or.inr (Or.inr ⟨hrun, ha, hslot, hself⟩))
  rename_i hslot
  have hempty := Decidable.not_not.mp hslot
  split at hrun
  · rename_i hroot
    exact Or.inr (Or.inl ⟨hrun, ha, hempty, hroot⟩)
  · rename_i hroot
    exact Or.inr (Or.inr (Or.inl ⟨hrun, ha, hempty, eq_false_of_ne_true hroot⟩))

end SelfLink

/-- The root links to itself afterwards, or the operation stops; the hierarchy has grown. -/
theorem ensureSelfLink_ends [FrameSource α] {h : Hierarchy} {m : Machine η α} (hu : h.Usable m)
    (hroot : h.root.isEncodable) :
    h.ensureSelfLink.Ends m
      (fun _ m' => GrowsTo h m m' ∧ m'.memory.SelfLinked h.root)
      (fun stop m' => GrowsTo h m m' ∧ ∃ cause, stop = .error cause) := by
  by_cases hself : m.memory.SelfLinked h.root
  · exact Op.Ends.ok (run_ensureSelfLink_of_selfLinked hself) ⟨.refl, hself⟩
  -- Through the window the root would have linked to itself, so the frames are used directly.
  have ha := hu.access_of_not_selfLinked hself
  by_cases hempty : m.memory.read h.root selfIndex = .zero
  · apply Op.Ends.ok (run_ensureSelfLink_of_empty ha hroot hempty)
    refine ⟨.tail (.single (.linkSelf m hempty)) (.log _ _), ?_⟩
    apply Memory.selfLinked_of_eq_selfLink hroot
    exact Memory.read_write_self ..
  · apply Op.Ends.error (run_ensureSelfLink_of_foreign ha hempty hself)
    exact ⟨.single (.log m _), _, rfl⟩

/-! ## Pages that must be vacant -/

theorem run_requireVacant_of_translate {h : Hierarchy} {m : Machine η α} {page : VirtAddr}
    {pa : PhysAddr} (ht : h.translate m.mmu m.memory page = .ok pa) :
    (h.requireVacant page).run m =
      (if pa.isZero then .ok () else .error (.error .occupied), m) := by
  rw [run_requireVacant, ht]

/-- Looking whether a page is vacant changes nothing; if it is not, it is refused as occupied. -/
theorem requireVacant_ends {h : Hierarchy} {m : Machine η α} (hu : h.Usable m) (page : VirtAddr) :
    (h.requireVacant page).Ends m (fun _ m' => m' = m)
      (fun stop m' => stop = .error .occupied ∧ m' = m) := by
  obtain ⟨pa, hpa⟩ := translate_ok hu page
  have hrun := run_requireVacant_of_translate hpa
  split at hrun
  · exact Op.Ends.ok hrun rfl
  · exact Op.Ends.error hrun ⟨rfl, rfl⟩

theorem run_requireVacant_eq_direct {h : Hierarchy} {m : Machine η α} (hu : h.Usable m)
    (page : VirtAddr) : (h.requireVacant page).run m = (h.direct.requireVacant page).run m := by
  rw [run_requireVacant, run_requireVacant, translate_eq_direct hu]

/-! ## The leaf -/

section Leaf

variable {h : Hierarchy} {m : Machine η α} {ix : Indices} {table target : Frame}
  {flags : PageFlags} {force : Bool}

section Located

variable (hl : h.locate m.mmu m.memory .l1 ix table = .ok table)

include hl

theorem run_installLeaf_of_occupied (hold : m.memory.read table ix.l1 ≠ .zero)
    (hforce : force = false) :
    (h.installLeaf ix.page ix table target flags force).run m =
      (.error (.error .occupied), m) := by
  rw [run_installLeaf, hl]
  exact if_pos ⟨hold, hforce⟩

theorem run_installLeaf_of_free (htarget : target.isEncodable)
    (hfree : force = false → m.memory.read table ix.l1 = .zero) :
    (h.installLeaf ix.page ix table target flags force).run m =
      (.ok (), (h.replaced ix table (.encode target (.ofPageFlags flags)) m).log
        (.mapped ix.page target.base flags)) := by
  -- The test for an occupied page comes before the leaf is encoded.
  have hgoes : ¬ (m.memory.read table ix.l1 ≠ .zero ∧ force = false) :=
    fun hold => hold.1 (hfree hold.2)
  rw [run_installLeaf, hl]
  simp only [if_neg hgoes, if_pos htarget]

/-- The leaf is replaced, or there is one that is not to be replaced. -/
theorem installLeaf_ends (htarget : target.isEncodable) :
    (h.installLeaf ix.page ix table target flags force).Ends m
      (fun _ m' => (force = false → m.memory.read table ix.l1 = .zero) ∧
        m' = (h.replaced ix table (.encode target (.ofPageFlags flags)) m).log
          (.mapped ix.page target.base flags))
      (fun stop m' => m' = m ∧ stop = .error .occupied ∧ force = false ∧
        m.memory.read table ix.l1 ≠ .zero) := by
  by_cases hfree : force = false → m.memory.read table ix.l1 = .zero
  · exact Op.Ends.ok (run_installLeaf_of_free hl htarget hfree) ⟨hfree, rfl⟩
  · obtain ⟨hforce, hold⟩ := Classical.not_imp.mp hfree
    exact Op.Ends.error (run_installLeaf_of_occupied hl hold hforce) ⟨rfl, rfl, hforce, hold⟩

end Located

theorem run_installLeaf_eq_direct (hu : h.Usable m)
    (ht : m.memory.tableAt? h.root ix.path = some table) :
    (h.installLeaf ix.page ix table target flags force).run m =
      (h.direct.installLeaf ix.page ix table target flags force).run m := by
  rw [run_installLeaf, run_installLeaf, hu.locate_leaf ht, locate_direct]
  rfl

end Leaf

/-! ## The whole operation -/

variable [FrameSource α]

/-- Mapping, once the page and the frame are known. -/
def mapPage (h : Hierarchy) (ix : Indices) (target : Frame) (flags : PageFlags) (force : Bool) :
    Op (Machine η α) MapError Unit := do
  (if force then pure () else h.requireVacant ix.page)
  h.ensureSelfLink
  let table ← h.ensureBelow ix Level.linking h.root
  h.installLeaf ix.page ix table target flags force

theorem map_eq_mapPage (h : Hierarchy) {va : VirtAddr} {pa : PhysAddr} (flags : PageFlags)
    (force : Bool) {ix : Indices} {target : Frame} (hix : mappable? va = some ix)
    (htarget : target? pa = some target) :
    (h.map va pa flags force : Op (Machine η α) MapError Unit) =
      h.mapPage ix target flags force := by
  obtain ⟨hcanonical, rfl, -⟩ := mappable?_eq_some_iff.mp hix
  simp only [map, hix, htarget, mapPage, Address.page_indices hcanonical]
  rfl

theorem run_map_of_unmappable (h : Hierarchy) {va : VirtAddr} (pa : PhysAddr) (flags : PageFlags)
    (force : Bool) (hva : mappable? va = none) (m : Machine η α) :
    (h.map va pa flags force).run m = (.error (.error .invalidVirtual), m) := by
  simp only [map, hva]
  rfl

theorem run_map_of_no_target (h : Hierarchy) {va : VirtAddr} {pa : PhysAddr} (flags : PageFlags)
    (force : Bool) {ix : Indices} (hva : mappable? va = some ix) (hpa : target? pa = none)
    (m : Machine η α) :
    (h.map va pa flags force).run m = (.error (.error .invalidPhysical), m) := by
  simp only [map, hva, hpa]
  rfl

/-- Mapping is refused at once for one of its addresses, or it maps a page to a frame. -/
theorem map_ends_of_mapPage {h : Hierarchy} {m : Machine η α} {va : VirtAddr} {pa : PhysAddr}
    {flags : PageFlags} {force : Bool} {Q : Unit → Machine η α → Prop}
    {E : Stop MapError → Machine η α → Prop}
    (hinvalid : ∀ cause, cause = .invalidVirtual ∨ cause = .invalidPhysical → E (.error cause) m)
    (hpage : ∀ ix target, mappable? va = some ix → target? pa = some target →
      (h.mapPage ix target flags force).Ends m Q E) :
    (h.map va pa flags force).Ends m Q E := by
  cases hva : mappable? va with
  | none => exact .error (run_map_of_unmappable h pa flags force hva m) (hinvalid _ (Or.inl rfl))
  | some ix =>
    -- Of the two addresses the virtual one is looked at first.
    cases hpa : target? pa with
    | none => exact .error (run_map_of_no_target h flags force hva hpa m) (hinvalid _ (Or.inr rfl))
    | some target =>
      rw [map_eq_mapPage h flags force hva hpa]
      exact hpage ix target hva hpa

section Whole

variable {h : Hierarchy} {m : Machine η α} (hu : h.Usable m) (ho : m.Orderly h.root)

omit [FrameSource α] in
include hu in
theorem vacancy_ends (page : VirtAddr) (force : Bool) :
    (if force then pure () else h.requireVacant page : Op (Machine η α) MapError Unit).Ends m
      (fun _ m' => m' = m) (fun stop m' => stop = .error .occupied ∧ m' = m) := by
  cases force with
  | true => exact Op.Ends.pure rfl
  | false => exact requireVacant_ends hu page

include hu ho

theorem mapPage_ends (hroot : h.root.isEncodable) {ix : Indices} (hix : ix.l4 ≠ selfIndex)
    {target : Frame} (htarget : target.isEncodable) (flags : PageFlags) (force : Bool) :
    (h.mapPage ix target flags force).Ends m
      (fun _ m' => (force = false → m.memory.leaf h.root ix = .zero) ∧
        SetsLeaf h ix (.encode target (.ofPageFlags flags)) m m')
      (fun stop m' => GrowsTo h m m' ∧ ∃ cause, stop = .error cause) := by
  unfold mapPage
  -- Nothing has happened when the page is found to be occupied.
  have hvacant := (vacancy_ends hu ix.page force).mono (fun _ _ hend => hend)
    (fun stop m' hend => (⟨hend.2 ▸ .refl, _, hend.1⟩ :
      GrowsTo h m m' ∧ ∃ cause, stop = Stop.error cause))
  apply hvacant.bind
  intro _ m₀ heq
  obtain rfl := heq
  apply (ensureSelfLink_ends hu hroot).bind
  intro _ m₁ hlinked
  obtain ⟨hg₁, -⟩ := hlinked
  -- The tables are made in the hierarchy that links to itself by now.
  have hbelow := (ensureBelow_ends (hu.growsTo hg₁ ho) (hg₁.orderly ho) hix
    (.start m₁.memory h.root ix)).mono (fun _ _ hend => hend)
    (fun stop m' hend => (⟨hg₁.trans hend.1, hend.2⟩ :
      GrowsTo h m₀ m' ∧ ∃ cause, stop = Stop.error cause))
  apply hbelow.bind
  intro table m₂ hreached
  obtain ⟨hg₂, ht⟩ := hreached
  have hg : GrowsTo h m₀ m₂ := hg₁.trans hg₂
  apply (installLeaf_ends ((hu.growsTo hg ho).locate_leaf ht) htarget).mono
  · intro _ m' hend
    obtain ⟨hfree, rfl⟩ := hend
    refine ⟨fun hforce => ?_, .intro m₀ m₂ table _ hg ht⟩
    -- Growth keeps the leaf, so it was absent at the start already.
    rw [← hg.leaf_eq ho hix, Memory.leaf_of_some ht]
    exact hfree hforce
  · intro stop m' hend
    obtain ⟨rfl, hoccupied, -⟩ := hend
    exact ⟨hg, _, hoccupied⟩

/-- Mapping sets the leaf of the page, or it is refused and the hierarchy has only grown. Without
`force` the leaf was absent before. -/
theorem map_ends (hroot : h.root.isEncodable) (va : VirtAddr) (pa : PhysAddr) (flags : PageFlags)
    (force : Bool) :
    (h.map va pa flags force).Ends m
      (fun _ m' => ∃ ix, mappable? va = some ix ∧
        (force = false → m.memory.leaf h.root ix = .zero) ∧
        SetsLeaf h ix (.encode (.containing pa) (.ofPageFlags flags)) m m')
      (fun stop m' => GrowsTo h m m' ∧ ∃ cause, stop = .error cause) := by
  apply map_ends_of_mapPage
  · intro cause _
    exact ⟨.refl, cause, rfl⟩
  · intro ix target hva hpa
    obtain ⟨rfl, htarget⟩ := target?_eq_some_iff.mp hpa
    obtain ⟨-, -, hix⟩ := mappable?_eq_some_iff.mp hva
    rw [Page.containing_base]
    apply (mapPage_ends hu ho hroot hix htarget flags force).mono
    · intro _ m' hend
      exact ⟨ix, hva, hend⟩
    · exact fun _ _ hend => hend

/-- The way to the tables makes no difference to mapping. -/
theorem run_map_eq_direct (hself : m.memory.SelfLinked h.root) (va : VirtAddr) (pa : PhysAddr)
    (flags : PageFlags) (force : Bool) :
    (h.map va pa flags force).run m = (h.direct.map va pa flags force).run m := by
  cases hva : mappable? va with
  | none => rw [run_map_of_unmappable h _ _ _ hva, run_map_of_unmappable h.direct _ _ _ hva]
  | some ix =>
    cases hpa : target? pa with
    | none => rw [run_map_of_no_target h _ _ hva hpa, run_map_of_no_target h.direct _ _ hva hpa]
    | some target =>
      obtain ⟨-, htarget⟩ := target?_eq_some_iff.mp hpa
      obtain ⟨-, -, hix⟩ := mappable?_eq_some_iff.mp hva
      rw [map_eq_mapPage h flags force hva hpa, map_eq_mapPage h.direct flags force hva hpa]
      -- Part by part, each starting on the machine on which the last one has ended.
      refine Op.run_bind_congr ?_ (vacancy_ends hu ix.page force) ?_
      · cases force with
        | true => rfl
        | false => exact run_requireVacant_eq_direct hu ix.page
      intro _ m₀ heq
      obtain rfl := heq
      rw [Op.run_bind_ok (run_ensureSelfLink_of_selfLinked hself),
        Op.run_bind_ok (run_ensureSelfLink_of_selfLinked (h := h.direct) hself)]
      apply Op.run_bind_congr
        (run_ensureBelow_eq_direct hu ho hix (.start m₀.memory h.root ix))
        (ensureBelow_ends hu ho hix (.start m₀.memory h.root ix))
      intro table m₂ hreached
      obtain ⟨hg, ht⟩ := hreached
      -- The last table is found both ways, and everything after that is the same.
      exact run_installLeaf_eq_direct (hu.growsTo hg ho) ht

end Whole

end Hierarchy

end Paging
