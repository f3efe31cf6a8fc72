import Paging.Proofs.PageMap
import Paging.Proofs.TablePaths

/-!
# What mapping reports

Among own links mapping a page has three ends: the page is mapped, it is occupied, or the frames run
out before all of its tables are there. Each end says what has been asked for, which tables there
are, and which leaves. Which end it is follows from the leaf of the page and from the answers of the
frame source to the requests for the tables that are missing, so the outcome of a call can be told
beforehand.
-/

namespace Paging

variable {η α : Type}

/-! ## Parts of mapping among own links -/

namespace Hierarchy

variable [Mmu η] {h : Hierarchy} {m : Machine η α} {ix : Indices} {target : Frame}
  {flags : PageFlags} {force : Bool}

/-- A page outside of the window is where its indices say. -/
theorem isPlain_page (hix : ix.l4 ≠ selfIndex) : ix.page.IsPlain := by
  refine ⟨ix.isCanonical_page, ?_⟩
  rw [Bool.eq_false_iff, ne_eq, Address.contains_window_iff ix.isCanonical_page]
  rwa [Indices.index_page]

/-- A page without a leaf is found to be vacant. -/
theorem vacancy_of_ownLinks (hu : h.Usable m) (hown : m.memory.OwnLinks h.root)
    (hix : ix.l4 ≠ selfIndex) :
    (if force then pure () else h.requireVacant ix.page : Op (Machine η α) MapError Unit).Ends m
      (fun _ m' => m' = m)
      (fun stop m' => m' = m ∧ stop = .error .occupied ∧ force = false ∧
        m.memory.leaf h.root ix ≠ .zero) := by
  cases force with
  | true => exact Op.Ends.pure rfl
  | false =>
    have hleaf := translate_of_ownLinks hu hown (isPlain_page hix)
    rw [Indices.indices_page] at hleaf
    have hrun := run_requireVacant_of_translate hleaf
    split at hrun
    · exact .ok hrun rfl
    · rename_i hmapped
      refine .error hrun ⟨rfl, rfl, rfl, fun hzero => hmapped ?_⟩
      -- Without a leaf there is no address.
      rw [hzero]
      rfl

/-- Among own links there is nothing to refuse in the root's own slot. -/
theorem ensureSelfLink_of_ownLinks (hu : h.Usable m) (hroot : h.root.isEncodable)
    (hap : m.memory.Apart h.root) (hown : m.memory.OwnLinks h.root) :
    h.ensureSelfLink.Ends m
      (fun _ m' => m'.memory.tablePaths h.root = m.memory.tablePaths h.root)
      (fun _ _ => False) := by
  rcases hown.selfLink with hempty | hlink
  · have ha := hu.access_of_not_selfLinked fun hself => hself.read_ne_zero hempty
    apply Op.Ends.ok (run_ensureSelfLink_of_empty ha hroot hempty)
    exact Memory.tablePaths_write_of_isEndSlot hap (Memory.isEndSlot_self m.memory h.root)
  · exact .ok (run_ensureSelfLink_of_selfLinked (Memory.selfLinked_of_eq_selfLink hroot hlink)) rfl

/-- The leaf is set in a table that is there, or it is occupied. -/
theorem installLeaf_of_table (hu : h.Usable m) (hap : m.memory.Apart h.root)
    (hix : ix.l4 ≠ selfIndex) {table : Frame}
    (ht : m.memory.tableAt? h.root ix.path = some table) (htarget : target.isEncodable) :
    (h.installLeaf ix.page ix table target flags force).Ends m
      (fun _ m' => m'.memory.tablePaths h.root = m.memory.tablePaths h.root)
      (fun stop m' => m' = m ∧ stop = .error .occupied ∧ force = false ∧
        m.memory.leaf h.root ix ≠ .zero) := by
  apply (installLeaf_ends (hu.locate_leaf ht) htarget).mono
  · -- A leaf lies at the end of a path, so that no path passes through its slot.
    rintro _ m' ⟨-, rfl⟩
    rw [Machine.memory_log, memory_replaced]
    exact Memory.tablePaths_write_of_isEndSlot hap (Memory.isEndSlot_leaf hix ht)
  · rintro stop m' ⟨rfl, rfl, hforce, hold⟩
    refine ⟨rfl, rfl, hforce, ?_⟩
    rwa [Memory.leaf_of_some ht]

variable [FrameSource α]

/-- Among own links the descent makes tables on the way to its page, and nothing but a source that
declines stops it. -/
theorem ensureBelow_of_ownLinks (hu : h.Usable m) (ho : m.Orderly h.root)
    (hown : m.memory.OwnLinks h.root) (hix : ix.l4 ≠ selfIndex) {levels : List Level}
    {frame : Frame} (hr : m.memory.Reached h.root ix levels frame) :
    (h.ensureBelow ix levels frame).Ends m
      (fun _ m' => m'.memory.tablePaths h.root ⊆ m.memory.tablePaths h.root ∪ ix.way)
      (fun stop m' => m'.memory.tablePaths h.root ⊆ m.memory.tablePaths h.root ∪ ix.way ∧
        stop = .error .outOfFrames) := by
  induction levels generalizing m frame with
  | nil => exact Op.Ends.pure Set.subset_union_left
  | cons level lower ih =>
    obtain ⟨child, hchild⟩ := hr.exists_next
    cases hpresent : (m.memory.read frame (ix.get level)).present with
    | true =>
      -- What is present among own links is a link, which is followed.
      have hlink := hown.isLink_of_present (hr.isLinkSlot hix) hpresent
      have hfollowed := run_ensureNext_of_link hchild (hr.locate hu) hlink
      exact (ih hu ho hown (hr.next hlink)).of_run_eq (Op.run_bind_ok hfollowed _)
    | false =>
      have hrun := run_ensureNext_of_vacant hchild (hr.locate hu) hpresent
      have hmake := (makeNext_ends hu ho hix hr hchild hpresent).of_run_eq hrun
      apply hmake.bind_mono
      · intro next m₁ hend
        obtain ⟨hg, hopen, -, p, hx⟩ := hend
        -- The path of the new table is the one that leads to where the descent stands.
        obtain ⟨above, hlevels, ht⟩ := hr
        have hpath := Indices.isPath_concat hix hlevels
        obtain rfl := ho.apart hx.isPath_parent hpath.of_append_left hx.parent ht
        have hway : above.map ix.get ++ [ix.get level] ∈ ix.way := by
          rw [Indices.mem_way_iff]
          refine ⟨by simp, lower.map ix.get, ?_⟩
          rw [Indices.path, ← hlevels]
          simp
        have hsub : m₁.memory.tablePaths h.root ∪ ix.way ⊆
            m.memory.tablePaths h.root ∪ ix.way := by
          rw [hx.tablePaths ho.apart, Set.insert_union]
          exact Set.insert_subset (Or.inr hway) subset_rfl
        apply (ih (hu.growsTo hg ho) (hg.orderly ho) (hg.ownLinks ho hown) hopen.reached).mono
        · exact fun _ _ hend => hend.trans hsub
        · exact fun _ _ hend => ⟨hend.1.trans hsub, hend.2⟩
      · intro stop m' hend
        obtain ⟨hstop, hmemory, -⟩ := hend
        rw [hmemory]
        exact ⟨Set.subset_union_left, hstop⟩

/-- Among own links a page is refused if it has a leaf that is not to be replaced, or if the frames
run out; whatever comes of it, tables are made on the way to the page only. -/
theorem mapPage_of_ownLinks (hu : h.Usable m) (ho : m.Orderly h.root) (hroot : h.root.isEncodable)
    (hown : m.memory.OwnLinks h.root) (hix : ix.l4 ≠ selfIndex) (htarget : target.isEncodable)
    (flags : PageFlags) (force : Bool) :
    (h.mapPage ix target flags force).Ends m
      (fun _ m' => m'.memory.tablePaths h.root ⊆ m.memory.tablePaths h.root ∪ ix.way)
      (fun stop m' => m'.memory.tablePaths h.root ⊆ m.memory.tablePaths h.root ∪ ix.way ∧
        (stop = .error .outOfFrames ∨
          stop = .error .occupied ∧ force = false ∧ m.memory.leaf h.root ix ≠ .zero)) := by
  unfold mapPage
  apply (vacancy_of_ownLinks hu hown hix).bind_mono
  · intro _ m₀ heq
    obtain rfl := heq
    -- Two lemmas on the same run: one says how memory grows, the other which tables there are.
    have hself := (ensureSelfLink_ends hu hroot).and
      (ensureSelfLink_of_ownLinks hu hroot ho.apart hown)
    apply (hself.mono (fun _ _ hend => hend) fun _ _ hend => hend.2.elim).bind
    intro _ m₁ hend
    obtain ⟨⟨hg₁, -⟩, hpaths⟩ := hend
    have hu₁ := hu.growsTo hg₁ ho
    have ho₁ := hg₁.orderly ho
    have hr := Memory.Reached.start m₁.memory h.root ix
    have hbelow := (ensureBelow_ends hu₁ ho₁ hix hr).and
      (ensureBelow_of_ownLinks hu₁ ho₁ (hg₁.ownLinks ho hown) hix hr)
    rw [hpaths] at hbelow
    apply (hbelow.mono (fun _ _ hend => hend) fun _ _ hend => ⟨hend.2.1, Or.inl hend.2.2⟩).bind
    intro table m₂ hend
    obtain ⟨⟨hg₂, ht⟩, hsub⟩ := hend
    have hg : GrowsTo h m₀ m₂ := hg₁.trans hg₂
    -- New tables are empty, so that the leaf is still the one at the start.
    have hleaf := hg.leaf_eq ho hix
    apply (installLeaf_of_table (hu₁.growsTo hg₂ ho₁) (hg₂.orderly ho₁).apart hix ht htarget).mono
    · intro _ m' hend
      rwa [hend]
    · intro stop m' hend
      obtain ⟨rfl, hend⟩ := hend
      rw [hleaf] at hend
      exact ⟨hsub, Or.inr hend⟩
  · intro stop m' hend
    obtain ⟨rfl, hend⟩ := hend
    exact ⟨Set.subset_union_left, Or.inr hend⟩

end Hierarchy

/-! ## Reports -/

variable [FrameSource α]

/-- What mapping a page with a leaf makes of a machine whose links are all its own, for each
outcome. -/
inductive MapReport (root : Frame) (ix : Indices) (leaf : Entry) (force : Bool)
    (m m' : Machine η α) : Outcome → Prop where
  /-- All tables that were missing were asked for and granted, and the leaf is set. -/
  | done (hfree : force = false → m.memory.leaf root ix = .zero)
      (hasks : m.Asks (m.memory.missing root ix) m')
      (hgranted : none ∉ FrameSource.answers (m.memory.missing root ix) m.frames)
      (hleaf : ∀ jx : Indices, jx.l4 ≠ selfIndex →
        m'.memory.leaf root jx = if jx = ix then leaf else m.memory.leaf root jx)
      (hpaths : m'.memory.tablePaths root = m.memory.tablePaths root ∪ ix.way) :
      MapReport root ix leaf force m m' .done
  /-- There is a leaf that is not to be replaced, and nothing was asked for. -/
  | occupied (hforce : force = false) (hold : m.memory.leaf root ix ≠ .zero)
      (hasks : m.Asks 0 m')
      (hleaf : ∀ jx : Indices, jx.l4 ≠ selfIndex →
        m'.memory.leaf root jx = m.memory.leaf root jx)
      (hpaths : m'.memory.tablePaths root = m.memory.tablePaths root)
      (hway : ↑ix.way ⊆ m.memory.tablePaths root) :
      MapReport root ix leaf force m m' (.refused (.map .occupied))
  /-- A request for one of the missing tables was declined, and some of the others are there. -/
  | outOfFrames {n : Nat} (hfree : force = false → m.memory.leaf root ix = .zero)
      (hn : n ≤ m.memory.missing root ix) (hasks : m.Asks n m')
      (hdeclined : none ∈ FrameSource.answers n m.frames)
      (hleaf : ∀ jx : Indices, jx.l4 ≠ selfIndex →
        m'.memory.leaf root jx = m.memory.leaf root jx)
      (hmore : m.memory.tablePaths root ⊆ m'.memory.tablePaths root)
      (hpaths : m'.memory.tablePaths root ⊆ m.memory.tablePaths root ∪ ix.way) :
      MapReport root ix leaf force m m' (.refused (.map .outOfFrames))

namespace Hierarchy

variable [Mmu η] {h : Hierarchy} {m : Machine η α} {ix : Indices} {target : Frame} {va : VirtAddr}
  {pa : PhysAddr}

/-- A page with a leaf misses no table. -/
theorem missing_eq_zero_of_leaf {mem : Memory} {root : Frame} (hleaf : mem.leaf root ix ≠ .zero) :
    mem.missing root ix = 0 := by
  obtain ⟨t, ht⟩ := Memory.exists_table_of_leaf hleaf
  have hopen : mem.OpenAt root ix [] t :=
    ⟨.intro Level.linking (List.append_nil _) ht, by simp⟩
  exact hopen.missing_eq

section Effects

variable {m' : Machine η α} {flags : PageFlags} {force : Bool} (ho : m.Orderly h.root)
  (hix : ix.l4 ≠ selfIndex) (hva : mappable? va = some ix)

omit [Mmu η]

include ho hix hva

/-- A leaf that was set, what was written for it, and where tables may have been made come to a
report. -/
theorem reports_of_done {leaf : Entry} (hset : SetsLeaf h ix leaf m m')
    (hfree : force = false → m.memory.leaf h.root ix = .zero)
    (heffect : MapEffect h.root va pa flags m .done m')
    (hsub : m'.memory.tablePaths h.root ⊆ m.memory.tablePaths h.root ∪ ix.way) :
    MapReport h.root ix leaf force m m' .done := by
  obtain ⟨n, hasks⟩ := hset.asks
  cases heffect with
  | done hva' _ _ hcount _ _ hrequests _ =>
    obtain rfl := Option.some.inj (hva'.symm.trans hva)
    obtain ⟨hanswers, hn⟩ := hasks.answers_eq hrequests
    rw [List.length_map, hcount] at hn
    -- There are as many answers as tables were missing, and each of them is a frame.
    subst hn
    refine .done hfree hasks ?_ (fun _ hjx => hset.leaf_eq hix ho hjx)
      (hsub.antisymm (hset.subset_tablePaths hix ho))
    rw [hanswers]
    simp

/-- So does growth that a refusal has left behind. -/
theorem reports_of_refused {leaf : Entry} {stop : Stop MapError} (hg : GrowsTo h m m')
    (heffect : MapEffect h.root va pa flags m (.refused (stop.refusal .map)) m')
    (hsub : m'.memory.tablePaths h.root ⊆ m.memory.tablePaths h.root ∪ ix.way)
    (hstop : stop = .error .outOfFrames ∨
      stop = .error .occupied ∧ force = false ∧ m.memory.leaf h.root ix ≠ .zero) :
    MapReport h.root ix leaf force m m' (.refused (stop.refusal .map)) := by
  obtain ⟨n, hasks⟩ := hg.asks
  have hleaf : ∀ jx : Indices, jx.l4 ≠ selfIndex →
      m'.memory.leaf h.root jx = m.memory.leaf h.root jx := fun _ hjx => hg.leaf_eq ho hjx
  have hmore := hg.tablePaths_subset ho
  rcases hstop with rfl | ⟨rfl, hforce, hold⟩
  · cases heffect with
    | outOfFrames hva' _ hcount _ _ hrequests _ =>
      obtain rfl := Option.some.inj (hva'.symm.trans hva)
      rw [List.append_assoc] at hrequests
      obtain ⟨hanswers, hn⟩ := hasks.answers_eq hrequests
      simp only [List.length_append, List.length_map, List.length_singleton] at hn
      refine .outOfFrames (fun _ => ?_) (by omega) hasks (by simp [hanswers]) hleaf hmore hsub
      -- A page with a leaf would have missed nothing.
      apply Decidable.byContradiction
      intro hold
      rw [missing_eq_zero_of_leaf hold] at hcount
      omega
    | refused hcause _ _ => simp at hcause
    | invalid hcause => simp at hcause
  · cases heffect with
    | refused _ hrequests _ =>
      -- A refusal before the descent asks for nothing.
      rw [← List.append_nil m.requests] at hrequests
      obtain rfl := (hasks.answers_eq hrequests).2
      obtain ⟨t, ht⟩ := Memory.exists_table_of_leaf hold
      have hway := Memory.way_subset_tablePaths hix ht
      -- A leaf has all the tables above it, so that there is nothing to add.
      rw [Set.union_eq_left.mpr hway] at hsub
      exact .occupied hforce hold hasks hleaf (hsub.antisymm hmore) hway
    | invalid hcause => simp at hcause

end Effects

/-- Among own links mapping reports what it has done. -/
theorem map_reports (hu : h.Usable m) (ho : m.Orderly h.root) (hroot : h.root.isEncodable)
    (hown : m.memory.OwnLinks h.root) (hva : mappable? va = some ix)
    (hpa : target? pa = some target) (flags : PageFlags) (force : Bool) :
    (h.map va pa flags force).Ends m
      (fun _ m' => MapReport h.root ix (.encode (.containing pa) (.ofPageFlags flags)) force m m'
        .done)
      (fun stop m' => MapReport h.root ix (.encode (.containing pa) (.ofPageFlags flags)) force m
        m' (.refused (stop.refusal .map))) := by
  obtain ⟨-, -, hix⟩ := mappable?_eq_some_iff.mp hva
  -- The same run is known in three ways: what it comes to, what it writes, and where.
  have hpage := mapPage_of_ownLinks hu ho hroot hown hix (target?_eq_some_iff.mp hpa).2 flags force
  rw [← map_eq_mapPage h flags force hva hpa] at hpage
  apply (((map_ends hu ho hroot va pa flags force).and
    (map_footprint hu ho hroot va pa flags force)).and hpage).mono
  · intro _ m' hend
    obtain ⟨⟨⟨jx, hjx, hfree, hset⟩, heffect⟩, hsub⟩ := hend
    obtain rfl : jx = ix := Option.some.inj (hjx.symm.trans hva)
    exact reports_of_done ho hix hva hset hfree heffect hsub
  · intro stop m' hend
    obtain ⟨⟨⟨hg, -⟩, heffect⟩, hsub, hstop⟩ := hend
    exact reports_of_refused ho hix hva hg heffect hsub hstop

end Hierarchy

/-! ## What becomes of a call -/

/-- Whether an address is the base of a frame that an entry has room for. -/
def Address.IsFrameBase (pa : PhysAddr) : Prop :=
  pa.isAligned .size4K = true ∧ pa.word < physicalLimit

instance (pa : PhysAddr) : Decidable pa.IsFrameBase := inferInstanceAs (Decidable (_ ∧ _))

instance (va : VirtAddr) : Decidable va.IsPlain := inferInstanceAs (Decidable (_ ∧ _))

/-- Mapping accepts the bases of encodable frames. -/
theorem target?_eq_some_containing {pa : PhysAddr} :
    Hierarchy.target? pa = some (.containing pa) ↔ pa.IsFrameBase := by
  rw [target?_eq_some_iff]
  constructor
  · intro h
    obtain ⟨hbase, hencodable⟩ := h
    refine ⟨hbase ▸ (Page.containing pa : Frame).isAligned_base, ?_⟩
    rw [Page.isEncodable, hbase] at hencodable
    exact of_decide_eq_true hencodable
  · intro h
    obtain ⟨haligned, hlimit⟩ := h
    have hbase : (⟨pa, haligned⟩ : Frame) = .containing pa := (Page.containing_base ⟨pa, _⟩).symm
    rw [← hbase]
    exact ⟨rfl, decide_eq_true hlimit⟩

theorem target?_eq_none_iff {pa : PhysAddr} :
    Hierarchy.target? pa = none ↔ ¬ pa.IsFrameBase := by
  rw [← target?_eq_some_containing]
  constructor
  · intro h
    simp [h]
  · intro h
    cases hpa : Hierarchy.target? pa with
    | none => rfl
    | some target =>
      obtain ⟨rfl, -⟩ := target?_eq_some_iff.mp hpa
      rw [Page.containing_base] at h
      exact absurd hpa h

namespace AddressSpace

/-- The outcome of mapping the page of `va` to the frame at `pa`: the addresses are checked first,
then the leaf of the page, and last the frame source is asked for the tables that are missing. -/
def mapVerdict (s : AddressSpace η α) (va : VirtAddr) (pa : PhysAddr) (force : Bool) : Outcome :=
  if ¬ va.IsPlain then .refused (.map .invalidVirtual)
  else if ¬ pa.IsFrameBase then .refused (.map .invalidPhysical)
  else if force = false ∧ s.machine.memory.leaf s.root va.indices ≠ .zero then
    .refused (.map .occupied)
  else if none ∈ FrameSource.answers (s.machine.memory.missing s.root va.indices)
    s.machine.frames then .refused (.map .outOfFrames)
  else .done

variable [Mmu η] {s : AddressSpace η α}

/-- The outcome of a call is what it has returned. -/
theorem perform_eq_of_run_map {va : VirtAddr} {pa : PhysAddr} {flags : PageFlags} {force : Bool}
    {r : Except (Stop MapError) Unit} {s' : AddressSpace η α}
    (hrun : (map va pa flags force).run s = (r, s')) :
    s.perform (.map va pa flags force) = (.ofResult .map (fun _ => .done) r, s') := by
  rw [perform, conclude, hrun]

/-- An address that cannot be mapped is refused, and nothing is done. -/
theorem perform_map_of_not_isPlain (s : AddressSpace η α) {va : VirtAddr} (hva : ¬ va.IsPlain)
    (pa : PhysAddr) (flags : PageFlags) (force : Bool) :
    s.perform (.map va pa flags force) = (.refused (.map .invalidVirtual), s) :=
  perform_map_of_run (Hierarchy.run_map_of_unmappable s.hierarchy pa flags force
    (mappable?_eq_none_iff.mpr hva) s.machine)

theorem perform_map_of_not_isFrameBase (s : AddressSpace η α) {va : VirtAddr} (hva : va.IsPlain)
    {pa : PhysAddr} (hpa : ¬ pa.IsFrameBase) (flags : PageFlags) (force : Bool) :
    s.perform (.map va pa flags force) = (.refused (.map .invalidPhysical), s) :=
  perform_map_of_run (Hierarchy.run_map_of_no_target s.hierarchy flags force
    (mappable?_eq_some_indices.mpr hva) (target?_eq_none_iff.mpr hpa) s.machine)

/-- A call that is not refused for one of its addresses has addresses that can be mapped. -/
theorem isPlain_and_isFrameBase_of_run_map {va : VirtAddr} {pa : PhysAddr} {flags : PageFlags}
    {force : Bool} {r : Except (Stop MapError) Unit} {s' : AddressSpace η α}
    (hrun : (map va pa flags force).run s = (r, s'))
    (hvirtual : r ≠ .error (.error .invalidVirtual))
    (hphysical : r ≠ .error (.error .invalidPhysical)) : va.IsPlain ∧ pa.IsFrameBase := by
  have hva : va.IsPlain := by
    apply Classical.byContradiction
    intro hva
    have hrefused := run_onMachine_of_eq (s := s) (x := fun h => h.map va pa flags force)
      (Hierarchy.run_map_of_unmappable s.hierarchy pa flags force (mappable?_eq_none_iff.mpr hva)
        s.machine)
    exact hvirtual (congrArg Prod.fst (hrun.symm.trans hrefused))
  have hpa : pa.IsFrameBase := by
    apply Classical.byContradiction
    intro hpa
    have hrefused := run_onMachine_of_eq (s := s) (x := fun h => h.map va pa flags force)
      (Hierarchy.run_map_of_no_target s.hierarchy flags force (mappable?_eq_some_indices.mpr hva)
        (target?_eq_none_iff.mpr hpa) s.machine)
    exact hphysical (congrArg Prod.fst (hrun.symm.trans hrefused))
  exact ⟨hva, hpa⟩

namespace Sound

variable [WalkingMmu η] (hs : s.Sound)

include hs

/-- A call with addresses that can be mapped reports what it has done. -/
theorem perform_map_reports {va : VirtAddr} {pa : PhysAddr} (hva : va.IsPlain)
    (hpa : pa.IsFrameBase) (flags : PageFlags) (force : Bool) :
    ∃ m, (s.perform (.map va pa flags force)).2 = s.onto m ∧
      MapReport s.root va.indices (.encode (.containing pa) (.ofPageFlags flags)) force s.machine m
        (s.perform (.map va pa flags force)).1 := by
  have hends := Hierarchy.map_reports hs.usable hs.orderly hs.isEncodable hs.ownLinks
    (mappable?_eq_some_indices.mpr hva) (target?_eq_some_containing.mpr hpa) flags force
  cases hends with
  | @ok _ m hrun hreport =>
    rw [perform_map_of_run hrun]
    exact ⟨m, rfl, hreport⟩
  | @error stop m hrun hreport =>
    rw [perform_map_of_run hrun]
    exact ⟨m, rfl, hreport⟩

/-- The outcome of mapping is the verdict. -/
theorem perform_map_eq_verdict (va : VirtAddr) (pa : PhysAddr) (flags : PageFlags)
    (force : Bool) : (s.perform (.map va pa flags force)).1 = s.mapVerdict va pa force := by
  unfold mapVerdict
  by_cases hva : va.IsPlain
  swap
  · rw [if_pos hva, s.perform_map_of_not_isPlain hva]
  rw [if_neg (not_not_intro hva)]
  by_cases hpa : pa.IsFrameBase
  swap
  · rw [if_pos hpa, s.perform_map_of_not_isFrameBase hva hpa]
  rw [if_neg (not_not_intro hpa)]
  obtain ⟨m, -, hreport⟩ := hs.perform_map_reports hva hpa flags force
  -- With the addresses settled the report decides between the three verdicts that are left.
  generalize (s.perform (.map va pa flags force)).1 = outcome at hreport ⊢
  cases hreport with
  | done hfree hasks hgranted hleaf hpaths =>
    rw [if_neg fun hold => hold.2 (hfree hold.1), if_neg hgranted]
  | occupied hforce hold hasks hleaf hpaths hway => rw [if_pos ⟨hforce, hold⟩]
  | outOfFrames hfree hn hasks hdeclined hleaf hmore hpaths =>
    -- The request that was declined is one of those for the missing tables.
    have hmem := (FrameSource.answers_isPrefix hn s.machine.frames).subset hdeclined
    rw [if_neg fun hold => hold.2 (hfree hold.1), if_pos hmem]

/-- Nothing that mapping and unmapping meet is foreign. -/
theorem perform_ne_foreignEntry (a : Action) : (s.perform a).1 ≠ .refused (.map .foreignEntry) := by
  have hmap : ∀ va pa flags force,
      (s.perform (.map va pa flags force)).1 ≠ .refused (.map .foreignEntry) := by
    intro va pa flags force
    rw [hs.perform_map_eq_verdict, mapVerdict]
    split_ifs <;> simp
  cases a with
  | map va pa flags force => exact hmap va pa flags force
  | identityMap pa flags force => exact hmap ⟨pa.word⟩ pa flags force
  | unmap va =>
    rcases perform_unmap hs.usable va with hdone | hrefused
    · obtain ⟨ix, m, hrun, -⟩ := hdone
      simp [hrun]
    · obtain ⟨cause, m, hrun, -, hinvalid, hmissing⟩ := hrefused
      rw [hrun]
      by_cases hva : va.IsPlain
      · simp [(hmissing _ (mappable?_eq_some_indices.mpr hva)).2 hs.ownLinks]
      · simp [hinvalid (mappable?_eq_none_iff.mpr hva)]
  | translate va =>
    obtain ⟨pa, -, hrun⟩ := perform_translate hs.usable va
    simp [hrun]
  | activate =>
    obtain ⟨m, -, ⟨cause, hrun⟩ | ⟨-, hrun⟩⟩ := perform_activate hs.usable hs.isEncodable
    · simp [hrun]
    · rw [hrun]
      unfold load
      split
      · simp
      · rename_i stop _ _
        cases stop <;> simp [Stop.refusal]
  | setAccess access => simp [AddressSpace.perform]

/-- Among own links the root is always found, so that activation comes to what the hardware makes of
it, and no table is made. -/
theorem perform_activate_eq_load :
    ∃ m, m.mmu = s.machine.mmu ∧
      m.memory.tablePaths s.root = s.machine.memory.tablePaths s.root ∧
      s.perform .activate = (s.onto m).load := by
  have hlink := (Hierarchy.ensureSelfLink_ends hs.usable hs.isEncodable).and
    (Hierarchy.ensureSelfLink_of_ownLinks hs.usable hs.isEncodable hs.orderly.apart hs.ownLinks)
  cases hlink with
  | error _ hend => exact hend.2.elim
  | @ok _ m hrun hend =>
    obtain ⟨⟨hg, hself⟩, hpaths⟩ := hend
    -- It remains to see that the root is found on the machine on which the link has been ensured.
    refine ⟨m, hg.mmu_eq, hpaths, perform_activate_of_found ?_⟩
    cases ha : s.access with
    | identity =>
      -- Direct access looks for the root by ensuring the link.
      have hfound := Hierarchy.run_resolveRoot s.hierarchy s.machine
      rw [show s.hierarchy.access = .identity from ha, hrun] at hfound
      exact hfound
    | window =>
      -- Through the window nothing is written, since the link is there.
      have hlinked := hs.usable.selfLinked ha
      rw [Hierarchy.run_ensureSelfLink_of_selfLinked hlinked] at hrun
      cases hrun
      exact Hierarchy.run_resolveRoot_of_selfLinked hs.usable hlinked

/-- Activation is refused by the hardware only. -/
theorem loadRoot_of_perform_activate {cause : ActivateError}
    (hrefused : (s.perform .activate).1 = .refused (.activate cause)) :
    Mmu.loadRoot s.machine.mmu s.root = .error (.error cause) := by
  obtain ⟨m, hmmu, -, hrun⟩ := hs.perform_activate_eq_load
  rw [hrun, load, machine_onto, root_onto, Machine.loadRoot, hmmu] at hrefused
  cases hload : Mmu.loadRoot s.machine.mmu s.root with
  | ok mmu => simp [hload] at hrefused
  | error stop =>
    cases stop <;> simp_all [Stop.refusal]

end Sound

/-- After any sensible run from an empty root the outcome of mapping is the verdict, whatever the
arguments; no call meets an entry that is foreign; and if the only thing for which the hardware
refuses a root is the root itself, that is all that activation can be refused for. -/
theorem verdict_of_performAll [WalkingMmu η] {root : Frame} {mem : Memory} {frames : α} (mmu : η)
    (hhardware : ∀ (hw : η) (f : Frame) (cause : ActivateError),
      Mmu.loadRoot hw f = .error (.error cause) → ∃ a, cause = .invalidRoot a)
    (hroot : root.isEncodable) (hzero : mem.table root = .zero)
    (hfresh : FrameSource.Fresh (· ≠ root) frames) {actions : List Action}
    (hactions : (create root .identity mmu frames mem).PermitsAll actions) :
    let s := ((create root .identity mmu frames mem).performAll actions).2
    (∀ va pa flags force,
      (s.perform (.map va pa flags force)).1 = s.mapVerdict va pa force) ∧
    (∀ a, (s.perform a).1 ≠ .refused (.map .foreignEntry)) ∧
    ∀ cause, (s.perform .activate).1 = .refused (.activate cause) →
      ∃ a, cause = .invalidRoot a := by
  intro s
  have hs : s.Sound := (sound_create mmu hroot hzero hfresh).performAll hactions
  refine ⟨hs.perform_map_eq_verdict, hs.perform_ne_foreignEntry, fun cause hrefused => ?_⟩
  exact hhardware _ _ _ (hs.loadRoot_of_perform_activate hrefused)

/-- Two pages have been mapped through the window, one of them at the second attempt, and no frame
is left for the tables of a third. -/
theorem verdict_of_performAll_specimen :
    let map (va : VirtAddr) (pa : PhysAddr) (force : Bool) : Action := .map va pa .kernelData force
    let first := map ⟨0x400123⟩ ⟨0x9000⟩
    let actions : List Action :=
      [first false, first false, .activate, .setAccess .window, map ⟨0x10000000000⟩ ⟨0⟩ false]
    let s := (Specimen.start.performAll actions).2
    (s.perform (map ⟨0x8000000000⟩ ⟨0x9000⟩ true)).1 = .refused (.map .invalidVirtual) ∧
    (s.perform (map ⟨0x400123⟩ ⟨0x9001⟩ true)).1 = .refused (.map .invalidPhysical) ∧
    (s.perform (first false)).1 = .refused (.map .occupied) ∧
    (s.perform (map ⟨0x20000000000⟩ ⟨0x9000⟩ true)).1 = .refused (.map .outOfFrames) ∧
    (s.perform (first true)).1 = .done ∧
    (∀ a, (s.perform a).1 ≠ .refused (.map .foreignEntry)) ∧
    ∀ cause, (s.perform .activate).1 = .refused (.activate cause) →
      ∃ a, cause = .invalidRoot a := by
  intro map first actions s
  have hvirtual : s.mapVerdict ⟨0x8000000000⟩ ⟨0x9000⟩ true = .refused (.map .invalidVirtual) := by
    decide +kernel
  have hphysical : s.mapVerdict ⟨0x400123⟩ ⟨0x9001⟩ true = .refused (.map .invalidPhysical) := by
    decide +kernel
  have hoccupied : s.mapVerdict ⟨0x400123⟩ ⟨0x9000⟩ false = .refused (.map .occupied) := by
    decide +kernel
  have hdry : s.mapVerdict ⟨0x20000000000⟩ ⟨0x9000⟩ true = .refused (.map .outOfFrames) := by
    decide +kernel
  have hdone : s.mapVerdict ⟨0x400123⟩ ⟨0x9000⟩ true = .done := by decide +kernel
  have hhardware : ∀ (hw : Hardware.Simulated) (f : Frame) (cause : ActivateError),
      Mmu.loadRoot hw f = .error (.error cause) → ∃ a, cause = .invalidRoot a := by
    intro hw f cause hrefused
    simp only [Mmu.loadRoot] at hrefused
    split at hrefused
    · cases hrefused
      exact ⟨_, rfl⟩
    · cases hrefused
  have hstart : Specimen.start.Sound := sound_create Specimen.hardware Specimen.isEncodable_root
    Specimen.table_root Specimen.fresh_source
  have hfirst := hstart.perform (a := first false) trivial
  have hinstalled := (hfirst.perform (a := first false) trivial).installed_perform
    (hfirst.installed_perform (hstart.installed_perform (fun _ => rfl) _) _) .activate
  have hactions : Specimen.start.PermitsAll actions :=
    ⟨trivial, trivial, trivial, ⟨by decide +kernel, hinstalled⟩, trivial, trivial⟩
  -- Which actions they are does not matter any more.
  clear_value actions
  obtain ⟨hverdict, hforeign, hactivate⟩ := verdict_of_performAll Specimen.hardware hhardware
    Specimen.isEncodable_root Specimen.table_root Specimen.fresh_source hactions
  refine ⟨?_, ?_, ?_, ?_, ?_, hforeign, hactivate⟩
  · exact (hverdict _ _ _ _).trans hvirtual
  · exact (hverdict _ _ _ _).trans hphysical
  · exact (hverdict _ _ _ _).trans hoccupied
  · exact (hverdict _ _ _ _).trans hdry
  · exact (hverdict _ _ _ _).trans hdone

end AddressSpace

end Paging
