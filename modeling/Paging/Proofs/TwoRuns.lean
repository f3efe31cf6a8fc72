import Paging.Proofs.Answers
import Paging.Proofs.Liveness
import Paging.Proofs.SameTables

/-!
# Two machines that hold the same tables

Two machines are twins if they hold the same tables of a hierarchy, their hardware is the same and
their frame sources give the same answers. Each step of an operation leaves twins behind: entries
are read from tables and written into tables only, and when a new table is linked nothing is read
from it before it has been cleared. So whatever an operation does, it does the same on twins, and
what the other frames hold, the new tables' included, does not matter.
-/

namespace Paging

/-! ## Twins -/

namespace Machine

variable {η α β : Type} [Mmu η] {root : Frame} {access : Access}

/-- The tables can be reached: frames are used directly, or the root is loaded into hardware that
walks it, and links to itself. -/
inductive Reaches (root : Frame) (access : Access) (m : Machine η α) : Prop where
  | identity (ha : access = .identity) : Reaches root access m
  | window [WalkingMmu η] (hloaded : WalkingMmu.loaded? m.mmu = some root)
      (hinstalled : ∀ f, WalkingMmu.installed m.mmu f = true)
      (hself : m.memory.SelfLinked root) : Reaches root access m

theorem Reaches.usable {h : Hierarchy} {m : Machine η α} (hr : m.Reaches h.root h.access) :
    h.Usable m := by
  cases hr with
  | identity ha => exact Hierarchy.usable_of_identity ha m
  | window hloaded hinstalled hself =>
    exact ⟨Hierarchy.finds_of_window hloaded hinstalled, fun _ => hself⟩

/-- The tables can be reached as long as the root links to itself. -/
theorem Reaches.of_mmu_eq {m : Machine η α} {m' : Machine η β} (hr : m.Reaches root access)
    (hmmu : m'.mmu = m.mmu) (hself : m.memory.SelfLinked root → m'.memory.SelfLinked root) :
    m'.Reaches root access := by
  cases hr with
  | identity ha => exact .identity ha
  | window hloaded hinstalled hlinked =>
    rw [← hmmu] at hloaded hinstalled
    exact .window hloaded hinstalled (hself hlinked)

/-- Two machines with the same tables and the same hardware, whose sources give the same answers,
and of which the same has been told so far. -/
structure Twins [FrameSource α] [FrameSource β] (root : Frame) (access : Access)
    (a : Machine η α) (b : Machine η β) : Prop where
  mmu : b.mmu = a.mmu
  reaches : a.Reaches root access
  walks : a.memory.WalksToTables root
  sameTables : a.memory.SameTables b.memory root
  alike : FrameSource.Alike a.frames b.frames
  clear_left : FrameSource.Clear (fun f => ¬ a.memory.IsTable root f) a.frames
  clear_right : FrameSource.Clear (fun f => ¬ a.memory.IsTable root f) b.frames
  requests : b.requests = a.requests
  invalidations : b.invalidations = a.invalidations

omit [Mmu η] in
@[simp] theorem invalidations_clear (m : Machine η α) (f : Frame) :
    (m.clear f).invalidations = m.invalidations := by
  simp [invalidations]

omit [Mmu η] in
theorem invalidations_foldl_log (m : Machine η α) (rs : List Record) :
    (rs.foldl log m).invalidations = m.invalidations := by
  induction rs generalizing m with
  | nil => rfl
  | cons r rs ih => rw [List.foldl_cons, ih, invalidations_log]

omit [Mmu η] in
@[simp] theorem invalidations_request [FrameSource α] (m : Machine η α) :
    m.request.2.invalidations = m.invalidations := by
  simp only [request, invalidations_foldl_log]
  cases (FrameSource.request m.frames).1.residue with
  | none => simp [settle, invalidations]
  | some residue => simp [settle, invalidations]

namespace Twins

variable [FrameSource α] [FrameSource β] {a : Machine η α} {b : Machine η β} {p : List Index}
  {table next : Frame} {i : Index} {e : Entry} (ht : a.Twins root access b)

include ht

theorem reaches_right : b.Reaches root access :=
  ht.reaches.of_mmu_eq ht.mmu ht.sameTables.selfLinked

/-- Both are told something that is neither a request nor an invalidation, or the same of these. -/
theorem note {e e' : Event} (hrequests : (b.note e').requests = (a.note e).requests)
    (hinvalidations : (b.note e').invalidations = (a.note e).invalidations) :
    (a.note e).Twins root access (b.note e') :=
  { ht with
    reaches := ht.reaches.of_mmu_eq rfl id
    requests := hrequests
    invalidations := hinvalidations }

theorem log (r r' : Record) : (a.log r).Twins root access (b.log r') := by
  apply ht.note
  · simpa [Machine.requests] using ht.requests
  · simpa [Machine.invalidations] using ht.invalidations

theorem dropped (h : Hierarchy) (va : VirtAddr) :
    (h.dropped va a).Twins root access (h.dropped va b) := by
  unfold Hierarchy.dropped
  split
  · apply ht.note
    · simpa [Machine.requests] using ht.requests
    · simpa [Machine.invalidations] using ht.invalidations
  · exact ht

/-- The same entry is written into a slot at which every path ends. -/
theorem write (hroot : root.isEncodable) (hend : a.memory.IsEndSlot root p table i)
    (he : p = [] → e = .selfLink root) :
    (a.write table i e).Twins root access (b.write table i e) := by
  -- The write makes no table, so the sources still leave all tables alone.
  have hfree : ∀ f, ¬ a.memory.IsTable root f → ¬ (a.memory.write table i e).IsTable root f := by
    intro f hf
    rwa [Memory.isTable_write_iff ht.walks.apart hend]
  exact
    { mmu := ht.mmu
      reaches := ht.reaches.of_mmu_eq rfl (ht.walks.selfLinked_write hroot hend he)
      walks := ht.walks.write hroot hend he
      sameTables := ht.sameTables.write ht.walks.apart hend e
      alike := ht.alike
      clear_left := ht.clear_left.mono hfree
      clear_right := ht.clear_right.mono hfree
      requests := by simp [ht.requests]
      invalidations := by simp [ht.invalidations] }

/-- Both sources give the same answer, and neither touches a table. -/
theorem request : a.request.2.Twins root access b.request.2 ∧ b.request.1 = a.request.1 := by
  -- What the sources do to memory they do to frames that are no tables.
  have hanswer : b.request.1 = a.request.1 := ht.alike 0
  have hleft := sameTables_request ht.clear_left
  have hright : b.memory.SameTables b.request.2.memory root := by
    apply sameTables_request
    simpa only [ht.sameTables.isTable_iff] using ht.clear_right
  refine ⟨?_, hanswer⟩
  exact
    { mmu := by rw [mmu_request, mmu_request, ht.mmu]
      reaches := ht.reaches.of_mmu_eq (mmu_request a) hleft.selfLinked
      walks := ht.walks.of_sameTables hleft
      sameTables := (hleft.symm.trans ht.sameTables).trans hright
      alike := by
        rw [frames_request, frames_request]
        exact ht.alike.next
      clear_left := by
        rw [frames_request]
        exact ht.clear_left.next.mono fun f hf => by rw [hleft.isTable_iff]; exact hf.1
      clear_right := by
        rw [frames_request]
        exact ht.clear_right.next.mono fun f hf => by rw [hleft.isTable_iff]; exact hf.1
      requests := by rw [requests_request, requests_request, ht.requests, hanswer]
      invalidations := by rw [invalidations_request, invalidations_request, ht.invalidations] }

section Link

variable (hp : IsPath (p ++ [i])) (hta : a.memory.tableAt? root p = some table)
  (hvacant : (a.memory.read table i).present = false) (hnext : a.request.1 = some next)
  (henc : next.isEncodable)

include hp hta hvacant hnext henc

/-- The frame that was handed out is linked as a new table in both. -/
theorem links :
    a.request.2.memory.Links (a.request.2.memory.write table i (.link next)) root p i table next ∧
      b.request.2.memory.Links (b.request.2.memory.write table i (.link next)) root p i table
        next := by
  have hsame := sameTables_request ht.clear_left
  have hsame' := hsame.trans ht.request.1.sameTables
  have htable : a.memory.IsTable root table := ⟨p, hp.of_append_left, hta⟩
  -- The answers are the same, so the frame is new to both hierarchies.
  have hfree : ¬ a.memory.IsTable root next := ht.clear_left.isFree (n := 0) hnext
  constructor
  · apply Memory.links_write hp _ _ _ henc
    · rw [hsame.tableAt?_eq hp.of_append_left, hta]
    · rwa [hsame.read_eq htable]
    · rwa [hsame.isTable_iff]
  · apply Memory.links_write hp _ _ _ henc
    · rw [hsame'.tableAt?_eq hp.of_append_left, hta]
    · rwa [hsame'.read_eq htable]
    · rwa [hsame'.isTable_iff]

/-- Once it is cleared the new table is the same in both. -/
theorem link (h : Hierarchy) (va : VirtAddr) :
    ((h.dropped va (a.request.2.write table i (.link next))).clear next).Twins root access
      ((h.dropped va (b.request.2.write table i (.link next))).clear next) := by
  obtain ⟨hr, hanswer⟩ := ht.request
  obtain ⟨hlinks, hlinks'⟩ := ht.links hp hta hvacant hnext henc
  -- Cleared, the frame is an empty table in both, whatever it held.
  have hx := hlinks.clear
  -- No frame is free any more that was just handed out.
  have hfree : ∀ {f}, ¬ a.memory.IsTable root f ∧ a.request.1 ≠ some f →
      ¬ ((a.request.2.memory.write table i (.link next)).clear next).IsTable root f := by
    intro f hf
    rw [hx.isTable_iff hr.walks.apart, (sameTables_request ht.clear_left).isTable_iff, not_or]
    exact ⟨fun heq => hf.2 (heq ▸ hnext), hf.1⟩
  exact
    { mmu := by simpa using ht.mmu
      reaches := by
        apply hr.reaches.of_mmu_eq (by simp)
        intro hself
        simp only [memory_clear, Hierarchy.memory_dropped, memory_write]
        rwa [Memory.SelfLinked, hx.read_self hr.walks.apart]
      walks := by simpa using hr.walks.extend hx
      sameTables := by simpa using hr.sameTables.extend hr.walks.apart hx hlinks'.clear
      alike := by simpa using ht.alike.next
      clear_left := by
        have hnow := ht.clear_left.next.mono fun f hf => hfree hf
        simpa using hnow
      clear_right := by
        have hnow := ht.clear_right.next.mono fun f hf => hfree ⟨hf.1, hanswer ▸ hf.2⟩
        simpa using hnow
      requests := by simp [ht.requests, hanswer]
      invalidations := by simp [ht.invalidations] }

end Link

/-- The leaf of a page is replaced. -/
theorem replaced (hroot : root.isEncodable) (h : Hierarchy) {ix : Indices}
    (hix : ix.l4 ≠ selfIndex) (hta : a.memory.tableAt? root ix.path = some table) (leaf : Entry) :
    (h.replaced ix table leaf a).Twins root access (h.replaced ix table leaf b) := by
  have hwrite := ht.write (e := leaf) hroot (Memory.isEndSlot_leaf hix hta)
    (by simp [Indices.path_eq])
  -- Both decide by the old leaf whether to invalidate, and it is the same.
  unfold Hierarchy.replaced
  rw [ht.sameTables.read_eq ⟨_, Indices.isPath_path hix, hta⟩]
  split
  · exact hwrite
  · exact hwrite.dropped h ix.page

end Twins

end Machine

/-! ## Operations on twins -/

namespace Hierarchy

variable {η α β ε γ : Type} [Mmu η] [FrameSource α] [FrameSource β]

/-- On `a` and `b` the two operations end alike and leave twins. -/
abbrev Mirrors (h : Hierarchy) (x : Op (Machine η α) ε γ) (y : Op (Machine η β) ε γ)
    (a : Machine η α) (b : Machine η β) (Q : γ → Machine η α → Prop) : Prop :=
  Op.Coincides (Machine.Twins h.root h.access) x y a b Q

variable {h : Hierarchy} {a : Machine η α} {b : Machine η β} {ix : Indices}
  {levels lower : List Level} {level child : Level} {frame table : Frame}
  (ht : a.Twins h.root h.access b)

include ht

theorem translate_eq (va : VirtAddr) :
    h.translate b.mmu b.memory va = h.translate a.mmu a.memory va := by
  rw [translate_eq_direct ht.reaches.usable, translate_eq_direct ht.reaches_right.usable, ht.mmu]
  cases hva : va.isCanonical with
  | false => rw [translate_of_not_isCanonical hva, translate_of_not_isCanonical hva]
  | true =>
    rw [translate_of_isCanonical hva, translate_of_isCanonical hva]
    exact translateFrom_direct_of_sameTables ht.sameTables ht.walks a.mmu va _ _ [] _ rfl
      ⟨[], IsPath.nil, Nat.le_refl 0, rfl⟩

section Descent

variable (hix : ix.l4 ≠ selfIndex)

include hix

theorem read_mirrors (hr : a.memory.Reached h.root ix (level :: lower) frame) :
    h.Mirrors (h.read level ix frame : Op (Machine η α) ε Entry) (h.read level ix frame) a b
      (fun e a' => a' = a ∧ e = a.memory.read frame (ix.get level)) := by
  obtain ⟨p, hp, hframe⟩ := hr.isLinkSlot hix
  have hread : (h.read level ix frame : Op (Machine η β) ε Entry).run b = _ :=
    run_read ((ht.sameTables.reached hix hr).locate ht.reaches_right.usable)
  -- The frame is a table, and tables hold the same.
  rw [ht.sameTables.read_eq ⟨p, hp.of_append_left, hframe⟩] at hread
  exact .ok (run_read (hr.locate ht.reaches.usable)) hread ht ⟨rfl, rfl⟩

/-! ### Unmapping -/

omit hix in
theorem followPresent_mirrors (page : VirtAddr) (level : Level) (e : Entry) :
    h.Mirrors (followPresent page level e : Op (Machine η α) MapError Frame)
      (followPresent page level e) a b
      (fun t a' => a'.memory = a.memory ∧ e.isLink = true ∧ t = e.frame) := by
  have hrun := run_followPresent page level e a
  have hrun' := run_followPresent page level e b
  cases hpresent : e.present with
  | false =>
    rw [hpresent, if_pos rfl] at hrun hrun'
    exact .error hrun hrun' ht
  | true =>
    rw [hpresent, if_neg (by simp)] at hrun hrun'
    -- A huge page stops both, and only the records may differ.
    cases hhuge : e.huge with
    | true =>
      rw [hhuge, if_pos rfl] at hrun hrun'
      exact .error hrun hrun' (ht.log _ _)
    | false =>
      rw [hhuge, if_neg (by simp)] at hrun hrun'
      exact .ok hrun hrun' ht ⟨rfl, Entry.isLink_iff.mpr ⟨hpresent, hhuge⟩, rfl⟩

theorem findBelow_mirrors (hr : a.memory.Reached h.root ix levels frame) (page : VirtAddr) :
    h.Mirrors (h.findBelow page ix levels frame : Op (Machine η α) MapError Frame)
      (h.findBelow page ix levels frame) a b
      (fun t a' => a'.memory.tableAt? h.root ix.path = some t) := by
  induction levels generalizing a b frame with
  | nil => exact .pure ht hr.table
  | cons level lower ih =>
    -- What is read is the same, so both follow it or neither does.
    apply (read_mirrors ht hix hr).bind
    rintro e a' b' ht' ⟨rfl, rfl⟩
    apply (followPresent_mirrors ht' page level _).bind
    rintro t a₁ b₁ ht₁ ⟨hmemory, hlink, rfl⟩
    exact ih ht₁ (hmemory ▸ hr.next hlink)

/-- The leaf of a page is found on the right as well, and is the same. -/
theorem leaf_right (hta : a.memory.tableAt? h.root ix.path = some table) :
    h.locate b.mmu b.memory .l1 ix table = .ok table ∧
      b.memory.read table ix.l1 = a.memory.read table ix.l1 := by
  have hpath := Indices.isPath_path hix
  exact ⟨ht.reaches_right.usable.locate_leaf ((ht.sameTables.tableAt?_eq hpath).trans hta),
    ht.sameTables.read_eq ⟨_, hpath, hta⟩ ix.l1⟩

section Leaf

variable (hroot : h.root.isEncodable) (hta : a.memory.tableAt? h.root ix.path = some table)

include hroot hta

theorem removeLeaf_mirrors :
    h.Mirrors (h.removeLeaf ix.page ix table : Op (Machine η α) MapError PhysAddr)
      (h.removeLeaf ix.page ix table) a b (fun _ _ => True) := by
  have hl := ht.reaches.usable.locate_leaf hta
  obtain ⟨hl', hread⟩ := leaf_right ht hix hta
  by_cases hold : a.memory.read table ix.l1 = .zero
  · exact .error (run_removeLeaf_of_absent hl hold)
      (run_removeLeaf_of_absent hl' (hread.trans hold)) ht
  · have hrun := run_removeLeaf_of_mapped hl' (hread ▸ hold)
    rw [hread] at hrun
    exact .ok (run_removeLeaf_of_mapped hl hold) hrun ((ht.replaced hroot h hix hta .zero).log _ _)
      trivial

/-! ### Mapping -/

theorem installLeaf_mirrors {target : Frame} (htarget : target.isEncodable) (flags : PageFlags)
    (force : Bool) :
    h.Mirrors (h.installLeaf ix.page ix table target flags force : Op (Machine η α) MapError Unit)
      (h.installLeaf ix.page ix table target flags force) a b (fun _ _ => True) := by
  have hl := ht.reaches.usable.locate_leaf hta
  obtain ⟨hl', hread⟩ := leaf_right ht hix hta
  by_cases hfree : force = false → a.memory.read table ix.l1 = .zero
  · exact .ok (run_installLeaf_of_free hl htarget hfree)
      (run_installLeaf_of_free hl' htarget (hread ▸ hfree))
      ((ht.replaced hroot h hix hta _).log _ _) trivial
  · rw [Classical.not_imp] at hfree
    exact .error (run_installLeaf_of_occupied hl hfree.2 hfree.1)
      (run_installLeaf_of_occupied hl' (hread ▸ hfree.2) hfree.1) ht

end Leaf

/-- A missing table is made on both, if both sources hand out a frame that can be linked. -/
theorem makeNext_mirrors (hr : a.memory.Reached h.root ix (level :: lower) frame)
    (hchild : level.next? = some child)
    (hvacant : (a.memory.read frame (ix.get level)).present = false) :
    h.Mirrors (h.makeNext ix level child frame : Op (Machine η α) MapError Frame)
      (h.makeNext ix level child frame) a b
      (fun t a' => a'.memory.Reached h.root ix lower t) := by
  obtain ⟨hrequest, hanswer⟩ := ht.request
  cases hnext : a.request.1 with
  | none =>
    -- Both sources decline.
    exact .error (run_makeNext_of_none hnext) (run_makeNext_of_none (hanswer.trans hnext))
      (hrequest.log _ _)
  | some next =>
    refine Op.Coincides.of_run_eq ?_ (run_makeNext_of_some hnext)
      (run_makeNext_of_some (hanswer.trans hnext))
    cases henc : next.isEncodable with
    | false =>
      -- Both have handed out a frame for which no entry has room.
      exact .error (run_linkTable_of_not_isEncodable henc) (run_linkTable_of_not_isEncodable henc)
        (hrequest.log _ _)
    | true =>
      obtain ⟨above, hlevels, hta⟩ := hr
      have hp : IsPath (above.map ix.get ++ [ix.get level]) := Indices.isPath_concat hix hlevels
      obtain ⟨hlinks, hlinks'⟩ := ht.links hp hta hvacant hnext henc
      have hra := (Machine.sameTables_request ht.clear_left).reached hix (.intro above hlevels hta)
      have hrun := run_linkTable_of_vacant hrequest.reaches.usable hrequest.walks.apart hix hra
        hchild hlinks.vacant hlinks.unused henc
      have hrun' := run_linkTable_of_vacant hrequest.reaches_right.usable
        (hrequest.walks.of_sameTables hrequest.sameTables).apart hix
        (hrequest.sameTables.reached hix hra) hchild hlinks'.vacant hlinks'.unused henc
      refine .ok hrun hrun' ((ht.link hp hta hvacant hnext henc h _).log _ _) ?_
      -- The path goes on through the slot that was filled.
      apply Memory.Reached.concat hlevels
      simpa using hlinks.clear.tableAt?_child hrequest.walks.apart

theorem ensureNext_mirrors (hr : a.memory.Reached h.root ix (level :: lower) frame) :
    h.Mirrors (h.ensureNext ix level frame : Op (Machine η α) MapError Frame)
      (h.ensureNext ix level frame) a b (fun t a' => a'.memory.Reached h.root ix lower t) := by
  obtain ⟨child, hchild⟩ := hr.exists_next
  obtain ⟨p, hp, hframe⟩ := hr.isLinkSlot hix
  have hl := hr.locate ht.reaches.usable
  have hl' := (ht.sameTables.reached hix hr).locate ht.reaches_right.usable
  -- The entry is one of a table, so it is the same on both.
  have hread := ht.sameTables.read_eq ⟨p, hp.of_append_left, hframe⟩ (ix.get level)
  cases hpresent : (a.memory.read frame (ix.get level)).present with
  | false =>
    exact (makeNext_mirrors ht hix hr hchild hpresent).of_run_eq
      (run_ensureNext_of_vacant hchild hl hpresent)
      (run_ensureNext_of_vacant hchild hl' (hread ▸ hpresent))
  | true =>
    cases hhuge : (a.memory.read frame (ix.get level)).huge with
    | true =>
      exact .error (run_ensureNext_of_huge hchild hl hpresent hhuge)
        (run_ensureNext_of_huge hchild hl' (hread ▸ hpresent) (hread ▸ hhuge)) (ht.log _ _)
    | false =>
      have hlink := Entry.isLink_iff.mpr ⟨hpresent, hhuge⟩
      have hrun := run_ensureNext_of_link hchild hl' (hread ▸ hlink)
      rw [hread] at hrun
      exact .ok (run_ensureNext_of_link hchild hl hlink) hrun ht (hr.next hlink)

theorem ensureBelow_mirrors (hr : a.memory.Reached h.root ix levels frame) :
    h.Mirrors (h.ensureBelow ix levels frame : Op (Machine η α) MapError Frame)
      (h.ensureBelow ix levels frame) a b
      (fun t a' => a'.memory.tableAt? h.root ix.path = some t) := by
  induction levels generalizing a b frame with
  | nil => exact .pure ht hr.table
  | cons level lower ih =>
    apply (ensureNext_mirrors ht hix hr).bind
    exact fun t a' b' ht' hr' => ih ht' hr'

end Descent

/-! ### Whole operations -/

/-- An empty slot of the root is filled in both. -/
theorem ensureSelfLink_mirrors (hroot : h.root.isEncodable) :
    h.Mirrors (h.ensureSelfLink : Op (Machine η α) MapError Unit) h.ensureSelfLink a b
      (fun _ _ => True) := by
  rcases ht.walks.selfLink with hempty | hself
  · have ha := ht.reaches.usable.access_of_not_selfLinked fun hself => hself.read_ne_zero hempty
    refine .ok (run_ensureSelfLink_of_empty ha hroot hempty)
      (run_ensureSelfLink_of_empty ha hroot (ht.sameTables.read_self.trans hempty)) ?_ trivial
    exact (ht.write hroot (Memory.isEndSlot_self _ _) fun _ => rfl).log _ _
  · exact .ok (run_ensureSelfLink_of_selfLinked hself)
      (run_ensureSelfLink_of_selfLinked (ht.sameTables.selfLinked hself)) ht trivial

theorem requireVacant_mirrors (page : VirtAddr) :
    h.Mirrors (h.requireVacant page : Op (Machine η α) MapError Unit) (h.requireVacant page) a b
      (fun _ _ => True) := by
  obtain ⟨pa, hpa⟩ := translate_ok ht.reaches.usable page
  have hrun := run_requireVacant_of_translate hpa
  have hrun' := run_requireVacant_of_translate ((translate_eq ht page).trans hpa)
  cases hzero : pa.isZero with
  | true =>
    rw [hzero, if_pos rfl] at hrun hrun'
    exact .ok hrun hrun' ht trivial
  | false =>
    rw [hzero, if_neg (by simp)] at hrun hrun'
    exact .error hrun hrun' ht

theorem map_mirrors (hroot : h.root.isEncodable) (va : VirtAddr) (pa : PhysAddr) (flags : PageFlags)
    (force : Bool) :
    h.Mirrors (h.map va pa flags force : Op (Machine η α) MapError Unit) (h.map va pa flags force)
      a b (fun _ _ => True) := by
  cases hva : mappable? va with
  | none =>
    exact .error (run_map_of_unmappable h pa flags force hva a)
      (run_map_of_unmappable h pa flags force hva b) ht
  | some ix =>
    cases hpa : target? pa with
    | none =>
      exact .error (run_map_of_no_target h flags force hva hpa a)
        (run_map_of_no_target h flags force hva hpa b) ht
    | some target =>
      obtain ⟨-, htarget⟩ := target?_eq_some_iff.mp hpa
      obtain ⟨-, -, hix⟩ := mappable?_eq_some_iff.mp hva
      rw [map_eq_mapPage h flags force hva hpa, map_eq_mapPage h flags force hva hpa]
      have hvacant : h.Mirrors
          (if force then pure () else h.requireVacant ix.page : Op (Machine η α) MapError Unit)
          (if force then pure () else h.requireVacant ix.page) a b (fun _ _ => True) := by
        cases force with
        | true => exact .pure ht trivial
        | false => exact requireVacant_mirrors ht ix.page
      -- Each part leaves twins for the next one.
      apply hvacant.bind
      rintro _ a₁ b₁ ht₁ -
      apply (ensureSelfLink_mirrors ht₁ hroot).bind
      rintro _ a₂ b₂ ht₂ -
      apply (ensureBelow_mirrors ht₂ hix (.start a₂.memory h.root ix)).bind
      exact fun table a₃ b₃ ht₃ hta => installLeaf_mirrors ht₃ hix hroot hta htarget flags force

theorem unmap_mirrors (hroot : h.root.isEncodable) (va : VirtAddr) :
    h.Mirrors (h.unmap va : Op (Machine η α) MapError PhysAddr) (h.unmap va) a b
      (fun _ _ => True) := by
  cases hva : mappable? va with
  | none =>
    exact .error (run_unmap_of_unmappable h hva a) (run_unmap_of_unmappable h hva b) ht
  | some ix =>
    obtain ⟨-, -, hix⟩ := mappable?_eq_some_iff.mp hva
    refine Op.Coincides.of_run_eq ?_ (run_unmap_of_mappable h hva a) (run_unmap_of_mappable h hva b)
    apply (findBelow_mirrors ht hix (.start a.memory h.root ix) ix.page).bind
    exact fun table a' b' ht' hta => removeLeaf_mirrors ht' hix hroot hta

/-- The root is found in both. -/
theorem resolveRoot_mirrors (hroot : h.root.isEncodable) :
    h.Mirrors (h.resolveRoot : Op (Machine η α) ActivateError Frame) h.resolveRoot a b
      (fun root _ => root = h.root) := by
  by_cases hself : a.memory.SelfLinked h.root
  · exact .ok (run_resolveRoot_of_selfLinked ht.reaches.usable hself)
      (run_resolveRoot_of_selfLinked ht.reaches_right.usable (ht.sameTables.selfLinked hself)) ht
      rfl
  · -- Without its link the root is used directly, on both.
    have ha := ht.reaches.usable.access_of_not_selfLinked hself
    have hrun := run_resolveRoot h a
    have hrun' := run_resolveRoot h b
    rw [ha] at hrun hrun'
    -- What linking the root ends with on both is what looking for it ends with.
    cases ensureSelfLink_mirrors ht hroot with
    | ok ha' hb' ht' _ =>
      rw [ha'] at hrun
      rw [hb'] at hrun'
      exact .ok hrun hrun' ht' rfl
    | error ha' hb' ht' =>
      rw [ha'] at hrun
      rw [hb'] at hrun'
      exact .error hrun hrun' ht'

end Hierarchy

/-- Both are given the same root to load. -/
theorem Machine.loadRoot_mirrors {η α β : Type} [Mmu η] [FrameSource α] [FrameSource β]
    {root : Frame} {access : Access} {a : Machine η α} {b : Machine η β}
    (ht : a.Twins root access b) :
    Op.Coincides (Machine.Twins root access) (fun m => m.loadRoot root) (fun m => m.loadRoot root)
      a b (fun _ _ => True) := by
  cases hload : Mmu.loadRoot a.mmu root with
  | ok mmu =>
    have hx : a.loadRoot root = (.ok (), { a with mmu }.note (.loadedRoot root true)) := by
      simp only [loadRoot, hload]
    have hy : b.loadRoot root = (.ok (), { b with mmu }.note (.loadedRoot root true)) := by
      simp only [loadRoot, ht.mmu, hload]
    -- The hardware has loaded the root on both, which the window relies on.
    have hloaded : ({ a with mmu } : Machine η α).Twins root access { b with mmu } :=
      { ht with
        mmu := rfl
        reaches := by
          cases ht.reaches with
          | identity ha => exact .identity ha
          | window hloaded hinstalled hself =>
            refine .window (WalkingMmu.loaded_of_loadRoot hload) (fun f => ?_) hself
            rw [WalkingMmu.installed_of_loadRoot hload]
            exact hinstalled f }
    refine .ok hx hy (hloaded.note ?_ ?_) trivial
    · simpa [Machine.requests] using ht.requests
    · simpa [Machine.invalidations] using ht.invalidations
  | error stop =>
    have hx : a.loadRoot root = (.error stop, a.note (.loadedRoot root false)) := by
      simp only [loadRoot, hload]
    have hy : b.loadRoot root = (.error stop, b.note (.loadedRoot root false)) := by
      simp only [loadRoot, ht.mmu, hload]
    refine .error hx hy (ht.note ?_ ?_)
    · simpa [Machine.requests] using ht.requests
    · simpa [Machine.invalidations] using ht.invalidations

end Paging
