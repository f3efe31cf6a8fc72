import Paging.Proofs.MapReport

/-!
# Three walks over any tables

Unmapping, translating and mapping go down to the leaf of a page each in their own way. Here the
entries may be anything: huge pages where links are needed, links that lead in a circle, tables that
share a frame. While frames are used directly all three still come to the same place: the last table
of the page, an entry that is not present, or a huge page. What one of them answers therefore tells
what the others answer, also after a write that has hit an entry of the walk itself.
-/

namespace Paging

/-- Where following the links of a page ends. -/
inductive Descent where
  /-- At the last table. -/
  | table (frame : Frame)
  /-- At an entry that is not present. -/
  | absent
  /-- At a huge page that stands where a link is needed. -/
  | covered (level : Level)
deriving DecidableEq

namespace Memory

/-- Where the links of a page lead from the table in `frame` down through the given levels. -/
def descent (mem : Memory) (ix : Indices) : List Level → Frame → Descent
  | [], frame => .table frame
  | level :: lower, frame =>
    let e := mem.read frame (ix.get level)
    if !e.present then .absent
    else if e.huge then .covered level
    else mem.descent ix lower e.frame

section Descent

variable {mem : Memory} {ix : Indices} {level : Level} {lower levels : List Level} {frame : Frame}

theorem descent_of_absent (hp : (mem.read frame (ix.get level)).present = false) :
    mem.descent ix (level :: lower) frame = .absent := by
  simp [descent, hp]

theorem descent_of_huge (hp : (mem.read frame (ix.get level)).present = true)
    (hhuge : (mem.read frame (ix.get level)).huge = true) :
    mem.descent ix (level :: lower) frame = .covered level := by
  simp [descent, hp, hhuge]

theorem descent_of_link (hp : (mem.read frame (ix.get level)).present = true)
    (hhuge : (mem.read frame (ix.get level)).huge = false) :
    mem.descent ix (level :: lower) frame =
      mem.descent ix lower (mem.read frame (ix.get level)).frame := by
  simp [descent, hp, hhuge]

/-- A slot that is not present is on no walk that goes on, so filling it changes no such walk. -/
theorem descent_write_of_absent {table : Frame} {i : Index}
    (hslot : (mem.read table i).present = false) (e : Entry)
    (hend : mem.descent ix levels frame ≠ .absent) :
    (mem.write table i e).descent ix levels frame = mem.descent ix levels frame := by
  induction levels generalizing frame with
  | nil => rfl
  | cons level lower ih =>
    cases hp : (mem.read frame (ix.get level)).present with
    | false => exact absurd (descent_of_absent hp) hend
    | true =>
      have hread : (mem.write table i e).read frame (ix.get level) =
          mem.read frame (ix.get level) := by
        rw [read_write, if_neg]
        -- The walk goes on at this entry, so it is not the slot that is filled.
        rintro ⟨rfl, rfl⟩
        rw [hslot] at hp
        cases hp
      cases hhuge : (mem.read frame (ix.get level)).huge with
      | true =>
        rw [descent_of_huge hp hhuge, descent_of_huge (by rwa [hread]) (by rwa [hread])]
      | false =>
        rw [descent_of_link hp hhuge] at hend ⊢
        rw [descent_of_link (by rwa [hread]) (by rwa [hread]), hread, ih hend]

/-- Emptying a slot cuts a walk or leaves it as it was. -/
theorem descent_write_zero (mem : Memory) (ix : Indices) (levels : List Level) (frame table : Frame)
    (i : Index) :
    (mem.write table i .zero).descent ix levels frame = .absent ∨
      (mem.write table i .zero).descent ix levels frame = mem.descent ix levels frame := by
  induction levels generalizing frame with
  | nil => exact Or.inr rfl
  | cons level lower ih =>
    have hread := mem.read_write table frame i (ix.get level) .zero
    -- Where the walk meets the slot it ends now, and elsewhere it reads what it did.
    split at hread
    · exact Or.inl (descent_of_absent (by rw [hread]; rfl))
    · cases hp : (mem.read frame (ix.get level)).present with
      | false => exact Or.inl (descent_of_absent (by rwa [hread]))
      | true =>
        cases hhuge : (mem.read frame (ix.get level)).huge with
        | true =>
          right
          rw [descent_of_huge hp hhuge, descent_of_huge (by rwa [hread]) (by rwa [hread])]
        | false =>
          rw [descent_of_link hp hhuge, descent_of_link (by rwa [hread]) (by rwa [hread]), hread]
          exact ih _

end Descent

/-- Nothing is mapped at a page: its walk ends at an entry that is not present, or its leaf is
absent. -/
def Vacant (mem : Memory) (root : Frame) (ix : Indices) : Prop :=
  match mem.descent ix Level.linking root with
  | .table table => mem.read table ix.l1 = .zero
  | .absent => True
  | .covered _ => False

variable {mem : Memory} {root table : Frame} {ix : Indices}

theorem vacant_of_absent (hd : mem.descent ix Level.linking root = .absent) :
    mem.Vacant root ix := by
  simp [Vacant, hd]

theorem vacant_iff_of_table (hd : mem.descent ix Level.linking root = .table table) :
    mem.Vacant root ix ↔ mem.read table ix.l1 = .zero := by
  simp [Vacant, hd]

/-- A page is vacant once its leaf has been removed, also if the leaf was a link of its own walk. -/
theorem vacant_write_zero (hd : mem.descent ix Level.linking root = .table table) :
    (mem.write table ix.l1 .zero).Vacant root ix := by
  rcases mem.descent_write_zero ix Level.linking root table ix.l1 with hcut | hsame
  · exact vacant_of_absent hcut
  · rw [vacant_iff_of_table (hsame.trans hd)]
    exact read_write_self ..

end Memory

namespace Hierarchy

variable {η α : Type} [Mmu η] {h : Hierarchy} (ha : h.access = .identity)

include ha

/-! ## Unmapping -/

/-- Looking for the last table ends as following the links does. -/
theorem run_findBelow_of_identity (page : VirtAddr) (ix : Indices) (levels : List Level)
    (frame : Frame) (m : Machine η α) :
    (h.findBelow page ix levels frame).run m =
      match m.memory.descent ix levels frame with
      | .table table => (.ok table, m)
      | .absent => (.error (.error .notMapped), m)
      | .covered level => (.error (.error .foreignEntry), m.log (.covered page level)) := by
  induction levels generalizing frame with
  | nil => rfl
  | cons level lower ih =>
    -- Both look at the same entry, and go on from it or end at it alike.
    simp only [findBelow]
    rw [Op.run_bind_ok (run_read (locate_of_identity ha))]
    have hfollow := run_followPresent page level (m.memory.read frame (ix.get level)) m
    cases hp : (m.memory.read frame (ix.get level)).present with
    | false =>
      rw [hp, if_pos rfl] at hfollow
      rw [Memory.descent_of_absent hp, Op.run_bind_error hfollow]
    | true =>
      rw [hp, if_neg (by simp)] at hfollow
      cases hhuge : (m.memory.read frame (ix.get level)).huge with
      | true =>
        rw [hhuge, if_pos rfl] at hfollow
        rw [Memory.descent_of_huge hp hhuge, Op.run_bind_error hfollow]
      | false =>
        rw [hhuge, if_neg (by simp)] at hfollow
        rw [Memory.descent_of_link hp hhuge, ← ih, Op.run_bind_ok hfollow]

theorem run_unmap_of_vacant {va : VirtAddr} {ix : Indices} (hva : mappable? va = some ix)
    {m : Machine η α} (hvacant : m.memory.Vacant h.root ix) :
    (h.unmap va).run m = (.error (.error .notMapped), m) := by
  rw [run_unmap_of_mappable h hva, Op.run_bind, run_findBelow_of_identity ha]
  cases hd : m.memory.descent ix Level.linking h.root with
  | table table =>
    rw [Memory.vacant_iff_of_table hd] at hvacant
    -- The walk has come to the last table, and there is no leaf in it.
    exact run_removeLeaf_of_absent (locate_of_identity ha) hvacant
  | absent => rfl
  | covered level => simp [Memory.Vacant, hd] at hvacant

/-- Unmapping removes the leaf to which the links lead; if there is none the page is vacant, or a
huge page covers it. -/
theorem unmap_ends_of_identity {va : VirtAddr} {ix : Indices} (hva : mappable? va = some ix)
    (m : Machine η α) :
    (h.unmap va).Ends m
      (fun pa m' => ∃ table, m.memory.descent ix Level.linking h.root = .table table ∧
        pa = (m.memory.read table ix.l1).address ∧
        m'.memory = m.memory.write table ix.l1 .zero)
      (fun stop m' => (stop = .error .notMapped ∧ m' = m ∧ m.memory.Vacant h.root ix) ∨
        ∃ level, stop = .error .foreignEntry ∧ m' = m.log (.covered ix.page level) ∧
          m.memory.descent ix Level.linking h.root = .covered level) := by
  by_cases hvacant : m.memory.Vacant h.root ix
  · exact .error (run_unmap_of_vacant ha hva hvacant) (Or.inl ⟨rfl, rfl, hvacant⟩)
  have hrun := run_unmap_of_mappable h hva m
  rw [Op.run_bind, run_findBelow_of_identity ha] at hrun
  cases hd : m.memory.descent ix Level.linking h.root with
  | table table =>
    rw [Memory.vacant_iff_of_table hd] at hvacant
    -- There is a leaf, since the page is not vacant.
    simp only [hd] at hrun
    rw [run_removeLeaf_of_mapped (locate_of_identity ha) hvacant] at hrun
    refine .ok hrun ⟨table, rfl, rfl, ?_⟩
    rw [Machine.memory_log, memory_replaced]
  | absent => exact absurd (Memory.vacant_of_absent hd) hvacant
  | covered level =>
    simp only [hd] at hrun
    -- The walk has met a huge page.
    exact .error hrun (Or.inr ⟨level, rfl, rfl, rfl⟩)

/-! ## Translating -/

/-- Where all levels link, the leaf in the last table is translated. -/
theorem translateFrom_of_table (mmu : η) {mem : Memory} (va : VirtAddr) {ix : Indices}
    {levels : List Level} (hlevels : .l1 ∉ levels) {frame table : Frame}
    (hd : mem.descent ix levels frame = .table table) :
    h.translateFrom mmu mem va ix (levels ++ [.l1]) frame =
      .ok (leafAddress .l1 (mem.read table ix.l1) va) := by
  induction levels generalizing frame with
  | nil =>
    cases hd
    rw [List.nil_append, translateFrom_cons (locate_of_identity ha)]
    rfl
  | cons level lower ih =>
    rw [List.mem_cons, not_or] at hlevels
    obtain ⟨hlevel, hlower⟩ := hlevels
    cases hp : (mem.read frame (ix.get level)).present with
    | false => simp [Memory.descent_of_absent hp] at hd
    | true =>
      cases hhuge : (mem.read frame (ix.get level)).huge with
      | true => simp [Memory.descent_of_huge hp hhuge] at hd
      | false =>
        rw [Memory.descent_of_link hp hhuge] at hd
        -- A translation stops at a huge page too, and this is none.
        rw [List.cons_append, translateFrom_cons (locate_of_identity ha), ← ih hlower hd]
        simp [hp, hhuge, endsWalk, Ne.symm hlevel]

/-- Where a link is missing nothing is translated. -/
theorem translateFrom_of_absent (mmu : η) {mem : Memory} (va : VirtAddr) {ix : Indices}
    {levels : List Level} (hlevels : .l1 ∉ levels) {frame : Frame}
    (hd : mem.descent ix levels frame = .absent) :
    h.translateFrom mmu mem va ix (levels ++ [.l1]) frame = .ok .zero := by
  induction levels generalizing frame with
  | nil => cases hd
  | cons level lower ih =>
    rw [List.mem_cons, not_or] at hlevels
    obtain ⟨hlevel, hlower⟩ := hlevels
    rw [List.cons_append, translateFrom_cons (locate_of_identity ha)]
    cases hp : (mem.read frame (ix.get level)).present with
    -- Above L1 an entry has to be present for a translation to go on.
    | false => simp [hp, Ne.symm hlevel]
    | true =>
      cases hhuge : (mem.read frame (ix.get level)).huge with
      | true => simp [Memory.descent_of_huge hp hhuge] at hd
      | false =>
        rw [Memory.descent_of_link hp hhuge] at hd
        rw [← ih hlower hd]
        simp [hhuge, endsWalk, Ne.symm hlevel]

theorem translate_of_table (mmu : η) {mem : Memory} {va : VirtAddr} (hva : va.isCanonical)
    {table : Frame} (hd : mem.descent va.indices Level.linking h.root = .table table) :
    h.translate mmu mem va = .ok (leafAddress .l1 (mem.read table va.indices.l1) va) := by
  have hlevels : Level.l1 ∉ Level.linking := by decide
  rw [translate_of_isCanonical hva]
  exact translateFrom_of_table ha mmu va hlevels hd

/-- A vacant page translates to nothing. -/
theorem translate_of_vacant (mmu : η) {mem : Memory} {va : VirtAddr} (hva : va.isCanonical)
    (hvacant : mem.Vacant h.root va.indices) : h.translate mmu mem va = .ok .zero := by
  cases hd : mem.descent va.indices Level.linking h.root with
  | table table =>
    rw [translate_of_table ha mmu hva hd, (Memory.vacant_iff_of_table hd).mp hvacant]
    rfl
  | absent =>
    have hlevels : Level.l1 ∉ Level.linking := by decide
    rw [translate_of_isCanonical hva]
    exact translateFrom_of_absent ha mmu va hlevels hd
  | covered level => simp [Memory.Vacant, hd] at hvacant

/-! ## Mapping -/

variable [FrameSource α]

/-- The descent that makes missing tables does not get past a huge page either. -/
theorem run_ensureBelow_of_covered {ix : Indices} {levels : List Level} (hlevels : .l1 ∉ levels)
    {frame : Frame} {m : Machine η α} {level : Level}
    (hd : m.memory.descent ix levels frame = .covered level) :
    (h.ensureBelow ix levels frame).run m =
      (.error (.error .foreignEntry), m.log (.blocked level ix.page)) := by
  induction levels generalizing frame with
  | nil => cases hd
  | cons upper lower ih =>
    rw [List.mem_cons, not_or] at hlevels
    obtain ⟨hupper, hlower⟩ := hlevels
    -- Every level but the last has a level below it.
    obtain ⟨child, hchild⟩ : ∃ child, upper.next? = some child := by
      cases upper with
      | l1 => exact absurd rfl hupper
      | _ => exact ⟨_, rfl⟩
    cases hp : (m.memory.read frame (ix.get upper)).present with
    | false => simp [Memory.descent_of_absent hp] at hd
    | true =>
      have hl : h.locate m.mmu m.memory upper ix frame = .ok frame := locate_of_identity ha
      cases hhuge : (m.memory.read frame (ix.get upper)).huge with
      | true =>
        rw [Memory.descent_of_huge hp hhuge] at hd
        -- This is the huge page, at which both end.
        obtain rfl := Descent.covered.inj hd
        exact Op.run_bind_error (run_ensureNext_of_huge hchild hl hp hhuge) _
      | false =>
        rw [Memory.descent_of_link hp hhuge] at hd
        have hlink := Entry.isLink_iff.mpr ⟨hp, hhuge⟩
        rw [← ih hlower hd]
        exact Op.run_bind_ok (run_ensureNext_of_link hchild hl hlink) _

/-- Under a huge page nothing is mapped, not even by force, and no frame is asked for. -/
theorem map_ends_of_covered (hroot : h.root.isEncodable) {va : VirtAddr} {pa : PhysAddr}
    (flags : PageFlags) {ix : Indices} {target : Frame} (hva : mappable? va = some ix)
    (hpa : target? pa = some target) {m : Machine η α} {level : Level}
    (hd : m.memory.descent ix Level.linking h.root = .covered level) :
    (h.map va pa flags true).Ends m (fun _ _ => False)
      (fun stop m' => stop = .error .foreignEntry ∧ m'.requests = m.requests ∧
        m'.frames = m.frames) := by
  have hlevels : Level.l1 ∉ Level.linking := by decide
  rw [map_eq_mapPage h flags true hva hpa]
  have hlinked : h.ensureSelfLink.Ends m
      (fun _ m' => m'.memory.descent ix Level.linking h.root = .covered level ∧
        m'.requests = m.requests ∧ m'.frames = m.frames)
      (fun stop m' => stop = .error .foreignEntry ∧ m'.requests = m.requests ∧
        m'.frames = m.frames) := by
    rcases ensureSelfLink_cases h m with ⟨hrun, -⟩ | ⟨hrun, -, hempty, -⟩ | ⟨-, -, -, henc⟩ |
      ⟨hrun, -⟩
    · -- The link was there before.
      exact .ok hrun ⟨hd, rfl, rfl⟩
    · refine .ok hrun ⟨?_, by simp, rfl⟩
      -- The slot was empty, so the walk to the huge page does not pass it.
      have hslot : (m.memory.read h.root selfIndex).present = false := by
        rw [hempty]
        rfl
      rw [Machine.memory_log, Machine.memory_write,
        Memory.descent_write_of_absent hslot _ (by simp [hd]), hd]
    · simp [hroot] at henc
    · exact .error hrun ⟨rfl, by simp, rfl⟩
  unfold mapPage
  -- With force it does not matter whether the page translates.
  apply Op.Ends.bind (Q := fun _ m' => m' = m) (Op.Ends.pure rfl)
  rintro _ _ rfl
  apply hlinked.bind
  intro _ m₁ hend
  obtain ⟨hd₁, hrequests, hframes⟩ := hend
  apply Op.Ends.error (Op.run_bind_error (run_ensureBelow_of_covered ha hlevels hd₁) _)
  exact ⟨rfl, by rw [Machine.requests_log, hrequests], hframes⟩

/-- A page that translates is occupied. -/
theorem run_map_of_translate_ne {va : VirtAddr} {pa : PhysAddr} (flags : PageFlags) {ix : Indices}
    {target : Frame} (hva : mappable? va = some ix) (hpa : target? pa = some target)
    {m : Machine η α} (hmapped : h.translate m.mmu m.memory ix.page ≠ .ok .zero) :
    (h.map va pa flags false).run m = (.error (.error .occupied), m) := by
  obtain ⟨mapped, ht⟩ := translate_ok (usable_of_identity ha m) ix.page
  -- A page is refused by the address that it translates to.
  have hne : mapped.isZero = false := by
    rw [Bool.eq_false_iff]
    intro hzero
    rw [Address.isZero, beq_iff_eq] at hzero
    exact hmapped (ht.trans (congrArg (fun w => Except.ok (Address.mk w)) hzero))
  have hvacant := run_requireVacant_of_translate ht
  rw [hne, if_neg (by simp)] at hvacant
  rw [map_eq_mapPage h flags false hva hpa, mapPage]
  exact Op.run_bind_error hvacant _

end Hierarchy

/-! ## The three actions -/

namespace AddressSpace

variable {η α : Type} [Mmu η] [FrameSource α] {s s' : AddressSpace η α}
  (ha : s.access = .identity) {va : VirtAddr} (hva : va.IsPlain)

include ha hva

theorem perform_unmap_of_vacant (hvacant : s.machine.memory.Vacant s.root va.indices) :
    s.perform (.unmap va) = (.refused (.map .notMapped), s) :=
  perform_unmap_of_run
    (Hierarchy.run_unmap_of_vacant ha (mappable?_eq_some_indices.mpr hva) hvacant)

/-- The answer of unmapping tells where the links of the page lead. -/
theorem perform_unmap_ends :
    (s.perform (.unmap va) = (.refused (.map .notMapped), s) ∧
      s.machine.memory.Vacant s.root va.indices) ∨
    (∃ table m, s.machine.memory.descent va.indices Level.linking s.root = .table table ∧
      m.memory = s.machine.memory.write table va.indices.l1 .zero ∧
      s.perform (.unmap va) =
        (.address (s.machine.memory.read table va.indices.l1).address, s.onto m)) ∨
    ∃ level m, s.machine.memory.descent va.indices Level.linking s.root = .covered level ∧
      m.memory = s.machine.memory ∧
      s.perform (.unmap va) = (.refused (.map .foreignEntry), s.onto m) := by
  have hends := Hierarchy.unmap_ends_of_identity (h := s.hierarchy) ha
    (mappable?_eq_some_indices.mpr hva) s.machine
  rcases conclude_onMachine (x := fun h => h.unmap va) hends .map .address with
    ⟨pa, m, hrun, table, hd, rfl, hmemory⟩ |
    ⟨stop, m, hrun, ⟨rfl, rfl, hvacant⟩ | ⟨level, rfl, rfl, hd⟩⟩
  · exact Or.inr (Or.inl ⟨table, m, hd, hmemory, hrun⟩)
  · exact Or.inl ⟨hrun, hvacant⟩
  · exact Or.inr (Or.inr ⟨level, s.machine.log _, hd, rfl, hrun⟩)

/-- Where a page is not mapped it translates to nothing. -/
theorem translate_of_notMapped (hrun : (s.perform (.unmap va)).1 = .refused (.map .notMapped)) :
    (s.perform (.unmap va)).2 = s ∧ s.translate va = .ok .zero := by
  rcases perform_unmap_ends ha hva with ⟨hend, hvacant⟩ | ⟨table, m, -, -, hend⟩ |
    ⟨level, m, -, -, hend⟩
  · rw [hend]
    exact ⟨rfl, Hierarchy.translate_of_vacant (h := s.hierarchy) ha _ hva.1 hvacant⟩
  all_goals simp [hend] at hrun

/-- A leaf that was removed has translated its page, and nothing does so any more. -/
theorem translate_of_unmapped {f : PhysAddr} (hrun : (s.perform (.unmap va)).1 = .address f) :
    s.translate va = .ok (if f = .zero then .zero else ⟨f.word + va.offset .size4K⟩) ∧
      (s.perform (.unmap va)).2.translate va = .ok .zero ∧
      ((s.perform (.unmap va)).2.perform (.unmap va)).1 = .refused (.map .notMapped) := by
  rcases perform_unmap_ends ha hva with ⟨hend, -⟩ | ⟨table, m, hd, hmemory, hend⟩ |
    ⟨level, m, -, -, hend⟩
  · simp [hend] at hrun
  · rw [hend] at hrun ⊢
    obtain rfl := Outcome.address.inj hrun
    -- The walk that led to the leaf may have been cut when the leaf was removed.
    have hvacant : (s.onto m).machine.memory.Vacant (s.onto m).root va.indices := by
      rw [machine_onto, hmemory]
      exact Memory.vacant_write_zero hd
    refine ⟨?_, Hierarchy.translate_of_vacant (h := s.hierarchy) ha _ hva.1 hvacant, ?_⟩
    · rw [← Hierarchy.leafAddress_l1]
      exact Hierarchy.translate_of_table (h := s.hierarchy) ha _ hva.1 hd
    · rw [perform_unmap_of_vacant (s := s.onto m) ha hva hvacant]
  · simp [hend] at hrun

/-- What keeps a page from being unmapped keeps it from being mapped, before and after. -/
theorem perform_map_of_foreignEntry (hroot : s.root.isEncodable) {pa : PhysAddr}
    (hpa : pa.IsFrameBase) (flags : PageFlags)
    (hrun : (s.perform (.unmap va)).1 = .refused (.map .foreignEntry)) {t : AddressSpace η α}
    (ht : t = s ∨ t = (s.perform (.unmap va)).2) :
    ∃ t', t.perform (.map va pa flags true) = (.refused (.map .foreignEntry), t') ∧
      t'.machine.requests = t.machine.requests ∧ t'.machine.frames = t.machine.frames := by
  rcases perform_unmap_ends ha hva with ⟨hend, -⟩ | ⟨table, m, -, -, hend⟩ |
    ⟨level, m, hd, hmemory, hend⟩
  · simp [hend] at hrun
  · simp [hend] at hrun
  · rw [hend] at ht
    -- The record that unmapping has left makes no difference to the walk.
    obtain ⟨m, rfl, hmemory⟩ : ∃ m, t = s.onto m ∧ m.memory = s.machine.memory := by
      rcases ht with rfl | rfl
      · exact ⟨t.machine, rfl, rfl⟩
      · exact ⟨m, rfl, hmemory⟩
    rw [← hmemory] at hd
    have hmap := Hierarchy.map_ends_of_covered (h := s.hierarchy) ha hroot flags
      (mappable?_eq_some_indices.mpr hva) (target?_eq_some_containing.mpr hpa) hd
    cases hmap with
    -- No such call succeeds.
    | ok _ hfalse => exact hfalse.elim
    | error hmap hkept =>
      obtain ⟨rfl, hkept⟩ := hkept
      exact ⟨_, perform_map_of_run (s := s.onto m) hmap, hkept⟩

/-- While frames are used directly, what unmapping a page answers over any tables tells what
translating and mapping it answer. If nothing is mapped it translates to nothing. If a leaf was
removed the page was translated by that leaf, and it is vacant from then on. If a huge page is in
the way, mapping by force does not get past it either. And a page that translates is not mapped
again without force. -/
theorem walks_of_perform (hroot : s.root.isEncodable) {pa : PhysAddr} (hpa : pa.IsFrameBase)
    (flags : PageFlags) :
    let outcome := (s.perform (.unmap va)).1
    let s' := (s.perform (.unmap va)).2
    (outcome = .refused (.map .notMapped) → s' = s ∧ s.translate va = .ok .zero) ∧
    (∀ f, outcome = .address f →
      s.translate va = .ok (if f = .zero then .zero else ⟨f.word + va.offset .size4K⟩) ∧
        s'.translate va = .ok .zero ∧
        (s'.perform (.unmap va)).1 = .refused (.map .notMapped)) ∧
    (outcome = .refused (.map .foreignEntry) → ∀ t, t = s ∨ t = s' → ∃ t',
      t.perform (.map va pa flags true) = (.refused (.map .foreignEntry), t') ∧
        t'.machine.requests = t.machine.requests ∧ t'.machine.frames = t.machine.frames) ∧
    (s.translate (va.alignDown .size4K) ≠ .ok .zero →
      s.perform (.map va pa flags false) = (.refused (.map .occupied), s)) := by
  refine ⟨translate_of_notMapped ha hva, fun f => translate_of_unmapped ha hva,
    fun hrun t => perform_map_of_foreignEntry ha hva hroot hpa flags hrun, fun hmapped => ?_⟩
  rw [← Address.page_indices hva.1] at hmapped
  exact perform_map_of_run (Hierarchy.run_map_of_translate_ne (h := s.hierarchy) ha flags
    (mappable?_eq_some_indices.mpr hva) (target?_eq_some_containing.mpr hpa) hmapped)

omit ha hva in
/-- A root whose first entry links back to the root and whose third is a huge page. The first page
is mapped by the very entry that leads to it. -/
theorem walks_of_perform_specimen :
    let circle := (Memory.zero.write Specimen.root 0 (.link Specimen.root)).write Specimen.root 2
      ⟨0x83⟩
    let s := create Specimen.root .identity Specimen.hardware Specimen.source circle
    let s' := (s.perform (.unmap ⟨0xabc⟩)).2
    (s.translate ⟨0xabc⟩ = .ok ⟨0x1abc⟩ ∧ s'.translate ⟨0xabc⟩ = .ok .zero ∧
      (s'.perform (.unmap ⟨0xabc⟩)).1 = .refused (.map .notMapped)) ∧
    s.perform (.map ⟨0xabc⟩ ⟨0x9000⟩ .kernelData false) = (.refused (.map .occupied), s) ∧
    (∃ t, s.perform (.map ⟨0x10000000000⟩ ⟨0x9000⟩ .kernelData true) =
        (.refused (.map .foreignEntry), t) ∧ t.machine.requests = []) ∧
    s.translate ⟨0x18000000000⟩ = .ok .zero := by
  intro circle s s'
  have ha : s.access = .identity := rfl
  have hroot : s.root.isEncodable := Specimen.isEncodable_root
  have hrequests : s.machine.requests = [] := rfl
  have hpa : (⟨0x9000⟩ : PhysAddr).IsFrameBase := by decide
  have hunmapped : (s.perform (.unmap ⟨0xabc⟩)).1 = .address ⟨0x1000⟩ := by decide +kernel
  have hcovered : (s.perform (.unmap ⟨0x10000000000⟩)).1 = .refused (.map .foreignEntry) := by
    decide +kernel
  have hnone : (s.perform (.unmap ⟨0x18000000000⟩)).1 = .refused (.map .notMapped) := by
    decide +kernel
  have hmapped : s.translate ((⟨0xabc⟩ : VirtAddr).alignDown .size4K) ≠ .ok .zero := by
    decide +kernel
  have hafter : (s.perform (.unmap ⟨0xabc⟩)).2 = s' := rfl
  clear_value s' s
  have hplain : (⟨0xabc⟩ : VirtAddr).IsPlain := by decide
  have hplain' : (⟨0x10000000000⟩ : VirtAddr).IsPlain := by decide
  have hplain'' : (⟨0x18000000000⟩ : VirtAddr).IsPlain := by decide
  have hfirst := walks_of_perform ha hplain hroot hpa .kernelData
  have hthird := walks_of_perform ha hplain' hroot hpa .kernelData
  have hlast := walks_of_perform ha hplain'' hroot hpa .kernelData
  obtain ⟨htranslated, hgone⟩ := hfirst.2.1 ⟨0x1000⟩ hunmapped
  rw [hafter] at hgone
  have hvalue : (if (⟨0x1000⟩ : PhysAddr) = .zero then .zero
      else ⟨0x1000 + (⟨0xabc⟩ : VirtAddr).offset .size4K⟩ : PhysAddr) = ⟨0x1abc⟩ := by decide
  obtain ⟨t, hrun, hkept, -⟩ := hthird.2.2.1 hcovered s (Or.inl rfl)
  exact ⟨⟨htranslated.trans (congrArg Except.ok hvalue), hgone⟩, hfirst.2.2.2 hmapped,
    ⟨t, hrun, hkept.trans hrequests⟩, (hlast.1 hnone).2⟩

end AddressSpace

end Paging
