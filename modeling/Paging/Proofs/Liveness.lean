import Paging.Proofs.Actions
import Paging.Proofs.ScriptedFrames
import Paging.Proofs.Views

/-!
# When a page is invalidated

An address space is live while it goes through the window, and for ever after an activation that was
successful. On a live hierarchy a page whose leaf is present is invalidated when the leaf is
replaced or removed; on any other it is not, whatever root the hardware has loaded. An address space
that takes over a loaded hierarchy through the window is therefore no longer live once it uses its
frames directly, unless it was activated as well.
-/

namespace Paging

variable {η α : Type}

/-! ## Invalidations in the trace -/

section Trace

variable (m : Machine η α)

@[simp] theorem Machine.invalidations_log (r : Record) :
    (m.log r).invalidations = m.invalidations := by
  simp [invalidations]

@[simp] theorem Machine.invalidations_write (f : Frame) (i : Index) (e : Entry) :
    (m.write f i e).invalidations = m.invalidations := by
  simp [invalidations]

@[simp] theorem Hierarchy.invalidations_dropped (h : Hierarchy) (va : VirtAddr) :
    (h.dropped va m).invalidations = m.invalidations ++ if h.live then [va] else [] := by
  unfold dropped
  split <;> simp [Machine.invalidations]

end Trace

/-! ## Along present entries -/

namespace Memory

variable {mem mem' : Memory} {frame table : Frame} {p : List Index}

/-- A walk stays as it is where present entries stay as they are. -/
theorem walkTo?_of_read
    (hread : ∀ t j, (mem.read t j).present = true → mem'.read t j = mem.read t j)
    (hwalk : mem.walkTo? frame p = some table) : mem'.walkTo? frame p = some table := by
  induction p generalizing frame with
  | nil => exact hwalk
  | cons i p ih =>
    simp only [walkTo?] at hwalk
    split at hwalk
    · rename_i hpresent
      simp only [walkTo?, hread frame i hpresent, hpresent, if_true]
      exact ih hwalk
    · cases hwalk

/-- What the processor sees of a page it sees through present entries. -/
theorem walkTo?_of_entries {va : VirtAddr} {levels : List Level} {level : Level} {es : List Entry}
    (h : Hardware.entries mem va (levels ++ [level]) frame = some es) :
    ∃ table, mem.walkTo? frame (levels.map va.index) = some table ∧
      (mem.read table (va.index level)).present = true := by
  induction levels generalizing frame es with
  | nil =>
    simp only [List.nil_append, Hardware.entries] at h
    split at h
    · exact ⟨frame, rfl, ‹_›⟩
    · cases h
  | cons first rest ih =>
    simp only [List.cons_append, Hardware.entries] at h
    split at h
    · rename_i hpresent
      obtain ⟨_, hrest, -⟩ := Option.map_eq_some_iff.mp h
      obtain ⟨table, hwalk, hleaf⟩ := ih hrest
      refine ⟨table, ?_, hleaf⟩
      simp only [List.map_cons, walkTo?, hpresent, if_true]
      exact hwalk
    · cases h

theorem walkTo?_of_view {root : Frame} {va : VirtAddr} {v : Hardware.View}
    (hv : Hardware.view mem root va = some v) :
    ∃ table, mem.walkTo? root va.indices.path = some table ∧
      (mem.read table va.indices.l1).present = true := by
  obtain ⟨es, hes, -⟩ := Option.bind_eq_some_iff.mp hv
  -- The last entry of the page is the leaf, and those above it are what the walk needs.
  have hlevels : Hardware.entries mem va (Level.linking ++ [.l1]) root = some es := hes
  exact walkTo?_of_entries hlevels

end Memory

namespace Hierarchy

variable [Mmu η] {h : Hierarchy} {m : Machine η α} {ix : Indices} {frame table target : Frame}

/-- Linking the root to itself invalidates nothing and leaves present entries alone. -/
theorem ensureSelfLink_keeps (hu : h.Usable m) :
    h.ensureSelfLink.Ends m
      (fun _ m' => h.Usable m' ∧ m'.invalidations = m.invalidations ∧
        ∀ t j, (m.memory.read t j).present = true → m'.memory.read t j = m.memory.read t j)
      (fun _ _ => True) := by
  rcases ensureSelfLink_cases h m with ⟨hrun, -⟩ | ⟨hrun, ha, hempty, -⟩ | ⟨hrun, -⟩ | ⟨hrun, -⟩
  · exact .ok hrun ⟨hu, rfl, fun _ _ _ => rfl⟩
  · refine .ok hrun ⟨usable_of_identity ha _, by simp, fun t j hpresent => ?_⟩
    -- The slot that was filled was not present.
    rw [Machine.memory_log, Machine.memory_write, Memory.read_write, if_neg]
    intro heq
    obtain ⟨rfl, rfl⟩ := heq
    simp [hempty] at hpresent
  · exact .error hrun trivial
  · exact .error hrun trivial

/-- An entry that is present is followed, or a huge page is in the way; no table is made. -/
theorem ensureNext_of_present [FrameSource α] {level child : Level}
    (hchild : level.next? = some child)
    (hl : h.locate m.mmu m.memory level ix frame = .ok frame)
    (hp : (m.memory.read frame (ix.get level)).present = true) :
    (h.ensureNext ix level frame).Ends m
      (fun t m' => t = (m.memory.read frame (ix.get level)).frame ∧ m' = m) (fun _ _ => True) := by
  -- A huge page is refused, and nothing is said of a refusal.
  cases hhuge : (m.memory.read frame (ix.get level)).huge with
  | true => exact .error (run_ensureNext_of_huge hchild hl hp hhuge) trivial
  | false =>
    have hlink := Entry.isLink_iff.mpr ⟨hp, hhuge⟩
    exact .ok (run_ensureNext_of_link hchild hl hlink) ⟨rfl, rfl⟩

section Walk

variable [FrameSource α] {above levels : List Level} (hu : h.Usable m)
  (hlevels : above ++ levels = Level.linking)
  (habove : m.memory.walkTo? h.root (above.map ix.get) = some frame)
  (hwalk : m.memory.walkTo? frame (levels.map ix.get) = some table)

include hu hlevels habove hwalk

/-- Where the entries are present no table is made. -/
theorem ensureBelow_of_walkTo? :
    (h.ensureBelow ix levels frame).Ends m (fun t m' => t = table ∧ m' = m) (fun _ _ => True) := by
  induction levels generalizing above frame with
  | nil => exact Op.Ends.pure ⟨Option.some.inj hwalk, rfl⟩
  | cons level lower ih =>
    obtain ⟨hlevel, child, hchild, -⟩ := Level.above_of_linking hlevels
    -- Present entries lead to the table, so the window shows it whether its links are plain or not.
    have hl : h.locate m.mmu m.memory level ix frame = .ok frame := hu.locate (hlevel ▸ habove)
    simp only [List.map_cons, Memory.walkTo?] at hwalk
    split at hwalk
    · rename_i hpresent
      apply (ensureNext_of_present hchild hl hpresent).bind
      intro t m' hend
      obtain ⟨rfl, rfl⟩ := hend
      have hnext : (above ++ [level]) ++ lower = Level.linking := by simpa using hlevels
      apply ih hnext _ hwalk
      simpa using Memory.walkTo?_concat habove hpresent
    · cases hwalk

end Walk

/-! ## Replacing and removing a present leaf -/

omit [Mmu η] in
/-- A leaf that was present is invalidated on a live hierarchy. -/
theorem invalidations_replaced (leaf : Entry)
    (hpresent : (m.memory.read table ix.l1).present = true) :
    (h.replaced ix table leaf m).invalidations =
      m.invalidations ++ if h.live then [ix.page] else [] := by
  have hold : ¬ (m.memory.read table ix.l1).isZero := by
    intro hzero
    simp [Entry.isZero_iff.mp hzero] at hpresent
  rw [replaced, if_neg hold, invalidations_dropped, Machine.invalidations_write]

variable [FrameSource α] {va : VirtAddr} {v : Hardware.View} (hu : h.Usable m)

include hu

theorem mapPage_of_walkTo? (hwalk : m.memory.walkTo? h.root ix.path = some table)
    (hpresent : (m.memory.read table ix.l1).present = true) (htarget : target.isEncodable)
    (flags : PageFlags) (force : Bool) :
    (h.mapPage ix target flags force).Ends m
      (fun _ m' => m'.invalidations = m.invalidations ++ if h.live then [ix.page] else [])
      (fun _ _ => True) := by
  unfold mapPage
  apply Op.Ends.bind ((vacancy_ends hu ix.page force).mono (fun _ _ hend => hend)
    fun _ _ _ => trivial)
  intro _ m₀ heq
  obtain rfl := heq
  apply (ensureSelfLink_keeps hu).bind
  intro _ m₁ hkept
  obtain ⟨hu₁, hinvalidated, hread⟩ := hkept
  -- The leaf is found where it was.
  have hwalk₁ := Memory.walkTo?_of_read hread hwalk
  have hstart : [] ++ Level.linking = Level.linking := rfl
  apply (ensureBelow_of_walkTo? hu₁ hstart rfl hwalk₁).bind
  intro t m₂ hend
  obtain ⟨rfl, rfl⟩ := hend
  have hl : h.locate m₂.mmu m₂.memory .l1 ix t = .ok t := hu₁.locate hwalk₁
  -- The leaf itself is one of the present entries that have been kept.
  rw [← hread t ix.l1 hpresent] at hpresent
  have hold : m₂.memory.read t ix.l1 ≠ .zero := by
    intro hzero
    simp [hzero] at hpresent
  cases force with
  | true =>
    apply Op.Ends.ok (run_installLeaf_of_free hl htarget (by simp))
    rw [Machine.invalidations_log, invalidations_replaced _ hpresent, hinvalidated]
  | false => exact .error (run_installLeaf_of_occupied hl hold rfl) trivial

/-- Mapping a page whose leaf is present invalidates the page if the hierarchy is live, or is
refused. -/
theorem map_of_view (hv : Hardware.view m.memory h.root va = some v) (pa : PhysAddr)
    (flags : PageFlags) (force : Bool) :
    (h.map va pa flags force).Ends m
      (fun _ m' => m'.invalidations =
        m.invalidations ++ if h.live then [va.alignDown .size4K] else [])
      (fun _ _ => True) := by
  obtain ⟨table, hwalk, hpresent⟩ := Memory.walkTo?_of_view hv
  apply map_ends_of_mapPage
  · exact fun _ _ => trivial
  · intro ix target hva hpa
    obtain ⟨-, htarget⟩ := target?_eq_some_iff.mp hpa
    obtain ⟨hcanonical, rfl, -⟩ := mappable?_eq_some_iff.mp hva
    rw [← Address.page_indices hcanonical]
    exact mapPage_of_walkTo? hu hwalk hpresent htarget flags force

omit [FrameSource α] in
/-- Unmapping a page whose leaf is present invalidates the page if the hierarchy is live, or is
refused. -/
theorem unmap_of_view (hv : Hardware.view m.memory h.root va = some v) :
    (h.unmap va).Ends m
      (fun _ m' => m'.invalidations =
        m.invalidations ++ if h.live then [va.alignDown .size4K] else [])
      (fun _ _ => True) := by
  obtain ⟨table, hwalk, hpresent⟩ := Memory.walkTo?_of_view hv
  cases hva : mappable? va with
  | none => exact .error (run_unmap_of_unmappable h hva m) trivial
  | some ix =>
    apply Op.Ends.of_run_eq _ (run_unmap_of_mappable h hva m)
    obtain ⟨hcanonical, rfl, hix⟩ := mappable?_eq_some_iff.mp hva
    apply ((findBelow_ends hu (.start m.memory h.root _) hix _).mono (fun _ _ hend => hend)
      fun _ _ _ => trivial).bind
    intro t m' hend
    obtain ⟨rfl, ht⟩ := hend
    -- There is only one table to come to along the indices of the page.
    obtain rfl : t = table := Option.some.inj ((Memory.walkTo?_of_tableAt? ht).symm.trans hwalk)
    have hl : h.locate m'.mmu m'.memory .l1 va.indices t = .ok t := hu.locate hwalk
    have hold : m'.memory.read t va.indices.l1 ≠ .zero := by
      intro hzero
      simp [hzero] at hpresent
    apply Op.Ends.ok (run_removeLeaf_of_mapped hl hold)
    rw [Machine.invalidations_log, invalidations_replaced _ hpresent,
      Address.page_indices hcanonical]

end Hierarchy

/-! ## Which address spaces are live -/

namespace AddressSpace

variable {ε β : Type} [Mmu η] [FrameSource α]

omit [Mmu η] [FrameSource α] in
/-- An operation on the hierarchy leaves the phase alone. -/
theorem phase_conclude_onMachine (error : ε → Refusal) (result : β → Outcome)
    (x : Hierarchy → Op (Machine η α) ε β) (s : AddressSpace η α) :
    (conclude error result (onMachine x) s).2.phase = s.phase := rfl

/-- Nothing but an activation that is successful makes an address space active, and nothing makes it
inactive again. -/
theorem phase_perform_eq_active_iff (s : AddressSpace η α) (a : Action) :
    (s.perform a).2.phase = .active ↔
      s.phase = .active ∨ (Action.activate, Outcome.done) = (a, (s.perform a).1) := by
  cases a with
  | activate =>
    rw [perform, conclude, activate]
    -- The root is looked for, then the hardware is asked to load it, and the phase is set last.
    rcases hfound : (s.hierarchy.resolveRoot : Op (Machine η α) ActivateError Frame).run
      s.machine with ⟨_ | root, m⟩
    · rw [Op.run_bind_error (run_onMachine_of_eq hfound)]
      simp [Outcome.ofResult]
    · rw [Op.run_bind_ok (run_onMachine_of_eq hfound)]
      rcases hload : m.loadRoot root with ⟨_ | _, m'⟩
      · rw [Op.run_bind_error (run_onMachine_of_eq (s := s.onto m)
          (x := fun _ m => m.loadRoot root) hload)]
        simp [Outcome.ofResult]
      · rw [Op.run_bind_ok (run_onMachine_of_eq (s := s.onto m)
          (x := fun _ m => m.loadRoot root) hload)]
        simp [Outcome.ofResult]
  -- All other actions work on the machine or on the access, and keep the phase.
  | _ => simp [perform, phase_conclude_onMachine, map, identityMap, unmap, setAccess]

theorem phase_performAll_eq_active_iff (s : AddressSpace η α) (actions : List Action) :
    (s.performAll actions).2.phase = .active ↔
      s.phase = .active ∨
        (Action.activate, Outcome.done) ∈ actions.zip (s.performAll actions).1 := by
  induction actions generalizing s with
  | nil => simp [performAll]
  | cons a rest ih =>
    simp only [performAll, List.zip_cons_cons, List.mem_cons]
    rw [ih, phase_perform_eq_active_iff, or_assoc]

/-! ## Every run -/

section Perform

variable {s : AddressSpace η α} {va : VirtAddr} {v : Hardware.View} (hu : s.Usable)
  (hv : Hardware.view s.machine.memory s.root va = some v)

include hu hv

theorem invalidations_perform_map (pa : PhysAddr) (flags : PageFlags) (force : Bool)
    (hdone : (s.perform (.map va pa flags force)).1 = .done) :
    (s.perform (.map va pa flags force)).2.machine.invalidations =
      s.machine.invalidations ++ if s.isLive then [va.alignDown .size4K] else [] := by
  rcases conclude_onMachine (x := fun h => h.map va pa flags force) (s := s)
    (Hierarchy.map_of_view hu hv pa flags force) .map (fun _ => .done) with hend | hend
  · obtain ⟨_, m, hrun, hm⟩ := hend
    rw [perform, map, hrun]
    exact hm
  · -- Refused, which it was not.
    obtain ⟨stop, m, hrun, -⟩ := hend
    rw [perform, map, hrun] at hdone
    simp at hdone

theorem invalidations_perform_unmap {pa : PhysAddr}
    (hdone : (s.perform (.unmap va)).1 = .address pa) :
    (s.perform (.unmap va)).2.machine.invalidations =
      s.machine.invalidations ++ if s.isLive then [va.alignDown .size4K] else [] := by
  rcases conclude_onMachine (x := fun h => h.unmap va) (s := s) (Hierarchy.unmap_of_view hu hv)
    .map .address with hend | hend
  · obtain ⟨_, m, hrun, hm⟩ := hend
    rw [perform, unmap, hrun]
    exact hm
  · obtain ⟨stop, m, hrun, -⟩ := hend
    rw [perform, unmap, hrun] at hdone
    simp at hdone

end Perform

section Run

variable {root : Frame} {access : Access} {mmu : η} {frames : α} {mem : Memory}
  {actions : List Action} {outcomes : List Outcome} {s : AddressSpace η α}
  (hrun : (create root access mmu frames mem).performAll actions = (outcomes, s))

include hrun

/-- A new address space is live as long as it goes through the window, and from its first successful
activation on. -/
theorem isLive_of_performAll :
    s.isLive = true ↔
      s.access = .window ∨ (Action.activate, Outcome.done) ∈ actions.zip outcomes := by
  have hphase := phase_performAll_eq_active_iff (create root access mmu frames mem) actions
  -- A new address space is not active, in whichever access it is created.
  have hbuilding : (create root access mmu frames mem).phase ≠ .active := by simp [create]
  rw [hrun, or_iff_right hbuilding] at hphase
  simp only [isLive, Bool.or_eq_true, beq_iff_eq, hphase]

/-- In any run, whichever way the tables are reached at first and later, mapping or unmapping a page
whose leaf is present invalidates that page and nothing else if the address space goes through the
window or has been activated, and invalidates nothing at all otherwise. -/
theorem invalidations_of_performAll (hu : s.Usable) {va : VirtAddr} {v : Hardware.View}
    (hv : Hardware.view s.machine.memory s.root va = some v) :
    let dropped := if s.access = .window ∨ (Action.activate, Outcome.done) ∈ actions.zip outcomes
      then [va.alignDown .size4K] else []
    (∀ pa flags force, (s.perform (.map va pa flags force)).1 = .done →
      (s.perform (.map va pa flags force)).2.machine.invalidations =
        s.machine.invalidations ++ dropped) ∧
    ∀ pa, (s.perform (.unmap va)).1 = .address pa →
      (s.perform (.unmap va)).2.machine.invalidations = s.machine.invalidations ++ dropped := by
  -- The condition on the run is the flag that the operations look at.
  simp only [← isLive_of_performAll hrun]
  exact ⟨fun pa flags force => invalidations_perform_map hu hv pa flags force,
    fun pa => invalidations_perform_unmap hu hv⟩

end Run

/-- A page that was mapped before the activation is invalidated when it is mapped again, and when it
is unmapped. -/
theorem invalidations_of_performAll_specimen :
    let map (pa : PhysAddr) (force : Bool) : Action := .map ⟨0x400123⟩ pa .kernelData force
    let actions : List Action := [map ⟨0x9000⟩ false, map ⟨0x9000⟩ false, .activate]
    let s := (Specimen.start.performAll actions).2
    s.machine.invalidations = [] ∧
      (s.perform (map ⟨0xA000⟩ true)).2.machine.invalidations = [⟨0x400000⟩] ∧
      (s.perform (.unmap ⟨0x400123⟩)).2.machine.invalidations = [⟨0x400000⟩] := by
  intro map actions s
  have hnone : s.machine.invalidations = [] := by decide +kernel
  have hidentity : s.access = .identity := by decide +kernel
  have hmapped : (s.perform (map ⟨0xA000⟩ true)).1 = .done := by decide +kernel
  have hunmapped : (s.perform (.unmap ⟨0x400123⟩)).1 = .address ⟨0x9000⟩ := by decide +kernel
  have hview : Hardware.view s.machine.memory s.root ⟨0x400123⟩ =
      some ⟨.containing ⟨0x9000⟩, true, false, false⟩ := by decide +kernel
  have hactivated : (Action.activate, Outcome.done) ∈
      actions.zip (Specimen.start.performAll actions).1 := by decide +kernel
  have hrun : Specimen.start.performAll actions =
      ((Specimen.start.performAll actions).1, s) := (Prod.eta _).symm
  -- Which actions they are does not matter any more.
  clear_value s actions
  have hu : s.Usable := Hierarchy.usable_of_identity hidentity s.machine
  obtain ⟨hmap, hunmap⟩ := invalidations_of_performAll hrun hu hview
  rw [if_pos (Or.inr hactivated), hnone] at hmap hunmap
  exact ⟨hnone, hmap _ _ _ hmapped, hunmap _ hunmapped⟩

/-- Memory in which every table is mapped onto itself, and one page besides. -/
def selfMapped : Memory :=
  let pages : List Word := [0x1000, 0x1000, 0x2000, 0x3000, 0x4000]
  let actions := pages.map fun w => Action.identityMap ⟨w⟩ .kernelData false
  let page : Action := .map ⟨0x8000⟩ ⟨0x9000⟩ .kernelData false
  (Specimen.start.performAll (actions ++ [page])).2.machine.memory

/-- An address space that takes over a loaded hierarchy through the window, and then uses its frames
directly, does not invalidate what it removes, though the hardware goes on walking its root. -/
theorem not_invalidated_of_loaded :
    let hardware : Hardware.Simulated := ⟨some Specimen.root.base, fun _ => true⟩
    let s := ((create Specimen.root .window hardware Specimen.source selfMapped).performAll
      [.setAccess .identity]).2
    let after := s.perform (.unmap ⟨0x8000⟩)
    let tables : List Word := [0x1000, 0x2000, 0x3000, 0x4000]
    WalkingMmu.loaded? s.machine.mmu = some s.root ∧ s.machine.memory.SelfLinked s.root ∧
      (tables.map fun w => (Hardware.view s.machine.memory s.root ⟨w⟩).map (·.frame)) =
        tables.map (fun w => some (.containing ⟨w⟩)) ∧
      (Hardware.view s.machine.memory s.root ⟨0x8000⟩).isSome = true ∧
      after.1 = .address ⟨0x9000⟩ ∧
      Hardware.view after.2.machine.memory s.root ⟨0x8000⟩ = none ∧
      after.2.machine.invalidations = [] := by
  intro hardware s after tables
  refine ⟨?_, ?_, ?_, ?_, ?_, ?_, ?_⟩
  · decide +kernel
  · unfold Memory.SelfLinked
    decide +kernel
  · decide +kernel
  · decide +kernel
  · decide +kernel
  · decide +kernel
  · decide +kernel

end AddressSpace

end Paging
