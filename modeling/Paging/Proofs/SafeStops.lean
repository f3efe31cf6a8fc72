import Paging.Proofs.PageVisits
import Paging.Proofs.RootLoading

/-!
# Nothing is ever violated

An operation may refuse, and it may fault where the hardware shows no table at an address of the
window. It never meets a violation, whatever the tables hold, whatever addresses it is given and
whatever the frame source hands out: what is encoded was checked before, or comes from an entry. No
state is singled out, so an operation is safe if its parts are.
-/

namespace Paging

variable {η α ε β γ : Type} [Mmu η]

/-! ## Windows are pages -/

namespace Window

/-- The table of every walk is shown in the window. -/
theorem contains_table (level : Level) (ix : Indices) : contains (table level ix) = true := by
  -- A window address has the root's own slot for its first index.
  rw [table, Address.contains_window_iff (slots level ix).isCanonical_page, Indices.index_page]
  cases level <;> rfl

end Window

/-! ## Stops that are expected -/

/-- A stop that may be left with in a machine: an error, or what the hardware says of an address of
the window. -/
inductive Stop.IsExpected (access : Access) (m : Machine η α) : Stop ε → Prop where
  | error (cause : ε) : IsExpected access m (.error cause)
  | fault {va : VirtAddr} {cause : Fault} (ha : access = .window)
      (hva : Window.contains va = true)
      (hfault : Mmu.windowTable m.mmu m.memory va = .error cause) :
      IsExpected access m (.fault cause)

theorem Stop.IsExpected.mapError {ε' : Type} {access : Access} {m : Machine η α} {stop : Stop ε}
    (h : stop.IsExpected access m) (f : ε → ε') : (stop.mapError f).IsExpected access m := by
  cases h with
  | error cause => exact .error _
  | fault ha hva hfault => exact .fault ha hva hfault

/-- Whatever is done, the stops are expected. -/
def Op.expected (access : Access) : Op.Contract (Machine η α) ε where
  ok _ _ := True
  stop _ reason m' := reason.IsExpected access m'
  refl _ := trivial
  trans _ _ := trivial
  stop_trans _ hstop := hstop

/-- From whatever state it starts, the operation stops as expected, if at all. -/
abbrev Op.IsSafe (access : Access) (x : Op (Machine η α) ε β) : Prop := x.Keeps (expected access)

namespace Hierarchy

variable {h : Hierarchy} {ix : Indices} {level : Level} {frame : Frame}

/-! ## Steps -/

/-- A table that is not found is not shown by the hardware. -/
theorem isExpected_of_locate {m : Machine η α} {c : Halt}
    (hl : h.locate m.mmu m.memory level ix frame = .error c) :
    Stop.IsExpected h.access m (.ofHalt c : Stop ε) := by
  obtain ⟨ha, cause, rfl, hfault⟩ := fault_of_locate hl
  exact .fault ha (Window.contains_table level ix) hfault

theorem isSafe_read (level : Level) (ix : Indices) (frame : Frame) :
    (h.read level ix frame : Op (Machine η α) ε Entry).IsSafe h.access := by
  refine ⟨fun m => ?_⟩
  cases hl : h.locate m.mmu m.memory level ix frame with
  | ok table => exact .ok (run_read hl) trivial
  | error c => exact .error (run_read_of_halt hl) (isExpected_of_locate hl)

/-! ## Translating -/

theorem isExpected_of_translateFrom {m : Machine η α} {va : VirtAddr} {levels : List Level}
    {c : Halt} (ht : h.translateFrom m.mmu m.memory va ix levels frame = .error c) :
    Stop.IsExpected h.access m (.ofHalt c : Stop ε) := by
  induction levels generalizing frame with
  | nil => cases ht
  | cons level lower ih =>
    cases hl : h.locate m.mmu m.memory level ix frame with
    | error c' =>
      rw [translateFrom_cons_of_halt hl] at ht
      cases ht
      exact isExpected_of_locate hl
    | ok table =>
      -- With the entry at hand only the rest of the walk can fault.
      rw [translateFrom_cons hl] at ht
      simp only at ht
      split at ht
      · cases ht
      · split at ht
        · cases ht
        · exact ih ht

theorem isExpected_of_translate {m : Machine η α} {va : VirtAddr} {c : Halt}
    (ht : h.translate m.mmu m.memory va = .error c) :
    Stop.IsExpected h.access m (.ofHalt c : Stop ε) := by
  -- An address that is not canonical is answered without a look at the tables.
  cases hva : va.isCanonical with
  | true =>
    rw [translate_of_isCanonical hva] at ht
    exact isExpected_of_translateFrom ht
  | false => cases (translate_of_not_isCanonical hva).symm.trans ht

/-! ## Unmapping -/

theorem isSafe_followPresent (page : VirtAddr) (level : Level) (e : Entry) :
    (followPresent page level e : Op (Machine η α) MapError Frame).IsSafe h.access := by
  refine ⟨fun m => ?_⟩
  have hrun := run_followPresent page level e m
  split at hrun
  · exact .error hrun (.error _)
  · split at hrun
    · exact .error hrun (.error _)
    · exact .ok hrun trivial

theorem isSafe_findBelow (page : VirtAddr) (ix : Indices) (levels : List Level) (frame : Frame) :
    (h.findBelow page ix levels frame : Op (Machine η α) MapError Frame).IsSafe h.access := by
  induction levels generalizing frame with
  | nil => exact .pure frame
  | cons level lower ih =>
    exact (isSafe_read ..).bind fun e => (isSafe_followPresent ..).bind fun t => ih t

theorem isSafe_removeLeaf (ix : Indices) (table : Frame) :
    (h.removeLeaf ix.page ix table : Op (Machine η α) MapError PhysAddr).IsSafe h.access := by
  refine ⟨fun m => ?_⟩
  have hrun := run_removeLeaf h ix table m
  cases hl : h.locate m.mmu m.memory .l1 ix table with
  | error c =>
    rw [hl] at hrun
    exact .error hrun (isExpected_of_locate hl)
  | ok t =>
    rw [hl] at hrun
    simp only at hrun
    split at hrun
    · exact .error hrun (.error _)
    · exact .ok hrun trivial

theorem isSafe_unmap (va : VirtAddr) :
    (h.unmap va : Op (Machine η α) MapError PhysAddr).IsSafe h.access := by
  refine ⟨fun m => ?_⟩
  cases hva : mappable? va with
  | none => exact .error (run_unmap_of_unmappable h hva m) (.error _)
  | some ix =>
    apply Op.Ends.of_run_eq _ (run_unmap_of_mappable h hva m)
    exact ((isSafe_findBelow ix.page ix Level.linking h.root).bind
      fun table => isSafe_removeLeaf ix table).ends m

/-! ## Mapping -/

/-- A root that an entry has room for can be linked to itself. -/
theorem isSafe_ensureSelfLink (hroot : h.root.isEncodable) :
    (h.ensureSelfLink : Op (Machine η α) MapError Unit).IsSafe h.access := by
  refine ⟨fun m => ?_⟩
  rcases ensureSelfLink_cases h m with ⟨hrun, -⟩ | ⟨hrun, -⟩ | ⟨-, -, -, henc⟩ | ⟨hrun, -⟩
  · exact .ok hrun trivial
  · exact .ok hrun trivial
  · -- The root's link can be encoded.
    simp [hroot] at henc
  · exact .error hrun (.error _)

/-- A frame without room in an entry is refused before it is encoded. -/
theorem isSafe_linkTable (ix : Indices) (level child : Level) (frame next : Frame) :
    (h.linkTable ix level child frame next : Op (Machine η α) MapError Frame).IsSafe h.access := by
  refine ⟨fun m => ?_⟩
  have hrun := run_linkTable h ix m level child frame next
  split at hrun
  · split at hrun
    · rename_i c hl
      exact .error hrun (isExpected_of_locate hl)
    · simp only at hrun
      -- The link is written, but the window may still not show the table below it.
      split at hrun
      · rename_i c hc
        exact .error hrun (isExpected_of_locate hc)
      · exact .ok hrun trivial
  · exact .error hrun (.error _)

theorem isSafe_requireVacant (page : VirtAddr) :
    (h.requireVacant page : Op (Machine η α) MapError Unit).IsSafe h.access := by
  refine ⟨fun m => ?_⟩
  have hrun := run_requireVacant h m page
  split at hrun
  · rename_i c ht
    exact .error hrun (isExpected_of_translate ht)
  · split at hrun
    · exact .ok hrun trivial
    · exact .error hrun (.error _)

theorem isSafe_installLeaf {target : Frame} (htarget : target.isEncodable) (ix : Indices)
    (table : Frame) (flags : PageFlags) (force : Bool) :
    (h.installLeaf ix.page ix table target flags force : Op (Machine η α) MapError Unit).IsSafe
      h.access := by
  refine ⟨fun m => ?_⟩
  have hrun := run_installLeaf h ix m table target flags force
  -- What is mapped was checked when the call began, so encoding it does not fail.
  simp only [if_pos htarget] at hrun
  split at hrun
  · rename_i c hl
    exact .error hrun (isExpected_of_locate hl)
  · split at hrun
    · exact .error hrun (.error _)
    · exact .ok hrun trivial

variable [FrameSource α]

theorem isSafe_makeNext (ix : Indices) (level child : Level) (frame : Frame) :
    (h.makeNext ix level child frame : Op (Machine η α) MapError Frame).IsSafe h.access := by
  refine ⟨fun m => ?_⟩
  have hrun := run_makeNext h ix m level child frame
  split at hrun
  · exact .error hrun (.error _)
  · exact ((isSafe_linkTable ix level child frame _).ends m.request.2).of_run_eq hrun

omit [FrameSource α] in
theorem allowsDescent_expected (h : Hierarchy) :
    h.AllowsDescent (Op.expected h.access : Op.Contract (Machine η α) MapError) where
  log _ _ := trivial
  foreign _ := .error _
  halt hl := isExpected_of_locate hl

theorem isSafe_mapPage (hroot : h.root.isEncodable) {target : Frame} (htarget : target.isEncodable)
    (ix : Indices) (flags : PageFlags) (force : Bool) :
    (h.mapPage ix target flags force : Op (Machine η α) MapError Unit).IsSafe h.access :=
  .bind (.ite (.pure ()) (isSafe_requireVacant ix.page)) fun _ =>
    .bind (isSafe_ensureSelfLink hroot) fun _ =>
      .bind ((allowsDescent_expected h).ensureBelow (isSafe_makeNext ix) ..) fun _ =>
        isSafe_installLeaf htarget ..

/-- The frame that is mapped has been checked before it is encoded. -/
theorem isSafe_map (hroot : h.root.isEncodable) (va : VirtAddr) (pa : PhysAddr) (flags : PageFlags)
    (force : Bool) :
    (h.map va pa flags force : Op (Machine η α) MapError Unit).IsSafe h.access := by
  refine ⟨fun m => ?_⟩
  apply map_ends_of_mapPage
  · exact fun cause _ => .error cause
  · intro ix target _ hpa
    obtain ⟨-, htarget⟩ := target?_eq_some_iff.mp hpa
    exact (isSafe_mapPage hroot htarget ix flags force).ends m

/-! ## Activating -/

omit [FrameSource α] in
/-- The root that activation finds is one that an entry has room for. -/
theorem resolveRoot_isSafe (hroot : h.root.isEncodable) (m : Machine η α) :
    h.resolveRoot.Ends m (fun root _ => root.isEncodable = true)
      (fun stop m' => stop.IsExpected h.access m') := by
  cases ha : h.access with
  | identity =>
    apply (resolveRoot_ends_of_identity ha ((isSafe_ensureSelfLink hroot).ends m)).mono
    · rintro _ m' ⟨rfl, -⟩
      exact hroot
    · rintro _ m' ⟨stop, rfl, hstop⟩
      exact ha ▸ hstop.mapError _
  | window =>
    have hrun := run_resolveRoot h m
    rw [ha] at hrun
    simp only at hrun
    split at hrun
    · rename_i c htable
      -- The root's own place in the window is that of L4.
      exact .error hrun (.fault rfl (Window.contains_table .l4 ⟨0, 0, 0, 0⟩) htable)
    · split at hrun
      · exact .ok hrun (Entry.isEncodable_frame _)
      · exact .error hrun (.error _)

end Hierarchy

/-! ## Address spaces -/

/-- An outcome that may be left with in an address space: there is no violation, and a fault is what
the hardware says of an address of the window. -/
structure Outcome.IsExpected (s : AddressSpace η α) (o : Outcome) : Prop where
  ne_violation (v : Violation) : o ≠ .refused (.violation v)
  of_fault {cause : Fault} (h : o = .refused (.fault cause)) :
    s.access = .window ∧ ∃ va, Window.contains va = true ∧
      Mmu.windowTable s.machine.mmu s.machine.memory va = .error cause

namespace AddressSpace

/-- From `s` the operation leaves the root where it is, and if it stops, it stops as expected. -/
abbrev Safely (s : AddressSpace η α) (x : Op (AddressSpace η α) ε β) : Prop :=
  x.Ends s (fun _ s' => s'.root = s.root)
    (fun stop s' => s'.root = s.root ∧ stop.IsExpected s'.access s'.machine)

variable {s : AddressSpace η α}

theorem isExpected_of_error {cause : Refusal} (hviolation : ∀ v, cause ≠ .violation v)
    (hfault : ∀ c, cause ≠ .fault c) : (Outcome.refused cause).IsExpected s where
  ne_violation v h := hviolation v (Outcome.refused.inj h)
  of_fault h := absurd (Outcome.refused.inj h) (hfault _)

theorem isExpected_of_ne_refused {o : Outcome} (ho : ∀ cause, o ≠ .refused cause) :
    o.IsExpected s where
  ne_violation _ := ho _
  of_fault h := absurd h (ho _)

/-- Stops that are expected lead to outcomes that are. -/
theorem isExpected_of_stop {stop : Stop ε} (hstop : stop.IsExpected s.access s.machine)
    {error : ε → Refusal}
    (herror : ∀ e, (∀ v, error e ≠ .violation v) ∧ ∀ c, error e ≠ .fault c) :
    (Outcome.refused (stop.refusal error)).IsExpected s := by
  cases hstop with
  | error e => exact isExpected_of_error (herror e).1 (herror e).2
  | @fault va cause ha hva hfault =>
    refine ⟨by simp [Stop.refusal], fun h => ⟨ha, va, hva, ?_⟩⟩
    cases h
    exact hfault

theorem isExpected_conclude {x : Op (AddressSpace η α) ε β} (hx : s.Safely x)
    {error : ε → Refusal} {result : β → Outcome}
    (herror : ∀ e, (∀ v, error e ≠ .violation v) ∧ ∀ c, error e ≠ .fault c)
    (hresult : ∀ b c, result b ≠ .refused c) :
    (conclude error result x s).1.IsExpected (conclude error result x s).2 := by
  rcases conclude_ends hx error result with ⟨b, s', hrun, -⟩ | ⟨stop, s', hrun, -, hstop⟩
  · rw [hrun]
    exact isExpected_of_ne_refused (hresult b)
  · rw [hrun]
    exact isExpected_of_stop hstop herror

/-- What is safe on the machine is safe in the address space. -/
theorem safely_onMachine {x : Hierarchy → Op (Machine η α) ε β}
    (hx : (x s.hierarchy).IsSafe s.hierarchy.access) : s.Safely (onMachine x) := by
  apply (onMachine_ends (hx.ends s.machine)).mono
  · rintro _ s' ⟨m, rfl, -⟩
    rfl
  · rintro stop s' ⟨m, rfl, hstop⟩
    exact ⟨rfl, hstop⟩

theorem safely_unmap (s : AddressSpace η α) (va : VirtAddr) : s.Safely (unmap va) :=
  safely_onMachine (x := fun h => h.unmap va) (Hierarchy.isSafe_unmap va)

/-- Activation is safe on hardware that answers. -/
theorem safely_activate [AnsweringMmu η] (hroot : s.root.isEncodable) : s.Safely activate := by
  apply (onMachine_ends (Hierarchy.resolveRoot_isSafe hroot s.machine)).bind_mono
  · rintro root _ ⟨m, rfl, henc⟩
    apply (onMachine_ends (m.loadRoot_ends henc)).bind_mono
    · rintro _ _ ⟨m', rfl, -⟩
      exact .ok (Op.run_change _ _) rfl
    · rintro _ _ ⟨m', rfl, cause, rfl, -⟩
      exact ⟨rfl, .error cause⟩
  · rintro stop _ ⟨m, rfl, hstop⟩
    exact ⟨rfl, hstop⟩

variable [FrameSource α]

theorem safely_map (hroot : s.root.isEncodable) (va : VirtAddr) (pa : PhysAddr) (flags : PageFlags)
    (force : Bool) : s.Safely (map va pa flags force) :=
  safely_onMachine (x := fun h => h.map va pa flags force)
    (Hierarchy.isSafe_map hroot va pa flags force)

/-- No action but activation can end in anything unexpected, on whatever hardware. -/
theorem perform_isExpected (hroot : s.root.isEncodable) {a : Action} (ha : a ≠ .activate) :
    (s.perform a).1.IsExpected (s.perform a).2 := by
  cases a with
  | map va pa flags force =>
    simp only [perform]
    exact isExpected_conclude (safely_map hroot va pa flags force) (by simp) (by simp)
  | identityMap pa flags force =>
    simp only [perform]
    exact isExpected_conclude (safely_map hroot ⟨pa.word⟩ pa flags force) (by simp) (by simp)
  | unmap va =>
    simp only [perform]
    exact isExpected_conclude (safely_unmap s va) (by simp) (by simp)
  | translate va =>
    cases ht : s.translate va with
    | ok pa =>
      have hrun : s.perform (.translate va) = (.address pa, s) := by simp [perform, lookUp, ht]
      rw [hrun]
      exact isExpected_of_ne_refused (by simp)
    | error c =>
      have hrun : s.perform (.translate va) = (.refused (c.refusal Empty.elim), s) := by
        simp [perform, lookUp, ht]
      -- A translation has no errors of its own, so what stops it is a fault.
      have hstop : (Stop.ofHalt c : Stop Empty).IsExpected s.access s.machine :=
        Hierarchy.isExpected_of_translate ht
      rw [Stop.ofHalt_self] at hstop
      rw [hrun]
      exact isExpected_of_stop hstop fun e => e.elim
  -- Activation depends on how the hardware answers, and stands apart.
  | activate => exact absurd rfl ha
  | setAccess access => exact isExpected_of_ne_refused (by simp [perform])

theorem perform_activate_isExpected [AnsweringMmu η] (hroot : s.root.isEncodable) :
    (s.perform .activate).1.IsExpected (s.perform .activate).2 := by
  simp only [perform]
  exact isExpected_conclude (safely_activate hroot) (by simp) (by simp)

/-! ## Ranges -/

/-- The root stays where it is, whether the page is mapped or not. -/
theorem root_of_run_map {virt : VirtAddr} {phys : PhysAddr} {flags : PageFlags}
    {r : Except (Stop MapError) Unit} {s' : AddressSpace η α} (hroot : s.root.isEncodable)
    (hrun : (Mapper.map virt phys flags false).run s = (r, s')) : s'.root = s.root := by
  cases safely_map hroot virt phys flags false with
  | ok hmap hend =>
    cases hmap.symm.trans hrun
    exact hend
  | error hmap hend =>
    cases hmap.symm.trans hrun
    exact hend.1

/-- So it does while many pages are mapped. -/
theorem root_of_visited {flags : PageFlags} {steps : List MemoryMap.Visit} {k l : Nat}
    {s' : AddressSpace η α} (hroot : s.root.isEncodable)
    (h : MemoryMap.Visited flags steps s k l s') : s'.root = s.root := by
  induction h with
  | nil => rfl
  | announce r _ ih => exact ih hroot
  | mapped hrun _ ih =>
    have hfirst := root_of_run_map hroot hrun
    exact (ih (hfirst ▸ hroot)).trans hfirst
  | occupied hrun _ ih =>
    have hfirst := root_of_run_map hroot hrun
    exact (ih (hfirst ▸ hroot)).trans hfirst

/-- Mapping a range is safe: the range was checked, so no address and no count is too large. -/
theorem safely_mapRange (hroot : s.root.isEncodable) (virt : VirtAddr) (phys : PhysAddr)
    (pages : Word) (flags : PageFlags) :
    s.Safely (MemoryMap.mapRange virt phys pages flags) := by
  -- All sums are words once the range is accepted, so nothing but the mapper can stop it.
  apply (MemoryMap.mapRange_ends virt phys pages flags s).mono
  · exact fun _ _ hend => root_of_visited hroot hend.2
  · rintro stop s' (⟨e, -, rfl, rfl⟩ | ⟨-, hhalted⟩)
    · exact ⟨rfl, .error e⟩
    · -- The call for the last page is safe, as all calls are.
      obtain ⟨-, hbefore, hrun, -⟩ := hhalted
      have hsame := root_of_visited hroot hbefore
      cases safely_map (hsame.symm ▸ hroot) _ _ flags false with
      | ok hmap _ => cases hmap.symm.trans hrun
      | error hmap hend =>
        cases hmap.symm.trans hrun
        exact ⟨hend.1.trans hsame, hend.2.mapError _⟩

end AddressSpace

end Paging
