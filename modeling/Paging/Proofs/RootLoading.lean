import Paging.Proofs.Liveness
import Paging.Proofs.NewTables

/-!
# Activation is all or nothing

Activation either has found the root, has had it loaded, and the address space is active; or it has
been refused, and phase, access and hardware are what they were. Nothing is assumed of the tables.
Memory changes by one entry at most: while frames are used directly, an empty slot of the root gets
the root's link to itself, and keeps it even if the hardware refuses the root afterwards. A
processor refuses the frame at zero and no other, and in its register everything but the root and
the cache policy is cleared.
-/

namespace Paging

variable {η α : Type}

/-! ## Hardware that answers -/

/-- Hardware that takes a root which an entry has room for, or gives an error. -/
class AnsweringMmu (η : Type) [Mmu η] : Prop where
  loadRoot_cases (mmu : η) {root : Frame} (hroot : root.isEncodable) :
    (∃ mmu', Mmu.loadRoot mmu root = .ok mmu') ∨
      ∃ cause, Mmu.loadRoot mmu root = .error (.error cause)

namespace Hardware

/-- The processor refuses frame zero. -/
theorem Cpu.loadRoot_of_isZero (cpu : Cpu) {root : Frame} (hzero : root.base = .zero) :
    Mmu.loadRoot cpu root = .error (.error (.invalidRoot .zero)) := by
  simp only [Mmu.loadRoot, hzero]
  rfl

/-- The processor takes every other root, and keeps the cache policy of its register. -/
theorem Cpu.loadRoot_of_ne_zero (cpu : Cpu) {root : Frame} (hroot : root.isEncodable)
    (hne : root.base ≠ .zero) :
    ∃ cr3, cpu.cr3.withRoot? root.base = some cr3 ∧
      Mmu.loadRoot cpu root = .ok { cpu with cr3 } := by
  have hzero : root.base.isZero = false := by
    rw [Address.isZero, beq_eq_false_iff_ne]
    exact fun hword => hne (congrArg Address.mk hword)
  -- The register has room for every root that an entry has room for.
  obtain ⟨cr3, hcr3⟩ := cpu.cr3.exists_withRoot? hroot
  refine ⟨cr3, hcr3, ?_⟩
  simp only [Mmu.loadRoot, hzero, hcr3]
  rfl

instance : AnsweringMmu Cpu where
  loadRoot_cases cpu root hroot := by
    -- Zero is what the processor refuses; it has a register for all else.
    by_cases hzero : root.base = .zero
    · exact Or.inr ⟨_, cpu.loadRoot_of_isZero hzero⟩
    · obtain ⟨cr3, -, hload⟩ := cpu.loadRoot_of_ne_zero hroot hzero
      exact Or.inl ⟨_, hload⟩

instance : AnsweringMmu Simulated where
  loadRoot_cases sim root _ := by
    simp only [Mmu.loadRoot]
    split
    · exact Or.inr ⟨_, rfl⟩
    · exact Or.inl ⟨_, rfl⟩

instance : AnsweringMmu Fixed where
  loadRoot_cases fix root _ := by
    simp only [Mmu.loadRoot]
    split
    · exact Or.inl ⟨_, rfl⟩
    · exact Or.inr ⟨_, rfl⟩

end Hardware

/-! ## Roots that were loaded -/

namespace Machine

/-- The roots that the hardware was asked to load and whether it did, oldest first. -/
def loads (m : Machine η α) : List (Frame × Bool) :=
  m.trace.reverse.filterMap fun
    | .loadedRoot root accepted => some (root, accepted)
    | _ => none

@[simp] theorem loads_log (m : Machine η α) (r : Record) : (m.log r).loads = m.loads := by
  simp [loads]

@[simp] theorem loads_write (m : Machine η α) (f : Frame) (i : Index) (e : Entry) :
    (m.write f i e).loads = m.loads := by
  simp [loads]

theorem loads_note_loadedRoot (m : Machine η α) (root : Frame) (accepted : Bool) :
    (m.note (.loadedRoot root accepted)).loads = m.loads ++ [(root, accepted)] := by
  simp [loads]

/-- Loading a root changes the hardware if it takes the root, and nothing otherwise. -/
theorem loadRoot_ends [Mmu η] [AnsweringMmu η] (m : Machine η α) {root : Frame}
    (hroot : root.isEncodable) :
    Op.Ends (fun m => m.loadRoot root) m
      (fun _ m' => Mmu.loadRoot m.mmu root = .ok m'.mmu ∧ m'.memory = m.memory ∧
        m'.loads = m.loads ++ [(root, true)])
      (fun stop m' => ∃ cause, stop = .error cause ∧
        Mmu.loadRoot m.mmu root = .error (.error cause) ∧ m'.mmu = m.mmu ∧ m'.memory = m.memory ∧
        m'.loads = m.loads ++ [(root, false)]) := by
  -- The attempt is noted either way.
  rcases AnsweringMmu.loadRoot_cases m.mmu hroot with ⟨mmu, hload⟩ | ⟨cause, hload⟩
  · have hrun : m.loadRoot root = (.ok (), { m with mmu }.note (.loadedRoot root true)) := by
      simp only [loadRoot, hload]
    exact .ok hrun ⟨hload, rfl, loads_note_loadedRoot { m with mmu } root true⟩
  · have hrun : m.loadRoot root = (.error (.error cause), m.note (.loadedRoot root false)) := by
      simp only [loadRoot, hload]
    exact .error hrun ⟨cause, rfl, hload, rfl, rfl, m.loads_note_loadedRoot root false⟩

end Machine

/-! ## Finding the root -/

namespace Hierarchy

variable {h : Hierarchy} {m m' : Machine η α} {root : Frame}

/-- The root that activation finds: the hierarchy's own while frames are used directly, unless its
slot holds something else, and through the window whatever the slot of the table in the window
names. -/
inductive Resolves [Mmu η] (h : Hierarchy) (m : Machine η α) : Frame → Prop where
  | identity (ha : h.access = .identity)
      (hslot : m.memory.read h.root selfIndex = .zero ∨ m.memory.SelfLinked h.root) :
      Resolves h m h.root
  | window {table : Frame} (ha : h.access = .window)
      (htable : Mmu.windowTable m.mmu m.memory Window.root = .ok table)
      (hpresent : (m.memory.read table selfIndex).present = true) :
      Resolves h m (m.memory.read table selfIndex).frame

/-- Nothing has become of memory, or the empty slot of the root has got its link. -/
def LinksSelf (h : Hierarchy) (mem mem' : Memory) : Prop :=
  mem' = mem ∨ h.access = .identity ∧ mem.read h.root selfIndex = .zero ∧
    mem' = mem.write h.root selfIndex (.selfLink h.root)

variable [Mmu η] (hroot : h.access = .identity → m.memory.read h.root selfIndex = .zero →
  h.root.isEncodable)

/-- Only one root is found. -/
theorem Resolves.unique {root' : Frame} (hr : h.Resolves m root) (hr' : h.Resolves m root') :
    root = root' := by
  cases hr with
  | identity ha hslot =>
    cases hr' with
    | identity => rfl
    -- There is one way to the tables, so the roots were found in the same way.
    | window ha' => simp [ha] at ha'
  | window ha htable hpresent =>
    cases hr' with
    | identity ha' => simp [ha] at ha'
    | window ha' htable' hpresent' =>
      cases htable.symm.trans htable'
      rfl

include hroot in
/-- An entry has room for a root that was found. -/
theorem Resolves.isEncodable (hr : h.Resolves m root) : root.isEncodable := by
  cases hr with
  | identity ha hslot =>
    rcases hslot with hempty | hself
    · exact hroot ha hempty
    · -- The slot names the root, and what an entry names it has room for.
      rw [← hself.2]
      exact Entry.isEncodable_frame _
  | window => exact Entry.isEncodable_frame _

omit [Mmu η] in
include hroot in
/-- The root gets its link if its slot is empty, and nothing else is written. -/
theorem ensureSelfLink_linksSelf (ha : h.access = .identity) :
    h.ensureSelfLink.Ends m
      (fun _ m' => (m.memory.read h.root selfIndex = .zero ∨ m.memory.SelfLinked h.root) ∧
        m'.memory.SelfLinked h.root ∧ h.LinksSelf m.memory m'.memory ∧ m'.mmu = m.mmu ∧
        m'.loads = m.loads)
      (fun stop m' => stop = .error .foreignEntry ∧
        ¬ (m.memory.read h.root selfIndex = .zero ∨ m.memory.SelfLinked h.root) ∧
        m'.memory = m.memory ∧ m'.mmu = m.mmu ∧ m'.loads = m.loads) := by
  -- The link is there, is made, cannot be made, or the slot holds something else.
  rcases ensureSelfLink_cases h m with ⟨hrun, hfound⟩ | ⟨hrun, -, hempty, henc⟩ |
    ⟨-, -, hempty, henc⟩ | ⟨hrun, -, hslot, hself⟩
  · have hself := hfound.resolve_left (by simp [ha])
    exact .ok hrun ⟨Or.inr hself, hself, Or.inl rfl, rfl, rfl⟩
  · refine .ok hrun ⟨Or.inl hempty, ?_, Or.inr ⟨ha, hempty, rfl⟩, rfl, by simp⟩
    apply Memory.selfLinked_of_eq_selfLink henc
    exact Memory.read_write_self ..
  · -- An entry has room for the root.
    simp [hroot ha hempty] at henc
  · exact .error hrun ⟨rfl, not_or.mpr ⟨hslot, hself⟩, rfl, rfl, by simp⟩

include hroot in
/-- The root is found, or there is none to be found; the hardware has not been told anything. -/
theorem resolveRoot_resolves (hwindow : h.access = .window →
      ∃ table, Mmu.windowTable m.mmu m.memory Window.root = .ok table) :
    (h.resolveRoot : Op (Machine η α) ActivateError Frame).Ends m
      (fun root m' => h.Resolves m root ∧
        (h.access = .identity → m'.memory.SelfLinked h.root) ∧
        h.LinksSelf m.memory m'.memory ∧ m'.mmu = m.mmu ∧ m'.loads = m.loads)
      (fun stop m' => (stop = .error .selfLinkMissing ∨ ∃ cause, stop = .error (.map cause)) ∧
        (∀ root, ¬ h.Resolves m root) ∧ m'.memory = m.memory ∧ m'.mmu = m.mmu ∧
        m'.loads = m.loads) := by
  cases ha : h.access with
  | identity =>
    -- Used directly, the root is the hierarchy's own once it links to itself.
    apply (resolveRoot_ends_of_identity ha (ensureSelfLink_linksSelf hroot ha)).mono
    · rintro _ m' ⟨rfl, hslot, hself, hkept⟩
      exact ⟨.identity ha hslot, fun _ => hself, hkept⟩
    · intro stop m' hend
      obtain ⟨stop', rfl, rfl, hslot, hkept⟩ := hend
      refine ⟨Or.inr ⟨_, rfl⟩, fun root hr => ?_, hkept⟩
      cases hr with
      | identity _ hslot' => exact hslot hslot'
      | window ha' => simp [ha] at ha'
  | window =>
    -- Through the window the root is what the slot of the table in it names.
    obtain ⟨table, htable⟩ := hwindow ha
    have hrun := run_resolveRoot h m
    rw [ha, htable] at hrun
    simp only at hrun
    split at hrun
    · rename_i hpresent
      exact .ok hrun ⟨.window ha htable hpresent, by simp, Or.inl rfl, rfl, rfl⟩
    · rename_i hpresent
      refine .error hrun ⟨Or.inl rfl, fun root hr => ?_, rfl, rfl, rfl⟩
      cases hr with
      | identity ha' => simp [ha] at ha'
      | window _ htable' hpresent' =>
        cases htable.symm.trans htable'
        exact hpresent hpresent'

end Hierarchy

namespace AddressSpace

variable [Mmu η]

/-! ## One activation -/

/-- The root was found, it was loaded, and the address space is active. -/
structure Activated (s : AddressSpace η α) (root : Frame) (s' : AddressSpace η α) : Prop where
  resolves : s.hierarchy.Resolves s.machine root
  isEncodable : root.isEncodable
  selfLinked : s.access = .identity → s'.machine.memory.SelfLinked s.root
  loaded : Mmu.loadRoot s.machine.mmu root = .ok s'.machine.mmu
  loads : s'.machine.loads = s.machine.loads ++ [(root, true)]
  memory : s.hierarchy.LinksSelf s.machine.memory s'.machine.memory
  phase : s'.phase = .active
  access : s'.access = s.access
  root_eq : s'.root = s.root

/-- No root was found, or the hardware did not take it. Only the slot of the root may be new. -/
structure Rejected (s : AddressSpace η α) (cause : ActivateError) (s' : AddressSpace η α) :
    Prop where
  loads : (s'.machine.loads = s.machine.loads ∧ (∀ a, cause ≠ .invalidRoot a) ∧
      ∀ root, ¬ s.hierarchy.Resolves s.machine root) ∨
    ∃ root, s.hierarchy.Resolves s.machine root ∧
      Mmu.loadRoot s.machine.mmu root = .error (.error cause) ∧
      s'.machine.loads = s.machine.loads ++ [(root, false)]
  mmu : s'.machine.mmu = s.machine.mmu
  memory : s.hierarchy.LinksSelf s.machine.memory s'.machine.memory
  phase : s'.phase = s.phase
  access : s'.access = s.access
  root_eq : s'.root = s.root

/-- The root can be looked for: an entry has room for a link that is to be written to it, and the
window shows some table. -/
structure CanResolve (s : AddressSpace η α) : Prop where
  isEncodable : s.access = .identity → s.machine.memory.read s.root selfIndex = .zero →
    s.root.isEncodable
  window : s.access = .window →
    ∃ table, Mmu.windowTable s.machine.mmu s.machine.memory Window.root = .ok table

section Activate

variable [AnsweringMmu η] {s : AddressSpace η α} (hs : s.CanResolve)

include hs

theorem activate_ends :
    (activate : Op (AddressSpace η α) ActivateError Unit).Ends s
      (fun _ s' => ∃ root, s.Activated root s')
      (fun stop s' => ∃ cause, stop = .error cause ∧ s.Rejected cause s') := by
  have hresolve := onMachine_ends (x := fun h => h.resolveRoot)
    (Hierarchy.resolveRoot_resolves (h := s.hierarchy) hs.isEncodable hs.window)
  unfold activate
  apply hresolve.bind_mono
  · intro root s₁ hfound
    obtain ⟨m, rfl, hr, hself, hmemory, hmmu, hloads⟩ := hfound
    -- From here on only the hardware changes, so what is known of memory stays true.
    have henc := hr.isEncodable hs.isEncodable
    have hload := onMachine_ends (s := s.onto m) (x := fun _ m => m.loadRoot root)
      (m.loadRoot_ends henc)
    apply hload.bind_mono
    · -- The hardware has taken the root, and the phase says so.
      intro _ s₂ hend
      obtain ⟨m', rfl, hloaded, hmemory', hloads'⟩ := hend
      rw [hmmu] at hloaded
      refine .ok rfl ⟨root, hr, henc, fun ha => ?_, hloaded, ?_, ?_, rfl, rfl, rfl⟩
      · show m'.memory.SelfLinked s.root
        rw [hmemory']
        exact hself ha
      · show (m'.log _).loads = _
        rw [Machine.loads_log, hloads', hloads]
      · show s.hierarchy.LinksSelf s.machine.memory m'.memory
        rwa [hmemory']
    · -- The hardware has refused the root, and has kept the one that it had.
      intro stop s₂ hend
      obtain ⟨m', rfl, cause, rfl, hrefused, hmmu', hmemory', hloads'⟩ := hend
      rw [hmmu] at hrefused
      refine ⟨cause, rfl, Or.inr ⟨root, hr, hrefused, ?_⟩, hmmu'.trans hmmu, ?_, rfl, rfl, rfl⟩
      · rw [machine_onto, hloads', hloads]
      · rwa [machine_onto, hmemory']
  · -- The hardware was not asked.
    intro stop s₁ hend
    obtain ⟨m, rfl, hcause, hnone, hmemory, hmmu, hloads⟩ := hend
    obtain ⟨cause, rfl, hne⟩ : ∃ cause, stop = .error cause ∧ ∀ a, cause ≠ .invalidRoot a := by
      -- Neither of the two is what the hardware says of a root.
      rcases hcause with rfl | ⟨cause, rfl⟩
      · exact ⟨_, rfl, by simp⟩
      · exact ⟨_, rfl, by simp⟩
    exact ⟨cause, rfl, Or.inl ⟨hloads, hne, hnone⟩, hmmu, Or.inl hmemory, rfl, rfl, rfl⟩

theorem perform_activate_ends [FrameSource α] :
    (∃ root s', s.perform .activate = (.done, s') ∧ s.Activated root s') ∨
      ∃ cause s', s.perform .activate = (.refused (.activate cause), s') ∧ s.Rejected cause s' := by
  rcases conclude_ends (activate_ends hs) .activate fun _ => .done with
    ⟨_, s', hrun, root, hend⟩ | ⟨_, s', hrun, cause, rfl, hend⟩
  · exact Or.inl ⟨root, s', hrun, hend⟩
  · exact Or.inr ⟨cause, s', hrun, hend⟩

end Activate

/-! ## The processor -/

section Cpu

variable {s s' : AddressSpace Hardware.Cpu α} {root : Frame}

/-- An active processor has the root in its register, with the cache policy that it had. -/
theorem Activated.cr3 (h : s.Activated root s') :
    s'.machine.mmu.cr3.root = root ∧
      s'.machine.mmu.cr3.writeThrough = s.machine.mmu.cr3.writeThrough ∧
      s'.machine.mmu.cr3.cacheDisabled = s.machine.mmu.cr3.cacheDisabled ∧
      s'.machine.mmu.cr3.reservedLow = 0 ∧ s'.machine.mmu.cr3.reservedMiddle = 0 ∧
      s'.machine.mmu.cr3.reservedHigh = 0 := by
  -- The root was taken, so it is not at zero.
  have hne : root.base ≠ .zero := by
    intro hzero
    have hload := h.loaded
    simp [Hardware.Cpu.loadRoot_of_isZero _ hzero] at hload
  obtain ⟨cr3, hcr3, hload⟩ := Hardware.Cpu.loadRoot_of_ne_zero s.machine.mmu h.isEncodable hne
  have hmmu := Except.ok.inj (hload.symm.trans h.loaded)
  rw [← hmmu]
  obtain ⟨hwrite, hcache⟩ := Cr3.policy_of_withRoot? hcr3
  exact ⟨Cr3.root_of_withRoot? hcr3, hwrite, hcache, Cr3.reserved_of_withRoot? hcr3⟩

/-- The processor refuses the frame at zero if that is what was found, and no other root. -/
theorem perform_activate_eq_invalidRoot_iff [FrameSource α] (hs : s.CanResolve) :
    (∃ s', s.perform .activate = (.refused (.activate (.invalidRoot .zero)), s') ∧
        s'.machine.mmu.cr3 = s.machine.mmu.cr3) ↔
      ∃ root, s.hierarchy.Resolves s.machine root ∧ root.base = .zero := by
  rcases perform_activate_ends hs with ⟨root, s', hrun, hend⟩ | ⟨cause, s', hrun, hend⟩
  · -- What was loaded is not at zero.
    rw [hrun]
    constructor
    · -- There is no such refusal.
      rintro ⟨s₁, heq, -⟩
      simp at heq
    · -- A root at zero would have been refused.
      rintro ⟨root', hr, hzero⟩
      obtain rfl := hend.resolves.unique hr
      have hloaded := hend.loaded
      simp [Hardware.Cpu.loadRoot_of_isZero _ hzero] at hloaded
  · rw [hrun]
    constructor
    · rintro ⟨s₁, heq, -⟩
      obtain rfl : cause = .invalidRoot .zero := by simpa using congrArg Prod.fst heq
      -- The refusal is the processor's, so a root was found and it was at zero.
      rcases hend.loads with ⟨-, hne, -⟩ | ⟨root, hr, hrefused, -⟩
      · exact absurd rfl (hne .zero)
      · refine ⟨root, hr, Decidable.byContradiction fun hne => ?_⟩
        obtain ⟨cr3, -, hload⟩ :=
          Hardware.Cpu.loadRoot_of_ne_zero s.machine.mmu (hr.isEncodable hs.isEncodable) hne
        cases hload.symm.trans hrefused
    · rintro ⟨root', hr, hzero⟩
      -- A root is found, so the processor was asked, and it refuses this one.
      rcases hend.loads with ⟨-, -, hnone⟩ | ⟨root, hr', hrefused, -⟩
      · exact absurd hr (hnone root')
      · obtain rfl := hr.unique hr'
        rw [Hardware.Cpu.loadRoot_of_isZero _ hzero] at hrefused
        cases hrefused
        exact ⟨s', rfl, congrArg Hardware.Cpu.cr3 hend.mmu⟩

end Cpu

/-! ## Every activation -/

variable [FrameSource α]

/-- Over any tables an activation loads one root and succeeds, or it leaves phase, access and
hardware as they were. In every run the address space is active if one of them has succeeded. And a
processor that was activated has the root and its old cache policy in its register and nothing else,
while it refuses the frame at zero only. -/
theorem activation_of_performAll [AnsweringMmu η] :
    (∀ s : AddressSpace η α, s.CanResolve →
      (∃ root s', s.perform .activate = (.done, s') ∧ s.Activated root s') ∨
        ∃ cause s', s.perform .activate = (.refused (.activate cause), s') ∧
          s.Rejected cause s') ∧
    (∀ (root : Frame) (access : Access) (mmu : η) (frames : α) (mem : Memory)
      (actions : List Action),
      let run := (create root access mmu frames mem).performAll actions
      run.2.phase = .active ↔ (Action.activate, Outcome.done) ∈ actions.zip run.1) ∧
    ∀ s : AddressSpace Hardware.Cpu α, s.CanResolve →
      (∀ s', s.perform .activate = (.done, s') →
        s.hierarchy.Resolves s.machine s'.machine.mmu.cr3.root ∧
          s'.machine.mmu.cr3.writeThrough = s.machine.mmu.cr3.writeThrough ∧
          s'.machine.mmu.cr3.cacheDisabled = s.machine.mmu.cr3.cacheDisabled ∧
          s'.machine.mmu.cr3.reservedLow = 0 ∧ s'.machine.mmu.cr3.reservedMiddle = 0 ∧
          s'.machine.mmu.cr3.reservedHigh = 0) ∧
      ((∃ s', s.perform .activate = (.refused (.activate (.invalidRoot .zero)), s') ∧
          s'.machine.mmu.cr3 = s.machine.mmu.cr3) ↔
        ∃ root, s.hierarchy.Resolves s.machine root ∧ root.base = .zero) := by
  refine ⟨fun s hs => perform_activate_ends hs, fun root access mmu frames mem actions => ?_,
    fun s hs => ⟨fun s' hrun => ?_, perform_activate_eq_invalidRoot_iff hs⟩⟩
  · -- A new address space is not active, so some activation has made it so.
    have hphase := phase_performAll_eq_active_iff (create root access mmu frames mem) actions
    rwa [or_iff_right (by simp [create])] at hphase
  · rcases perform_activate_ends hs with ⟨root, s₁, hdone, hend⟩ | ⟨cause, s₁, hrefused, -⟩
    · cases hdone.symm.trans hrun
      obtain ⟨hroot, hkept⟩ := hend.cr3
      exact ⟨hroot ▸ hend.resolves, hkept⟩
    · cases hrefused.symm.trans hrun

omit [Mmu η] [FrameSource α] in
/-- A processor whose register is full of ones: it is activated and, through the window, activated
again. With a root at zero it refuses. -/
theorem activation_of_performAll_specimen :
    let cpu : Hardware.Cpu := ⟨⟨.allOnes 64⟩, fun _ => true⟩
    let s := create Specimen.root .identity cpu Specimen.source Specimen.memory
    let zero := create (.containing .zero) .identity cpu Specimen.source .zero
    (∃ s', s.perform .activate = (.done, s') ∧ s'.machine.mmu.cr3.writeThrough = true ∧
      s'.machine.mmu.cr3.reservedMiddle = 0) ∧
    (∃ cause s', zero.perform .activate = (.refused (.activate cause), s') ∧
      zero.Rejected cause s') ∧
    (s.performAll [.activate, .setAccess .window, .activate]).2.phase = .active ∧
    ∃ s', zero.perform .activate = (.refused (.activate (.invalidRoot .zero)), s') ∧
      s'.machine.mmu.cr3 = cpu.cr3 := by
  intro cpu s zero
  have hs : s.CanResolve := ⟨fun _ _ => Specimen.isEncodable_root, fun ha => by cases ha⟩
  have hzero : zero.CanResolve := ⟨fun _ _ => by decide, fun ha => by cases ha⟩
  have hempty : zero.hierarchy.Resolves zero.machine zero.root := .identity rfl (Or.inl rfl)
  obtain ⟨hall, hruns, hcpu⟩ :=
    activation_of_performAll (η := Hardware.Cpu) (α := Screened Script)
  have hdone : (s.perform .activate).1 = .done := by decide +kernel
  have hphase := hruns Specimen.root .identity cpu Specimen.source Specimen.memory
    [.activate, .setAccess .window, .activate]
  have hmember : (Action.activate, Outcome.done) ∈
      [Action.activate, .setAccess .window, .activate].zip
        (s.performAll [.activate, .setAccess .window, .activate]).1 := by decide +kernel
  have hrefused : (∃ s', zero.perform .activate =
      (.refused (.activate (.invalidRoot .zero)), s') ∧ s'.machine.mmu.cr3 = cpu.cr3) :=
    (hcpu zero hzero).2.mpr ⟨_, hempty, by decide⟩
  refine ⟨?_, ?_, hphase.mpr hmember, hrefused⟩
  · rcases hall s hs with ⟨root, s', hrun, -⟩ | ⟨cause, s', hrun, -⟩
    · obtain ⟨-, hwrite, -, -, hreserved, -⟩ := (hcpu s hs).1 s' hrun
      exact ⟨s', hrun, hwrite.trans (by decide), hreserved⟩
    · simp [hrun] at hdone
  · rcases hall zero hzero with ⟨root, s', hrun, -⟩ | hend
    · obtain ⟨s₁, hrefused, -⟩ := hrefused
      simp [hrun] at hrefused
    · exact hend

end AddressSpace

end Paging
