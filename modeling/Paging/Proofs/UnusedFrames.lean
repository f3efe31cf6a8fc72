import Paging.Proofs.AccessAgreement
import Paging.Proofs.TwoRuns

/-!
# What is in unused frames never matters

Two address spaces over memories that hold the same tables go through the same run, whatever the
other frames hold: every call has the same outcome, the same pages are invalidated in the same
order, the frame sources are asked as often, and in the end the tables are the same again. This
includes the frames that the sources hand out and what a call that was refused has left behind.
-/

namespace Paging

namespace AddressSpace

variable {η α β ε γ : Type} [Mmu η] [FrameSource α] [FrameSource β]

/-- Two address spaces of one root, in the same phase and on machines that are twins. -/
structure Twins (root : Frame) (access : Access) (s : AddressSpace η α) (t : AddressSpace η β) :
    Prop where
  root_left : s.root = root
  root_right : t.root = root
  access_left : s.access = access
  access_right : t.access = access
  phase : t.phase = s.phase
  machine : s.machine.Twins root access t.machine

namespace Twins

variable {root : Frame} {access : Access} {s : AddressSpace η α} {t : AddressSpace η β}
  (ht : s.Twins root access t)

include ht

theorem hierarchy_eq : t.hierarchy = s.hierarchy := by
  have hlive : t.isLive = s.isLive := by
    rw [isLive, isLive, ht.access_left, ht.access_right, ht.phase]
  -- A hierarchy is made of root, access and phase, which twins have in common.
  rw [hierarchy, hierarchy, hlive, ht.root_left, ht.root_right, ht.access_left, ht.access_right]

theorem machine_hierarchy :
    s.machine.Twins s.hierarchy.root s.hierarchy.access t.machine := by
  show s.machine.Twins s.root s.access t.machine
  rw [ht.root_left, ht.access_left]
  exact ht.machine

/-- What ends alike on the machines ends alike in the address spaces. -/
theorem onMachine {x : Hierarchy → Op (Machine η α) ε γ} {y : Hierarchy → Op (Machine η β) ε γ}
    {Q : γ → Machine η α → Prop}
    (h : s.hierarchy.Mirrors (x s.hierarchy) (y s.hierarchy) s.machine t.machine Q) :
    Op.Coincides (Twins root access) (onMachine x) (onMachine y) s t
      (fun c s' => Q c s'.machine) := by
  have honto : ∀ {a b}, a.Twins s.hierarchy.root s.hierarchy.access b →
      (s.onto a).Twins root access (t.onto b) := by
    intro a b hab
    -- An operation on the machine changes nothing else, so only the machines have to be compared.
    exact { ht with machine := ht.root_left ▸ ht.access_left ▸ hab }
  cases h with
  | ok hx hy hS hQ =>
    rw [← ht.hierarchy_eq] at hy
    exact .ok (run_onMachine_of_eq hx) (run_onMachine_of_eq hy) (honto hS) hQ
  | error hx hy hS =>
    rw [← ht.hierarchy_eq] at hy
    exact .error (run_onMachine_of_eq hx) (run_onMachine_of_eq hy) (honto hS)

omit ht in
/-- Operations that end alike have the same outcome. -/
theorem conclude {x : Op (AddressSpace η α) ε γ} {y : Op (AddressSpace η β) ε γ}
    {Q : γ → AddressSpace η α → Prop} (h : Op.Coincides (Twins root access) x y s t Q)
    (error : ε → Refusal) (result : γ → Outcome) :
    (conclude error result y t).1 = (conclude error result x s).1 ∧
      (conclude error result x s).2.Twins root access (conclude error result y t).2 := by
  unfold AddressSpace.conclude
  cases h with
  | ok hx hy hS _ =>
    rw [hx, hy]
    exact ⟨rfl, hS⟩
  | error hx hy hS =>
    rw [hx, hy]
    exact ⟨rfl, hS⟩

variable (hroot : root.isEncodable)

include hroot

/-- Twins find the same root and load it, or neither does. -/
theorem activate :
    Op.Coincides (Twins root access) (activate : Op (AddressSpace η α) ActivateError Unit) activate
      s t (fun _ _ => True) := by
  have hroot' : s.hierarchy.root.isEncodable = true := by rwa [root_hierarchy, ht.root_left]
  apply (ht.onMachine (Hierarchy.resolveRoot_mirrors ht.machine_hierarchy hroot')).bind
  rintro found s₁ t₁ ht₁ hfound
  -- The root that was found is still the root of the hierarchy.
  obtain rfl : found = s₁.hierarchy.root :=
    hfound.trans (ht.root_left.trans ht₁.root_left.symm)
  -- The hardware is the same for both, so it takes the root of both or of neither.
  apply (ht₁.onMachine (x := fun _ m => m.loadRoot s₁.hierarchy.root)
    (y := fun _ m => m.loadRoot s₁.hierarchy.root)
    (Machine.loadRoot_mirrors ht₁.machine_hierarchy)).bind
  rintro _ s₂ t₂ ht₂ -
  refine .ok (Op.run_change _ s₂) (Op.run_change _ t₂) ?_ trivial
  exact { ht₂ with phase := rfl, machine := ht₂.machine.log _ _ }

/-- Every call has the same outcome and leaves twins. -/
theorem perform {a : Action} (ha : a.isCall = true) :
    (t.perform a).1 = (s.perform a).1 ∧ (s.perform a).2.Twins root access (t.perform a).2 := by
  have hroot' : s.hierarchy.root.isEncodable = true := by rwa [root_hierarchy, ht.root_left]
  have hmap (va : VirtAddr) (pa : PhysAddr) (flags : PageFlags) (force : Bool) :=
    conclude (ht.onMachine (x := fun h => h.map va pa flags force)
      (y := fun h => h.map va pa flags force)
      (Hierarchy.map_mirrors ht.machine_hierarchy hroot' va pa flags force)) .map fun _ => .done
  cases a with
  | map va pa flags force => exact hmap va pa flags force
  | identityMap pa flags force => exact hmap ⟨pa.word⟩ pa flags force
  | unmap va =>
    exact conclude (ht.onMachine (x := fun h => h.unmap va) (y := fun h => h.unmap va)
      (Hierarchy.unmap_mirrors ht.machine_hierarchy hroot' va)) .map .address
  | translate va =>
    -- Looking up an address changes nothing.
    refine ⟨?_, ht⟩
    have htranslate := Hierarchy.translate_eq ht.machine_hierarchy va
    simp only [AddressSpace.perform, lookUp, AddressSpace.translate, ht.hierarchy_eq, htranslate]
  | activate => exact conclude (ht.activate hroot) .activate fun _ => .done
  | setAccess access => cases ha

theorem performAll {actions : List Action} (hcalls : ∀ a ∈ actions, a.isCall = true) :
    (t.performAll actions).1 = (s.performAll actions).1 ∧
      (s.performAll actions).2.Twins root access (t.performAll actions).2 := by
  -- Each call leaves twins again, so the next one starts as the first did.
  induction actions generalizing s t with
  | nil => exact ⟨rfl, ht⟩
  | cons a rest ih =>
    obtain ⟨hcall, hrest⟩ := List.forall_mem_cons.mp hcalls
    obtain ⟨hnow, hnext⟩ := ht.perform hroot hcall
    obtain ⟨hlater, hend⟩ := ih hnext hrest
    rw [performAll_cons, performAll_cons, hnow, hlater]
    exact ⟨rfl, hend⟩

end Twins

/-- Two address spaces that take over the same tables in different memories are twins. -/
theorem twins_create {root : Frame} {access : Access} {mmu : η} {frames : α} {frames' : β}
    {mem mem' : Memory} (hreaches : (create root access mmu frames mem).machine.Reaches root access)
    (hwalks : mem.WalksToTables root) (hsame : mem.SameTables mem' root)
    (halike : FrameSource.Alike frames frames')
    (hclear : FrameSource.Clear (fun f => ¬ mem.IsTable root f) frames)
    (hclear' : FrameSource.Clear (fun f => ¬ mem.IsTable root f) frames') :
    (create root access mmu frames mem).Twins root access
      (create root access mmu frames' mem') where
  root_left := rfl
  root_right := rfl
  access_left := rfl
  access_right := rfl
  phase := rfl
  machine :=
    { mmu := rfl
      reaches := hreaches
      walks := hwalks
      sameTables := hsame
      alike := halike
      clear_left := hclear
      clear_right := hclear'
      requests := rfl
      invalidations := rfl }

/-- Whatever is in frames that are no tables, and whatever the frames held that are handed out, a
run of calls has the same outcomes, invalidates the same pages in the same order, asks for as many
frames and ends with the same tables. -/
theorem run_eq_of_twins {root : Frame} {access : Access} {s : AddressSpace η α}
    {t : AddressSpace η β} (hroot : root.isEncodable) (ht : s.Twins root access t)
    {actions : List Action} (hcalls : ∀ a ∈ actions, a.isCall = true) :
    (t.performAll actions).1 = (s.performAll actions).1 ∧
    (t.performAll actions).2.machine.invalidations =
      (s.performAll actions).2.machine.invalidations ∧
    (t.performAll actions).2.machine.requests = (s.performAll actions).2.machine.requests ∧
    (∀ f, (t.performAll actions).2.machine.memory.IsTable root f ↔
      (s.performAll actions).2.machine.memory.IsTable root f) ∧
    ∀ f, (s.performAll actions).2.machine.memory.IsTable root f →
      (t.performAll actions).2.machine.memory.table f =
        (s.performAll actions).2.machine.memory.table f := by
  obtain ⟨houtcomes, hend⟩ := ht.performAll hroot hcalls
  exact ⟨houtcomes, hend.machine.invalidations, hend.machine.requests,
    fun f => hend.machine.sameTables.isTable_iff, hend.machine.sameTables⟩

omit [Mmu η] [FrameSource α] [FrameSource β] in
/-- One memory is full of leftovers and the other is empty, apart from the root. -/
theorem run_eq_of_twins_specimen :
    let s := Specimen.start
    let t := create Specimen.root .identity Specimen.hardware Specimen.source .zero
    let actions := [.map ⟨0x400000⟩ ⟨0x9000⟩ .kernelData false, .activate, .translate ⟨0x400123⟩,
      .map ⟨0xffff800000000000⟩ ⟨0x9000⟩ .kernelData false, .unmap ⟨0x400000⟩]
    t.machine.memory.read (.containing ⟨0x2000⟩) 0 ≠
      s.machine.memory.read (.containing ⟨0x2000⟩) 0 ∧
    (t.performAll actions).1 = (s.performAll actions).1 ∧
    (t.performAll actions).2.machine.invalidations =
      (s.performAll actions).2.machine.invalidations ∧
    ∀ f, (s.performAll actions).2.machine.memory.IsTable Specimen.root f →
      (t.performAll actions).2.machine.memory.table f =
        (s.performAll actions).2.machine.memory.table f := by
  intro s t actions
  have htable : ∀ f, Specimen.memory.IsTable Specimen.root f ↔ f = Specimen.root :=
    fun f => Memory.isTable_of_zero Specimen.table_root
  -- The source hands out frames other than the root, and leaves the root alone.
  have hclear : FrameSource.Clear
      (fun f => ¬ Specimen.memory.IsTable Specimen.root f) Specimen.source :=
    Specimen.fresh_source.clear.mono fun f hf => by rwa [htable]
  have htwins : s.Twins Specimen.root .identity t := by
    apply twins_create (.identity rfl) (.of_zero Specimen.table_root) _ (fun n => rfl) hclear hclear
    intro f hf
    -- The root is the only table, and it is empty in both memories.
    rw [(htable f).mp hf, Specimen.table_root]
    rfl
  have hdiffer : t.machine.memory.read (.containing ⟨0x2000⟩) 0 ≠
      s.machine.memory.read (.containing ⟨0x2000⟩) 0 := by decide +kernel
  have hcalls : ∀ a ∈ actions, a.isCall = true := by decide
  obtain ⟨houtcomes, hinvalidations, -, -, htables⟩ :=
    run_eq_of_twins Specimen.isEncodable_root htwins hcalls
  exact ⟨hdiffer, houtcomes, hinvalidations, htables⟩

end AddressSpace

end Paging
