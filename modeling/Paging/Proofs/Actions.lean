import Paging.AddressSpace.Action
import Paging.Proofs.Activation
import Paging.Proofs.UnmapOutcome

/-!
# What an action does

An address space *owns its tables* if they are apart, all links are its own and the frame source is
fresh. Every call keeps that, whatever comes of it: it changes the machine as an operation on the
hierarchy does, and its outcome tells which change it was.
-/

namespace Paging

/-- Whether an action calls an operation of the hierarchy, and does not only say how the tables are
reached. -/
def Action.isCall : Action → Bool
  | setAccess _ => false
  | _ => true

theorem Action.eq_setAccess_of_not_isCall {a : Action} (ha : a.isCall = false) :
    ∃ access, a = .setAccess access := by
  cases a with
  | setAccess access => exact ⟨access, rfl⟩
  | _ => cases ha

namespace AddressSpace

variable {η α ε β : Type}

/-! ## Outcomes of operations -/

/-- The address space with another machine. -/
def onto (s : AddressSpace η α) (m : Machine η α) : AddressSpace η α := { s with machine := m }

@[simp] theorem machine_onto (s : AddressSpace η α) (m : Machine η α) :
    (s.onto m).machine = m := rfl

@[simp] theorem root_onto (s : AddressSpace η α) (m : Machine η α) : (s.onto m).root = s.root := rfl

@[simp] theorem access_onto (s : AddressSpace η α) (m : Machine η α) :
    (s.onto m).access = s.access := rfl

@[simp] theorem phase_onto (s : AddressSpace η α) (m : Machine η α) :
    (s.onto m).phase = s.phase := rfl

@[simp] theorem hierarchy_onto (s : AddressSpace η α) (m : Machine η α) :
    (s.onto m).hierarchy = s.hierarchy := rfl

@[simp] theorem root_hierarchy (s : AddressSpace η α) : s.hierarchy.root = s.root := rfl

theorem run_onMachine_of_eq {x : Hierarchy → Op (Machine η α) ε β} {s : AddressSpace η α}
    {r : Except (Stop ε) β} {m : Machine η α} (h : (x s.hierarchy).run s.machine = (r, m)) :
    (onMachine x).run s = (r, s.onto m) := by
  have hrun : (onMachine x).run s =
      (((x s.hierarchy).run s.machine).1, s.onto ((x s.hierarchy).run s.machine).2) := rfl
  rw [hrun, h]

/-- The outcome of an operation on the hierarchy is what it returns on the machine. -/
theorem conclude_onMachine_of_eq {x : Hierarchy → Op (Machine η α) ε β} {s : AddressSpace η α}
    {r : Except (Stop ε) β} {m : Machine η α} (h : (x s.hierarchy).run s.machine = (r, m))
    (error : ε → Refusal) (result : β → Outcome) :
    conclude error result (onMachine x) s = (.ofResult error result r, s.onto m) := by
  rw [conclude, run_onMachine_of_eq h]

/-- An operation on the hierarchy ends in the address space as it ends on the machine. -/
theorem onMachine_ends {x : Hierarchy → Op (Machine η α) ε β} {s : AddressSpace η α}
    {Q : β → Machine η α → Prop} {E : Stop ε → Machine η α → Prop}
    (h : (x s.hierarchy).Ends s.machine Q E) :
    (onMachine x).Ends s (fun b s' => ∃ m, s' = s.onto m ∧ Q b m)
      (fun stop s' => ∃ m, s' = s.onto m ∧ E stop m) := by
  cases h with
  | ok hrun hQ => exact .ok (run_onMachine_of_eq hrun) ⟨_, rfl, hQ⟩
  | error hrun hE => exact .error (run_onMachine_of_eq hrun) ⟨_, rfl, hE⟩

/-- The outcome of an operation tells how the operation has ended. -/
theorem conclude_ends {x : Op (AddressSpace η α) ε β} {s : AddressSpace η α}
    {Q : β → AddressSpace η α → Prop} {E : Stop ε → AddressSpace η α → Prop} (h : x.Ends s Q E)
    (error : ε → Refusal) (result : β → Outcome) :
    (∃ b s', conclude error result x s = (result b, s') ∧ Q b s') ∨
      ∃ stop s', conclude error result x s = (.refused (stop.refusal error), s') ∧ E stop s' := by
  cases h with
  | ok hrun hQ =>
    left
    refine ⟨_, _, ?_, hQ⟩
    rw [conclude, hrun]
    rfl
  | error hrun hE =>
    right
    refine ⟨_, _, ?_, hE⟩
    rw [conclude, hrun]
    rfl

/-- The outcome of an operation on the hierarchy tells how the operation has ended. -/
theorem conclude_onMachine {x : Hierarchy → Op (Machine η α) ε β} {s : AddressSpace η α}
    {Q : β → Machine η α → Prop} {E : Stop ε → Machine η α → Prop}
    (h : (x s.hierarchy).Ends s.machine Q E) (error : ε → Refusal) (result : β → Outcome) :
    (∃ b m, conclude error result (onMachine x) s = (result b, s.onto m) ∧ Q b m) ∨
      ∃ stop m, conclude error result (onMachine x) s =
        (.refused (stop.refusal error), s.onto m) ∧ E stop m := by
  rcases conclude_ends (onMachine_ends h) error result with
    ⟨b, _, hrun, m, rfl, hQ⟩ | ⟨stop, _, hrun, m, rfl, hE⟩
  · exact Or.inl ⟨b, m, hrun, hQ⟩
  · exact Or.inr ⟨stop, m, hrun, hE⟩

/-- What the ends of an operation have in common is true of its outcome. -/
theorem exists_conclude_onMachine {x : Hierarchy → Op (Machine η α) ε β} {s : AddressSpace η α}
    {R : Outcome → Machine η α → Prop} (error : ε → Refusal) (result : β → Outcome)
    (h : (x s.hierarchy).Ends s.machine (fun b m => R (result b) m)
      (fun stop m => R (.refused (stop.refusal error)) m)) :
    ∃ m, (conclude error result (onMachine x) s).2 = s.onto m ∧
      R (conclude error result (onMachine x) s).1 m := by
  rcases conclude_onMachine h error result with ⟨b, m, hrun, hend⟩ | ⟨stop, m, hrun, hend⟩
  · exact ⟨m, congrArg Prod.snd hrun, (congrArg Prod.fst hrun) ▸ hend⟩
  · exact ⟨m, congrArg Prod.snd hrun, (congrArg Prod.fst hrun) ▸ hend⟩

/-! ## Mapping, unmapping and translating -/

variable [Mmu η] [FrameSource α]

/-- An address space whose links are all its own, with a source of fresh frames. -/
structure OwnsTables (s : AddressSpace η α) : Prop where
  isEncodable : s.root.isEncodable
  orderly : s.machine.Orderly s.root
  ownLinks : s.machine.memory.OwnLinks s.root

/-- Its tables can be found. -/
abbrev Usable (s : AddressSpace η α) : Prop := s.hierarchy.Usable s.machine

/-- `m` is what an operation on the hierarchy makes of the machine of `s`, and in `s'` the hardware
may have loaded the root besides. -/
structure Evolves (s : AddressSpace η α) (m : Machine η α) (s' : AddressSpace η α) : Prop where
  changes : Changes s.hierarchy s.machine m
  agrees : m.Agrees s'.machine
  root : s'.root = s.root
  access : s'.access = s.access
  hardware : (s'.phase = s.phase ∧ s'.machine.mmu = s.machine.mmu) ∨
    (s'.phase = .active ∧ m.memory.SelfLinked s.root ∧
      Mmu.loadRoot s.machine.mmu s.root = .ok s'.machine.mmu)

theorem evolves_onto {s : AddressSpace η α} {m : Machine η α}
    (hc : Changes s.hierarchy s.machine m) : s.Evolves m (s.onto m) where
  changes := hc
  agrees := .refl m
  root := rfl
  access := rfl
  hardware := Or.inl ⟨rfl, hc.mmu_eq⟩

/-- What becomes of loading the root. -/
def load (s : AddressSpace η α) : Outcome × AddressSpace η α :=
  match s.machine.loadRoot s.root with
  | (.ok _, m) => (.done, { s with phase := .active, machine := m.log (.activated s.root) })
  | (.error stop, m) => (.refused (stop.refusal .activate), s.onto m)

theorem evolves_load {s : AddressSpace η α} {m : Machine η α}
    (hc : Changes s.hierarchy s.machine m) (hself : m.memory.SelfLinked s.root) :
    s.Evolves m (s.onto m).load.2 := by
  have hmmu := hc.mmu_eq
  have hagrees := m.agrees_loadRoot s.root
  unfold load
  rw [machine_onto, root_onto]
  cases hr : Mmu.loadRoot m.mmu s.root with
  | ok mmu =>
    -- The hardware has taken the root.
    have hload : m.loadRoot s.root = (.ok (), { m with mmu }.note (.loadedRoot s.root true)) := by
      simp only [Machine.loadRoot, hr]
    rw [hload] at hagrees ⊢
    -- The hardware that has accepted is the one that growth has left alone.
    refine ⟨hc, hagrees.trans (.note (by simp) _), rfl, rfl, Or.inr ⟨rfl, hself, ?_⟩⟩
    rw [← hmmu, hr]
    rfl
  | error stop =>
    -- It has refused, and is as it was.
    have hload : m.loadRoot s.root = (.error stop, m.note (.loadedRoot s.root false)) := by
      simp only [Machine.loadRoot, hr]
    rw [hload] at hagrees ⊢
    exact ⟨hc, hagrees, rfl, rfl, Or.inl ⟨rfl, hmmu⟩⟩

theorem perform_identityMap (s : AddressSpace η α) (pa : PhysAddr) (flags : PageFlags)
    (force : Bool) :
    s.perform (.identityMap pa flags force) = s.perform (.map ⟨pa.word⟩ pa flags force) := rfl

section Outcomes

variable {s : AddressSpace η α}

/-- Mapping does on the machine what it does on the hierarchy. -/
theorem perform_map_of_run {va : VirtAddr} {pa : PhysAddr} {flags : PageFlags} {force : Bool}
    {r : Except (Stop MapError) Unit} {m : Machine η α}
    (hrun : (s.hierarchy.map va pa flags force).run s.machine = (r, m)) :
    s.perform (.map va pa flags force) = (.ofResult .map (fun _ => .done) r, s.onto m) :=
  conclude_onMachine_of_eq (x := fun h => h.map va pa flags force) hrun _ _

/-- Unmapping does on the machine what it does on the hierarchy. -/
theorem perform_unmap_of_run {va : VirtAddr} {r : Except (Stop MapError) PhysAddr}
    {m : Machine η α} (hrun : (s.hierarchy.unmap va).run s.machine = (r, m)) :
    s.perform (.unmap va) = (.ofResult .map .address r, s.onto m) :=
  conclude_onMachine_of_eq (x := fun h => h.unmap va) hrun _ _

variable (hu : s.Usable)

include hu

/-- Mapping sets the leaf of the page, or it is refused and the hierarchy has only grown. -/
theorem perform_map (hroot : s.root.isEncodable) (ho : s.machine.Orderly s.root) (va : VirtAddr)
    (pa : PhysAddr) (flags : PageFlags) (force : Bool) :
    (∃ ix m, s.perform (.map va pa flags force) = (.done, s.onto m) ∧
      Hierarchy.mappable? va = some ix ∧
      (force = false → s.machine.memory.leaf s.root ix = .zero) ∧
      SetsLeaf s.hierarchy ix (.encode (.containing pa) (.ofPageFlags flags)) s.machine m) ∨
    ∃ cause m, s.perform (.map va pa flags force) = (.refused (.map cause), s.onto m) ∧
      GrowsTo s.hierarchy s.machine m := by
  have hends := Hierarchy.map_ends hu ho hroot va pa flags force
  rcases conclude_onMachine (x := fun h => h.map va pa flags force) (s := s) hends .map
    (fun _ => .done) with hdone | hrefused
  · obtain ⟨_, m, hrun, ix, hend⟩ := hdone
    exact Or.inl ⟨ix, m, hrun, hend⟩
  · obtain ⟨stop, m, hrun, hg, cause, rfl⟩ := hrefused
    exact Or.inr ⟨cause, m, hrun, hg⟩

/-- Translating has an answer and does nothing. -/
theorem perform_translate (va : VirtAddr) :
    ∃ pa, s.translate va = .ok pa ∧ s.perform (.translate va) = (.address pa, s) := by
  -- Every table on the way is found, so a translation never faults.
  obtain ⟨pa, hpa⟩ := Hierarchy.translate_ok hu va
  have htranslate : s.translate va = .ok pa := hpa
  refine ⟨pa, htranslate, ?_⟩
  simp only [perform, lookUp, htranslate, Outcome.ofResult_ok]

/-- Unmapping clears the leaf of the page, or it is refused because there is none. -/
theorem perform_unmap (va : VirtAddr) :
    (∃ ix m, s.perform (.unmap va) =
        (.address (s.machine.memory.leaf s.root ix).address, s.onto m) ∧
      Hierarchy.mappable? va = some ix ∧ s.machine.memory.leaf s.root ix ≠ .zero ∧
      SetsLeaf s.hierarchy ix .zero s.machine m) ∨
    ∃ cause m, s.perform (.unmap va) = (.refused (.map cause), s.onto m) ∧
      GrowsTo s.hierarchy s.machine m ∧
      (Hierarchy.mappable? va = none → cause = .invalidVirtual) ∧
      ∀ ix, Hierarchy.mappable? va = some ix → s.machine.memory.leaf s.root ix = .zero ∧
        (s.machine.memory.OwnLinks s.root → cause = .notMapped) := by
  have hends := Hierarchy.unmap_ends hu va
  rcases conclude_onMachine (x := fun h => h.unmap va) (s := s) hends .map .address with
    hdone | hrefused
  · obtain ⟨pa, m, hrun, ix, hva, hleaf, rfl, hs⟩ := hdone
    exact Or.inl ⟨ix, m, hrun, hva, hleaf, hs⟩
  · obtain ⟨stop, m, hrun, hg, cause, rfl, hcause⟩ := hrefused
    exact Or.inr ⟨cause, m, hrun, hg, hcause⟩

/-! ## Activating -/

omit hu in
/-- The root is loaded after it has been found. -/
theorem perform_activate_of_found {m : Machine η α}
    (hfound : (s.hierarchy.resolveRoot : Op (Machine η α) ActivateError Frame).run s.machine =
      (.ok s.root, m)) : s.perform .activate = (s.onto m).load := by
  have hroot : (onMachine fun h => h.resolveRoot :
      Op (AddressSpace η α) ActivateError Frame).run s = (.ok s.root, s.onto m) :=
    run_onMachine_of_eq hfound
  have hload : (onMachine fun _ m => m.loadRoot s.root :
      Op (AddressSpace η α) ActivateError Unit).run (s.onto m) =
        ((m.loadRoot s.root).1, s.onto (m.loadRoot s.root).2) := rfl
  rw [perform, conclude, activate, Op.run_bind_ok hroot, load, machine_onto, root_onto]
  -- The phase changes if the hardware takes the root, and only then.
  rcases hr : m.loadRoot s.root with ⟨r, m'⟩
  rw [hr] at hload
  cases r with
  | error stop =>
    rw [Op.run_bind_error hload]
    rfl
  | ok u =>
    rw [Op.run_bind_ok hload]
    rfl

/-- Activation is refused while the root is looked for, or the root is loaded. -/
theorem perform_activate (hroot : s.root.isEncodable) :
    ∃ m, GrowsTo s.hierarchy s.machine m ∧
      ((∃ cause, s.perform .activate = (.refused (.activate (.map cause)), s.onto m)) ∨
        m.memory.SelfLinked s.root ∧ s.perform .activate = (s.onto m).load) := by
  cases Hierarchy.resolveRoot_ends hu hroot with
  | @error stop m hrun hE =>
    obtain ⟨hg, cause, rfl⟩ := hE
    refine ⟨m, hg, Or.inl ⟨cause, ?_⟩⟩
    have hrefused : (onMachine fun h => h.resolveRoot :
        Op (AddressSpace η α) ActivateError Frame).run s =
          (.error (.error (.map cause)), s.onto m) := run_onMachine_of_eq hrun
    -- A root that is not found is never loaded.
    rw [perform, conclude, activate, Op.run_bind_error hrefused]
    rfl
  | @ok root m hrun hQ =>
    obtain ⟨rfl, hg, hself⟩ := hQ
    exact ⟨m, hg, Or.inr ⟨hself, perform_activate_of_found hrun⟩⟩

/-! ## Every call -/

/-- Mapping does nothing but change the machine. -/
theorem perform_map_onto (hroot : s.root.isEncodable) (ho : s.machine.Orderly s.root)
    (va : VirtAddr) (pa : PhysAddr) (flags : PageFlags) (force : Bool) :
    ∃ m, (s.perform (.map va pa flags force)).2 = s.onto m ∧ Changes s.hierarchy s.machine m := by
  rcases perform_map hu hroot ho va pa flags force with hdone | hrefused
  · obtain ⟨ix, m, hrun, hva, -, hs⟩ := hdone
    obtain ⟨-, -, hix⟩ := mappable?_eq_some_iff.mp hva
    rw [hrun]
    exact ⟨m, rfl, .setsLeaf ix _ hix hs⟩
  · obtain ⟨cause, m, hrun, hg⟩ := hrefused
    rw [hrun]
    exact ⟨m, rfl, .grows hg⟩

/-- Unmapping does nothing but change the machine. -/
theorem perform_unmap_onto (va : VirtAddr) :
    ∃ m, (s.perform (.unmap va)).2 = s.onto m ∧ Changes s.hierarchy s.machine m := by
  rcases perform_unmap hu va with hdone | hrefused
  · obtain ⟨ix, m, hrun, hva, -, hs⟩ := hdone
    obtain ⟨-, -, hix⟩ := mappable?_eq_some_iff.mp hva
    rw [hrun]
    exact ⟨m, rfl, .setsLeaf ix _ hix hs⟩
  · obtain ⟨cause, m, hrun, hg, -⟩ := hrefused
    rw [hrun]
    exact ⟨m, rfl, .grows hg⟩

/-- Whatever comes of a call, memory and requests change as by an operation on the hierarchy, and
the hardware stays as it is or has loaded the root. -/
theorem perform_evolves (hroot : s.root.isEncodable) (ho : s.machine.Orderly s.root) {a : Action}
    (ha : a.isCall = true) : ∃ m, s.Evolves m (s.perform a).2 := by
  cases a with
  | map va pa flags force =>
    obtain ⟨m, hrun, hc⟩ := perform_map_onto hu hroot ho va pa flags force
    rw [hrun]
    exact ⟨m, evolves_onto hc⟩
  | identityMap pa flags force =>
    obtain ⟨m, hrun, hc⟩ := perform_map_onto hu hroot ho ⟨pa.word⟩ pa flags force
    rw [perform_identityMap, hrun]
    exact ⟨m, evolves_onto hc⟩
  | unmap va =>
    obtain ⟨m, hrun, hc⟩ := perform_unmap_onto hu va
    rw [hrun]
    exact ⟨m, evolves_onto hc⟩
  | translate va => exact ⟨s.machine, evolves_onto (.grows .refl)⟩
  | activate =>
    obtain ⟨m, hg, hcases⟩ := perform_activate hu hroot
    rcases hcases with ⟨cause, hrun⟩ | ⟨hself, hrun⟩
    · rw [hrun]
      exact ⟨m, evolves_onto (.grows hg)⟩
    · rw [hrun]
      exact ⟨m, evolves_load (.grows hg) hself⟩
  | setAccess access => cases ha

/-- Every action changes memory and requests as an operation on the hierarchy does. -/
theorem perform_changes (hroot : s.root.isEncodable) (ho : s.machine.Orderly s.root) (a : Action) :
    ∃ m, Changes s.hierarchy s.machine m ∧ m.Agrees (s.perform a).2.machine ∧
      (s.perform a).2.root = s.root := by
  cases ha : a.isCall with
  | true =>
    obtain ⟨m, he⟩ := perform_evolves hu hroot ho ha
    exact ⟨m, he.changes, he.agrees, he.root⟩
  | false =>
    -- Saying how the tables are reached changes no machine.
    obtain ⟨access, rfl⟩ := Action.eq_setAccess_of_not_isCall ha
    exact ⟨s.machine, .grows .refl, .refl s.machine, rfl⟩

end Outcomes

/-! ## What every call keeps -/

namespace Evolves

variable {s s' : AddressSpace η α} {m : Machine η α} (he : s.Evolves m s')

include he

/-- No call makes an address space inactive. -/
theorem active (hactive : s.phase = .active) : s'.phase = .active := by
  rcases he.hardware with ⟨hphase, -⟩ | ⟨hphase, -, -⟩
  · exact hphase.trans hactive
  · exact hphase

theorem orderly (ho : s.machine.Orderly s.root) : s'.machine.Orderly s'.root := by
  rw [he.root]
  exact he.agrees.orderly (he.changes.orderly ho)

/-- The root's own slot is kept once it holds the link. -/
theorem read_self (ho : s.machine.Orderly s.root)
    (hlink : s.machine.memory.read s.root selfIndex = .selfLink s.root) :
    s'.machine.memory.read s'.root selfIndex = .selfLink s'.root := by
  -- The link is a present entry of the root, and no change of the tables touches one.
  have hread := he.changes.read_of_present ho (Or.inr rfl) (j := selfIndex)
  rw [he.root, he.agrees.memory, ← hlink]
  apply hread
  rw [root_hierarchy, hlink, Entry.present_selfLink]

theorem selfLinked (ho : s.machine.Orderly s.root)
    (hself : s.machine.memory.SelfLinked s.root) : s'.machine.memory.SelfLinked s'.root := by
  rw [he.root, he.agrees.memory]
  exact he.changes.selfLinked ho hself

end Evolves

/-- After a call an address space still owns its tables. -/
theorem OwnsTables.evolves {s s' : AddressSpace η α} {m : Machine η α} (ht : s.OwnsTables)
    (he : s.Evolves m s') : s'.OwnsTables := by
  refine ⟨?_, he.orderly ht.orderly, ?_⟩
  · rw [he.root]
    exact ht.isEncodable
  · rw [he.root, he.agrees.memory]
    exact he.changes.ownLinks ht.orderly ht.ownLinks

omit [Mmu η] in
/-- Over an empty root there is no table yet that it might not own. -/
theorem ownsTables_create {root : Frame} {mem : Memory} {frames : α} (access : Access) (mmu : η)
    (hroot : root.isEncodable) (hzero : mem.table root = .zero)
    (hfresh : FrameSource.Fresh (· ≠ root) frames) :
    (create root access mmu frames mem).OwnsTables where
  isEncodable := hroot
  orderly := by
    refine ⟨Memory.apart_of_zero hzero, hfresh.mono fun f hf => ?_⟩
    -- The root is the only table yet.
    show ¬ mem.IsTable root f
    rwa [Memory.isTable_of_zero hzero]
  ownLinks := Memory.ownLinks_of_zero hzero

end AddressSpace

end Paging
