import Paging.Proofs.Runs
import Paging.Proofs.ScriptedFrames

/-!
# Direct access and the window agree

An active address space whose root links to itself and is loaded answers every call alike, whether
it uses its frames directly or goes through the window, and it does the same to its machine: the
memory, the requests, the invalidations and everything else in the trace are equal. So it makes no
difference when, or how often, the way to the tables is switched between two calls.
-/

namespace Paging

namespace AddressSpace

variable {η α ε β : Type} [Mmu η] [FrameSource α]

/-! ## Calls and replies -/

/-- The outcomes of the calls among a list of actions. -/
def replies (s : AddressSpace η α) (actions : List Action) : List Outcome :=
  ((actions.zip (s.performAll actions).1).filter fun p => p.1.isCall).map Prod.snd

theorem performAll_cons (s : AddressSpace η α) (a : Action) (rest : List Action) :
    s.performAll (a :: rest) =
      ((s.perform a).1 :: ((s.perform a).2.performAll rest).1,
        ((s.perform a).2.performAll rest).2) := rfl

theorem replies_cons_of_isCall (s : AddressSpace η α) {a : Action} (ha : a.isCall = true)
    (rest : List Action) :
    s.replies (a :: rest) = (s.perform a).1 :: (s.perform a).2.replies rest := by
  simp [replies, performAll_cons, ha]

theorem replies_cons_of_not_isCall (s : AddressSpace η α) {a : Action} (ha : a.isCall = false)
    (rest : List Action) : s.replies (a :: rest) = (s.perform a).2.replies rest := by
  simp [replies, performAll_cons, ha]

/-! ## Address spaces that work either way -/

/-- An active address space whose tables can be found through the window as well as directly. -/
structure Steady [WalkingMmu η] (s : AddressSpace η α) : Prop where
  active : s.phase = .active
  loaded : WalkingMmu.loaded? s.machine.mmu = some s.root
  installed : ∀ f, WalkingMmu.installed s.machine.mmu f = true
  orderly : s.machine.Orderly s.root
  selfLinked : s.machine.memory.SelfLinked s.root

/-- The address space with its frames used directly. -/
def direct (s : AddressSpace η α) : AddressSpace η α := s.setAccess .identity

omit [Mmu η] [FrameSource α] in
theorem hierarchy_direct {s : AddressSpace η α} (hactive : s.phase = .active) :
    s.direct.hierarchy = s.hierarchy.direct := by
  have hlive : s.isLive = true := by simp [isLive, hactive]
  have hlive' : s.direct.isLive = true := by simp [isLive, direct, setAccess, hactive]
  rw [hierarchy, hlive', hierarchy, hlive]
  rfl

omit [Mmu η] [FrameSource α] in
/-- An operation that runs alike either way has the same outcome either way. -/
theorem conclude_onMachine_direct {x : Hierarchy → Op (Machine η α) ε β} {s : AddressSpace η α}
    (h : (x s.direct.hierarchy).run s.machine = (x s.hierarchy).run s.machine)
    (error : ε → Refusal) (result : β → Outcome) :
    conclude error result (onMachine x) s.direct =
      ((conclude error result (onMachine x) s).1,
        (conclude error result (onMachine x) s).2.direct) := by
  rcases hr : (x s.hierarchy).run s.machine with ⟨r, m⟩
  rw [hr] at h
  rw [conclude_onMachine_of_eq h, conclude_onMachine_of_eq hr]
  rfl

omit [FrameSource α] in
theorem load_direct (s : AddressSpace η α) : s.direct.load = (s.load.1, s.load.2.direct) := by
  have hload : s.direct.machine.loadRoot s.direct.root = s.machine.loadRoot s.root := rfl
  unfold load
  rw [hload]
  rcases s.machine.loadRoot s.root with ⟨_ | _, m⟩ <;> rfl

/-- A sound address space that is active works either way. -/
theorem Sound.steady [WalkingMmu η] {s : AddressSpace η α} (hs : s.Sound)
    (hactive : s.phase = .active) (hi : s.Installed) : s.Steady where
  active := hactive
  loaded := (hs.active hactive).loaded
  installed := hi
  orderly := hs.orderly
  selfLinked := Memory.selfLinked_of_eq_selfLink hs.isEncodable (hs.active hactive).selfLink

namespace Steady

variable [WalkingMmu η] {s : AddressSpace η α} (hs : s.Steady)

include hs

theorem isEncodable : s.root.isEncodable := by
  -- The root is what one of its entries names, and an entry names encodable frames only.
  rw [← hs.selfLinked.2]
  exact Entry.isEncodable_frame _

theorem usable : s.Usable where
  finds := Hierarchy.finds_of_window hs.loaded hs.installed
  selfLinked _ := hs.selfLinked

theorem setAccess (access : Access) : (s.setAccess access).Steady :=
  ⟨hs.active, hs.loaded, hs.installed, hs.orderly, hs.selfLinked⟩

/-- Every action keeps the address space working either way. -/
theorem perform (a : Action) : (s.perform a).2.Steady := by
  cases ha : a.isCall with
  | false =>
    obtain ⟨access, rfl⟩ := Action.eq_setAccess_of_not_isCall ha
    exact hs.setAccess access
  | true =>
    obtain ⟨m, he⟩ := perform_evolves hs.usable hs.isEncodable hs.orderly ha
    exact ⟨he.active hs.active, he.loaded hs.loaded, he.installed hs.installed,
      he.orderly hs.orderly, he.selfLinked hs.orderly hs.selfLinked⟩

/-! ## One call -/

/-- A call has the same outcome and does the same either way. -/
theorem perform_direct {a : Action} (ha : a.isCall = true) :
    s.direct.perform a = ((s.perform a).1, (s.perform a).2.direct) := by
  have hh := hierarchy_direct hs.active
  -- An identity mapping is a mapping, so this is needed twice.
  have hmap : ∀ va pa flags force, s.direct.perform (.map va pa flags force) =
      ((s.perform (.map va pa flags force)).1,
        (s.perform (.map va pa flags force)).2.direct) := by
    intro va pa flags force
    have hrun : (s.direct.hierarchy.map va pa flags force).run s.machine =
        (s.hierarchy.map va pa flags force).run s.machine := by
      rw [hh]
      exact (Hierarchy.run_map_eq_direct hs.usable hs.orderly hs.selfLinked va pa flags force).symm
    exact conclude_onMachine_direct (x := fun h => h.map va pa flags force) hrun .map fun _ => .done
  cases a with
  | map va pa flags force => exact hmap va pa flags force
  | identityMap pa flags force => exact hmap ⟨pa.word⟩ pa flags force
  | unmap va =>
    have hrun : (s.direct.hierarchy.unmap va).run s.machine =
        (s.hierarchy.unmap va).run s.machine := by
      rw [hh]
      exact (Hierarchy.run_unmap_eq_direct hs.usable va).symm
    exact conclude_onMachine_direct (x := fun h => h.unmap va) hrun .map .address
  | translate va =>
    have htranslate : s.direct.translate va = s.translate va := by
      have heq := Hierarchy.translate_eq_direct hs.usable va
      rw [← hh] at heq
      exact heq.symm
    have hlook : s.direct.lookUp va = s.lookUp va := by
      unfold lookUp
      rw [htranslate]
    show (s.direct.lookUp va, s.direct) = (s.lookUp va, s.direct)
    rw [hlook]
  | activate =>
    -- Either way finds the root that links to itself, and the same root is loaded.
    have hfound := Hierarchy.run_resolveRoot_of_selfLinked hs.usable hs.selfLinked
    have hfound' := Hierarchy.run_resolveRoot_of_selfLinked
      (hs.setAccess .identity).usable hs.selfLinked
    rw [perform_activate_of_found hfound, perform_activate_of_found (s := s.direct) hfound']
    exact load_direct s
  | setAccess access => cases ha

/-- No call faults. -/
theorem perform_ne_fault (a : Action) (c : Fault) : (s.perform a).1 ≠ .refused (.fault c) := by
  have hmap : ∀ va pa flags force,
      (s.perform (.map va pa flags force)).1 ≠ .refused (.fault c) := by
    intro va pa flags force
    rcases perform_map hs.usable hs.isEncodable hs.orderly va pa flags force with hdone | hrefused
    · obtain ⟨ix, m, hrun, -⟩ := hdone
      simp [hrun]
    · obtain ⟨cause, m, hrun, -⟩ := hrefused
      simp [hrun]
  cases a with
  | map va pa flags force => exact hmap va pa flags force
  | identityMap pa flags force => exact hmap ⟨pa.word⟩ pa flags force
  | unmap va =>
    rcases perform_unmap hs.usable va with hdone | hrefused
    · obtain ⟨ix, m, hrun, -⟩ := hdone
      simp [hrun]
    · obtain ⟨cause, m, hrun, -⟩ := hrefused
      simp [hrun]
  | translate va =>
    obtain ⟨pa, -, hrun⟩ := perform_translate hs.usable va
    simp [hrun]
  | activate =>
    -- The hardware may refuse a root, but loading one is no access that could fault.
    rw [perform_activate_of_found
      (Hierarchy.run_resolveRoot_of_selfLinked hs.usable hs.selfLinked)]
    unfold load Machine.loadRoot
    cases hload : Mmu.loadRoot s.machine.mmu s.root with
    | ok mmu =>
      rw [machine_onto, root_onto, hload]
      simp
    | error stop =>
      have hstop := WalkingMmu.loadRoot_ne_fault s.machine.mmu s.root c
      rw [hload] at hstop
      rw [machine_onto, root_onto, hload]
      cases stop <;> simp_all [Stop.refusal]
  | setAccess access => simp [AddressSpace.perform]

/-! ## Any number of calls -/

/-- Whatever is switched on the way, a list of actions comes to what its calls come to when the
frames are used directly. -/
theorem performAll_direct (actions : List Action) :
    s.replies actions = (s.direct.performAll (actions.filter Action.isCall)).1 ∧
      (s.performAll actions).2.direct =
        (s.direct.performAll (actions.filter Action.isCall)).2 := by
  induction actions generalizing s with
  | nil => exact ⟨rfl, rfl⟩
  | cons a rest ih =>
    have hrest := ih (hs.perform a)
    cases ha : a.isCall with
    | true =>
      -- The call is answered alike, and `direct` of its end is where the direct run goes on.
      rw [List.filter_cons_of_pos ha, replies_cons_of_isCall s ha, performAll_cons,
        performAll_cons, hs.perform_direct ha]
      exact ⟨congrArg _ hrest.1, hrest.2⟩
    | false =>
      -- Switching is forgotten by `direct`.
      have hswitch : (s.perform a).2.direct = s.direct := by
        obtain ⟨access, rfl⟩ := Action.eq_setAccess_of_not_isCall ha
        rfl
      rw [hswitch] at hrest
      rw [List.filter_cons_of_neg (by simp [ha]), replies_cons_of_not_isCall s ha, performAll_cons]
      exact hrest

theorem replies_ne_fault (actions : List Action) (c : Fault) :
    .refused (.fault c) ∉ s.replies actions := by
  induction actions generalizing s with
  | nil => simp [replies]
  | cons a rest ih =>
    cases ha : a.isCall with
    | true =>
      rw [replies_cons_of_isCall s ha, List.mem_cons, not_or]
      exact ⟨(hs.perform_ne_fault a c).symm, ih (hs.perform a)⟩
    | false =>
      rw [replies_cons_of_not_isCall s ha]
      exact ih (hs.perform a)

end Steady

/-- Two lists of actions with the same calls are answered alike and end on the same machine, however
the way to the tables is chosen at first and switched later; and no call faults. -/
theorem replies_eq_of_same_calls [WalkingMmu η] {s : AddressSpace η α} (hs : s.Steady)
    (access access' : Access) {actions actions' : List Action}
    (hcalls : actions.filter Action.isCall = actions'.filter Action.isCall) :
    (s.setAccess access).replies actions = (s.setAccess access').replies actions' ∧
      ((s.setAccess access).performAll actions).2.machine =
        ((s.setAccess access').performAll actions').2.machine ∧
      ∀ c, .refused (.fault c) ∉ (s.setAccess access).replies actions := by
  have hone := (hs.setAccess access).performAll_direct actions
  have hother := (hs.setAccess access').performAll_direct actions'
  have hsame : (s.setAccess access).direct = (s.setAccess access').direct := rfl
  rw [hcalls, hsame] at hone
  refine ⟨hone.1.trans hother.1.symm, ?_, (hs.setAccess access).replies_ne_fault actions⟩
  -- The two ends may differ in their access, but not in their machine.
  have hend := congrArg machine (hone.2.trans hother.2.symm)
  exact hend

/-- A second page is mapped through the window as it is mapped directly. -/
theorem replies_eq_of_same_calls_specimen :
    let s := ((Specimen.start.perform (.map ⟨0x400000⟩ ⟨0x9000⟩ .kernelData false)).2.perform
      .activate).2
    let call : Action := .map ⟨0x8000000000⟩ ⟨0xA000⟩ .kernelCode false
    let other : Action := .map ⟨0x400000⟩ ⟨0xB000⟩ .kernelCode true
    (s.setAccess .identity).replies [call, other] =
        (s.setAccess .window).replies [call, .setAccess .identity, other] ∧
      ((s.setAccess .identity).performAll [call, other]).2.machine =
        ((s.setAccess .window).performAll [call, .setAccess .identity, other]).2.machine ∧
      ∀ c, .refused (.fault c) ∉ (s.setAccess .identity).replies [call, other] := by
  intro s call other
  have hstart : Specimen.start.Sound := sound_create Specimen.hardware Specimen.isEncodable_root
    Specimen.table_root Specimen.fresh_source
  have hmapped := hstart.perform (a := .map ⟨0x400000⟩ ⟨0x9000⟩ .kernelData false) trivial
  have hinstalled := hstart.installed_perform (fun _ => rfl)
    (.map ⟨0x400000⟩ ⟨0x9000⟩ .kernelData false)
  have hactive := hmapped.perform (a := .activate) trivial
  have hs : s.Steady :=
    hactive.steady (by decide +kernel) (hmapped.installed_perform hinstalled .activate)
  exact replies_eq_of_same_calls hs .identity .window rfl

end AddressSpace

end Paging
