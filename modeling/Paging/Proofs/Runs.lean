import Paging.Proofs.Actions

/-!
# Runs of an address space

A run is sensible if the window is used only once the hierarchy is active and the walks of the
hardware stay in memory. In a sensible run an address space stays *sound*: it owns its tables, and
as soon as it is active or goes through the window its root is loaded and links to itself.
-/

namespace Paging

namespace AddressSpace

variable {η α : Type} [Mmu η] [WalkingMmu η]

/-- The root is loaded and links to itself. -/
structure Loaded (s : AddressSpace η α) : Prop where
  loaded : WalkingMmu.loaded? s.machine.mmu = some s.root
  selfLink : s.machine.memory.read s.root selfIndex = .selfLink s.root

/-- The walks of the hardware stay in memory. -/
def Installed (s : AddressSpace η α) : Prop :=
  ∀ f, WalkingMmu.installed s.machine.mmu f = true

/-- Going over to the window is permitted once the hierarchy is active, and everything else is
permitted always. -/
def Permits (s : AddressSpace η α) : Action → Prop
  | .setAccess .window => s.phase = .active ∧ s.Installed
  | _ => True

variable [FrameSource α]

/-! ## What a call leaves loaded -/

namespace Evolves

variable {s s' : AddressSpace η α} {m : Machine η α} (he : s.Evolves m s')

include he

/-- The only root that a call can load is that of the address space. -/
theorem loaded (hl : WalkingMmu.loaded? s.machine.mmu = some s.root) :
    WalkingMmu.loaded? s'.machine.mmu = some s'.root := by
  rw [he.root]
  -- Either the hardware is as it was, or it has loaded this very root.
  rcases he.hardware with ⟨-, hmmu⟩ | ⟨-, -, hload⟩
  · rw [hmmu, hl]
  · exact WalkingMmu.loaded_of_loadRoot hload

/-- No call takes memory away. -/
theorem installed (hi : s.Installed) : s'.Installed := by
  intro f
  rcases he.hardware with ⟨-, hmmu⟩ | ⟨-, -, hload⟩
  · rw [hmmu]
    exact hi f
  · rw [WalkingMmu.installed_of_loadRoot hload]
    exact hi f

theorem keepsLoaded (ho : s.machine.Orderly s.root) (hl : s.Loaded) : s'.Loaded :=
  ⟨he.loaded hl.loaded, he.read_self ho hl.selfLink⟩

end Evolves

/-! ## One action -/

/-- Every action of a list is permitted when its turn comes. -/
def PermitsAll (s : AddressSpace η α) : List Action → Prop
  | [] => True
  | a :: rest => s.Permits a ∧ (s.perform a).2.PermitsAll rest

/-- An address space that owns its tables and is loaded whenever it has to be. -/
structure Sound (s : AddressSpace η α) : Prop extends OwnsTables s where
  active : s.phase = .active → s.Loaded
  window : s.access = .window → s.Loaded ∧ s.Installed

/-- A new address space over an empty root is sound. -/
theorem sound_create {root : Frame} {mem : Memory} {frames : α} (mmu : η)
    (hroot : root.isEncodable) (hzero : mem.table root = .zero)
    (hfresh : FrameSource.Fresh (· ≠ root) frames) :
    (create root .identity mmu frames mem).Sound where
  toOwnsTables := ownsTables_create .identity mmu hroot hzero hfresh
  active hphase := by cases hphase
  window haccess := by cases haccess

namespace Sound

variable {s : AddressSpace η α} (hs : s.Sound)

include hs

/-- Its tables can be found, whichever way is chosen. -/
theorem usable : s.Usable := by
  cases haccess : s.access with
  | identity => exact Hierarchy.usable_of_identity haccess s.machine
  | window =>
    obtain ⟨hloaded, hinstalled⟩ := hs.window haccess
    refine ⟨Hierarchy.finds_of_window hloaded.loaded hinstalled, fun _ => ?_⟩
    -- An exact link to itself leads back to the root, since the entry has room for it.
    exact Memory.selfLinked_of_eq_selfLink hs.isEncodable hloaded.selfLink

/-- Every permitted action keeps the address space sound. -/
theorem perform {a : Action} (hp : s.Permits a) : (s.perform a).2.Sound := by
  cases ha : a.isCall with
  | false =>
    obtain ⟨access, rfl⟩ := Action.eq_setAccess_of_not_isCall ha
    -- Nothing but the way to the tables changes, and the window is permitted once it is loaded.
    have hkeep : s.Loaded → (s.setAccess access).Loaded := fun hl => ⟨hl.loaded, hl.selfLink⟩
    refine ⟨⟨hs.isEncodable, hs.orderly, hs.ownLinks⟩, fun hactive => ?_, fun haccess => ?_⟩
    · exact hkeep (hs.active hactive)
    · obtain rfl : access = .window := haccess
      exact ⟨hkeep (hs.active hp.1), hp.2⟩
  | true =>
    obtain ⟨m, he⟩ := perform_evolves hs.usable hs.isEncodable hs.orderly ha
    have howns := hs.toOwnsTables.evolves he
    refine ⟨howns, fun hactive => ?_, fun haccess => ?_⟩
    · rcases he.hardware with ⟨hphase, -⟩ | ⟨-, hself, hload⟩
      · -- It was active before.
        exact he.keepsLoaded hs.orderly (hs.active (hphase ▸ hactive))
      · -- The root has just been loaded, after it was made to link to itself.
        have hself' : (s.perform a).2.machine.memory.SelfLinked (s.perform a).2.root := by
          rw [he.root, he.agrees.memory]
          exact hself
        refine ⟨?_, howns.ownLinks.read_self hself'⟩
        rw [he.root]
        exact WalkingMmu.loaded_of_loadRoot hload
    · -- No call changes the access, so the window was in use before.
      obtain ⟨hl, hi⟩ := hs.window (he.access ▸ haccess)
      exact ⟨he.keepsLoaded hs.orderly hl, he.installed hi⟩

/-- No action takes memory away. -/
theorem installed_perform (hi : s.Installed) (a : Action) : (s.perform a).2.Installed := by
  cases ha : a.isCall with
  | false =>
    obtain ⟨access, rfl⟩ := Action.eq_setAccess_of_not_isCall ha
    exact hi
  | true =>
    obtain ⟨m, he⟩ := perform_evolves hs.usable hs.isEncodable hs.orderly ha
    exact he.installed hi

/-! ## A whole run -/

theorem performAll {actions : List Action} (hp : s.PermitsAll actions) :
    (s.performAll actions).2.Sound := by
  induction actions generalizing s with
  | nil => exact hs
  | cons a rest ih => exact ih (hs.perform hp.1) hp.2

theorem root_performAll {actions : List Action} (hp : s.PermitsAll actions) :
    (s.performAll actions).2.root = s.root := by
  induction actions generalizing s with
  | nil => rfl
  | cons a rest ih =>
    obtain ⟨_, -, -, hroot⟩ := perform_changes hs.usable hs.isEncodable hs.orderly a
    -- The root of the remaining run is the root after the first action.
    rw [← hroot]
    exact ih (hs.perform hp.1) hp.2

end Sound

end AddressSpace

end Paging
