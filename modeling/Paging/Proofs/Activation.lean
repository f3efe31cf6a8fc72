import Paging.AddressSpace.Basic
import Paging.Proofs.MapOutcome

/-!
# How activation ends

Activation finds the frame of the root, which links to itself from then on, and hands it to the
hardware. Through the window the root is where its own slot says it is; while frames are used
directly the slot is filled first if it is empty. Apart from that link memory is left alone.
-/

namespace Paging

namespace Hierarchy

variable {η α : Type} [Mmu η]

/-! ## The root -/

/-- The root is the table at the first level of any walk. -/
theorem windowTable_root {h : Hierarchy} {m : Machine η α} (hu : h.Usable m)
    (ha : h.access = .window) : Mmu.windowTable m.mmu m.memory Window.root = .ok h.root := by
  -- Any indices will do, since no link is followed to come to the root.
  have hl : h.locate m.mmu m.memory .l4 ⟨0, 0, 0, 0⟩ h.root = .ok h.root := hu.locate rfl
  have hroot := windowTable_of_locate ha hl
  exact hroot

/-- A root that links to itself is found either way, and nothing is changed. -/
theorem run_resolveRoot_of_selfLinked {h : Hierarchy} {m : Machine η α} (hu : h.Usable m)
    (hself : m.memory.SelfLinked h.root) :
    (h.resolveRoot : Op (Machine η α) ActivateError Frame).run m = (.ok h.root, m) := by
  rw [run_resolveRoot]
  cases ha : h.access with
  | identity => simp only [run_ensureSelfLink_of_selfLinked hself]
  | window => simp only [windowTable_root hu ha, hself.1, hself.2, if_true]

/-- While frames are used directly the root is found wherever linking it to itself ends. -/
theorem resolveRoot_ends_of_identity {h : Hierarchy} (ha : h.access = .identity) {m : Machine η α}
    {Q : Machine η α → Prop} {E : Stop MapError → Machine η α → Prop}
    (hlinked : h.ensureSelfLink.Ends m (fun _ m' => Q m') E) :
    h.resolveRoot.Ends m (fun root m' => root = h.root ∧ Q m')
      (fun stop m' => ∃ stop', stop = stop'.mapError .map ∧ E stop' m') := by
  have hfound := run_resolveRoot h m
  rw [ha] at hfound
  cases hlinked with
  | ok hrun hend =>
    rw [hrun] at hfound
    exact .ok hfound ⟨rfl, hend⟩
  | error hrun hend =>
    rw [hrun] at hfound
    exact .error hfound ⟨_, rfl, hend⟩

/-- The root is found and links to itself, or activation stops before the hardware is told anything.
-/
theorem resolveRoot_ends [FrameSource α] {h : Hierarchy} {m : Machine η α} (hu : h.Usable m)
    (hroot : h.root.isEncodable) :
    (h.resolveRoot : Op (Machine η α) ActivateError Frame).Ends m
      (fun root m' => root = h.root ∧ GrowsTo h m m' ∧ m'.memory.SelfLinked h.root)
      (fun stop m' => GrowsTo h m m' ∧ ∃ cause, stop = .error (.map cause)) := by
  by_cases hself : m.memory.SelfLinked h.root
  · exact .ok (run_resolveRoot_of_selfLinked hu hself) ⟨rfl, .refl, hself⟩
  -- A root without its link is not used through the window.
  have ha := hu.access_of_not_selfLinked hself
  apply (resolveRoot_ends_of_identity ha (ensureSelfLink_ends hu hroot)).mono
  · exact fun _ _ hend => hend
  · rintro stop m' ⟨stop', rfl, hg, cause, rfl⟩
    exact ⟨hg, cause, rfl⟩

end Hierarchy

/-! ## Loading the root -/

namespace Machine

variable {η α : Type}

/-- Two machines that differ in their hardware, and in what was logged or loaded, only. -/
structure Agrees (m m' : Machine η α) : Prop where
  memory : m'.memory = m.memory
  frames : m'.frames = m.frames
  requested : ∀ a, Event.requested a ∈ m'.trace ↔ Event.requested a ∈ m.trace

namespace Agrees

variable {m m' m'' : Machine η α}

theorem refl (m : Machine η α) : m.Agrees m := ⟨rfl, rfl, fun _ => Iff.rfl⟩

theorem trans (h : m.Agrees m') (h' : m'.Agrees m'') : m.Agrees m'' :=
  ⟨h'.memory.trans h.memory, h'.frames.trans h.frames,
    fun a => (h'.requested a).trans (h.requested a)⟩

theorem note {e : Event} (he : ∀ a, e ≠ .requested a) (m : Machine η α) : m.Agrees (m.note e) := by
  refine ⟨rfl, rfl, fun a => ?_⟩
  rw [trace_note, List.mem_cons]
  constructor
  · intro hmem
    -- The event that is noted is no request.
    exact hmem.resolve_left (he a).symm
  · exact Or.inr

theorem mmu (m : Machine η α) (mmu : η) : m.Agrees { m with mmu } := ⟨rfl, rfl, fun _ => Iff.rfl⟩

theorem orderly [FrameSource α] {root : Frame} (h : m.Agrees m') (ho : m.Orderly root) :
    m'.Orderly root := by
  refine ⟨?_, ?_⟩
  · rw [h.memory]
    exact ho.apart
  · rw [h.memory, h.frames]
    exact ho.fresh

theorem accounted {root : Frame} (h : m.Agrees m') (ha : m.Accounted root) :
    m'.Accounted root := by
  intro f
  rw [h.requested, h.memory]
  exact ha f

end Agrees

variable [Mmu η]

/-- Loading a root changes nothing but the hardware. -/
theorem agrees_loadRoot (m : Machine η α) (root : Frame) : m.Agrees (m.loadRoot root).2 := by
  unfold loadRoot
  split
  · -- The hardware has taken the root, and the attempt is noted.
    rename_i mmu _
    exact (Agrees.mmu m mmu).trans (Agrees.note (by simp) _)
  · exact Agrees.note (by simp) m

end Machine

end Paging
