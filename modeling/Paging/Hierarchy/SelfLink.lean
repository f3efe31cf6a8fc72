import Paging.Hierarchy.Basic

/-!
# The root's link to itself

The window works only if the root links to itself. The link is made while the root can still be
used directly; later it is where the root's frame is found.
-/

namespace Paging

namespace Hierarchy

variable {η α : Type}

/-- Makes the root's link to itself if the slot is empty. An entry that does not name the root
is refused. Through the window the link is there already, or nothing could be reached. -/
def ensureSelfLink (h : Hierarchy) : Op (Machine η α) MapError Unit :=
  match h.access with
  | .window => pure ()
  | .identity => do
    let slot ← .observe fun m => .ok (m.memory.read h.root selfIndex)
    if slot.isZero then
      let link ← .demand .unencodableFrame (Entry.encode? h.root .selfLink)
      .change (·.write h.root selfIndex link)
      log (.linkedSelf h.root)
    else if slot.present && slot.frame == h.root then
      pure ()
    else
      log (.foreignSelf h.root slot)
      .refuse .foreignEntry

/-- The frame of the root as the hardware has to know it. -/
def resolveRoot [Mmu η] (h : Hierarchy) : Op (Machine η α) ActivateError Frame :=
  match h.access with
  | .identity => do
    (h.ensureSelfLink).mapError .map
    return h.root
  | .window => do
    let slot ← .observe fun m => do
      return m.memory.read (← shown m.mmu m.memory Window.root?) selfIndex
    if slot.present then return slot.frame
    else .refuse .selfLinkMissing

/-! ## Running the steps -/

/-- The root's own slot is left as it is if nothing has to be done, filled if it is empty, and
refused otherwise. -/
theorem run_ensureSelfLink (h : Hierarchy) (m : Machine η α) :
    h.ensureSelfLink.run m =
      let slot := m.memory.read h.root selfIndex
      if h.access = .window ∨ m.memory.SelfLinked h.root then (.ok (), m)
      else if slot ≠ .zero then (.error (.error .foreignEntry), m.log (.foreignSelf h.root slot))
      else if h.root.isEncodable then
        (.ok (), (m.write h.root selfIndex (.selfLink h.root)).log (.linkedSelf h.root))
      else (.error (.violation .unencodableFrame), m) := by
  cases ha : h.access with
  | window => simp only [ensureSelfLink, ha, true_or, if_true, Op.run_pure]
  | identity =>
    have hread : (Op.observe fun m => .ok (m.memory.read h.root selfIndex) :
        Op (Machine η α) MapError Entry).run m = (.ok (m.memory.read h.root selfIndex), m) := rfl
    simp only [ensureSelfLink, ha, reduceCtorEq, false_or]
    rw [Op.run_bind_ok hread]
    by_cases hself : m.memory.SelfLinked h.root
    · -- A link is no empty slot, so the order of the two tests does not matter.
      have hnonzero : ¬ (m.memory.read h.root selfIndex).isZero := by
        rw [Entry.isZero_iff]
        exact hself.read_ne_zero
      rw [if_pos hself, if_neg hnonzero, if_pos (by simp [hself.1, hself.2]), Op.run_pure]
    rw [if_neg hself]
    by_cases hzero : m.memory.read h.root selfIndex = .zero
    · rw [if_neg (not_not_intro hzero), if_pos (Entry.isZero_iff.mpr hzero)]
      cases hroot : h.root.isEncodable with
      | true =>
        rw [Entry.encode?_of_isEncodable hroot, Op.run_bind_ok (Op.run_demand_some ..)]
        rfl
      | false =>
        -- A root that no entry has room for cannot be linked.
        rw [Entry.encode?_of_not_isEncodable hroot, Op.run_bind_error (Op.run_demand_none ..)]
        rfl
    · have hforeign : ¬ ((m.memory.read h.root selfIndex).present &&
          (m.memory.read h.root selfIndex).frame == h.root) = true := by
        rw [Bool.and_eq_true, beq_iff_eq]
        exact hself
      rw [if_pos hzero, if_neg (by rwa [Entry.isZero_iff]), if_neg hforeign, run_log_refuse]

/-- Frames that are used directly lead to the root as it is known, once it links to itself. Through
the window the root is where its own slot says. -/
theorem run_resolveRoot [Mmu η] (h : Hierarchy) (m : Machine η α) :
    h.resolveRoot.run m =
      match h.access with
      | .identity =>
        match h.ensureSelfLink.run m with
        | (.ok _, m') => (.ok h.root, m')
        | (.error stop, m') => (.error (stop.mapError .map), m')
      | .window =>
        match Mmu.windowTable m.mmu m.memory Window.root with
        | .error c => (.error (.fault c), m)
        | .ok table =>
          let slot := m.memory.read table selfIndex
          if slot.present then (.ok slot.frame, m) else (.error (.error .selfLinkMissing), m) := by
  cases ha : h.access with
  | identity =>
    simp only [resolveRoot, ha]
    cases hrun : h.ensureSelfLink.run m with
    | mk r m' =>
      -- Only the error of the step is renamed.
      have hlinked : (h.ensureSelfLink.mapError ActivateError.map).run m =
          (r.mapError (Stop.mapError .map), m') := by rw [Op.run_mapError, hrun]
      cases r with
      | ok u => rw [Op.run_bind_ok hlinked, Op.run_pure]
      | error stop => rw [Op.run_bind_error hlinked]
  | window =>
    -- The window address of the root is a constant that has indices, so only the walk can fail.
    simp only [resolveRoot, ha, Window.root?_eq_some, shown]
    cases htable : Mmu.windowTable m.mmu m.memory Window.root with
    | ok table =>
      rw [Op.run_bind_ok (Op.run_observe_ok (by rw [htable]; rfl))]
      simp only
      split <;> rfl
    | error c =>
      rw [Op.run_bind_error (Op.run_observe_error (by rw [htable]; rfl))]
      rfl

end Hierarchy

end Paging
