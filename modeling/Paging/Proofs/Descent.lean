import Paging.Proofs.Access
import Paging.Proofs.OpRules

/-!
# Going down from the root

Mapping goes down one level at a time. At a level the entry links to a table already, or a new
table is linked there, or the operation stops; in every case the hierarchy has only grown. The
whole descent is one induction over the levels that are left. Its invariant is that the table at
hand is the one to which the path so far leads.
-/

namespace Paging

/-! ## Where the descent stands -/

theorem Indices.isPath_concat {ix : Indices} (hix : ix.l4 ≠ selfIndex) {above lower : List Level}
    {level : Level} (h : above ++ level :: lower = Level.linking) :
    IsPath (above.map ix.get ++ [ix.get level]) := by
  apply (Indices.isPath_path hix).of_isPrefix
  refine ⟨lower.map ix.get, ?_⟩
  rw [Indices.path, ← h, List.map_append, List.map_cons, List.append_assoc, List.singleton_append]

/-- Following the links of a page has come to the table in `frame`, and these levels are left. -/
inductive Memory.Reached (mem : Memory) (root : Frame) (ix : Indices) (levels : List Level)
    (frame : Frame) : Prop where
  | intro (above : List Level) (hlevels : above ++ levels = Level.linking)
      (ht : mem.tableAt? root (above.map ix.get) = some frame)

namespace Memory.Reached

variable {mem : Memory} {root frame : Frame} {ix : Indices} {above lower : List Level}
  {level : Level}

/-- It starts at the root. -/
theorem start (mem : Memory) (root : Frame) (ix : Indices) :
    mem.Reached root ix Level.linking root := .intro [] rfl rfl

/-- When no level is left the last table of the page has been reached. -/
theorem table (h : mem.Reached root ix [] frame) : mem.tableAt? root ix.path = some frame := by
  cases h with
  | intro above hlevels ht =>
    rw [List.append_nil] at hlevels
    rw [Indices.path, ← hlevels, ht]

theorem concat (hlevels : above ++ level :: lower = Level.linking)
    (ht : mem.tableAt? root (above.map ix.get ++ [ix.get level]) = some frame) :
    mem.Reached root ix lower frame := by
  refine .intro (above ++ [level]) ?_ ?_
  · rw [List.append_assoc, List.singleton_append, hlevels]
  · rw [List.map_append, List.map_singleton, ht]

/-- A link leads one level down. -/
theorem next (h : mem.Reached root ix (level :: lower) frame)
    (hlink : (mem.read frame (ix.get level)).isLink = true) :
    mem.Reached root ix lower (mem.read frame (ix.get level)).frame := by
  cases h with
  | intro above hlevels ht =>
    apply concat hlevels
    rw [tableAt?_concat ht, if_pos hlink]

/-- Without a link at one level there is no table below. -/
theorem tableAt?_path_eq_none (h : mem.Reached root ix (level :: lower) frame)
    (hlink : (mem.read frame (ix.get level)).isLink = false) :
    mem.tableAt? root ix.path = none := by
  cases h with
  | intro above hlevels ht =>
    rw [Indices.path, ← hlevels, List.map_append, List.map_cons]
    exact tableAt?_eq_none_of_not_isLink ht hlink _

theorem isLinkSlot (h : mem.Reached root ix (level :: lower) frame) (hix : ix.l4 ≠ selfIndex) :
    mem.IsLinkSlot root frame (ix.get level) := by
  cases h with
  | intro above hlevels ht => exact ⟨_, Indices.isPath_concat hix hlevels, ht⟩

theorem exists_next (h : mem.Reached root ix (level :: lower) frame) :
    ∃ child, level.next? = some child := by
  cases h with
  | intro above hlevels ht =>
    obtain ⟨-, child, hchild, -⟩ := Level.above_of_linking hlevels
    exact ⟨child, hchild⟩

/-- A table that was reached can be found. -/
theorem locate {η α : Type} [Mmu η] {h : Hierarchy} {m : Machine η α} (hu : h.Usable m)
    (hr : m.memory.Reached h.root ix (level :: lower) frame) :
    h.locate m.mmu m.memory level ix frame = .ok frame := by
  cases hr with
  | intro above hlevels ht =>
    -- The levels behind are those above the level at hand.
    obtain ⟨habove, -⟩ := Level.above_of_linking hlevels
    apply hu.locate
    rw [← habove]
    exact walkTo?_of_tableAt? ht

end Memory.Reached

/-- Where the descent stands in one memory it stands in any other with the same tables. -/
theorem Memory.SameTables.reached {mem mem' : Memory} {root frame : Frame} {ix : Indices}
    {levels : List Level} (h : mem.SameTables mem' root) (hix : ix.l4 ≠ selfIndex)
    (hr : mem.Reached root ix levels frame) : mem'.Reached root ix levels frame := by
  cases hr with
  | intro above hlevels ht =>
    refine .intro above hlevels ?_
    rw [h.tableAt?_eq, ht]
    apply (Indices.isPath_path hix).of_isPrefix
    rw [Indices.path, ← hlevels, List.map_append]
    exact List.prefix_append _ _

namespace Hierarchy

variable {η α : Type} [Mmu η]

/-! ## One level -/

section Ends

variable {h : Hierarchy} {m : Machine η α} {ix : Indices} {level child : Level} {frame : Frame}

section Ensure

variable [FrameSource α] (hchild : level.next? = some child)
  (hl : h.locate m.mmu m.memory level ix frame = .ok frame)

include hchild hl

/-- An entry that is not present asks for a new table. -/
theorem run_ensureNext_of_vacant (hp : (m.memory.read frame (ix.get level)).present = false) :
    (h.ensureNext ix level frame).run m = (h.makeNext ix level child frame).run m := by
  rw [run_ensureNext h ix m hchild, hl]
  exact if_pos hp

/-- A huge page is in the way. -/
theorem run_ensureNext_of_huge (hp : (m.memory.read frame (ix.get level)).present = true)
    (hhuge : (m.memory.read frame (ix.get level)).huge = true) :
    (h.ensureNext ix level frame).run m =
      (.error (.error .foreignEntry), m.log (.blocked level ix.page)) := by
  rw [run_ensureNext h ix m hchild, hl]
  simp only [hp, hhuge, Bool.true_eq_false, if_false, if_true]

/-- A link is followed. -/
theorem run_ensureNext_of_link (hlink : (m.memory.read frame (ix.get level)).isLink = true) :
    (h.ensureNext ix level frame).run m =
      (.ok (m.memory.read frame (ix.get level)).frame, m) := by
  obtain ⟨hp, hhuge⟩ := Entry.isLink_iff.mp hlink
  rw [run_ensureNext h ix m hchild, hl]
  simp only [hp, hhuge, Bool.true_eq_false, Bool.false_eq_true, if_false]

end Ensure

/-- A request that is declined stops the operation. -/
theorem run_makeNext_of_none [FrameSource α] (hnone : m.request.1 = none) :
    (h.makeNext ix level child frame).run m =
      (.error (.error .outOfFrames), m.request.2.log (.outOfFrames child ix.page)) := by
  rw [run_makeNext, hnone]

theorem run_makeNext_of_some [FrameSource α] {next : Frame} (hnext : m.request.1 = some next) :
    (h.makeNext ix level child frame).run m =
      (h.linkTable ix level child frame next).run m.request.2 := by
  rw [run_makeNext, hnext]

/-- A frame that no entry has room for is refused. -/
theorem run_linkTable_of_not_isEncodable {next : Frame} (hnext : next.isEncodable = false) :
    (h.linkTable ix level child frame next).run m =
      (.error (.error .outOfFrames), m.log (.unencodable next child)) := by
  rw [run_linkTable, hnext, if_neg Bool.false_ne_true]

/-- A frame that an entry has room for is linked, cleared and logged. -/
theorem run_linkTable_of_locate {next : Frame} (hnext : next.isEncodable)
    (hl : h.locate m.mmu m.memory level ix frame = .ok frame)
    (hc : h.locate m.mmu (m.memory.write frame (ix.get level) (.link next)) child ix next =
      .ok next) :
    (h.linkTable ix level child frame next).run m =
      (.ok next, ((h.dropped (Window.table child ix)
        (m.write frame (ix.get level) (.link next))).clear next).log
          (.newTable child next ix.page)) := by
  rw [run_linkTable, if_pos hnext, hl]
  -- Invalidating changes no memory, so the new table is looked for where the link was written.
  simp only [mmu_dropped, memory_dropped, Machine.mmu_write, Machine.memory_write, hc]

end Ends

/-- A frame that is no table is linked where a link is missing, whatever it holds. -/
theorem run_linkTable_of_vacant {h : Hierarchy} {m : Machine η α} (hu : h.Usable m)
    (hap : m.memory.Apart h.root) {ix : Indices} (hix : ix.l4 ≠ selfIndex) {lower : List Level}
    {level child : Level} {frame next : Frame}
    (hr : m.memory.Reached h.root ix (level :: lower) frame) (hchild : level.next? = some child)
    (hvacant : (m.memory.read frame (ix.get level)).present = false)
    (hnext : ¬ m.memory.IsTable h.root next) (henc : next.isEncodable) :
    (h.linkTable ix level child frame next).run m =
      (.ok next, ((h.dropped (Window.table child ix)
        (m.write frame (ix.get level) (.link next))).clear next).log
          (.newTable child next ix.page)) := by
  apply run_linkTable_of_locate henc (hr.locate hu)
  cases hr with
  | intro above hlevels ht =>
    obtain ⟨-, child', hchild', hpath⟩ := Level.above_of_linking hlevels
    obtain rfl : child' = child := Option.some.inj (hchild'.symm.trans hchild)
    -- The new table is where the link has put it.
    have hlinks := Memory.links_write (Indices.isPath_concat hix hlevels) ht hvacant hnext henc
    apply hu.finds
    · intro hw
      rw [Memory.SelfLinked, hlinks.read_self hap]
      exact hu.selfLinked hw
    · rw [hpath, List.map_append]
      exact Memory.walkTo?_of_tableAt? (hlinks.tableAt?_child hap)

variable [FrameSource α]

section Level

variable {h : Hierarchy} {m : Machine η α} {ix : Indices} {lower : List Level}
  {level child : Level} {frame : Frame} (hu : h.Usable m) (ho : m.Orderly h.root)
  (hix : ix.l4 ≠ selfIndex) (hr : m.memory.Reached h.root ix (level :: lower) frame)

include hu ho hix hr

/-- A frame that is handed out becomes the missing table. -/
theorem run_makeNext_of_fresh (hchild : level.next? = some child)
    (hvacant : (m.memory.read frame (ix.get level)).present = false) {next : Frame}
    (hnext : m.request.1 = some next) :
    (h.makeNext ix level child frame).run m =
      (.ok next, ((h.dropped (Window.table child ix)
        (m.request.2.write frame (ix.get level) (.link next))).clear next).log
          (.newTable child next ix.page)) := by
  have hsame := Machine.sameTables_request ho.fresh.clear
  obtain ⟨p, hp, hframe⟩ := hr.isLinkSlot hix
  rw [run_makeNext_of_some hnext]
  apply run_linkTable_of_vacant _ (hsame.apart ho.apart) hix (hsame.reached hix hr) hchild
  · rwa [hsame.read_eq ⟨p, hp.of_append_left, hframe⟩]
  · rw [hsame.isTable_iff]
    exact ho.fresh.isFree (n := 0) hnext
  · exact ho.fresh.isEncodable (n := 0) hnext
  · -- The root is one of the tables, so its link to itself is still there.
    refine ⟨?_, fun hw => hsame.selfLinked (hu.selfLinked hw)⟩
    rw [Machine.mmu_request]
    exact hu.finds

theorem run_ensureNext_eq_direct :
    (h.ensureNext ix level frame).run m = (h.direct.ensureNext ix level frame).run m := by
  obtain ⟨child, hchild⟩ := hr.exists_next
  rw [run_ensureNext h ix m hchild, hr.locate hu, run_ensureNext h.direct ix m hchild,
    locate_direct]
  -- Only an entry that is not present leads to a table that has to be found.
  cases hp : (m.memory.read frame (ix.get level)).present with
  | true => simp only [hp, Bool.true_eq_false, if_false]
  | false =>
    simp only [hp, if_true]
    cases hnext : m.request.1 with
    | none => rw [run_makeNext_of_none hnext, run_makeNext_of_none hnext]
    | some next =>
      rw [run_makeNext_of_fresh hu ho hix hr hchild hp hnext,
        run_makeNext_of_fresh (usable_direct h m) ho hix hr hchild hp hnext]
      rfl

/-- One level down the next table is there, or the operation stops; the hierarchy has grown. -/
theorem ensureNext_ends :
    (h.ensureNext ix level frame).Ends m
      (fun t m' => GrowsTo h m m' ∧ m'.memory.Reached h.root ix lower t)
      (fun stop m' => GrowsTo h m m' ∧ ∃ cause, stop = .error cause) := by
  obtain ⟨child, hchild⟩ := hr.exists_next
  have hl := hr.locate hu
  cases hpresent : (m.memory.read frame (ix.get level)).present with
  | true =>
    cases hhuge : (m.memory.read frame (ix.get level)).huge with
    | true =>
      -- Nothing but a record of the refusal is added.
      apply Op.Ends.error (run_ensureNext_of_huge hchild hl hpresent hhuge)
      exact ⟨.single (.log m _), _, rfl⟩
    | false =>
      have hlink := Entry.isLink_iff.mpr ⟨hpresent, hhuge⟩
      exact .ok (run_ensureNext_of_link hchild hl hlink) ⟨.refl, hr.next hlink⟩
  | false =>
    have hrun := run_ensureNext_of_vacant hchild hl hpresent
    cases hnext : m.request.1 with
    | none =>
      apply Op.Ends.error (hrun.trans (run_makeNext_of_none hnext))
      -- The request that was declined is a step of growth, and its record another.
      exact ⟨.tail (.single (.decline m hnext)) (.log _ _), _, rfl⟩
    | some next =>
      have hmade := run_makeNext_of_fresh hu ho hix hr hchild hpresent hnext
      apply Op.Ends.ok (hrun.trans hmade)
      cases hr with
      | intro above hlevels ht =>
        have hp : IsPath (above.map ix.get ++ [ix.get level]) := Indices.isPath_concat hix hlevels
        refine ⟨.tail (.single (.link m _ _ _ _ _ hp ht hpresent hnext)) (.log _ _), ?_⟩
        -- The path goes on through the slot that was filled.
        have hx := Grows.extends_of_link ho hp ht hpresent hnext
        apply Memory.Reached.concat hlevels
        simpa using hx.tableAt?_child ho.apart

end Level

/-! ## All levels -/

section Below

variable {h : Hierarchy} {m : Machine η α} {ix : Indices} {levels : List Level} {frame : Frame}
  (hu : h.Usable m) (ho : m.Orderly h.root) (hix : ix.l4 ≠ selfIndex)
  (hr : m.memory.Reached h.root ix levels frame)

include hu ho hix hr

/-- The whole descent comes to the last table of the page, or the operation stops; the hierarchy has
grown. -/
theorem ensureBelow_ends :
    (h.ensureBelow ix levels frame).Ends m
      (fun t m' => GrowsTo h m m' ∧ m'.memory.tableAt? h.root ix.path = some t)
      (fun stop m' => GrowsTo h m m' ∧ ∃ cause, stop = .error cause) := by
  induction levels generalizing frame m with
  | nil => exact Op.Ends.pure ⟨.refl, hr.table⟩
  | cons level lower ih =>
    apply Op.Ends.bind (ensureNext_ends hu ho hix hr)
    intro t m₁ hnext
    obtain ⟨hg, hr₁⟩ := hnext
    -- From here the descent goes on in the hierarchy that has grown.
    have hrest := ih (hu.growsTo hg ho) (hg.orderly ho) hr₁
    refine hrest.mono ?_ ?_
    · intro t' m' hend
      exact ⟨hg.trans hend.1, hend.2⟩
    · intro stop m' hend
      exact ⟨hg.trans hend.1, hend.2⟩

theorem run_ensureBelow_eq_direct :
    (h.ensureBelow ix levels frame).run m = (h.direct.ensureBelow ix levels frame).run m := by
  induction levels generalizing frame m with
  | nil => rfl
  | cons level lower ih =>
    -- Both ways agree on one level, and so they reach the same table for the next.
    apply Op.run_bind_congr (run_ensureNext_eq_direct hu ho hix hr) (ensureNext_ends hu ho hix hr)
    intro t m₁ hnext
    obtain ⟨hg, hr₁⟩ := hnext
    exact ih (hu.growsTo hg ho) (hg.orderly ho) hr₁

end Below

/-! ## What the descent keeps over any tables -/

/-- A contract allows all of the descent but the making of new tables. -/
structure AllowsDescent (h : Hierarchy) (C : Op.Contract (Machine η α) MapError) : Prop where
  log (m : Machine η α) (r : Record) : C.ok m (m.log r)
  foreign (m : Machine η α) : C.stop m (.error .foreignEntry) m
  halt {m : Machine η α} {level : Level} {ix : Indices} {frame : Frame} {c : Halt}
    (hl : h.locate m.mmu m.memory level ix frame = .error c) : C.stop m (.ofHalt c) m

namespace AllowsDescent

variable {h : Hierarchy} {C : Op.Contract (Machine η α) MapError} (hC : h.AllowsDescent C)
  {ix : Indices}
  (hmake : ∀ level child frame, (h.makeNext ix level child frame).Keeps C)

include hC hmake

/-- A level keeps what making a table keeps. -/
theorem ensureNext (level : Level) (frame : Frame) : (h.ensureNext ix level frame).Keeps C := by
  refine ⟨fun m => ?_⟩
  cases hchild : level.next? with
  | none => exact .error (run_ensureNext_of_none h ix m hchild frame) (hC.foreign m)
  | some child =>
    have hrun := run_ensureNext h ix m hchild frame
    cases hl : h.locate m.mmu m.memory level ix frame with
    | error c =>
      rw [hl] at hrun
      exact .error hrun (hC.halt hl)
    | ok table =>
      rw [hl] at hrun
      simp only at hrun
      split at hrun
      · exact ((hmake level child frame).ends m).of_run_eq hrun
      · split at hrun
        · exact .error hrun (C.stop_trans (hC.log m _) (hC.foreign _))
        · exact .ok hrun (C.refl m)

/-- So does the whole descent, one level after the other. -/
theorem ensureBelow (levels : List Level) (frame : Frame) :
    (h.ensureBelow ix levels frame).Keeps C := by
  induction levels generalizing frame with
  | nil => exact .pure frame
  | cons level lower ih => exact (hC.ensureNext hmake level frame).bind fun t => ih t

end AllowsDescent

end Hierarchy

end Paging
