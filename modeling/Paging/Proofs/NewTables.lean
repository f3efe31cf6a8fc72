import Paging.Proofs.Descent

/-!
# Which tables are made

Down to some table the links of a page are there, and from the first slot on that holds no link
every table is missing. Mapping fills this slot with the first frame that it is given, links the
second below the first, and goes on until no table is missing or no frame is left. What this does to
memory is said slot by slot: some entries are written, the new frames are empty otherwise, and
everything else is kept.
-/

namespace Paging

theorem Level.above_isPrefix (l : Level) : l.above <+: Level.linking := by
  cases l <;> decide

/-- The levels that lie deeper than a table at depth `n`. -/
theorem Level.countP_lt_above {n : Nat} (hn : n ≤ 3) :
    Level.topDown.countP (fun l => decide (n < l.above.length)) = 3 - n := by
  revert n
  decide

theorem Indices.isPath_above {ix : Indices} (hix : ix.l4 ≠ selfIndex) {above levels : List Level}
    (hlevels : above ++ levels = Level.linking) : IsPath (above.map ix.get) := by
  apply (Indices.isPath_path hix).of_isPrefix
  exact ⟨levels.map ix.get, by rw [Indices.path, ← hlevels, List.map_append]⟩

/-! ## Entries that are written -/

/-- An entry with the place where it is written. -/
structure Placed where
  table : Frame
  slot : Index
  entry : Entry

namespace Memory

variable {mem mem₁ mem' : Memory} {root table next frame : Frame} {p : List Index} {i : Index}
  {writes writes' : List Placed} {cleared cleared' : List Frame}

/-- `mem'` holds the entries that were written, the frames that were cleared hold nothing else, and
everything else is as in `mem`. -/
structure Rewritten (mem mem' : Memory) (writes : List Placed) (cleared : List Frame) : Prop where
  written : ∀ w ∈ writes, mem'.read w.table w.slot = w.entry
  empty : ∀ f ∈ cleared, ∀ j, (∀ w ∈ writes, ¬ (w.table = f ∧ w.slot = j)) →
    mem'.read f j = .zero
  kept : ∀ f j, f ∉ cleared → (∀ w ∈ writes, ¬ (w.table = f ∧ w.slot = j)) →
    mem'.read f j = mem.read f j

theorem Rewritten.refl (mem : Memory) : mem.Rewritten mem [] [] :=
  ⟨by simp, by simp, fun _ _ _ _ => rfl⟩

theorem rewritten_write (mem : Memory) (table : Frame) (i : Index) (e : Entry) :
    mem.Rewritten (mem.write table i e) [⟨table, i, e⟩] [] := by
  refine ⟨by simp, by simp, fun f j _ hslot => ?_⟩
  rw [read_write, if_neg]
  intro heq
  exact hslot _ List.mem_cons_self ⟨heq.1.symm, heq.2.symm⟩

/-- A new table is one link, and a frame that is empty. -/
theorem Extends.rewritten (h : mem.Extends mem' root p i table next) :
    mem.Rewritten mem' [⟨table, i, .link next⟩] [next] := by
  refine ⟨by simp [h.slot], fun f hf j _ => ?_, fun f j hf hslot => ?_⟩
  · obtain rfl := List.mem_singleton.mp hf
    exact h.empty j
  · apply h.other f j (by simpa using hf)
    intro heq
    exact hslot _ List.mem_cons_self ⟨heq.1.symm, heq.2.symm⟩

/-- What is written first and then left alone is written in the end. -/
theorem Rewritten.trans (h : mem.Rewritten mem₁ writes cleared)
    (h' : mem₁.Rewritten mem' writes' cleared')
    (hkeep : ∀ w ∈ writes, w.table ∉ cleared' ∧
      ∀ w' ∈ writes', ¬ (w'.table = w.table ∧ w'.slot = w.slot)) :
    mem.Rewritten mem' (writes ++ writes') (cleared ++ cleared') := by
  refine ⟨fun w hw => ?_, fun f hf j hslot => ?_, fun f j hf hslot => ?_⟩
  · -- A write of the first part has to last, one of the second is there in any case.
    rcases List.mem_append.mp hw with hw | hw
    · obtain ⟨hclear, hother⟩ := hkeep w hw
      rw [h'.kept _ _ hclear hother, h.written w hw]
    · exact h'.written w hw
  · have hearly := fun w hw => hslot w (List.mem_append_left writes' hw)
    have hlate := fun w hw => hslot w (List.mem_append_right writes hw)
    -- What was cleared first is still empty, or it was cleared once more.
    by_cases hf' : f ∈ cleared'
    · exact h'.empty f hf' j hlate
    · rw [h'.kept f j hf' hlate]
      exact h.empty f ((List.mem_append.mp hf).resolve_right hf') j hearly
  · rw [List.mem_append, not_or] at hf
    rw [h'.kept f j hf.2 fun w hw => hslot w (List.mem_append_right writes hw),
      h.kept f j hf.1 fun w hw => hslot w (List.mem_append_left writes' hw)]

/-! ## Tables that are missing -/

variable {ix : Indices} {levels lower : List Level} {level : Level}

/-- The links of a page have been followed to the table in `frame`, and there the next one is
missing, unless no level is left. -/
structure OpenAt (mem : Memory) (root : Frame) (ix : Indices) (levels : List Level)
    (frame : Frame) : Prop where
  reached : mem.Reached root ix levels frame
  vacant : ∀ level ∈ levels.head?, (mem.read frame (ix.get level)).present = false

theorem OpenAt.isTable (h : mem.OpenAt root ix levels frame) (hix : ix.l4 ≠ selfIndex) :
    mem.IsTable root frame := by
  obtain ⟨above, hlevels, ht⟩ := h.reached
  exact ⟨_, Indices.isPath_above hix hlevels, ht⟩

/-- How many of the tables for a page are missing. -/
def missing (mem : Memory) (root : Frame) (ix : Indices) : Nat :=
  Level.topDown.countP fun level => (mem.tableAt? root (level.above.map ix.get)).isNone

/-- A table is missing exactly if it lies deeper than the first link that is missing. -/
theorem isNone_tableAt?_above {above : List Level} (hlevels : above ++ levels = Level.linking)
    (ht : mem.tableAt? root (above.map ix.get) = some frame)
    (hvacant : ∀ level ∈ levels.head?, (mem.read frame (ix.get level)).present = false)
    (l : Level) :
    (mem.tableAt? root (l.above.map ix.get)).isNone = decide (above.length < l.above.length) := by
  by_cases hlt : above.length < l.above.length
  · -- The way to this table goes on through the slot that is vacant.
    have hl := l.above_isPrefix
    cases levels with
    | nil =>
      rw [List.append_nil] at hlevels
      exact absurd hl.length_le (Nat.not_le.mpr (hlevels ▸ hlt))
    | cons level lower =>
      have hpre : above ++ [level] <+: l.above := by
        have hsome : above ++ [level] <+: Level.linking := ⟨lower, by simpa using hlevels⟩
        apply List.prefix_of_prefix_length_le hsome hl
        simpa [Nat.succ_le_iff] using hlt
      obtain ⟨rest, hrest⟩ := hpre
      have hlink : (mem.read frame (ix.get level)).isLink = false := by
        simp [Entry.isLink, hvacant level rfl]
      rw [← hrest, List.map_append, List.map_append, List.map_singleton, List.append_assoc,
        List.singleton_append, tableAt?_eq_none_of_not_isLink ht hlink]
      simp
  · -- The table lies on the way that has been followed.
    have hpre : l.above <+: above := by
      apply List.prefix_of_prefix_length_le l.above_isPrefix ⟨levels, hlevels⟩
      omega
    obtain ⟨t, htable⟩ := tableAt?_prefix ht (hpre.map ix.get)
    rw [htable]
    simp [hlt]

/-- Below the first link that is missing there is no table. -/
theorem OpenAt.missing_eq (h : mem.OpenAt root ix levels frame) :
    mem.missing root ix = levels.length := by
  obtain ⟨⟨above, hlevels, ht⟩, hvacant⟩ := h
  have hlen : above.length + levels.length = 3 := by
    rw [← List.length_append, hlevels]
    rfl
  -- What is left is the number of levels that lie deeper.
  simp only [missing, isNone_tableAt?_above hlevels ht hvacant]
  rw [Level.countP_lt_above (by omega)]
  omega

end Memory

/-! ## The links to new tables -/

/-- The links that put the given frames below the table in `table`, one below the other. -/
def Indices.links (ix : Indices) : List Level → Frame → List Frame → List Placed
  | level :: lower, table, next :: rest =>
    ⟨table, ix.get level, .link next⟩ :: ix.links lower next rest
  | _, _, _ => []

namespace Indices

@[simp] theorem links_nil (ix : Indices) (levels : List Level) (table : Frame) :
    ix.links levels table [] = [] := by
  cases levels <;> rfl

theorem table_of_mem_links {ix : Indices} {levels : List Level} {table : Frame}
    {frames : List Frame} {w : Placed} (hw : w ∈ ix.links levels table frames) :
    w.table ∈ table :: frames := by
  induction levels generalizing table frames with
  | nil => simp [links] at hw
  | cons level lower ih =>
    cases frames with
    | nil => simp [links] at hw
    | cons next rest =>
      rcases List.mem_cons.mp hw with rfl | hw
      · exact List.mem_cons_self
      · exact List.mem_cons_of_mem _ (ih hw)

/-- There is no link in the last of the tables. -/
theorem table_ne_of_mem_links {ix : Indices} {levels : List Level} {table : Frame}
    {frames : List Frame} {w : Placed} (hnodup : (table :: frames).Nodup)
    (hw : w ∈ ix.links levels table frames) : w.table ≠ frames.getLastD table := by
  induction levels generalizing table frames with
  | nil => simp [links] at hw
  | cons level lower ih =>
    cases frames with
    | nil => simp [links] at hw
    | cons next rest =>
      rw [List.nodup_cons] at hnodup
      rw [List.getLastD_cons]
      rcases List.mem_cons.mp hw with rfl | hw
      · -- The first link is in the first table, and that is not the last.
        intro heq
        have hlast : table = rest.getLastD next := heq
        apply hnodup.1
        rw [hlast]
        exact List.getLastD_mem_cons ..
      · exact ih hnodup.2 hw

end Indices

variable {η α : Type}

/-! ## Requests in the trace -/

section Trace

variable (m : Machine η α)

@[simp] theorem Machine.requests_log (r : Record) : (m.log r).requests = m.requests := by
  simp [requests]

@[simp] theorem Machine.requests_write (f : Frame) (i : Index) (e : Entry) :
    (m.write f i e).requests = m.requests := by
  simp [requests]

@[simp] theorem Machine.requests_clear (f : Frame) : (m.clear f).requests = m.requests := by
  simp [requests]

@[simp] theorem Hierarchy.requests_dropped (h : Hierarchy) (va : VirtAddr) :
    (h.dropped va m).requests = m.requests := by
  unfold dropped
  split <;> simp [Machine.requests]

/-- A request is one answer more. -/
@[simp] theorem Machine.requests_request [FrameSource α] :
    m.request.2.requests = m.requests ++ [m.request.1] := by
  obtain ⟨events, hc, hno⟩ := m.continues_request
  -- Apart from the question itself nothing that was noted is a request.
  have hlast : ∀ f : Event → Option (Option Frame), (∀ e ∈ events, f e = none) →
      f (.requested m.request.1) = some m.request.1 →
        (events ++ [Event.requested m.request.1] ++ m.trace).reverse.filterMap f =
          m.trace.reverse.filterMap f ++ [m.request.1] := by
    intro f hevents hanswer
    simp [List.filterMap_eq_nil_iff.mpr hevents, hanswer]
  rw [requests, hc.1]
  apply hlast _ _ rfl
  intro e he
  cases e with
  | requested answer => exact absurd he (hno answer)
  | _ => rfl

end Trace

variable [FrameSource α]

/-! ## Making the missing tables -/

/-- From `m` to `m'` the given frames were made tables, one below the other, starting with the slot
at the first of the levels in `table`; the frame source gave these answers. -/
structure Builds (root : Frame) (ix : Indices) (levels : List Level) (table : Frame)
    (frames : List Frame) (answers : List (Option Frame)) (m m' : Machine η α) : Prop where
  rewritten : m.memory.Rewritten m'.memory (ix.links levels table frames) frames
  requests : m'.requests = m.requests ++ answers
  unused : ∀ f ∈ frames, ¬ m.memory.IsTable root f
  nodup : frames.Nodup
  not_self : ∀ w ∈ ix.links levels table frames, ¬ (w.table = root ∧ w.slot = selfIndex)

namespace Builds

variable {root table next : Frame} {ix : Indices} {levels lower : List Level} {level : Level}
  {frames : List Frame} {answers : List (Option Frame)} {m m₁ m' : Machine η α} {p : List Index}

omit [FrameSource α] in
/-- No table is made. -/
theorem nil (root : Frame) (ix : Indices) (levels : List Level) (table : Frame)
    (hmemory : m'.memory = m.memory) (hrequests : m'.requests = m.requests ++ answers) :
    Builds root ix levels table [] answers m m' := by
  refine ⟨?_, hrequests, by simp, List.nodup_nil, by simp⟩
  rw [Indices.links_nil, hmemory]
  exact .refl _

/-- The first table is made, and then the others below it. -/
theorem cons (ho : m.Orderly root)
    (hx : m.memory.Extends m₁.memory root p (ix.get level) table next)
    (hrequests : m₁.requests = m.requests ++ [some next])
    (hb : Builds root ix lower next frames answers m₁ m') :
    Builds root ix (level :: lower) table (next :: frames) (some next :: answers) m m' := by
  have hparent : m.memory.IsTable root table := ⟨p, hx.isPath_parent, hx.parent⟩
  -- Nothing that is made later is the table or the frame at hand.
  have htable : table ∉ frames := fun hmem =>
    hb.unused table hmem ((hx.isTable_iff ho.apart).mpr (Or.inr hparent))
  have hnext : next ∉ frames := fun hmem =>
    hb.unused next hmem ((hx.isTable_iff ho.apart).mpr (Or.inl rfl))
  refine ⟨?_, ?_, ?_, List.nodup_cons.mpr ⟨hnext, hb.nodup⟩, ?_⟩
  · apply hx.rewritten.trans hb.rewritten
    intro w hw
    obtain rfl := List.mem_singleton.mp hw
    -- The links below are in `next` or in a frame made later, and `table` is neither.
    refine ⟨htable, fun w' hw' heq => ?_⟩
    rcases List.mem_cons.mp (Indices.table_of_mem_links hw') with hfirst | hlater
    · exact hx.ne_next_of_isTable hparent (heq.1.symm.trans hfirst)
    · rw [heq.1] at hlater
      exact htable hlater
  · rw [hb.requests, hrequests, List.append_assoc, List.singleton_append]
  · intro f hf htab
    rcases List.mem_cons.mp hf with rfl | hf
    · exact hx.unused htab
    · exact hb.unused f hf ((hx.isTable_iff ho.apart).mpr (Or.inr htab))
  · intro w hw heq
    rcases List.mem_cons.mp hw with rfl | hw
    · exact hx.not_self ho.apart ⟨heq.1.symm, heq.2.symm⟩
    · exact hb.not_self w hw heq

end Builds

namespace Hierarchy

variable [Mmu η] {h : Hierarchy} {m : Machine η α} {ix : Indices} {levels : List Level}
  {frame : Frame} (hu : h.Usable m) (ho : m.Orderly h.root) (hix : ix.l4 ≠ selfIndex)

include hu ho hix

/-- Where a table is missing, an empty one is made, or the frame source declines. -/
theorem makeNext_ends {level child : Level} {lower : List Level}
    (hr : m.memory.Reached h.root ix (level :: lower) frame) (hchild : level.next? = some child)
    (hvacant : (m.memory.read frame (ix.get level)).present = false) :
    (h.makeNext ix level child frame).Ends m
      (fun next m' => GrowsTo h m m' ∧ m'.memory.OpenAt h.root ix lower next ∧
        m'.requests = m.requests ++ [some next] ∧
        ∃ p, m.memory.Extends m'.memory h.root p (ix.get level) frame next)
      (fun stop m' => stop = .error .outOfFrames ∧ m'.memory = m.memory ∧
        m'.requests = m.requests ++ [none]) := by
  cases hnext : m.request.1 with
  | none =>
    apply Op.Ends.error (run_makeNext_of_none hnext)
    refine ⟨rfl, ?_, by simp [hnext]⟩
    -- A source that declines leaves no leftovers in memory.
    rw [Machine.memory_log, Machine.memory_request_of_none ho.fresh hnext]
  | some next =>
    apply Op.Ends.ok (run_makeNext_of_fresh hu ho hix hr hchild hvacant hnext)
    obtain ⟨above, hlevels, ht⟩ := hr
    have hp : IsPath (above.map ix.get ++ [ix.get level]) := Indices.isPath_concat hix hlevels
    have hx := Grows.extends_of_link ho hp ht hvacant hnext
    simp only [Machine.memory_log, Machine.memory_clear, memory_dropped, Machine.memory_write]
    refine ⟨.tail (.single (.link m _ _ _ _ _ hp ht hvacant hnext)) (.log _ _), ⟨?_, ?_⟩,
      by simp [hnext], _, hx⟩
    · exact .concat hlevels (by simpa using hx.tableAt?_child ho.apart)
    · -- The new table is empty, so the next link is missing as well.
      intro l _
      rw [hx.empty, Entry.present_zero]

/-- From the first link that is missing on, a table is made at every level, or the frame source
declines; a huge page is in none of the new tables. -/
theorem ensureBelow_of_openAt (hopen : m.memory.OpenAt h.root ix levels frame) :
    (h.ensureBelow ix levels frame).Ends m
      (fun t m' => ∃ frames, frames.length = levels.length ∧ t = frames.getLastD frame ∧
        Builds h.root ix levels frame frames (frames.map some) m m')
      (fun stop m' => stop = .error .outOfFrames ∧ ∃ frames, frames.length < levels.length ∧
        Builds h.root ix levels frame frames (frames.map some ++ [none]) m m') := by
  induction levels generalizing m frame with
  | nil => exact Op.Ends.pure ⟨[], rfl, rfl, .nil _ _ _ _ rfl (by simp)⟩
  | cons level lower ih =>
    have hr := hopen.reached
    have hvacant := hopen.vacant level rfl
    obtain ⟨child, hchild⟩ := hr.exists_next
    have hrun := run_ensureNext_of_vacant hchild (hr.locate hu) hvacant
    have hmake := (makeNext_ends hu ho hix hr hchild hvacant).of_run_eq hrun
    apply hmake.bind_mono
    · intro next m₁ hend
      obtain ⟨hg, hopen₁, hrequests, p, hx⟩ := hend
      -- The rest is made below the new table, and counts one frame less.
      apply (ih (hu.growsTo hg ho) (hg.orderly ho) hopen₁).mono
      · intro t m' hend
        obtain ⟨frames, hlen, hlast, hb⟩ := hend
        refine ⟨next :: frames, by simp [hlen], by rw [hlast, List.getLastD_cons], ?_⟩
        exact hb.cons ho hx hrequests
      · intro stop m' hend
        obtain ⟨hstop, frames, hlen, hb⟩ := hend
        exact ⟨hstop, next :: frames, by simpa using hlen, hb.cons ho hx hrequests⟩
    · intro stop m' hend
      obtain ⟨hstop, hmemory, hrequests⟩ := hend
      exact ⟨hstop, [], by simp, .nil _ _ _ _ hmemory (by simpa using hrequests)⟩

/-- The links that are there are followed, and then the missing tables are made. A huge page can
only be met before anything has been asked for. -/
theorem ensureBelow_builds (hr : m.memory.Reached h.root ix levels frame) :
    (h.ensureBelow ix levels frame).Ends m
      (fun t m' => ∃ rest table frames, m.memory.OpenAt h.root ix rest table ∧
        frames.length = rest.length ∧ t = frames.getLastD table ∧
        Builds h.root ix rest table frames (frames.map some) m m')
      (fun stop m' =>
        (stop = .error .outOfFrames ∧ ∃ rest table frames,
          m.memory.OpenAt h.root ix rest table ∧ frames.length < rest.length ∧
          Builds h.root ix rest table frames (frames.map some ++ [none]) m m') ∨
        stop = .error .foreignEntry ∧ m'.memory = m.memory ∧ m'.requests = m.requests) := by
  induction levels generalizing frame with
  | nil =>
    have hopen : m.memory.OpenAt h.root ix [] frame := ⟨hr, by simp⟩
    exact Op.Ends.pure ⟨[], frame, [], hopen, rfl, rfl, .nil _ _ _ _ rfl (by simp)⟩
  | cons level lower ih =>
    cases hpresent : (m.memory.read frame (ix.get level)).present with
    | false =>
      have hopen : m.memory.OpenAt h.root ix (level :: lower) frame :=
        ⟨hr, fun l hl => Option.some.inj hl ▸ hpresent⟩
      -- Here the first link is missing, and with it all below.
      apply (ensureBelow_of_openAt hu ho hix hopen).mono
      · intro t m' hend
        obtain ⟨frames, hlen, hlast, hb⟩ := hend
        exact ⟨_, _, frames, hopen, hlen, hlast, hb⟩
      · intro stop m' hend
        obtain ⟨hstop, frames, hlen, hb⟩ := hend
        exact Or.inl ⟨hstop, _, _, frames, hopen, hlen, hb⟩
    | true =>
      obtain ⟨child, hchild⟩ := hr.exists_next
      have hl := hr.locate hu
      cases hhuge : (m.memory.read frame (ix.get level)).huge with
      | true =>
        have hblocked := run_ensureNext_of_huge hchild hl hpresent hhuge
        -- Nothing has been asked for, since every link so far was there.
        exact .error (Op.run_bind_error hblocked _) (Or.inr ⟨rfl, rfl, by simp⟩)
      | false =>
        have hlink := Entry.isLink_iff.mpr ⟨hpresent, hhuge⟩
        have hfollowed := run_ensureNext_of_link hchild hl hlink
        exact (ih (hr.next hlink)).of_run_eq (Op.run_bind_ok hfollowed _)

end Hierarchy

end Paging
