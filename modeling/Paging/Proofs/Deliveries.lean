import Paging.Proofs.Answers
import Paging.Proofs.MapReport
import Paging.Proofs.SafeStops

/-!
# What becomes of the frames that are delivered

Mapping writes one link for every frame that the source delivers and an entry has room for, in the
order of the deliveries, and the link names that very frame. A request that was declined, or met
with a frame that no entry has room for, is the last one and ends the call; so does a frame for
which the hardware no longer shows the table above. This is so over any tables and for any source,
whatever it hands out and whatever it leaves in memory, and no frame it hands out leads to a
violation.
-/

namespace Paging

variable {η α : Type}

/-! ## Writes in the trace -/

namespace Machine

/-- The entries that were written, oldest first. -/
def writes (m : Machine η α) : List Placed :=
  m.trace.reverse.filterMap fun
    | .wrote table slot entry => some ⟨table, slot, entry⟩
    | _ => none

variable (m : Machine η α)

@[simp] theorem writes_log (r : Record) : (m.log r).writes = m.writes := by
  simp [writes]

@[simp] theorem writes_write (f : Frame) (i : Index) (e : Entry) :
    (m.write f i e).writes = m.writes ++ [⟨f, i, e⟩] := by
  simp [writes]

@[simp] theorem writes_clear (f : Frame) : (m.clear f).writes = m.writes := by
  simp [writes]

theorem writes_foldl_log (rs : List Record) : (rs.foldl log m).writes = m.writes := by
  induction rs generalizing m with
  | nil => rfl
  | cons r rs ih => rw [List.foldl_cons, ih, writes_log]

/-- Whatever the source does to memory is no write. -/
@[simp] theorem writes_request [FrameSource α] : m.request.2.writes = m.writes := by
  simp only [request, writes_foldl_log]
  cases (FrameSource.request m.frames).1.residue with
  | none => simp [settle, writes]
  | some residue => simp [settle, writes]

@[simp] theorem writes_dropped (h : Hierarchy) (va : VirtAddr) :
    (h.dropped va m).writes = m.writes := by
  unfold Hierarchy.dropped
  split <;> simp [invalidate, writes]

theorem writes_replaced (h : Hierarchy) (ix : Indices) (table : Frame) (leaf : Entry) :
    (h.replaced ix table leaf m).writes = m.writes ++ [⟨table, ix.l1, leaf⟩] := by
  unfold Hierarchy.replaced
  split
  · exact writes_write m table ix.l1 leaf
  · rw [writes_dropped, writes_write]

/-! ## Deliveries -/

/-- From `m` to `m'` one link was written for every frame that was delivered, except for the answers
in `rest`, which came last. -/
structure Deals [FrameSource α] (m m' : Machine η α) (links : List Placed)
    (rest : List (Option Frame)) : Prop where
  writes : m'.writes = m.writes ++ links
  requests : m'.requests = m.requests ++ (links.map (fun w => some w.entry.frame) ++ rest)
  asks : m.Asks (links.length + rest.length) m'
  isLink : ∀ w ∈ links, w.entry.frame.isEncodable ∧ w.entry = .link w.entry.frame

namespace Deals

variable {m} [FrameSource α] {m₁ m' : Machine η α} {links links' : List Placed}
  {rest : List (Option Frame)}

/-- Nothing was asked for and nothing written. -/
theorem quiet (hwrites : m'.writes = m.writes) (hrequests : m'.requests = m.requests)
    (hframes : m'.frames = m.frames) : m.Deals m' [] [] where
  writes := by simpa using hwrites
  requests := by simpa using hrequests
  asks := .none hrequests hframes
  isLink := by simp

theorem refl (m : Machine η α) : m.Deals m [] [] := .quiet rfl rfl rfl

/-- A request that leads to no link. -/
theorem request (m : Machine η α) : m.Deals m.request.2 [] [m.request.1] where
  writes := by simp
  requests := by simp
  asks := .request m rfl rfl
  isLink := by simp

/-- A request, and a link to the frame that was delivered. -/
theorem link {next : Frame} (hnext : m.request.1 = some next) (henc : next.isEncodable)
    (table : Frame) (slot : Index) :
    m.Deals (m.request.2.write table slot (.link next)) [⟨table, slot, .link next⟩] [] where
  writes := by simp
  requests := by simp [hnext, henc]
  asks := .request m (by simp) rfl
  isLink w hw := by
    obtain rfl := List.mem_singleton.mp hw
    simp [henc]

/-- What neither writes nor asks adds nothing. -/
theorem followed (h : m.Deals m₁ links rest) (hwrites : m'.writes = m₁.writes)
    (hrequests : m'.requests = m₁.requests) (hframes : m'.frames = m₁.frames) :
    m.Deals m' links rest where
  writes := hwrites.trans h.writes
  requests := hrequests.trans h.requests
  asks := h.asks.trans (.none hrequests hframes)
  isLink := h.isLink

theorem trans (h : m.Deals m₁ links []) (h' : m₁.Deals m' links' rest) :
    m.Deals m' (links ++ links') rest where
  writes := by rw [h'.writes, h.writes, List.append_assoc]
  requests := by simp [h'.requests, h.requests]
  asks := by
    -- Every link of the first part has taken one request.
    have hasks := h.asks.trans h'.asks
    rwa [List.length_nil, Nat.add_zero, ← Nat.add_assoc, ← List.length_append] at hasks
  isLink w hw := (List.mem_append.mp hw).elim (h.isLink w) (h'.isLink w)

end Deals

end Machine

/-- The answers for which there is no link when an operation stops: one that could not be used, one
for which the table was not shown any more, or none. -/
inductive Shortfall : Stop MapError → List (Option Frame) → Prop where
  | outOfFrames {answer : Option Frame} (h : ∀ f, answer = some f → f.isEncodable = false) :
      Shortfall (.error .outOfFrames) [answer]
  | fault (cause : Fault) (f : Frame) : Shortfall (.fault cause) [some f]
  | none {stop : Stop MapError} (h : stop ≠ .error .outOfFrames) : Shortfall stop []

/-- Where every frame that is handed out can be used, only a request that was declined leaves an
operation without frames. -/
theorem Shortfall.eq_outOfFrames_iff {stop : Stop MapError} {rest : List (Option Frame)}
    (h : Shortfall stop rest) (henc : ∀ f, some f ∈ rest → f.isEncodable) :
    stop = .error .outOfFrames ↔ Option.none ∈ rest := by
  cases h with
  | @outOfFrames answer h =>
    cases answer with
    | none => simp
    | some f =>
      -- The frame can be used, so it was not put aside.
      have hf := henc f (by simp)
      simp [h f rfl] at hf
  | fault cause f => simp
  | none h => simpa using h

/-! ## Operations that link what they are given -/

variable [FrameSource α] {β γ : Type}

/-- Nothing may be written but links to the frames that are delivered. -/
def Op.linking : Op.Contract (Machine η α) MapError where
  ok m m' := ∃ links, m.Deals m' links []
  stop m reason m' := ∃ links rest, m.Deals m' links rest ∧ Shortfall reason rest
  refl m := ⟨[], .refl m⟩
  trans := by
    rintro m m₁ m' ⟨links, hd⟩ ⟨links', hd'⟩
    exact ⟨_, hd.trans hd'⟩
  stop_trans := by
    rintro m m₁ m' reason ⟨links, hd⟩ ⟨links', rest, hd', hstop⟩
    exact ⟨_, rest, hd.trans hd', hstop⟩

namespace Hierarchy

variable [Mmu η] {h : Hierarchy} {ix : Indices} {level child : Level} {frame : Frame}

/-- A frame that is delivered is linked, unless no entry has room for it or the table above it is no
longer shown. -/
theorem makeNext_keeps_linking (ix : Indices) (level child : Level) (frame : Frame) :
    (h.makeNext ix level child frame : Op (Machine η α) MapError Frame).Keeps Op.linking := by
  refine ⟨fun m => ?_⟩
  have hrun := run_makeNext h ix m level child frame
  have hrequest := Machine.Deals.request m
  cases hnext : m.request.1 with
  | none =>
    rw [hnext] at hrun hrequest
    -- The request was declined.
    exact .error hrun ⟨[], _, hrequest.followed (by simp) (by simp) rfl, .outOfFrames (by simp)⟩
  | some next =>
    rw [hnext] at hrun hrequest
    simp only [run_linkTable] at hrun
    split at hrun
    · rename_i henc
      split at hrun
      · rename_i c hl
        -- Nothing is written where the hardware does not show the table.
        obtain ⟨-, cause, rfl, -⟩ := fault_of_locate hl
        exact .error hrun ⟨[], _, hrequest, .fault cause next⟩
      · rename_i table hl
        have hlinked : m.Deals (h.dropped (Window.table child ix)
            (m.request.2.write table (ix.get level) (.link next)))
            [⟨table, ix.get level, .link next⟩] [] :=
          (Machine.Deals.link hnext henc table (ix.get level)).followed (by simp) (by simp)
            (by simp)
        split at hrun
        · -- The link stands, though the table below it may not be shown yet.
          exact .error hrun ⟨_, [], hlinked, .none (by simp)⟩
        · exact .ok hrun ⟨_, hlinked.followed (by simp) (by simp) rfl⟩
    · rename_i henc
      -- A frame without room in an entry is put aside, and no link is written for it.
      refine .error hrun ⟨[], _, hrequest.followed (by simp) (by simp) rfl, .outOfFrames ?_⟩
      rintro f hf
      rw [← Option.some.inj hf]
      exact eq_false_of_ne_true henc

theorem allowsDescent_linking (h : Hierarchy) :
    h.AllowsDescent (Op.linking : Op.Contract (Machine η α) MapError) where
  log m r := ⟨[], .quiet (by simp) (by simp) rfl⟩
  foreign m := ⟨[], [], .refl m, .none (by simp)⟩
  halt _ := ⟨[], [], .refl _, .none (by simp)⟩

/-! ## The whole of mapping -/

end Hierarchy

/-- From `m` to `m'` the root may have got its link, then links were written to the frames that were
delivered, and then what is in `last`; no link was written for the answers in `rest`. -/
structure Machine.Maps (root : Frame) (m m' : Machine η α) (own links last : List Placed)
    (rest : List (Option Frame)) : Prop where
  isOwn : own = [] ∨ own = [⟨root, selfIndex, .selfLink root⟩]
  writes : m'.writes = m.writes ++ (own ++ links ++ last)
  requests : m'.requests = m.requests ++ (links.map (fun w => some w.entry.frame) ++ rest)
  asks : m.Asks (links.length + rest.length) m'
  isLink : ∀ w ∈ links, w.entry.frame.isEncodable ∧ w.entry = .link w.entry.frame

namespace Machine.Maps

variable {root : Frame} {m m₁ m' : Machine η α} {own links last : List Placed}
  {rest : List (Option Frame)}

theorem refl (root : Frame) (m : Machine η α) : Maps root m m [] [] [] [] :=
  ⟨Or.inl rfl, by simp, by simp, .refl m, by simp⟩

/-- The links come after the link of the root. -/
theorem deals (h : Maps root m m₁ own [] [] []) (hd : m₁.Deals m' links rest) :
    Maps root m m' own links [] rest where
  isOwn := h.isOwn
  writes := by simp [hd.writes, h.writes]
  requests := by simp [hd.requests, h.requests]
  asks := by
    have hasks := h.asks.trans hd.asks
    rwa [List.length_nil, List.length_nil, Nat.zero_add] at hasks
  isLink := hd.isLink

/-- What is written last is written after the links. -/
theorem write (h : Maps root m m₁ own links [] []) (hwrites : m'.writes = m₁.writes ++ last)
    (hrequests : m'.requests = m₁.requests) (hframes : m'.frames = m₁.frames) :
    Maps root m m' own links last [] where
  isOwn := h.isOwn
  writes := by simp [hwrites, h.writes]
  requests := hrequests.trans h.requests
  asks := h.asks.trans (.none hrequests hframes)
  isLink := h.isLink

/-- The answers were those that have a link and those that have none. -/
theorem answers_eq (h : Maps root m m' own links last rest) :
    FrameSource.answers (links.length + rest.length) m.frames =
      links.map (fun w => some w.entry.frame) ++ rest :=
  (h.asks.answers_eq h.requests).1

/-- A request was declined if one was that has no link. -/
theorem none_mem_iff (h : Maps root m m' own links last rest) :
    none ∈ FrameSource.answers (links.length + rest.length) m.frames ↔ none ∈ rest := by
  rw [h.answers_eq]
  simp

end Machine.Maps

namespace Hierarchy

variable [Mmu η] {h : Hierarchy} {ix : Indices} {m : Machine η α}

omit [FrameSource α] in
theorem requireVacant_keeps (page : VirtAddr) (m : Machine η α) :
    (h.requireVacant page).Ends m (fun _ m' => m' = m)
      (fun stop m' => m' = m ∧ stop ≠ .error .outOfFrames) := by
  have hrun := run_requireVacant h m page
  split at hrun
  · exact .error hrun ⟨rfl, by simp⟩
  · split at hrun
    · exact .ok hrun rfl
    · exact .error hrun ⟨rfl, by simp⟩

omit [Mmu η] in
/-- The root's link is the only entry that is written to link the root to itself. -/
theorem ensureSelfLink_maps (m : Machine η α) :
    h.ensureSelfLink.Ends m (fun _ m' => ∃ own, m.Maps h.root m' own [] [] [])
      (fun stop m' => m.Maps h.root m' [] [] [] [] ∧ stop ≠ .error .outOfFrames) := by
  have hrefl := Machine.Maps.refl h.root m
  rcases ensureSelfLink_cases h m with ⟨hrun, -⟩ | ⟨hrun, -⟩ | ⟨hrun, -⟩ | ⟨hrun, -⟩
  · exact .ok hrun ⟨[], hrefl⟩
  · exact .ok hrun ⟨_, Or.inr rfl, by simp, by simp, .none (by simp) rfl, by simp⟩
  · exact .error hrun ⟨hrefl, by simp⟩
  · exact .error hrun ⟨hrefl.deals (.quiet (by simp) (by simp) rfl), by simp⟩

omit [FrameSource α] in
/-- The leaf is written last, or nothing is. -/
theorem installLeaf_writes (ix : Indices) (table target : Frame) (flags : PageFlags) (force : Bool)
    (m : Machine η α) :
    (h.installLeaf ix.page ix table target flags force).Ends m
      (fun _ m' => ∃ t, m'.writes = m.writes ++ [⟨t, ix.l1, .encode target (.ofPageFlags flags)⟩] ∧
        m'.requests = m.requests ∧ m'.frames = m.frames)
      (fun stop m' => m' = m ∧ stop ≠ .error .outOfFrames) := by
  have hrun := run_installLeaf h ix m table target flags force
  split at hrun
  · exact .error hrun ⟨rfl, by simp⟩
  · split at hrun
    · exact .error hrun ⟨rfl, by simp⟩
    · split at hrun
      · exact .ok hrun ⟨_, by rw [Machine.writes_log, Machine.writes_replaced], by simp, by simp⟩
      · exact .error hrun ⟨rfl, by simp⟩

theorem mapPage_maps (ix : Indices) (target : Frame) (flags : PageFlags) (force : Bool)
    (m : Machine η α) :
    (h.mapPage ix target flags force).Ends m
      (fun _ m' => ∃ own links t,
        m.Maps h.root m' own links [⟨t, ix.l1, .encode target (.ofPageFlags flags)⟩] [])
      (fun stop m' => ∃ own links rest, m.Maps h.root m' own links [] rest ∧
        Shortfall stop rest) := by
  have hrefl := Machine.Maps.refl h.root m
  have hvacancy : (if force then pure () else h.requireVacant ix.page :
      Op (Machine η α) MapError Unit).Ends m (fun _ m' => m' = m)
        (fun stop m' => m' = m ∧ stop ≠ .error .outOfFrames) := by
    cases force with
    | true => exact Op.Ends.pure rfl
    | false => exact requireVacant_keeps ix.page m
  -- The parts of mapping one after the other: only the descent asks for frames, and only the last
  -- part writes a leaf.
  unfold mapPage
  apply hvacancy.bind_mono
  · rintro _ m₀ rfl
    apply (ensureSelfLink_maps m₀).bind_mono
    · rintro _ m₁ ⟨own, hown⟩
      have hbelow : (h.ensureBelow ix Level.linking h.root : Op (Machine η α) MapError Frame).Keeps
          Op.linking :=
        (allowsDescent_linking h).ensureBelow (makeNext_keeps_linking ix) Level.linking h.root
      apply (hbelow.ends m₁).bind_mono
      · rintro table m₂ ⟨links, hlinks⟩
        have hmade := hown.deals hlinks
        apply (installLeaf_writes ix table target flags force m₂).mono
        · rintro _ m' ⟨t, hwrites, hrequests, hframes⟩
          exact ⟨own, links, t, hmade.write hwrites hrequests hframes⟩
        · rintro stop m' ⟨rfl, hstop⟩
          exact ⟨own, links, [], hmade, .none hstop⟩
      · rintro stop m' ⟨links, rest, hlinks, hstop⟩
        exact ⟨own, links, rest, hown.deals hlinks, hstop⟩
    · rintro stop m' ⟨hown, hstop⟩
      exact ⟨[], [], [], hown, .none hstop⟩
  · rintro stop m' ⟨rfl, hstop⟩
    exact ⟨[], [], [], hrefl, .none hstop⟩

/-- Mapping writes the links to the frames that it is given, and then the leaf; where it stops, the
last answer may be left without a link. -/
theorem map_maps (va : VirtAddr) (pa : PhysAddr) (flags : PageFlags) (force : Bool)
    (m : Machine η α) :
    (h.map va pa flags force).Ends m
      (fun _ m' => ∃ own links t, m.Maps h.root m' own links
        [⟨t, va.index .l1, .encode (.containing pa) (.ofPageFlags flags)⟩] [])
      (fun stop m' => ∃ own links rest, m.Maps h.root m' own links [] rest ∧
        Shortfall stop rest) := by
  apply map_ends_of_mapPage
  · -- A page that is refused before the descent has asked for nothing.
    intro cause hinvalid
    refine ⟨[], [], [], .refl _ m, .none ?_⟩
    rcases hinvalid with rfl | rfl <;> simp
  · intro ix target hva hpa
    obtain ⟨rfl, -⟩ := target?_eq_some_iff.mp hpa
    obtain ⟨-, rfl, -⟩ := mappable?_eq_some_iff.mp hva
    rw [Page.containing_base]
    exact mapPage_maps va.indices target flags force m

end Hierarchy

/-! ## Words that are no frames -/

/-- The next `n` words that a source draws. -/
def WordSource.words {β : Type} [WordSource β] : Nat → β → List Word
  | 0, _ => []
  | n + 1, s => (draw s).1.word :: words n (draw s).2

/-- A word that stands for no frame: zero, or one that is not the base of a frame for which entries
have room. -/
def Word.IsNoFrame (w : Word) : Prop :=
  w = 0 ∨ (⟨w⟩ : PhysAddr).isAligned .size4K = false ∨ physicalLimit ≤ w

/-- A word that is screened is handed out as its frame, unless it stands for none. -/
theorem Offer.frame?_screened (o : Offer) :
    (o.screened.frame? = none ↔ o.word.IsNoFrame) ∧
      ∀ f, o.screened.frame? = some f → f.isEncodable := by
  obtain ⟨w, residue⟩ := o
  unfold screened Word.IsNoFrame
  cases hzero : (⟨w⟩ : PhysAddr).isZero with
  | true =>
    -- Zero stands for no frame.
    have hw : w = 0 := eq_of_beq hzero
    simp only [address, hzero, if_true]
    exact ⟨iff_of_true trivial (Or.inl hw), by simp⟩
  | false =>
    have hw : w ≠ 0 := ne_of_beq_false hzero
    cases haligned : (⟨w⟩ : PhysAddr).isAligned .size4K with
    -- A word that is not aligned is no base of a frame.
    | false => simp [address, hzero, Page.ofAddr?, haligned]
    | true =>
      have hpage : (Page.ofAddr? ⟨w⟩ : Option Frame) = some ⟨⟨w⟩, haligned⟩ := by
        simp [Page.ofAddr?, haligned]
      simp only [address, hzero, hpage]
      -- The base of a frame is handed out if entries have room for it.
      by_cases hlimit : w < physicalLimit
      · have henc : (⟨⟨w⟩, haligned⟩ : Frame).isEncodable = true := decide_eq_true hlimit
        simpa [henc, BitVec.not_le.mpr hlimit] using hw
      · have henc : (⟨⟨w⟩, haligned⟩ : Frame).isEncodable = false := decide_eq_false hlimit
        simp [henc, BitVec.not_lt.mp hlimit]

namespace Screened

variable {β : Type} [WordSource β]

/-- The frames that are handed out are those of the words that are drawn, if they stand for any. -/
theorem answers_spec (n : Nat) (s : Screened β) :
    (none ∈ FrameSource.answers n s ↔ ∃ w ∈ WordSource.words n s.source, w.IsNoFrame) ∧
      ∀ f, some f ∈ FrameSource.answers n s → f.isEncodable := by
  -- The source is asked once for each word that it draws.
  induction n generalizing s with
  | zero => simp [FrameSource.answers, WordSource.words]
  | succ n ih =>
    obtain ⟨hnone, hsome⟩ := ih (FrameSource.request s).2
    obtain ⟨hfirst, henc⟩ := (WordSource.draw s.source).1.frame?_screened
    constructor
    · rw [FrameSource.answers, List.mem_cons, hnone, WordSource.words, List.exists_mem_cons_iff,
        ← hfirst, eq_comm]
      rfl
    · intro f hf
      rcases List.mem_cons.mp hf with hnow | hlater
      · exact henc f hnow.symm
      · exact hsome f hlater

end Screened

/-! ## Safety -/

namespace AddressSpace

variable [Mmu η]

/-- What a call that maps a page does with the frames that it is given. -/
theorem map_deals (s : AddressSpace η α) (va : VirtAddr) (pa : PhysAddr) (flags : PageFlags)
    (force : Bool) :
    (map va pa flags force).Ends s
      (fun _ s' => ∃ own links t, s.machine.Maps s.root s'.machine own links
        [⟨t, va.index .l1, .encode (.containing pa) (.ofPageFlags flags)⟩] [])
      (fun stop s' => ∃ own links rest, s.machine.Maps s.root s'.machine own links [] rest ∧
        Shortfall stop rest) := by
  apply (onMachine_ends (x := fun h => h.map va pa flags force)
    (Hierarchy.map_maps va pa flags force s.machine)).mono
  · rintro _ s' ⟨m, rfl, hend⟩
    exact hend
  · rintro stop s' ⟨m, rfl, hend⟩
    exact hend

omit [FrameSource α] in
/-- Behind a screen a call that maps a page runs out of frames just if it draws a word that is no
frame. -/
theorem perform_map_eq_outOfFrames_iff [WordSource β] (s : AddressSpace η (Screened β))
    (va : VirtAddr) (pa : PhysAddr) (flags : PageFlags) (force : Bool) :
    ∃ n, s.machine.Asks n (s.perform (.map va pa flags force)).2.machine ∧
      ((s.perform (.map va pa flags force)).1 = .refused (.map .outOfFrames) ↔
        ∃ w ∈ WordSource.words n s.machine.frames.source, w.IsNoFrame) := by
  simp only [perform]
  rcases conclude_ends (s.map_deals va pa flags force) .map (fun _ => .done) with
    ⟨_, s', hrun, own, links, t, hmaps⟩ | ⟨stop, s', hrun, own, links, rest, hmaps, hstop⟩
  · -- Every request has been granted, so every word was a frame.
    obtain ⟨hwords, -⟩ := Screened.answers_spec (links.length + 0) s.machine.frames
    rw [← List.length_nil (α := Option Frame), hmaps.none_mem_iff] at hwords
    rw [hrun]
    refine ⟨_, hmaps.asks, ?_⟩
    rw [← hwords]
    simp
  · obtain ⟨hwords, henc⟩ := Screened.answers_spec (links.length + rest.length) s.machine.frames
    rw [hmaps.none_mem_iff] at hwords
    rw [hrun]
    refine ⟨_, hmaps.asks, ?_⟩
    -- Behind a screen every frame that is handed out can be used, so only a declined request
    -- leaves the call without frames.
    rw [← hwords, ← hstop.eq_outOfFrames_iff]
    · cases stop with
      | error e => simp [Stop.refusal]
      | fault c => simp [Stop.refusal]
      | violation v => simp [Stop.refusal]
    · intro f hf
      apply henc f
      rw [hmaps.answers_eq]
      exact List.mem_append_right _ hf

/-- Nothing is ever violated over whatever tables, hardware and source of frames, if the root is one
that an entry has room for: all that can stop a call but an error of its own is a fault at an
address of the window. What a call that maps a page links are the frames that it is given, and a
word that is no frame ends it. -/
theorem safety_of_perform (s : AddressSpace η α) (hroot : s.root.isEncodable) :
    (∀ a, a ≠ .activate → (s.perform a).1.IsExpected (s.perform a).2) ∧
    (∀ [AnsweringMmu η], (s.perform .activate).1.IsExpected (s.perform .activate).2) ∧
    (∀ virt phys pages flags, s.Safely (MemoryMap.mapRange virt phys pages flags)) ∧
    (∀ base pages flags, s.Safely (MemoryMap.identityMapRange base pages flags)) ∧
    (∀ level ix, Window.table? level ix = some (Window.table level ix)) ∧
    (∀ va pa flags force, (map va pa flags force).Ends s
      (fun _ s' => ∃ own links t, s.machine.Maps s.root s'.machine own links
        [⟨t, va.index .l1, .encode (.containing pa) (.ofPageFlags flags)⟩] [])
      (fun stop s' => ∃ own links rest, s.machine.Maps s.root s'.machine own links [] rest ∧
        Shortfall stop rest)) ∧
    ∀ {β : Type} [WordSource β] (t : AddressSpace η (Screened β)) va pa flags force,
      ∃ n, t.machine.Asks n (t.perform (.map va pa flags force)).2.machine ∧
        ((t.perform (.map va pa flags force)).1 = .refused (.map .outOfFrames) ↔
          ∃ w ∈ WordSource.words n t.machine.frames.source, w.IsNoFrame) := by
  refine ⟨fun a => perform_isExpected hroot, perform_activate_isExpected hroot,
    safely_mapRange hroot, fun base => safely_mapRange hroot ⟨base.word⟩ base, ?_, s.map_deals, ?_⟩
  · exact Window.table?_eq_some
  · exact fun t => t.perform_map_eq_outOfFrames_iff

/-- A source that hands out the root itself and then a word that is no frame, on a processor whose
register is full of ones. -/
theorem safety_of_perform_specimen :
    let frames : Screened Script := ⟨{ Specimen.script with words := some [0x1000, 0x2008] }⟩
    let cpu : Hardware.Cpu := ⟨⟨.allOnes 64⟩, fun _ => true⟩
    let s := create Specimen.root .identity cpu frames Specimen.memory
    (s.perform .activate).1.IsExpected (s.perform .activate).2 ∧
    s.Safely (MemoryMap.mapRange ⟨0xfffffffffffff000⟩ .zero 2 .kernelData) ∧
    (∃ own links rest, s.machine.Maps s.root
        (s.perform (.map ⟨0x400000⟩ ⟨0x9000⟩ .kernelData true)).2.machine own links [] rest) ∧
    ∃ n, ∃ w ∈ WordSource.words n frames.source, w.IsNoFrame := by
  intro frames cpu s
  obtain ⟨-, hactivate, hrange, -, -, hmap, hwords⟩ :=
    safety_of_perform s Specimen.isEncodable_root
  have hout : (s.perform (.map ⟨0x400000⟩ ⟨0x9000⟩ .kernelData true)).1 =
      .refused (.map .outOfFrames) := by decide +kernel
  refine ⟨hactivate, hrange _ _ _ _, ?_, ?_⟩
  · cases hmap ⟨0x400000⟩ ⟨0x9000⟩ .kernelData true with
    | ok hrun _ =>
      simp only [perform, conclude, hrun] at hout
      cases hout
    | error hrun hend =>
      obtain ⟨own, links, rest, hmaps, -⟩ := hend
      simp only [perform, conclude, hrun]
      exact ⟨own, links, rest, hmaps⟩
  · obtain ⟨n, -, hiff⟩ := hwords s ⟨0x400000⟩ ⟨0x9000⟩ .kernelData true
    exact ⟨n, hiff.mp hout⟩

end AddressSpace

end Paging
