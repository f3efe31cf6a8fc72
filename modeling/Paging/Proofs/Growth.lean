import Mathlib.Logic.Relation
import Paging.Hierarchy.Map
import Paging.Proofs.Extension
import Paging.Proofs.FreshFrames
import Paging.Proofs.Trace

/-!
# How a hierarchy grows

Everything that mapping does before it writes a leaf, and everything that a refused operation leaves
behind, is a sequence of small steps: a record is logged, a request is declined, the root is linked
to itself, or a new table is linked and cleared. `Grows` is one such step of the machine. What a
step keeps, a whole operation keeps: the tables stay apart, the frame source stays clear of them,
every link and every leaf stays as it was, and the frames that were handed out are the tables.
-/

namespace Paging

/-! ## Growth of memory -/

/-- What one step does to memory: nothing, or one new link. -/
inductive Memory.Grows (root : Frame) : Memory → Memory → Prop where
  | refl (mem : Memory) : Grows root mem mem
  | linkSelf (mem : Memory) (hempty : mem.read root selfIndex = .zero) :
      Grows root mem (mem.write root selfIndex (.selfLink root))
  | extend {mem mem' : Memory} {p : List Index} {i : Index} {table next : Frame}
      (hx : mem.Extends mem' root p i table next) : Grows root mem mem'

namespace Memory

variable {mem mem' : Memory} {root table frame : Frame} {p : List Index} {i : Index}

namespace Grows

variable (h : mem.Grows root mem') (hap : mem.Apart root)

include h hap

theorem apart : mem'.Apart root := by
  cases h with
  | refl => exact hap
  | linkSelf => exact apart_write hap (isEndSlot_self mem root)
  | extend hx => exact hx.apart hap

theorem tableAt?_of_some (hp : IsPath p) (ht : mem.tableAt? root p = some frame) :
    mem'.tableAt? root p = some frame := by
  cases h with
  | refl => exact ht
  | linkSelf => rwa [tableAt?_write_of_isEndSlot hap (isEndSlot_self mem root) hp]
  | extend hx => exact hx.tableAt?_of_some hap hp ht

theorem isTable (ht : mem.IsTable root frame) : mem'.IsTable root frame := by
  obtain ⟨p, hp, ht⟩ := ht
  exact ⟨p, hp, h.tableAt?_of_some hap hp ht⟩

theorem isLinkSlot (hs : mem.IsLinkSlot root table i) : mem'.IsLinkSlot root table i := by
  obtain ⟨p, hp, ht⟩ := hs
  exact ⟨p, hp, h.tableAt?_of_some hap hp.of_append_left ht⟩

theorem ownLinks (hown : mem.OwnLinks root) : mem'.OwnLinks root := by
  cases h with
  | refl => exact hown
  | linkSelf => exact ownLinks_write hap (isEndSlot_self mem root) hown fun _ => rfl
  | extend hx => exact hx.ownLinks hap hown

theorem leaf_eq {ix : Indices} (hix : ix.l4 ≠ selfIndex) :
    mem'.leaf root ix = mem.leaf root ix := by
  cases h with
  | refl => rfl
  | linkSelf =>
    rw [leaf_write hap (isEndSlot_self mem root) hix, if_neg]
    intro heq
    -- The slot is in the root, and a leaf lies three tables below it.
    simp [Indices.path_eq] at heq
  | extend hx => exact hx.leaf_eq hap hix

/-- Of all slots of tables only an absent one changes. -/
theorem read_of_present {t : Frame} {j : Index} (ht : mem.IsTable root t)
    (hpresent : (mem.read t j).present = true) : mem'.read t j = mem.read t j := by
  cases h with
  | refl => rfl
  | linkSelf hempty =>
    rw [read_write, if_neg]
    intro heq
    obtain ⟨rfl, rfl⟩ := heq
    simp [hempty] at hpresent
  | extend hx =>
    -- The new table was none before, and the slot that links to it was vacant.
    rw [hx.read, if_neg (hx.ne_next_of_isTable ht), if_neg]
    intro heq
    obtain ⟨rfl, rfl⟩ := heq
    simp [hx.vacant] at hpresent

end Grows

end Memory

/-! ## Growth of a machine -/

namespace Hierarchy

variable {η α : Type}

theorem continues_dropped (h : Hierarchy) (va : VirtAddr) (m : Machine η α) :
    m.Continues (h.dropped va m) (if h.live then [.invalidated va] else []) := by
  unfold dropped
  split
  · exact m.continues_invalidate va
  · exact .refl m

end Hierarchy

variable {η α : Type} [FrameSource α]

/-- One step in the growth of a hierarchy. -/
inductive Grows (h : Hierarchy) : Machine η α → Machine η α → Prop where
  | log (m : Machine η α) (r : Record) : Grows h m (m.log r)
  | decline (m : Machine η α) (hnone : m.request.1 = none) : Grows h m m.request.2
  | linkSelf (m : Machine η α) (hempty : m.memory.read h.root selfIndex = .zero) :
      Grows h m (m.write h.root selfIndex (.selfLink h.root))
  | link (m : Machine η α) (va : VirtAddr) (p : List Index) (i : Index) (table next : Frame)
      (hp : IsPath (p ++ [i])) (ht : m.memory.tableAt? h.root p = some table)
      (hvacant : (m.memory.read table i).present = false) (hnext : m.request.1 = some next) :
      Grows h m ((h.dropped va (m.request.2.write table i (.link next))).clear next)

/-- The tables are apart, and the frame source offers none of them. -/
structure Machine.Orderly (m : Machine η α) (root : Frame) : Prop where
  apart : m.memory.Apart root
  fresh : FrameSource.Fresh (fun f => ¬ m.memory.IsTable root f) m.frames

/-- A request does not touch the tables. -/
theorem Machine.sameTables_request {m : Machine η α} {root : Frame}
    (hc : FrameSource.Clear (fun f => ¬ m.memory.IsTable root f) m.frames) :
    m.memory.SameTables m.request.2.memory root := by
  rw [memory_request]
  cases hr : (FrameSource.request m.frames).1.residue with
  | none => exact .refl m.memory root
  | some residue => exact Memory.sameTables_setTable (hc.residue (n := 0) hr).1 residue.2

/-- The frames that were handed out are the tables other than the root. -/
def Machine.Accounted (m : Machine η α) (root : Frame) : Prop :=
  ∀ f, Event.requested (some f) ∈ m.trace ↔ f ≠ root ∧ m.memory.IsTable root f

namespace Grows

variable {h : Hierarchy} {m m' : Machine η α}

/-- While a frame is handed out the rest of memory is left alone. -/
theorem read_request (ho : m.Orderly h.root) {next : Frame} (hnext : m.request.1 = some next)
    {f : Frame} (hf : f ≠ next) (j : Index) : m.request.2.memory.read f j = m.memory.read f j := by
  rcases Machine.memory_request_of_some ho.fresh hnext with hsame | ⟨t, hset⟩
  · rw [hsame]
  · simp [hset, Memory.read, Memory.table_setTable_of_ne, hf]

/-- A frame that was handed out is linked as a new table, whatever it holds. -/
theorem links_of_link (ho : m.Orderly h.root) {p : List Index} {i : Index} {table next : Frame}
    (hp : IsPath (p ++ [i])) (ht : m.memory.tableAt? h.root p = some table)
    (hvacant : (m.memory.read table i).present = false) (hnext : m.request.1 = some next) :
    m.memory.Links (m.request.2.memory.write table i (.link next)) h.root p i table next where
  isPath := hp
  parent := ht
  vacant := hvacant
  unused := ho.fresh.isFree (n := 0) hnext
  isEncodable := ho.fresh.isEncodable (n := 0) hnext
  slot := Memory.read_write_self ..
  other f j hf hslot := by
    rw [Memory.read_write, if_neg hslot]
    exact read_request ho hnext hf j

/-- Linking a new table and clearing it extends the hierarchy. -/
theorem extends_of_link (ho : m.Orderly h.root) {p : List Index} {i : Index} {table next : Frame}
    (hp : IsPath (p ++ [i])) (ht : m.memory.tableAt? h.root p = some table)
    (hvacant : (m.memory.read table i).present = false) (hnext : m.request.1 = some next) :
    m.memory.Extends ((m.request.2.memory.write table i (.link next)).clear next) h.root p i table
      next :=
  (links_of_link ho hp ht hvacant hnext).clear

theorem memory_grows (hg : Grows h m m') (ho : m.Orderly h.root) :
    m.memory.Grows h.root m'.memory := by
  cases hg with
  | log r => exact .refl _
  | decline hnone =>
    -- Who declines leaves memory alone.
    rw [Machine.memory_request_of_none ho.fresh hnone]
    exact .refl _
  | linkSelf hempty => exact .linkSelf _ hempty
  | link va p i table next hp ht hvacant hnext =>
    simp only [Machine.memory_clear, Hierarchy.memory_dropped, Machine.memory_write]
    exact .extend (extends_of_link ho hp ht hvacant hnext)

theorem mmu_eq (hg : Grows h m m') : m'.mmu = m.mmu := by
  cases hg <;> simp

/-- A step keeps the tables apart, and the frame source clear of them. -/
theorem orderly (hg : Grows h m m') (ho : m.Orderly h.root) : m'.Orderly h.root := by
  refine ⟨(hg.memory_grows ho).apart ho.apart, ?_⟩
  cases hg with
  | log r => exact ho.fresh
  | decline hnone =>
    -- A refusal uses up an answer, and the tables are the same.
    rw [Machine.frames_request, Machine.memory_request_of_none ho.fresh hnone]
    exact ho.fresh.next.mono fun f hf => hf.1
  | linkSelf hempty =>
    -- The root's own slot ends every path, so that no table comes with the link.
    refine ho.fresh.mono fun f hf => ?_
    rwa [Machine.memory_write,
      Memory.isTable_write_iff ho.apart (Memory.isEndSlot_self m.memory h.root)]
  | link va p i table next hp ht hvacant hnext =>
    have hx := extends_of_link ho hp ht hvacant hnext
    simp only [Machine.frames_clear, Hierarchy.frames_dropped, Machine.frames_write,
      Machine.frames_request, Machine.memory_clear, Hierarchy.memory_dropped, Machine.memory_write]
    -- The new table is the frame that was just handed out.
    refine ho.fresh.next.mono fun f hf => ?_
    rw [hx.isTable_iff ho.apart, not_or]
    refine ⟨?_, hf.1⟩
    intro heq
    exact hf.2 (heq ▸ hnext)

/-- What a step does to memory is in the trace. -/
theorem continues (hg : Grows h m m') : ∃ events, m.Continues m' events := by
  cases hg with
  | log r => exact ⟨_, m.continues_log r⟩
  | decline hnone =>
    obtain ⟨events, hc, -⟩ := m.continues_request
    exact ⟨_, hc⟩
  | linkSelf hempty => exact ⟨_, m.continues_write _ _ _⟩
  | link va p i table next hp ht hvacant hnext =>
    obtain ⟨events, hc, -⟩ := m.continues_request
    have hw := hc.trans (m.request.2.continues_write table i (.link next))
    exact ⟨_, (hw.trans (h.continues_dropped va _)).trans (Machine.continues_clear _ _)⟩

/-- Every frame that a step is handed becomes a table. -/
theorem accounted (hg : Grows h m m') (ho : m.Orderly h.root) (ha : m.Accounted h.root) :
    m'.Accounted h.root := by
  intro f
  cases hg with
  | log r =>
    rw [Machine.trace_log, Machine.memory_log, ← ha f]
    simp
  | decline hnone =>
    obtain ⟨events, hc, hno⟩ := m.continues_request
    rw [Machine.memory_request_of_none ho.fresh hnone, ← ha f, hc.1, hnone]
    simp [hno]
  | linkSelf hempty =>
    -- The link to the root makes no table, and it asks for no frame.
    rw [Machine.trace_write, Machine.memory_write,
      Memory.isTable_write_iff ho.apart (Memory.isEndSlot_self m.memory h.root), ← ha f]
    simp
  | link va p i table next hp ht hvacant hnext =>
    have hx := extends_of_link ho hp ht hvacant hnext
    obtain ⟨events, hc, hno⟩ := m.continues_request
    -- Apart from the request itself nothing that the step does is a request.
    have htrace : Event.requested (some f) ∈
        ((h.dropped va (m.request.2.write table i (.link next))).clear next).trace ↔
          f = next ∨ Event.requested (some f) ∈ m.trace := by
      rw [Machine.trace_clear, Hierarchy.trace_dropped, Machine.trace_write, hc.1, hnext]
      simp [hno]
    rw [htrace, ha f]
    simp only [Machine.memory_clear, Hierarchy.memory_dropped, Machine.memory_write,
      hx.isTable_iff ho.apart]
    constructor
    · intro hf
      rcases hf with rfl | ⟨hne, htable⟩
      · exact ⟨hx.root_ne_next.symm, Or.inl rfl⟩
      · exact ⟨hne, Or.inr htable⟩
    · intro hf
      rcases hf with ⟨hne, rfl | htable⟩
      · exact Or.inl rfl
      · exact Or.inr ⟨hne, htable⟩

end Grows

/-! ## Any number of steps -/

/-- Any number of steps in the growth of a hierarchy. -/
abbrev GrowsTo (h : Hierarchy) : Machine η α → Machine η α → Prop :=
  Relation.ReflTransGen (Grows h)

namespace GrowsTo

variable {h : Hierarchy} {m m' : Machine η α}

theorem orderly (hg : GrowsTo h m m') (ho : m.Orderly h.root) : m'.Orderly h.root := by
  induction hg with
  | refl => exact ho
  | tail _ hstep ih => exact hstep.orderly ih

theorem mmu_eq (hg : GrowsTo h m m') : m'.mmu = m.mmu := by
  induction hg with
  | refl => rfl
  | tail _ hstep ih => rw [hstep.mmu_eq, ih]

theorem accounted (hg : GrowsTo h m m') (ho : m.Orderly h.root) (ha : m.Accounted h.root) :
    m'.Accounted h.root := by
  induction hg with
  | refl => exact ha
  | tail hsteps hstep ih => exact hstep.accounted (orderly hsteps ho) ih

theorem continues (hg : GrowsTo h m m') : ∃ events, m.Continues m' events := by
  induction hg with
  | refl => exact ⟨[], .refl _⟩
  | tail _ hstep ih =>
    obtain ⟨early, hearly⟩ := ih
    obtain ⟨late, hlate⟩ := hstep.continues
    exact ⟨_, hearly.trans hlate⟩

/-- What every step of memory keeps is kept by any number of steps. -/
theorem memory_induction {P : Memory → Prop} (hg : GrowsTo h m m') (ho : m.Orderly h.root)
    (hstep : ∀ mem mem', mem.Apart h.root → mem.Grows h.root mem' → P mem → P mem')
    (hP : P m.memory) : P m'.memory := by
  induction hg with
  | refl => exact hP
  | tail hsteps hone ih =>
    have hmid := orderly hsteps ho
    exact hstep _ _ hmid.apart (hone.memory_grows hmid) ih

theorem ownLinks (hg : GrowsTo h m m') (ho : m.Orderly h.root)
    (hown : m.memory.OwnLinks h.root) : m'.memory.OwnLinks h.root :=
  hg.memory_induction ho (fun _ _ hap hstep => hstep.ownLinks hap) hown

theorem leaf_eq (hg : GrowsTo h m m') (ho : m.Orderly h.root) {ix : Indices}
    (hix : ix.l4 ≠ selfIndex) : m'.memory.leaf h.root ix = m.memory.leaf h.root ix :=
  hg.memory_induction (P := fun mem => mem.leaf h.root ix = m.memory.leaf h.root ix) ho
    (fun _ _ hap hstep heq => (hstep.leaf_eq hap hix).trans heq) rfl

theorem tableAt?_of_some (hg : GrowsTo h m m') (ho : m.Orderly h.root) {p : List Index}
    {frame : Frame} (hp : IsPath p) (ht : m.memory.tableAt? h.root p = some frame) :
    m'.memory.tableAt? h.root p = some frame :=
  hg.memory_induction ho (fun _ _ hap hstep => hstep.tableAt?_of_some hap hp) ht

/-- Entries of tables that are present stay as they are. -/
theorem read_of_present (hg : GrowsTo h m m') (ho : m.Orderly h.root) {t : Frame} {j : Index}
    (ht : m.memory.IsTable h.root t) (hpresent : (m.memory.read t j).present = true) :
    m'.memory.read t j = m.memory.read t j := by
  -- That the frame is a table has to be carried along, or the step lemma does not apply.
  have hboth : m'.memory.IsTable h.root t ∧ m'.memory.read t j = m.memory.read t j := by
    apply hg.memory_induction (P := fun mem =>
      mem.IsTable h.root t ∧ mem.read t j = m.memory.read t j) ho
    · intro mem mem' hap hstep hkept
      obtain ⟨htable, hread⟩ := hkept
      refine ⟨hstep.isTable hap htable, ?_⟩
      rw [hstep.read_of_present hap htable (by rwa [hread]), hread]
    · exact ⟨ht, rfl⟩
  exact hboth.2

end GrowsTo

end Paging
