import Mathlib.Logic.ExistsUnique
import Paging.Proofs.Runs
import Paging.Proofs.ScriptedFrames

/-!
# The tables are a tree

In every sensible run the tables are a tree over the frames that were handed out. A slot for a link
is empty or holds the plain link to such a frame, every such frame is named by exactly one slot,
and the root's own slot is empty or links to the root. Links that have been made are never changed.
-/

namespace Paging

/-! ## The tree -/

/-- The tables below the root are the given frames, and each is linked in one place. -/
structure Memory.Tree (mem : Memory) (root : Frame) (handed : List Frame) : Prop where
  link : ∀ {t i}, mem.IsLinkSlot root t i → mem.read t i ≠ .zero →
    ∃ f ∈ handed, mem.read t i = .link f
  unique : ∀ f ∈ handed, ∃! slot : Frame × Index, mem.IsLinkSlot root slot.1 slot.2 ∧
    mem.read slot.1 slot.2 ≠ .zero ∧ (mem.read slot.1 slot.2).frame = f
  apart : mem.Apart root
  isTable_iff : ∀ f, mem.IsTable root f ↔ f = root ∨ f ∈ handed
  selfLink : mem.read root selfIndex = .zero ∨ mem.read root selfIndex = .selfLink root

namespace Memory

variable {mem : Memory} {root table : Frame} {i : Index}

/-- A link in its slot leads to a table other than the root. -/
theorem OwnLinks.table_of_ne_zero (hown : mem.OwnLinks root) (hap : mem.Apart root)
    (hslot : mem.IsLinkSlot root table i) (hne : mem.read table i ≠ .zero) :
    ∃ f p, IsPath (p ++ [i]) ∧ mem.tableAt? root p = some table ∧
      mem.tableAt? root (p ++ [i]) = some f ∧ f ≠ root ∧ mem.read table i = .link f ∧
        (mem.read table i).frame = f := by
  rcases hown.link hslot with hzero | ⟨f, hf, hlink⟩
  · exact absurd hzero hne
  · obtain ⟨p, hp, ht⟩ := hslot
    have hframe : (mem.read table i).frame = f := by rw [hlink, Entry.frame_link hf]
    have hchild : mem.tableAt? root (p ++ [i]) = some f := by
      rw [tableAt?_concat ht, hlink, if_pos (by simp), Entry.frame_link hf]
    refine ⟨f, p, hp, ht, hchild, ?_, hlink, hframe⟩
    -- The root is found at its own path only.
    intro heq
    rw [heq] at hchild
    have hnil := hap hp IsPath.nil hchild rfl
    simp at hnil

/-- A table other than the root is named by the slot of the last link that leads to it. -/
theorem exists_slot {f : Frame} {q : List Index} (hq : IsPath q)
    (hqf : mem.tableAt? root q = some f) (hne : f ≠ root) :
    ∃ p i t, q = p ++ [i] ∧ mem.tableAt? root p = some t ∧ mem.IsLinkSlot root t i ∧
      mem.read t i ≠ .zero ∧ (mem.read t i).frame = f := by
  rcases List.eq_nil_or_concat q with rfl | ⟨p, i, rfl⟩
  · exact absurd (Option.some.inj hqf).symm hne
  rw [List.concat_eq_append] at hq hqf ⊢
  obtain ⟨t, ht⟩ := tableAt?_prefix hqf (List.prefix_append p [i])
  rw [tableAt?_concat ht] at hqf
  split at hqf
  · rename_i hlink
    refine ⟨p, i, t, rfl, ht, ⟨p, hq, ht⟩, ?_, Option.some.inj hqf⟩
    -- A link is not absent.
    intro hzero
    simp [hzero] at hlink
  · cases hqf

/-- No other slot names that table. -/
theorem OwnLinks.existsUnique_slot (hown : mem.OwnLinks root) (hap : mem.Apart root) {f : Frame}
    (hne : f ≠ root) (hf : mem.IsTable root f) :
    ∃! slot : Frame × Index, mem.IsLinkSlot root slot.1 slot.2 ∧
      mem.read slot.1 slot.2 ≠ .zero ∧ (mem.read slot.1 slot.2).frame = f := by
  obtain ⟨q, hq, hqf⟩ := hf
  obtain ⟨p, i, t, rfl, ht, hslot, hzero, hframe⟩ := exists_slot hq hqf hne
  refine ⟨(t, i), ⟨hslot, hzero, hframe⟩, ?_⟩
  intro other hother
  obtain ⟨hslot', hzero', hframe'⟩ := hother
  obtain ⟨g, p', hp', ht', hchild, -, -, hg⟩ := hown.table_of_ne_zero hap hslot' hzero'
  obtain rfl : g = f := hg.symm.trans hframe'
  -- Both slots are the last on a path to the table, and there is one such path.
  have hpath := hap hp' hq hchild hqf
  obtain ⟨rfl, hi⟩ := List.append_inj' hpath rfl
  have htable : other.1 = t := Option.some.inj (ht'.symm.trans ht)
  exact Prod.ext htable (List.cons.inj hi).1

/-- Own links whose tables are accounted for are a tree. -/
theorem tree_of_ownLinks {handed : List Frame} (hown : mem.OwnLinks root) (hap : mem.Apart root)
    (hhanded : ∀ f, f ∈ handed ↔ f ≠ root ∧ mem.IsTable root f) : mem.Tree root handed where
  link {t i} hslot hne := by
    obtain ⟨f, p, hp, -, hchild, hroot, hlink, -⟩ := hown.table_of_ne_zero hap hslot hne
    exact ⟨f, (hhanded f).mpr ⟨hroot, _, hp, hchild⟩, hlink⟩
  unique f hf := by
    obtain ⟨hroot, htable⟩ := (hhanded f).mp hf
    exact hown.existsUnique_slot hap hroot htable
  apart := hap
  isTable_iff f := by
    rw [hhanded]
    constructor
    · intro ht
      by_cases hroot : f = root
      · exact Or.inl hroot
      · exact Or.inr ⟨hroot, ht⟩
    · intro hf
      rcases hf with rfl | hf
      · exact isTable_root mem f
      · exact hf.2
  selfLink := hown.selfLink

end Memory

/-! ## One action -/

namespace AddressSpace

variable {η α : Type} [Mmu η] [WalkingMmu η] [FrameSource α]

/-- A slot for a link, or the root's own slot. -/
def IsOwnSlot (s : AddressSpace η α) (t : Frame) (i : Index) : Prop :=
  s.machine.memory.IsLinkSlot s.root t i ∨ t = s.root ∧ i = selfIndex

namespace Sound

variable {s : AddressSpace η α} (hs : s.Sound)

include hs

theorem accounted_perform (ha : s.machine.Accounted s.root) (a : Action) :
    (s.perform a).2.machine.Accounted (s.perform a).2.root := by
  obtain ⟨m, hc, hagrees, hroot⟩ := perform_changes hs.usable hs.isEncodable hs.orderly a
  rw [hroot]
  exact hagrees.accounted (hc.accounted hs.orderly ha)

theorem present_of_ne_zero {t : Frame} {i : Index} (hslot : s.IsOwnSlot t i)
    (hne : s.machine.memory.read t i ≠ .zero) : (s.machine.memory.read t i).present = true := by
  rcases hslot with hslot | ⟨rfl, rfl⟩
  · rcases hs.ownLinks.link hslot with hzero | ⟨f, -, hlink⟩
    · exact absurd hzero hne
    · rw [hlink, Entry.present_link]
  · rcases hs.ownLinks.selfLink with hzero | hlink
    · exact absurd hzero hne
    · rw [hlink, Entry.present_selfLink]

/-- An action leaves a slot that is not empty as it is. -/
theorem read_perform (a : Action) {t : Frame} {i : Index} (hslot : s.IsOwnSlot t i)
    (hne : s.machine.memory.read t i ≠ .zero) :
    (s.perform a).2.machine.memory.read t i = s.machine.memory.read t i ∧
      (s.perform a).2.IsOwnSlot t i := by
  have hpresent := hs.present_of_ne_zero hslot hne
  obtain ⟨m, hc, hagrees, hroot⟩ := perform_changes hs.usable hs.isEncodable hs.orderly a
  refine ⟨?_, ?_⟩
  · rw [hagrees.memory]
    apply hc.read_of_present hs.orderly _ hpresent
    exact hslot.imp_right fun hself => hself.1
  · unfold IsOwnSlot
    rw [hagrees.memory, hroot]
    exact hslot.imp_left fun hlink => hc.isLinkSlot hs.orderly hlink

/-! ## A whole run -/

theorem accounted_performAll (ha : s.machine.Accounted s.root) {actions : List Action}
    (hp : s.PermitsAll actions) :
    (s.performAll actions).2.machine.Accounted (s.performAll actions).2.root := by
  -- What one action keeps, a run keeps as long as every state on the way is sound.
  induction actions generalizing s with
  | nil => exact ha
  | cons a rest ih => exact ih (hs.perform hp.1) (hs.accounted_perform ha a) hp.2

theorem read_performAll {actions : List Action} (hp : s.PermitsAll actions) {t : Frame} {i : Index}
    (hslot : s.IsOwnSlot t i) (hne : s.machine.memory.read t i ≠ .zero) :
    (s.performAll actions).2.machine.memory.read t i = s.machine.memory.read t i := by
  induction actions generalizing s with
  | nil => rfl
  | cons a rest ih =>
    -- The slot stays a slot for a link, which the next action asks for.
    obtain ⟨hread, hslot'⟩ := hs.read_perform a hslot hne
    rw [← hread] at hne ⊢
    exact ih (hs.perform hp.1) hp.2 hslot' hne

end Sound

omit [Mmu η] [WalkingMmu η] [FrameSource α] in
/-- Nothing is accounted for in a new address space, and nothing has to be. -/
theorem accounted_create {root : Frame} {mem : Memory} {frames : α} (mmu : η)
    (hzero : mem.table root = .zero) :
    (create root .identity mmu frames mem).machine.Accounted root := by
  intro f
  show Event.requested (some f) ∈ [] ↔ f ≠ root ∧ mem.IsTable root f
  rw [Memory.isTable_of_zero hzero]
  simp

/-- After any sensible run from an empty root the tables are a tree over the frames that were handed
out, and whatever is done later leaves every link and the root's own slot as they are once they are
not empty. -/
theorem tree_of_performAll {root : Frame} {mem : Memory} {frames : α} (mmu : η)
    (hroot : root.isEncodable) (hzero : mem.table root = .zero)
    (hfresh : FrameSource.Fresh (· ≠ root) frames) {actions later : List Action}
    (hactions : (create root .identity mmu frames mem).PermitsAll actions)
    (hlater : ((create root .identity mmu frames mem).performAll actions).2.PermitsAll later) :
    let s := ((create root .identity mmu frames mem).performAll actions).2
    s.machine.memory.Tree root s.machine.handedOut ∧
      ∀ t i, s.machine.memory.IsLinkSlot root t i ∨ t = root ∧ i = selfIndex →
        s.machine.memory.read t i ≠ .zero →
          (s.performAll later).2.machine.memory.read t i = s.machine.memory.read t i := by
  intro s
  have hcreate : (create root .identity mmu frames mem).Sound :=
    sound_create mmu hroot hzero hfresh
  have hs : s.Sound := hcreate.performAll hactions
  have hsroot : s.root = root := hcreate.root_performAll hactions
  have haccounted := hcreate.accounted_performAll (accounted_create mmu hzero) hactions
  refine ⟨?_, fun t i hslot hne => ?_⟩
  · have hown := hs.ownLinks
    have hap := hs.orderly.apart
    rw [hsroot] at hown hap
    apply Memory.tree_of_ownLinks hown hap
    intro f
    rw [Machine.mem_handedOut_iff]
    have hf := haccounted f
    rwa [hcreate.root_performAll hactions] at hf
  · rw [← hsroot] at hslot
    exact hs.read_performAll hlater hslot hne

/-- A page that could not be mapped before activation is mapped through the window. -/
theorem tree_of_performAll_specimen :
    let fail : Action := .map ⟨0x400000⟩ ⟨0x9000⟩ .kernelData false
    let actions : List Action := [fail, .activate, .setAccess .window, fail]
    let later : List Action := [.unmap ⟨0x400000⟩]
    let s := (Specimen.start.performAll actions).2
    s.machine.memory.Tree Specimen.root s.machine.handedOut ∧
      ∀ t i, s.machine.memory.IsLinkSlot Specimen.root t i ∨ t = Specimen.root ∧ i = selfIndex →
        s.machine.memory.read t i ≠ .zero →
          (s.performAll later).2.machine.memory.read t i = s.machine.memory.read t i := by
  intro fail actions later
  have hstart : Specimen.start.Sound := sound_create Specimen.hardware Specimen.isEncodable_root
    Specimen.table_root Specimen.fresh_source
  have hfail := hstart.perform (a := fail) trivial
  have hinstalled :=
    hfail.installed_perform (hstart.installed_perform (fun _ => rfl) fail) .activate
  have hactions : Specimen.start.PermitsAll actions :=
    ⟨trivial, trivial, ⟨by decide +kernel, hinstalled⟩, trivial, trivial⟩
  have hlater : (Specimen.start.performAll actions).2.PermitsAll later := ⟨trivial, trivial⟩
  -- Which actions they are does not matter any more.
  clear_value actions later
  exact tree_of_performAll Specimen.hardware Specimen.isEncodable_root Specimen.table_root
    Specimen.fresh_source hactions hlater

end AddressSpace

end Paging
