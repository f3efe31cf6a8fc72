import Paging.Proofs.NewTables
import Paging.Proofs.Runs
import Paging.Proofs.ScriptedFrames

/-!
# What an operation may change

Whatever comes of mapping a page, nothing is changed but what the outcome accounts for. If the page
was mapped, one frame was taken for each table that was missing, and the leaf is there; if the
frames ran out, there are some tables more and no leaf; and if the page was refused for any other
reason no frame was asked for, and the root's link to itself is the most that is new. Unmapping
removes one leaf, or changes nothing.
-/

namespace Paging

/-! ## The root's link to itself -/

namespace Memory

variable {mem : Memory} {root frame : Frame} {ix : Indices} {levels : List Level}

/-- Memory in which the root links to itself, unless there was something in the slot. -/
def linkedSelf (mem : Memory) (root : Frame) : Memory :=
  if mem.read root selfIndex = .zero then mem.write root selfIndex (.selfLink root) else mem

/-- The entry that is written for it. -/
def selfWrites (mem : Memory) (root : Frame) : List Placed :=
  if mem.read root selfIndex = .zero then [⟨root, selfIndex, .selfLink root⟩] else []

theorem eq_of_mem_selfWrites {w : Placed} (hw : w ∈ mem.selfWrites root) :
    w = ⟨root, selfIndex, .selfLink root⟩ := by
  unfold selfWrites at hw
  split at hw
  · exact List.mem_singleton.mp hw
  · cases hw

theorem rewritten_linkedSelf (mem : Memory) (root : Frame) :
    mem.Rewritten (mem.linkedSelf root) (mem.selfWrites root) [] := by
  unfold linkedSelf selfWrites
  split
  · exact rewritten_write mem root selfIndex _
  · exact .refl mem

theorem isTable_linkedSelf_iff (hap : mem.Apart root) :
    (mem.linkedSelf root).IsTable root frame ↔ mem.IsTable root frame := by
  unfold linkedSelf
  split
  · exact isTable_write_iff hap (isEndSlot_self mem root)
  · exact Iff.rfl

/-- The link changes nothing about which tables are missing. -/
theorem OpenAt.of_linkedSelf (hap : mem.Apart root) (hix : ix.l4 ≠ selfIndex)
    (h : (mem.linkedSelf root).OpenAt root ix levels frame) : mem.OpenAt root ix levels frame := by
  unfold linkedSelf at h
  split at h
  · have hend := isEndSlot_self mem root
    obtain ⟨⟨above, hlevels, ht⟩, hvacant⟩ := h
    rw [tableAt?_write_of_isEndSlot hap hend (Indices.isPath_above hix hlevels)] at ht
    have hr : mem.Reached root ix levels frame := .intro above hlevels ht
    refine ⟨hr, fun level hlevel => ?_⟩
    -- The slot that is vacant is one for a link.
    cases levels with
    | nil => cases hlevel
    | cons first lower =>
      obtain rfl := Option.some.inj hlevel
      rw [← hvacant _ rfl, read_write_of_isLinkSlot hap hend (hr.isLinkSlot hix)]
  · exact h

end Memory

variable {η α : Type}

/-! ## What outcomes account for -/

/-- What mapping the page of `va` to the frame at `pa` makes of a machine, for each outcome. -/
inductive MapEffect (root : Frame) (va : VirtAddr) (pa : PhysAddr) (flags : PageFlags)
    (m : Machine η α) : Outcome → Machine η α → Prop where
  /-- Every table that was missing is made, and the leaf is written. -/
  | done {m' : Machine η α} {ix : Indices} {target table : Frame} {levels : List Level}
      {frames : List Frame} (hva : Hierarchy.mappable? va = some ix)
      (hpa : Hierarchy.target? pa = some target) (hopen : m.memory.OpenAt root ix levels table)
      (hcount : frames.length = m.memory.missing root ix)
      (hunused : ∀ f ∈ frames, ¬ m.memory.IsTable root f) (hnodup : frames.Nodup)
      (hrequests : m'.requests = m.requests ++ frames.map some)
      (hmemory : m.memory.Rewritten m'.memory
        (m.memory.selfWrites root ++ ix.links levels table frames ++
          [⟨frames.getLastD table, ix.l1, .encode target (.ofPageFlags flags)⟩]) frames) :
      MapEffect root va pa flags m .done m'
  /-- Some of the tables are made, and the last of them is empty. -/
  | outOfFrames {m' : Machine η α} {ix : Indices} {table : Frame} {levels : List Level}
      {frames : List Frame} (hva : Hierarchy.mappable? va = some ix)
      (hopen : m.memory.OpenAt root ix levels table)
      (hcount : frames.length < m.memory.missing root ix)
      (hunused : ∀ f ∈ frames, ¬ m.memory.IsTable root f) (hnodup : frames.Nodup)
      (hrequests : m'.requests = m.requests ++ frames.map some ++ [none])
      (hmemory : m.memory.Rewritten m'.memory
        (m.memory.selfWrites root ++ ix.links levels table frames) frames) :
      MapEffect root va pa flags m (.refused (.map .outOfFrames)) m'
  /-- Nothing but the root's link to itself is made. -/
  | refused {m' : Machine η α} {cause : MapError}
      (hcause : cause = .occupied ∨ cause = .foreignEntry) (hrequests : m'.requests = m.requests)
      (hmemory : m.memory.Rewritten m'.memory [] [] ∨
        m.memory.Rewritten m'.memory (m.memory.selfWrites root) []) :
      MapEffect root va pa flags m (.refused (.map cause)) m'
  /-- Nothing is done for addresses that cannot be mapped. -/
  | invalid {cause : MapError} (hcause : cause = .invalidVirtual ∨ cause = .invalidPhysical) :
      MapEffect root va pa flags m (.refused (.map cause)) m

/-- What unmapping the page of `va` makes of a machine, for each outcome. -/
inductive UnmapEffect (root : Frame) (va : VirtAddr) (m : Machine η α) :
    Outcome → Machine η α → Prop where
  /-- The leaf is removed. -/
  | removed {m' : Machine η α} {ix : Indices} {table : Frame}
      (hva : Hierarchy.mappable? va = some ix)
      (ht : m.memory.tableAt? root ix.path = some table)
      (hleaf : m.memory.read table ix.l1 ≠ .zero) (hrequests : m'.requests = m.requests)
      (hmemory : m.memory.Rewritten m'.memory [⟨table, ix.l1, .zero⟩] []) :
      UnmapEffect root va m (.address (m.memory.read table ix.l1).address) m'
  /-- Nothing is done. -/
  | refused {m' : Machine η α} {cause : MapError}
      (hcause : cause = .invalidVirtual ∨ cause = .notMapped ∨ cause = .foreignEntry)
      (hrequests : m'.requests = m.requests) (hmemory : m.memory.Rewritten m'.memory [] []) :
      UnmapEffect root va m (.refused (.map cause)) m'

/-! ## Parts of mapping -/

@[simp] theorem Hierarchy.requests_replaced (h : Hierarchy) (ix : Indices) (table : Frame)
    (leaf : Entry) (m : Machine η α) : (h.replaced ix table leaf m).requests = m.requests := by
  unfold replaced
  split <;> simp

namespace Builds

variable {root table t : Frame} {ix : Indices} {levels : List Level} {frames : List Frame}
  {answers : List (Option Frame)} {m m₁ m₂ : Machine η α}

/-- The tables are made after the root was linked to itself. -/
theorem rewritten_linkedSelf (hself : m₁.memory = m.memory.linkedSelf root)
    (hb : Builds root ix levels table frames answers m₁ m₂) :
    m.memory.Rewritten m₂.memory (m.memory.selfWrites root ++ ix.links levels table frames)
      frames := by
  have hfirst := m.memory.rewritten_linkedSelf root
  rw [← hself] at hfirst
  -- The root is no new table, and no link is written into its own slot.
  apply hfirst.trans hb.rewritten
  intro w hw
  obtain rfl := Memory.eq_of_mem_selfWrites hw
  exact ⟨fun hroot => hb.unused root hroot (Memory.isTable_root m₁.memory root), hb.not_self⟩

/-- The last of the new tables is empty. -/
theorem read_last (hb : Builds root ix levels table frames answers m₁ m₂)
    (hnodup : (table :: frames).Nodup) (hne : frames ≠ []) (i : Index) :
    m₂.memory.read (frames.getLastD table) i = .zero := by
  -- Links are written into the tables above, never into the last one.
  apply hb.rewritten.empty
  · rw [List.getLastD_eq_getLast?, List.getLast?_eq_some_getLast hne]
    exact List.getLast_mem hne
  · intro w hw heq
    exact Indices.table_ne_of_mem_links hnodup hw heq.1

end Builds

/-- The leaf is written where nothing was written before it. -/
theorem Memory.Rewritten.leaf {mem mem' : Memory} {root table : Frame} {ix : Indices}
    {levels : List Level} {frames : List Frame}
    (h : mem.Rewritten mem' (mem.selfWrites root ++ ix.links levels table frames) frames)
    (hap : mem'.Apart root) (hix : ix.l4 ≠ selfIndex)
    (ht : mem'.tableAt? root ix.path = some (frames.getLastD table))
    (hnodup : (table :: frames).Nodup) (leaf : Entry) :
    mem.Rewritten (mem'.write (frames.getLastD table) ix.l1 leaf)
      (mem.selfWrites root ++ ix.links levels table frames ++
        [⟨frames.getLastD table, ix.l1, leaf⟩]) frames := by
  have hwrite := h.trans (mem'.rewritten_write (frames.getLastD table) ix.l1 leaf) (by
    intro w hw
    refine ⟨by simp, fun w' hw' heq => ?_⟩
    obtain rfl := List.mem_singleton.mp hw'
    rcases List.mem_append.mp hw with hw | hw
    · -- The root is no table of leaves.
      obtain rfl := eq_of_mem_selfWrites hw
      have hroot : frames.getLastD table = root := heq.1
      rw [hroot] at ht
      have hnil := hap (Indices.isPath_path hix) IsPath.nil ht rfl
      simp [Indices.path_eq] at hnil
    · exact Indices.table_ne_of_mem_links hnodup hw heq.1.symm)
  rwa [List.append_nil] at hwrite

namespace Hierarchy

variable [Mmu η] {h : Hierarchy} {m : Machine η α} {ix : Indices}

/-- The root is linked to itself if its own slot is empty, and refused if something else is there.
-/
theorem ensureSelfLink_links (hu : h.Usable m) (hroot : h.root.isEncodable) :
    h.ensureSelfLink.Ends m
      (fun _ m' => m'.memory = m.memory.linkedSelf h.root ∧ m'.requests = m.requests)
      (fun stop m' => stop = .error .foreignEntry ∧ m'.memory = m.memory ∧
        m'.requests = m.requests) := by
  by_cases hself : m.memory.SelfLinked h.root
  · apply Op.Ends.ok (run_ensureSelfLink_of_selfLinked hself)
    exact ⟨(if_neg hself.read_ne_zero).symm, rfl⟩
  have ha := hu.access_of_not_selfLinked hself
  by_cases hempty : m.memory.read h.root selfIndex = .zero
  · apply Op.Ends.ok (run_ensureSelfLink_of_empty ha hroot hempty)
    exact ⟨by simp [Memory.linkedSelf, hempty], by simp⟩
  · apply Op.Ends.error (run_ensureSelfLink_of_foreign ha hempty hself)
    exact ⟨rfl, rfl, by simp⟩

variable [FrameSource α] {root table t target : Frame} {levels : List Level} {frames : List Frame}
  {flags : PageFlags} {force : Bool} {va : VirtAddr} {pa : PhysAddr} {m₁ m₂ : Machine η α}

omit [FrameSource α] in
/-- Once all tables are there the leaf is written, or it is found to be occupied, which it cannot be
in a table that was made just now. -/
theorem installLeaf_footprint (hu : h.Usable m₂) (ho : m₂.memory.Apart h.root)
    (hix : ix.l4 ≠ selfIndex) (hva : mappable? va = some ix) (hpa : target? pa = some target)
    (hopen : m.memory.OpenAt h.root ix levels table) (hcount : frames.length = levels.length)
    (hunused : ∀ f ∈ frames, ¬ m.memory.IsTable h.root f)
    (hself : m₁.memory = m.memory.linkedSelf h.root) (hrequests : m₁.requests = m.requests)
    (hb : Builds h.root ix levels table frames (frames.map some) m₁ m₂)
    (ht : m₂.memory.tableAt? h.root ix.path = some (frames.getLastD table)) :
    (h.installLeaf ix.page ix (frames.getLastD table) target flags force).Ends m₂
      (fun _ m' => MapEffect h.root va pa flags m .done m')
      (fun stop m' => MapEffect h.root va pa flags m (.refused (stop.refusal .map)) m') := by
  obtain ⟨-, htarget⟩ := target?_eq_some_iff.mp hpa
  have hl := hu.locate_leaf ht
  -- The new frames are different from each other, and from the table that they hang from.
  have hnodup : (table :: frames).Nodup :=
    List.nodup_cons.mpr ⟨fun hmem => hunused table hmem (hopen.isTable hix), hb.nodup⟩
  have hmemory := hb.rewritten_linkedSelf hself
  have hrequests₂ := hb.requests
  rw [hrequests] at hrequests₂
  apply (installLeaf_ends hl htarget).mono
  · rintro _ m' ⟨-, rfl⟩
    -- The tables are there, and the leaf is written last.
    refine .done hva hpa hopen (hcount.trans hopen.missing_eq.symm) hunused hb.nodup ?_ ?_
    · simpa using hrequests₂
    · simpa using hmemory.leaf ho hix ht hnodup (.encode target (.ofPageFlags flags))
  · rintro stop m' ⟨rfl, rfl, -, hold⟩
    -- There was a leaf, so the table is an old one and no frame was asked for.
    obtain rfl : frames = [] := by
      apply Decidable.byContradiction
      intro hne
      exact hold (hb.read_last hnodup hne ix.l1)
    rw [Indices.links_nil, List.append_nil] at hmemory
    exact .refused (Or.inl rfl) (by simpa using hrequests₂) (Or.inr hmemory)

section Whole

variable (hu : h.Usable m) (ho : m.Orderly h.root) (hroot : h.root.isEncodable)

include hu ho hroot

theorem mapPage_footprint (hva : mappable? va = some ix) (hpa : target? pa = some target)
    (flags : PageFlags) (force : Bool) :
    (h.mapPage ix target flags force).Ends m
      (fun _ m' => MapEffect h.root va pa flags m .done m')
      (fun stop m' => MapEffect h.root va pa flags m (.refused (stop.refusal .map)) m') := by
  obtain ⟨-, -, hix⟩ := mappable?_eq_some_iff.mp hva
  unfold mapPage
  apply (vacancy_ends hu ix.page force).bind_mono
  · intro _ m₀ heq
    obtain rfl := heq
    -- What the parts do to memory and what they keep of the hierarchy is known separately.
    have hlink := (ensureSelfLink_ends hu hroot).and (ensureSelfLink_links hu hroot)
    apply hlink.bind_mono
    · intro _ m₁ hend
      obtain ⟨⟨hg₁, -⟩, hself, hrequests⟩ := hend
      have hu₁ := hu.growsTo hg₁ ho
      have ho₁ := hg₁.orderly ho
      have hr := Memory.Reached.start m₁.memory h.root ix
      -- What is open and unused after the link was so before it.
      have hopen : ∀ {rest table}, m₁.memory.OpenAt h.root ix rest table →
          m₀.memory.OpenAt h.root ix rest table := fun hopen₁ =>
        .of_linkedSelf ho.apart hix (hself ▸ hopen₁)
      have hunused : ∀ {f}, ¬ m₁.memory.IsTable h.root f → ¬ m₀.memory.IsTable h.root f := by
        intro f hf
        rwa [hself, Memory.isTable_linkedSelf_iff ho.apart] at hf
      have hbelow := (ensureBelow_ends hu₁ ho₁ hix hr).and (ensureBelow_builds hu₁ ho₁ hix hr)
      apply hbelow.bind_mono
      · intro t m₂ hend
        obtain ⟨⟨hg₂, ht⟩, rest, table, frames, hopen₁, hcount, rfl, hb⟩ := hend
        exact installLeaf_footprint (hu₁.growsTo hg₂ ho₁) (hg₂.orderly ho₁).apart hix hva hpa
          (hopen hopen₁) hcount (fun f hf => hunused (hb.unused f hf)) hself hrequests hb ht
      · intro stop m' hend
        obtain ⟨-, hend⟩ := hend
        rcases hend with ⟨rfl, rest, table, frames, hopen₁, hcount, hb⟩ | ⟨rfl, hmemory, hsame⟩
        · -- The frames have run out.
          have hcount' : frames.length < m₀.memory.missing h.root ix := by
            rwa [(hopen hopen₁).missing_eq]
          refine .outOfFrames hva (hopen hopen₁) hcount'
            (fun f hf => hunused (hb.unused f hf)) hb.nodup ?_ (hb.rewritten_linkedSelf hself)
          rw [hb.requests, hrequests, List.append_assoc]
        · -- A huge page is in the way, before any table was made.
          refine .refused (Or.inr rfl) (hsame.trans hrequests) (Or.inr ?_)
          rw [hmemory, hself]
          exact m₀.memory.rewritten_linkedSelf h.root
    · intro stop m' hend
      obtain ⟨-, rfl, hmemory, hrequests⟩ := hend
      -- Something else is in the root's own slot.
      exact .refused (Or.inr rfl) hrequests (Or.inl (hmemory ▸ .refl _))
  · intro stop m' hend
    obtain ⟨rfl, rfl⟩ := hend
    exact .refused (Or.inl rfl) rfl (Or.inl (.refl _))

/-- Mapping changes what its outcome accounts for. -/
theorem map_footprint (va : VirtAddr) (pa : PhysAddr) (flags : PageFlags) (force : Bool) :
    (h.map va pa flags force).Ends m
      (fun _ m' => MapEffect h.root va pa flags m .done m')
      (fun stop m' => MapEffect h.root va pa flags m (.refused (stop.refusal .map)) m') := by
  apply map_ends_of_mapPage
  · exact fun _ hinvalid => .invalid hinvalid
  · exact fun ix target hva hpa => mapPage_footprint hu ho hroot hva hpa flags force

end Whole

/-! ## Unmapping -/

omit [FrameSource α] in
/-- Unmapping changes what its outcome accounts for. -/
theorem unmap_footprint (hu : h.Usable m) (va : VirtAddr) :
    (h.unmap va).Ends m (fun pa m' => UnmapEffect h.root va m (.address pa) m')
      (fun stop m' => UnmapEffect h.root va m (.refused (stop.refusal .map)) m') := by
  cases hva : mappable? va with
  | none =>
    apply Op.Ends.error (run_unmap_of_unmappable h hva m)
    exact .refused (Or.inl rfl) rfl (.refl _)
  | some ix =>
    obtain ⟨-, -, hix⟩ := mappable?_eq_some_iff.mp hva
    apply Op.Ends.of_run_eq _ (run_unmap_of_mappable h hva m)
    apply ((findBelow_ends hu (.start m.memory h.root ix) hix ix.page).mono
      (fun _ _ hend => hend) _).bind
    · intro t m' hend
      obtain ⟨rfl, ht⟩ := hend
      have hl := hu.locate_leaf ht
      by_cases hold : m'.memory.read t ix.l1 = .zero
      · apply Op.Ends.error (run_removeLeaf_of_absent hl hold)
        exact .refused (Or.inr (Or.inl rfl)) rfl (.refl _)
      · apply Op.Ends.ok (run_removeLeaf_of_mapped hl hold)
        refine .removed hva ht hold (by simp) ?_
        rw [Machine.memory_log, memory_replaced]
        exact m'.memory.rewritten_write t ix.l1 .zero
    · intro stop m' hend
      obtain ⟨-, ⟨rfl, rfl⟩ | ⟨-, rfl, level, rfl⟩⟩ := hend
      · exact .refused (Or.inr (Or.inl rfl)) rfl (.refl _)
      · -- A huge page covers the page, which is recorded and nothing else.
        exact .refused (Or.inr (Or.inr rfl)) (by simp) (.refl _)

end Hierarchy

/-! ## Calls of an address space -/

namespace AddressSpace

variable [Mmu η] [FrameSource α]

theorem perform_unmap_effect {s : AddressSpace η α} (hu : s.Usable) (va : VirtAddr) :
    ∃ m, (s.perform (.unmap va)).2 = s.onto m ∧
      UnmapEffect s.root va s.machine (s.perform (.unmap va)).1 m := by
  simp only [perform, unmap]
  exact exists_conclude_onMachine .map .address (Hierarchy.unmap_footprint hu va)

/-- While frames are used directly, whatever the hierarchy holds as long as its tables are apart,
and whenever the frame source declines, mapping and unmapping change the machine as their outcomes
account for, and nothing else of the address space. -/
theorem footprint_of_perform {s : AddressSpace η α} (haccess : s.access = .identity)
    (hroot : s.root.isEncodable) (ho : s.machine.Orderly s.root) (va : VirtAddr) :
    (∀ pa flags force, ∃ m, (s.perform (.map va pa flags force)).2 = s.onto m ∧
      MapEffect s.root va pa flags s.machine (s.perform (.map va pa flags force)).1 m) ∧
    ∃ m, (s.perform (.unmap va)).2 = s.onto m ∧
      UnmapEffect s.root va s.machine (s.perform (.unmap va)).1 m := by
  have hu : s.Usable := Hierarchy.usable_of_identity haccess s.machine
  refine ⟨fun pa flags force => ?_, perform_unmap_effect hu va⟩
  simp only [perform, map]
  exact exists_conclude_onMachine .map (fun _ => .done)
    (Hierarchy.map_footprint hu ho hroot va pa flags force)

/-- The first attempt to map a page is given two frames and then none, and the second is given the
one that is still missing. -/
theorem footprint_of_perform_specimen :
    let map : Action := .map ⟨0x400123⟩ ⟨0x9000⟩ .kernelData false
    let frame (w : Word) : Option Frame := some (.containing ⟨w⟩)
    let s := (Specimen.start.perform map).2
    (∃ m, s = Specimen.start.onto m ∧ m.requests = [frame 0x2000, frame 0x3000, none] ∧
      MapEffect Specimen.root ⟨0x400123⟩ ⟨0x9000⟩ .kernelData Specimen.start.machine
        (.refused (.map .outOfFrames)) m) ∧
    (∃ m, (s.perform map).2 = s.onto m ∧
      m.requests = [frame 0x2000, frame 0x3000, none, frame 0x4000] ∧
      MapEffect Specimen.root ⟨0x400123⟩ ⟨0x9000⟩ .kernelData s.machine .done m) ∧
    ∃ m, (s.perform (.unmap ⟨0x400123⟩)).2 = s.onto m ∧
      UnmapEffect Specimen.root ⟨0x400123⟩ s.machine (.refused (.map .notMapped)) m := by
  intro map frame s
  have hfirst : (Specimen.start.perform map).1 = .refused (.map .outOfFrames) := by
    decide +kernel
  have hsecond : (s.perform map).1 = .done := by decide +kernel
  have hunmap : (s.perform (.unmap ⟨0x400123⟩)).1 = .refused (.map .notMapped) := by
    decide +kernel
  have haccess : s.access = .identity := by decide +kernel
  have hroot : s.root = Specimen.root := by decide +kernel
  have hrequests : s.machine.requests = [frame 0x2000, frame 0x3000, none] := by decide +kernel
  have hmore : (s.perform map).2.machine.requests =
      [frame 0x2000, frame 0x3000, none, frame 0x4000] := by decide +kernel
  have hstart : Specimen.start.Sound := sound_create Specimen.hardware Specimen.isEncodable_root
    Specimen.table_root Specimen.fresh_source
  have hs : s.Sound := hstart.perform (a := map) trivial
  obtain ⟨m, hm, heffect⟩ := (footprint_of_perform (s := Specimen.start) rfl
    Specimen.isEncodable_root hstart.orderly ⟨0x400123⟩).1 ⟨0x9000⟩ .kernelData false
  rw [hfirst] at heffect
  refine ⟨⟨m, hm, ?_, heffect⟩, ?_⟩
  · rw [← hrequests]
    exact congrArg (·.machine.requests) hm.symm
  clear_value s frame
  obtain ⟨hmapped, hunmapped⟩ := footprint_of_perform haccess hs.isEncodable hs.orderly ⟨0x400123⟩
  obtain ⟨m₂, hm₂, heffect₂⟩ := hmapped ⟨0x9000⟩ .kernelData false
  obtain ⟨m₃, hm₃, heffect₃⟩ := hunmapped
  rw [hunmap, hroot] at heffect₃
  refine ⟨⟨m₂, hm₂, ?_, ?_⟩, m₃, hm₃, heffect₃⟩
  · rw [← hmore]
    exact congrArg (·.machine.requests) hm₂.symm
  · rw [← hsecond, ← hroot]
    exact heffect₂

end AddressSpace

end Paging
