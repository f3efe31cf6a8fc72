import Paging.Proofs.Runs
import Paging.Proofs.ScriptedFrames
import Paging.Proofs.Views

/-!
# Effective permissions

The processor allows what all four entries of a walk allow. Links allow everything, so the leaf of a
page decides alone, and the leaf is the one that the page's last mapping asked for: no mapping of
another page, and nothing that was mapped there before, takes a permission away or adds one. The
root's link to itself is the first entry of every walk in the window and forbids user mode and
execution there.
-/

namespace Paging

/-! ## What an entry allows -/

namespace EntryFlags

theorem getLsbD_ite_single (c : Bool) (k : Fin 64) (i : Nat) :
    (if c then (.single k : EntryFlags) else .empty).bits.getLsbD i = (c && decide (k = i)) := by
  cases c with
  | false => simp [Flags.empty]
  | true => simp [Flags.single, BitVec.getLsbD_twoPow]

/-- The bits of a leaf's flags. -/
theorem getLsbD_ofPageFlags (flags : PageFlags) (i : Nat) :
    (ofPageFlags flags).bits.getLsbD i =
      (flags.contains PageFlags.present && decide (0 = i) ||
        flags.contains PageFlags.user && decide (2 = i) ||
        flags.contains PageFlags.write && decide (1 = i) ||
        flags.contains PageFlags.huge && decide (7 = i) ||
        !flags.contains PageFlags.execute && decide (63 = i)) := by
  simp only [ofPageFlags, Flags.union, BitVec.getLsbD_or, present, user, writable, huge, noExecute,
    getLsbD_ite_single]
  rfl

end EntryFlags

namespace Entry

variable {f : Frame} {flags : PageFlags}

theorem present_leaf :
    (encode f (.ofPageFlags flags)).present = flags.contains PageFlags.present := by
  rw [present, getLsbD_encode, EntryFlags.getLsbD_ofPageFlags]
  simp

theorem writable_leaf :
    (encode f (.ofPageFlags flags)).writable = flags.contains PageFlags.write := by
  rw [writable, getLsbD_encode, EntryFlags.getLsbD_ofPageFlags]
  simp

theorem userAccess_leaf :
    (encode f (.ofPageFlags flags)).userAccess = flags.contains PageFlags.user := by
  rw [userAccess, getLsbD_encode, EntryFlags.getLsbD_ofPageFlags]
  simp

theorem noExecute_leaf :
    (encode f (.ofPageFlags flags)).noExecute = !flags.contains PageFlags.execute := by
  rw [noExecute, getLsbD_encode, EntryFlags.getLsbD_ofPageFlags]
  simp

theorem frame_leaf (hf : f.isEncodable) : (encode f (.ofPageFlags flags)).frame = f := by
  apply frame_encode hf
  intro i hlow hhigh
  rw [EntryFlags.getLsbD_ofPageFlags]
  grind

/-- An entry that allows everything. -/
def IsOpen (e : Entry) : Prop :=
  e.writable = true ∧ e.userAccess = true ∧ e.noExecute = false

theorem isOpen_link (f : Frame) : (link f).IsOpen := by
  simp only [IsOpen, link, writable, userAccess, noExecute, getLsbD_encode, EntryFlags.getLsbD_link]
  simp

theorem userAccess_selfLink (f : Frame) : (selfLink f).userAccess = false := by
  rw [selfLink, userAccess, getLsbD_encode, EntryFlags.getLsbD_selfLink]
  simp

theorem noExecute_selfLink (f : Frame) : (selfLink f).noExecute = true := by
  rw [selfLink, noExecute, getLsbD_encode, EntryFlags.getLsbD_selfLink]
  simp

end Entry

/-- An address in the window has the index of the root's own slot. -/
theorem Address.index_of_contains_window {va : VirtAddr} (h : Window.contains va = true) :
    va.index .l4 = selfIndex := by
  have hrange : 2 ^ 39 ≤ va.word.toNat ∧ va.word.toNat < 2 ^ 40 := by
    simpa [Window.contains, Window.start, Window.stop, BitVec.le_def, BitVec.lt_def] using h
  rw [← BitVec.toNat_inj, toNat_index, Nat.shiftRight_eq_div_pow]
  show va.word.toNat / 2 ^ 39 % 512 = 1
  omega

namespace Hardware

/-- Behind entries that allow everything the last one decides. -/
theorem Permissions.ofEntries_concat {es : List Entry} (hopen : ∀ e ∈ es, e.IsOpen)
    (leaf : Entry) :
    ofEntries (es ++ [leaf]) = ⟨leaf.writable, leaf.userAccess, !leaf.noExecute⟩ := by
  have hwritable : es.all (·.writable) = true := List.all_eq_true.mpr fun e he => (hopen e he).1
  have huser : es.all (·.userAccess) = true := List.all_eq_true.mpr fun e he => (hopen e he).2.1
  have hexecute : es.all (fun e => !e.noExecute) = true :=
    List.all_eq_true.mpr fun e he => by simp [(hopen e he).2.2]
  simp [ofEntries, hwritable, huser, hexecute]

/-! ## The walk of a page -/

variable {mem : Memory} {root frame table : Frame} {va : VirtAddr} {levels : List Level}

/-- Among own links the walk of a page that has a table reads links and then the leaf. -/
theorem entries_of_reached (hown : mem.OwnLinks root) (hl4 : va.index .l4 ≠ selfIndex)
    (hr : mem.Reached root va.indices levels frame)
    (ht : mem.tableAt? root va.indices.path = some table)
    (hpresent : (mem.read table (va.index .l1)).present = true) :
    ∃ links, entries mem va (levels ++ [.l1]) frame =
        some (links ++ [mem.read table (va.index .l1)]) ∧ ∀ e ∈ links, e.IsOpen := by
  induction levels generalizing frame with
  | nil =>
    -- All links have been followed, and the leaf is next.
    obtain rfl : frame = table := Option.some.inj (hr.table.symm.trans ht)
    exact ⟨[], by simp [entries, hpresent], by simp⟩
  | cons level lower ih =>
    have hlink : (mem.read frame (va.indices.get level)).isLink = true := by
      -- Without this link there would be no last table.
      rw [← Bool.not_eq_false]
      intro hno
      rw [hr.tableAt?_path_eq_none hno] at ht
      cases ht
    obtain ⟨links, hes, hopen⟩ := ih (hr.next hlink)
    rw [Address.get_indices] at hlink hes
    have hslot := hr.isLinkSlot hl4
    rw [Address.get_indices] at hslot
    refine ⟨mem.read frame (va.index level) :: links, ?_, ?_⟩
    · simp [entries, (Entry.isLink_iff.mp hlink).1, hes]
    · intro e he
      rcases List.mem_cons.mp he with rfl | he
      · -- Among own links an entry that is present is a plain link, which allows everything.
        rcases hown.link hslot with hzero | ⟨f, -, hf⟩
        · simp [hzero] at hlink
        · rw [hf]
          exact Entry.isOpen_link f
      · exact hopen e he

/-- Among own links a page is seen as its leaf says. -/
theorem view_of_leaf (hown : mem.OwnLinks root) (hl4 : va.index .l4 ≠ selfIndex)
    {f : Frame} (hf : f.isEncodable) {flags : PageFlags}
    (hleaf : mem.leaf root va.indices = .encode f (.ofPageFlags flags))
    (hpresent : flags.contains PageFlags.present = true) :
    view mem root va =
      some ⟨f, flags.contains PageFlags.write, flags.contains PageFlags.user,
        flags.contains PageFlags.execute⟩ := by
  cases ht : mem.tableAt? root va.indices.path with
  | none =>
    -- A present leaf has a table.
    rw [Memory.leaf_of_none ht] at hleaf
    have habsent := Entry.present_zero
    rw [hleaf, Entry.present_leaf, hpresent] at habsent
    cases habsent
  | some table =>
    rw [Memory.leaf_of_some ht] at hleaf
    have hread : mem.read table (va.index .l1) = .encode f (.ofPageFlags flags) := hleaf
    obtain ⟨links, hes, hopen⟩ := entries_of_reached hown hl4 (.start mem root va.indices) ht
      (by rw [hread, Entry.present_leaf, hpresent])
    have hlevels : Level.topDown = Level.linking ++ [.l1] := rfl
    simp only [view, hlevels, hes, hread, Option.bind_eq_bind, Option.bind_some,
      List.getLast?_concat, Permissions.ofEntries_concat hopen, Entry.frame_leaf hf,
      Entry.writable_leaf, Entry.userAccess_leaf, Entry.noExecute_leaf, Bool.not_not]
    rfl

/-- Nothing in the window may be seen from user mode or executed. -/
theorem permissions_of_window (hown : mem.OwnLinks root) (hva : va.index .l4 = selfIndex) {v : View}
    (hv : view mem root va = some v) :
    v.permissions.user = false ∧ v.permissions.executable = false := by
  obtain ⟨es, hes, hlast⟩ := Option.bind_eq_some_iff.mp hv
  obtain ⟨leaf, -, hleaf⟩ := Option.bind_eq_some_iff.mp hlast
  obtain rfl := Option.some.inj hleaf
  -- The walk starts with the root's own slot, which is present.
  simp only [Level.topDown, entries, hva] at hes
  split at hes
  · rename_i hpresent
    obtain ⟨rest, -, rfl⟩ := Option.map_eq_some_iff.mp hes
    rcases hown.selfLink with hzero | hlink
    · simp [hzero] at hpresent
    · simp [Permissions.ofEntries, hlink, Entry.userAccess_selfLink, Entry.noExecute_selfLink]
  · cases hes

end Hardware

/-! ## The last mapping of a page -/

/-- The address and the flags with which a page was last mapped, unless it was unmapped since. An
action counts if it was successful; `before` is how the page was mapped before the action. -/
def mappingAfter (x : Indices) (before : Option (PhysAddr × PageFlags)) :
    Action → Outcome → Option (PhysAddr × PageFlags)
  | .map va pa flags _, .done => if va.indices = x then some (pa, flags) else before
  | .identityMap pa flags _, .done =>
    if (⟨pa.word⟩ : VirtAddr).indices = x then some (pa, flags) else before
  | .unmap va, .address _ => if va.indices = x then none else before
  | _, _ => before

/-- How a page is mapped after a list of actions with their outcomes. -/
def lastMapping (x : Indices) (before : Option (PhysAddr × PageFlags)) :
    List (Action × Outcome) → Option (PhysAddr × PageFlags) :=
  List.foldl (fun last p => mappingAfter x last p.1 p.2) before

theorem mappingAfter_identityMap (x : Indices) (before : Option (PhysAddr × PageFlags))
    (pa : PhysAddr) (flags : PageFlags) (force : Bool) (o : Outcome) :
    mappingAfter x before (.identityMap pa flags force) o =
      mappingAfter x before (.map ⟨pa.word⟩ pa flags force) o := by
  cases o <;> rfl

/-- What is refused leaves a page mapped as it was. -/
theorem mappingAfter_refused (x : Indices) (before : Option (PhysAddr × PageFlags)) (a : Action)
    (cause : Refusal) : mappingAfter x before a (.refused cause) = before := by
  cases a <;> rfl

namespace AddressSpace

variable {η α : Type} [Mmu η] [FrameSource α]

/-- Only an aligned address of a frame that an entry has room for is mapped. -/
theorem isEncodable_of_perform_map {s : AddressSpace η α} {va : VirtAddr} {pa : PhysAddr}
    {flags : PageFlags} {force : Bool} (h : (s.perform (.map va pa flags force)).1 = .done) :
    (Page.containing pa : Frame).isEncodable = true := by
  have hrefused : ∀ {stop}, (s.hierarchy.map va pa flags force).run s.machine =
      (.error stop, s.machine) → (s.perform (.map va pa flags force)).1 ≠ .done := by
    intro stop hrun
    simp [perform_map_of_run hrun]
  cases hva : Hierarchy.mappable? va with
  | none => exact absurd h (hrefused (Hierarchy.run_map_of_unmappable _ pa flags force hva _))
  | some ix =>
    cases hpa : Hierarchy.target? pa with
    | none => exact absurd h (hrefused (Hierarchy.run_map_of_no_target _ flags force hva hpa _))
    | some target =>
      obtain ⟨rfl, htarget⟩ := target?_eq_some_iff.mp hpa
      rw [Page.containing_base]
      exact htarget

/-- The leaf of a page is the one that its last mapping asked for. -/
def Follows (s : AddressSpace η α) (x : Indices) (last : Option (PhysAddr × PageFlags)) : Prop :=
  ∀ pa flags, last = some (pa, flags) → x.l4 ≠ selfIndex ∧
    (Page.containing pa : Frame).isEncodable = true ∧
      s.machine.memory.leaf s.root x = .encode (.containing pa) (.ofPageFlags flags)

namespace Sound

variable [WalkingMmu η] {s : AddressSpace η α} {x : Indices}
  {last : Option (PhysAddr × PageFlags)} (hs : s.Sound)

include hs

theorem follows_growsTo {m : Machine η α} {s' : AddressSpace η α} (hf : s.Follows x last)
    (hg : GrowsTo s.hierarchy s.machine m) (he : s.Evolves m s') : s'.Follows x last := by
  intro pa flags hlast
  obtain ⟨hx, hpa, hleaf⟩ := hf pa flags hlast
  refine ⟨hx, hpa, ?_⟩
  rw [he.root, he.agrees.memory, ← hleaf]
  exact hg.leaf_eq hs.orderly hx

theorem follows_map (hf : s.Follows x last) (va : VirtAddr) (pa : PhysAddr) (flags : PageFlags)
    (force : Bool) :
    (s.perform (.map va pa flags force)).2.Follows x
      (mappingAfter x last (.map va pa flags force) (s.perform (.map va pa flags force)).1) := by
  rcases perform_map hs.usable hs.isEncodable hs.orderly va pa flags force with hdone | hrefused
  · obtain ⟨ix, m, hrun, hmappable, -, hset⟩ := hdone
    obtain ⟨-, rfl, hix⟩ := mappable?_eq_some_iff.mp hmappable
    have hpa := isEncodable_of_perform_map (congrArg Prod.fst hrun)
    rw [hrun]
    intro pa' flags' hlast
    simp only [mappingAfter] at hlast
    have hleaf : ∀ jx : Indices, jx.l4 ≠ selfIndex → m.memory.leaf s.root jx = _ :=
      fun jx hjx => hset.leaf_eq hix hs.orderly hjx
    split at hlast
    · -- This is the page that was mapped.
      rename_i hx
      subst hx
      cases hlast
      refine ⟨hix, hpa, ?_⟩
      rw [machine_onto, root_onto, hleaf _ hix, if_pos rfl]
    · rename_i hx
      obtain ⟨hxl4, hpa', hold⟩ := hf pa' flags' hlast
      refine ⟨hxl4, hpa', ?_⟩
      -- Another page keeps the leaf of its own last mapping.
      rw [machine_onto, root_onto, hleaf _ hxl4, if_neg (Ne.symm hx), root_hierarchy, hold]
  · obtain ⟨cause, m, hrun, hg⟩ := hrefused
    rw [hrun, mappingAfter_refused]
    exact hs.follows_growsTo hf hg (evolves_onto (.grows hg))

theorem follows_unmap (hf : s.Follows x last) (va : VirtAddr) :
    (s.perform (.unmap va)).2.Follows x
      (mappingAfter x last (.unmap va) (s.perform (.unmap va)).1) := by
  rcases perform_unmap hs.usable va with hdone | hrefused
  · obtain ⟨ix, m, hrun, hmappable, -, hset⟩ := hdone
    obtain ⟨-, rfl, hix⟩ := mappable?_eq_some_iff.mp hmappable
    rw [hrun]
    intro pa' flags' hlast
    simp only [mappingAfter] at hlast
    split at hlast
    · -- A page that was unmapped follows nothing.
      cases hlast
    · -- Another page was unmapped.
      rename_i hx
      obtain ⟨hxl4, hpa', hold⟩ := hf pa' flags' hlast
      refine ⟨hxl4, hpa', ?_⟩
      have hleaf := hset.leaf_eq hix hs.orderly hxl4
      rw [if_neg (Ne.symm hx)] at hleaf
      exact hleaf.trans hold
  · obtain ⟨cause, m, hrun, hg, -⟩ := hrefused
    rw [hrun, mappingAfter_refused]
    exact hs.follows_growsTo hf hg (evolves_onto (.grows hg))

/-- Every action keeps the leaf of a page what the page's last mapping asked for. -/
theorem follows_perform (hf : s.Follows x last) (a : Action) :
    (s.perform a).2.Follows x (mappingAfter x last a (s.perform a).1) := by
  cases a with
  | map va pa flags force => exact hs.follows_map hf va pa flags force
  | identityMap pa flags force =>
    rw [perform_identityMap, mappingAfter_identityMap]
    exact hs.follows_map hf ⟨pa.word⟩ pa flags force
  | unmap va => exact hs.follows_unmap hf va
  | translate va => exact hf
  | activate =>
    -- Activation makes links at most.
    obtain ⟨m, hg, hcases⟩ := perform_activate hs.usable hs.isEncodable
    rcases hcases with ⟨cause, hrun⟩ | ⟨hself, hrun⟩
    · rw [hrun]
      exact hs.follows_growsTo hf hg (evolves_onto (.grows hg))
    · rw [hrun]
      exact hs.follows_growsTo hf hg (evolves_load (s := s) (.grows hg) hself)
  | setAccess access => exact hf

/-! ## A whole run -/

theorem follows_performAll (hf : s.Follows x last) {actions : List Action}
    (hp : s.PermitsAll actions) :
    (s.performAll actions).2.Follows x
      (lastMapping x last (actions.zip (s.performAll actions).1)) := by
  induction actions generalizing s last with
  | nil => exact hf
  | cons a rest ih => exact ih (hs.perform hp.1) (hs.follows_perform hf a) hp.2

end Sound

/-- After any sensible run from an empty root the processor sees every page that was last mapped as
present: in the frame that this mapping named, and allowing what its flags say and nothing else. No
address in the window allows user mode or execution. -/
theorem permissions_of_performAll [WalkingMmu η] {root : Frame} {mem : Memory} {frames : α}
    (mmu : η) (hroot : root.isEncodable) (hzero : mem.table root = .zero)
    (hfresh : FrameSource.Fresh (· ≠ root) frames) {actions : List Action}
    (hactions : (create root .identity mmu frames mem).PermitsAll actions) :
    let run := (create root .identity mmu frames mem).performAll actions
    (∀ va pa flags, lastMapping va.indices none (actions.zip run.1) = some (pa, flags) →
      flags.contains PageFlags.present = true →
        Hardware.view run.2.machine.memory root va = some ⟨.containing pa,
          flags.contains PageFlags.write, flags.contains PageFlags.user,
          flags.contains PageFlags.execute⟩) ∧
    ∀ va v, Window.contains va = true → Hardware.view run.2.machine.memory root va = some v →
      v.permissions.user = false ∧ v.permissions.executable = false := by
  intro run
  have hcreate : (create root .identity mmu frames mem).Sound :=
    sound_create mmu hroot hzero hfresh
  have hs := hcreate.performAll hactions
  have hown := hs.ownLinks
  rw [hcreate.root_performAll hactions] at hown
  refine ⟨?_, ?_⟩
  · intro va pa flags hlast hpresent
    -- In a new address space no page has been mapped.
    have hnone : (create root .identity mmu frames mem).Follows va.indices none := by
      intro pa flags h
      cases h
    obtain ⟨hva, hpa, hleaf⟩ := hcreate.follows_performAll hnone hactions pa flags hlast
    rw [hcreate.root_performAll hactions] at hleaf
    exact Hardware.view_of_leaf hown hva hpa hleaf hpresent
  · intro va v hva hv
    exact Hardware.permissions_of_window hown (Address.index_of_contains_window hva) hv

/-- A page that may be executed from user mode lies beside one that may not, in a table that the
window shows for reading and writing only. The first attempt to map a page runs out of frames. -/
theorem permissions_of_performAll_specimen :
    let data : Action := .map ⟨0x400000⟩ ⟨0x9000⟩ .kernelData false
    let code : Action := .map ⟨0x401000⟩ ⟨0xA000⟩ .bootIdentity false
    let actions : List Action := [data, data, code, .activate]
    let run := Specimen.start.performAll actions
    run.1 = [.refused (.map .outOfFrames), .done, .done, .done] ∧
      Hardware.view run.2.machine.memory Specimen.root ⟨0x400123⟩ =
        some ⟨.containing ⟨0x9000⟩, true, false, false⟩ ∧
      Hardware.view run.2.machine.memory Specimen.root ⟨0x401123⟩ =
        some ⟨.containing ⟨0xA000⟩, true, true, true⟩ ∧
      ∃ v, Hardware.view run.2.machine.memory Specimen.root
          (Window.table .l1 ⟨0, 0, 2, 0⟩) = some v ∧
        v.permissions.user = false ∧ v.permissions.executable = false := by
  intro data code actions run
  have houtcomes : run.1 = [.refused (.map .outOfFrames), .done, .done, .done] := by
    decide +kernel
  have hseen : (Hardware.view run.2.machine.memory Specimen.root
      (Window.table .l1 ⟨0, 0, 2, 0⟩)).isSome = true := by decide +kernel
  have hwindow : Window.contains (Window.table .l1 ⟨0, 0, 2, 0⟩) = true := by decide +kernel
  have hdata : lastMapping (⟨0x400123⟩ : VirtAddr).indices none (actions.zip run.1) =
      some (⟨0x9000⟩, .kernelData) := by
    rw [houtcomes]
    decide +kernel
  have hcode : lastMapping (⟨0x401123⟩ : VirtAddr).indices none (actions.zip run.1) =
      some (⟨0xA000⟩, .bootIdentity) := by
    rw [houtcomes]
    decide +kernel
  have hactions : Specimen.start.PermitsAll actions :=
    ⟨trivial, trivial, trivial, trivial, trivial⟩
  -- Which actions they are does not matter any more.
  clear_value actions
  obtain ⟨hpages, hhidden⟩ := permissions_of_performAll Specimen.hardware
    Specimen.isEncodable_root Specimen.table_root Specimen.fresh_source hactions
  obtain ⟨v, hv⟩ := Option.isSome_iff_exists.mp hseen
  exact ⟨houtcomes, hpages _ _ _ hdata (by decide +kernel),
    hpages _ _ _ hcode (by decide +kernel), v, hv, hhidden _ v hwindow hv⟩

end AddressSpace

end Paging
