import Paging.Table.Memory
import Paging.Proofs.EntryCodec

/-!
# Where the tables are

A table is known by its *path*, the indices of the links that lead to it from the root: no index
for the root, three for a table of leaves. Paths do not use the root's own slot, so that a table
which is linked once has one path only, and the hierarchy is *apart* if different paths never lead
to the same frame. All that an operation does to the tables is said by what it does to paths.

A write to a slot that no path goes through leaves every path as it was. In a hierarchy of *own
links* every slot on a path is empty or holds a plain link, so that nothing but leaves is left to be
written.
-/

namespace Paging

/-! ## Paths -/

/-- A path: at most three indices, and the first one is not the root's own slot. -/
def IsPath (p : List Index) : Prop :=
  p.length ≤ 3 ∧ p.head? ≠ some selfIndex

namespace IsPath

theorem nil : IsPath [] := ⟨by simp, by simp⟩

theorem of_isPrefix {p q : List Index} (hq : IsPath q) (h : p <+: q) : IsPath p := by
  obtain ⟨r, rfl⟩ := h
  refine ⟨?_, ?_⟩
  · have hlen := hq.1
    simp only [List.length_append] at hlen
    omega
  · intro hp
    apply hq.2
    cases p with
    | nil => simp at hp
    | cons i p => simpa using hp

theorem of_append_left {p q : List Index} (h : IsPath (p ++ q)) : IsPath p :=
  h.of_isPrefix (List.prefix_append p q)

/-- A path that ends early is followed by any index, except for the root's own slot. -/
theorem concat {p : List Index} {i : Index} (hp : IsPath p) (hlen : p.length ≤ 2)
    (hi : p = [] → i ≠ selfIndex) : IsPath (p ++ [i]) := by
  refine ⟨by simp; omega, ?_⟩
  cases p with
  | nil => simpa using hi rfl
  | cons j p => simpa using hp.2

theorem length_le_of_concat {p : List Index} {i : Index} (h : IsPath (p ++ [i])) :
    p.length ≤ 2 := by
  have hlen := h.1
  simp only [List.length_append, List.length_singleton] at hlen
  omega

end IsPath

/-- The links on the way to the last table of a page. -/
def Indices.path (ix : Indices) : List Index := Level.linking.map ix.get

theorem Indices.path_eq (ix : Indices) : ix.path = [ix.l4, ix.l3, ix.l2] := rfl

theorem Indices.isPath_path {ix : Indices} (h : ix.l4 ≠ selfIndex) : IsPath ix.path :=
  ⟨by simp [path_eq], by simpa [path_eq] using h⟩

/-! ## Following a path -/

namespace Memory

/-- The frame of the table that a path leads to from the table in `frame`, if all its links are
there. -/
def tableAt? (mem : Memory) (frame : Frame) : List Index → Option Frame
  | [] => some frame
  | i :: p => if (mem.read frame i).isLink then mem.tableAt? (mem.read frame i).frame p else none

/-- Whether a frame holds a table of the hierarchy. -/
def IsTable (mem : Memory) (root frame : Frame) : Prop :=
  ∃ p, IsPath p ∧ mem.tableAt? root p = some frame

/-- Different paths lead to different frames. -/
def Apart (mem : Memory) (root : Frame) : Prop :=
  ∀ ⦃p q frame⦄, IsPath p → IsPath q → mem.tableAt? root p = some frame →
    mem.tableAt? root q = some frame → p = q

variable {mem mem' : Memory} {root table frame : Frame} {p q : List Index} {i : Index}

theorem isTable_root (mem : Memory) (root : Frame) : mem.IsTable root root :=
  ⟨[], IsPath.nil, rfl⟩

@[simp] theorem tableAt?_nil (mem : Memory) (frame : Frame) :
    mem.tableAt? frame [] = some frame := rfl

theorem tableAt?_append (mem : Memory) (frame : Frame) (p q : List Index) :
    mem.tableAt? frame (p ++ q) = (mem.tableAt? frame p).bind fun t => mem.tableAt? t q := by
  induction p generalizing frame with
  | nil => rfl
  | cons i p ih =>
    simp only [List.cons_append, tableAt?]
    split
    · exact ih _
    · rfl

theorem tableAt?_append_of_eq (h : mem.tableAt? root p = some table) (q : List Index) :
    mem.tableAt? root (p ++ q) = mem.tableAt? table q := by
  rw [tableAt?_append, h]
  rfl

/-- One more link. -/
theorem tableAt?_concat (h : mem.tableAt? root p = some table) (i : Index) :
    mem.tableAt? root (p ++ [i]) =
      if (mem.read table i).isLink then some (mem.read table i).frame else none :=
  tableAt?_append_of_eq h [i]

theorem tableAt?_prefix (h : mem.tableAt? root q = some frame) (hp : p <+: q) :
    ∃ t, mem.tableAt? root p = some t := by
  obtain ⟨r, rfl⟩ := hp
  rw [tableAt?_append] at h
  -- If the first part led nowhere, neither would the whole.
  cases hp : mem.tableAt? root p with
  | none => simp [hp] at h
  | some t => exact ⟨t, rfl⟩

/-- A slot without a link is on no path. -/
theorem tableAt?_eq_none_of_not_isLink (h : mem.tableAt? root p = some table)
    (hl : (mem.read table i).isLink = false) (q : List Index) :
    mem.tableAt? root (p ++ i :: q) = none := by
  rw [tableAt?_append_of_eq h]
  simp [tableAt?, hl]

/-- Where a path leads depends only on the slots that it goes through. -/
theorem tableAt?_congr
    (h : ∀ p i r t, q = p ++ i :: r → mem.tableAt? frame p = some t →
      mem'.read t i = mem.read t i) :
    mem'.tableAt? frame q = mem.tableAt? frame q := by
  induction q generalizing frame with
  | nil => rfl
  | cons i q ih =>
    -- The first slot is the same, and with it the table at which the rest of the path starts.
    have hfirst : mem'.read frame i = mem.read frame i := h [] i q frame rfl rfl
    simp only [tableAt?, hfirst]
    split
    · rename_i hlink
      apply ih
      intro p j r t hq ht
      apply h (i :: p) j r t
      · rw [hq, List.cons_append]
      · simp only [tableAt?, hlink, if_true]
        exact ht
    · rfl

/-! ## A write beside the paths -/

/-- Writing a slot that a path does not go through leaves the path as it was. -/
theorem tableAt?_write (hap : mem.Apart root) (hp : IsPath p)
    (ht : mem.tableAt? root p = some table) (hq : IsPath q) (hpre : ¬ p ++ [i] <+: q) (e : Entry) :
    (mem.write table i e).tableAt? root q = mem.tableAt? root q := by
  apply tableAt?_congr
  intro p' j r t hsplit ht'
  rw [read_write, if_neg]
  intro heq
  obtain ⟨rfl, rfl⟩ := heq
  -- The tables are apart, so the path would go through the very slot.
  have hp' : IsPath p' := hq.of_isPrefix ⟨j :: r, hsplit.symm⟩
  obtain rfl := hap hp' hp ht' ht
  exact hpre ⟨r, by simp [hsplit]⟩

/-! ## Memories that hold the same tables -/

/-- The root and every table to which links lead have the same contents in both memories. -/
def SameTables (mem mem' : Memory) (root : Frame) : Prop :=
  ∀ f, mem.IsTable root f → mem'.table f = mem.table f

/-- What is in a frame that holds no table does not matter. -/
theorem sameTables_setTable (hframe : ¬ mem.IsTable root frame) (t : Table) :
    mem.SameTables (mem.setTable frame t) root := by
  intro f hf
  -- Every frame that holds a table is another one.
  rw [table_setTable_of_ne]
  exact fun heq => hframe (heq ▸ hf)

namespace SameTables

variable {mem'' : Memory}

theorem refl (mem : Memory) (root : Frame) : mem.SameTables mem root := fun _ _ => rfl

variable (h : mem.SameTables mem' root)

include h

theorem read_eq (hf : mem.IsTable root frame) (i : Index) :
    mem'.read frame i = mem.read frame i := by
  rw [read, read, h frame hf]

/-- A path leads to the same table in both. -/
theorem tableAt?_eq (hq : IsPath q) : mem'.tableAt? root q = mem.tableAt? root q := by
  apply tableAt?_congr
  intro p i r t hsplit ht
  exact h.read_eq ⟨p, hq.of_isPrefix ⟨i :: r, hsplit.symm⟩, ht⟩ i

theorem isTable_iff : mem'.IsTable root frame ↔ mem.IsTable root frame := by
  unfold IsTable
  refine exists_congr fun q => and_congr_right fun hq => ?_
  rw [h.tableAt?_eq hq]

theorem symm : mem'.SameTables mem root := fun f hf => (h f (h.isTable_iff.mp hf)).symm

theorem trans (h' : mem'.SameTables mem'' root) : mem.SameTables mem'' root :=
  fun f hf => (h' f (h.isTable_iff.mpr hf)).trans (h f hf)

theorem apart (hap : mem.Apart root) : mem'.Apart root := by
  intro p q f hp hq hpf hqf
  rw [h.tableAt?_eq hp] at hpf
  rw [h.tableAt?_eq hq] at hqf
  exact hap hp hq hpf hqf

theorem read_self : mem'.read root selfIndex = mem.read root selfIndex :=
  h.read_eq (isTable_root mem root) selfIndex

end SameTables

/-! ## Slots that hold links -/

/-- The slots in which links to tables stand: those of the root but its own, and those of every
table down to the last level but one. -/
def IsLinkSlot (mem : Memory) (root table : Frame) (i : Index) : Prop :=
  ∃ p, IsPath (p ++ [i]) ∧ mem.tableAt? root p = some table

/-- The slots for links, and the whole root, are slots of tables. -/
theorem isTable_of_slot (h : mem.IsLinkSlot root table i ∨ table = root) :
    mem.IsTable root table := by
  rcases h with ⟨p, hp, ht⟩ | rfl
  · exact ⟨p, hp.of_append_left, ht⟩
  · exact isTable_root mem table

/-- A hierarchy whose links were all made here: a slot for a link is empty or holds a plain link,
and the root's own slot is empty or links to the root. -/
structure OwnLinks (mem : Memory) (root : Frame) : Prop where
  link : ∀ {t i}, mem.IsLinkSlot root t i →
    mem.read t i = .zero ∨ ∃ f, f.isEncodable ∧ mem.read t i = .link f
  selfLink : mem.read root selfIndex = .zero ∨ mem.read root selfIndex = .selfLink root

/-- An own link that is present leads to a table. -/
theorem OwnLinks.isLink_of_present (h : mem.OwnLinks root) (hslot : mem.IsLinkSlot root table i)
    (hpresent : (mem.read table i).present = true) : (mem.read table i).isLink = true := by
  rcases h.link hslot with hzero | ⟨f, _, hlink⟩
  · simp [hzero] at hpresent
  · simp [hlink]

/-! ## Leaves -/

/-- The leaf of a page, absent if the table for it is missing. -/
def leaf (mem : Memory) (root : Frame) (ix : Indices) : Entry :=
  match mem.tableAt? root ix.path with
  | some t => mem.read t ix.l1
  | none => .zero

theorem leaf_of_some {ix : Indices} (h : mem.tableAt? root ix.path = some table) :
    mem.leaf root ix = mem.read table ix.l1 := by
  simp [leaf, h]

theorem leaf_of_none {ix : Indices} (h : mem.tableAt? root ix.path = none) :
    mem.leaf root ix = .zero := by
  simp [leaf, h]

/-! ## Writes beside the links

The other slots of tables are those of the last tables, which hold leaves, and the root's own.
-/

/-- A slot of the table at `p` at which every path ends. -/
structure IsEndSlot (mem : Memory) (root : Frame) (p : List Index) (table : Frame) (i : Index) :
    Prop where
  isPath : IsPath p
  tableAt : mem.tableAt? root p = some table
  ends : ¬ IsPath (p ++ [i])

theorem isEndSlot_self (mem : Memory) (root : Frame) : mem.IsEndSlot root [] root selfIndex :=
  ⟨IsPath.nil, rfl, fun hp => hp.2 rfl⟩

theorem isEndSlot_leaf {ix : Indices} (hix : ix.l4 ≠ selfIndex)
    (ht : mem.tableAt? root ix.path = some table) :
    mem.IsEndSlot root ix.path table ix.l1 := by
  refine ⟨Indices.isPath_path hix, ht, fun hp => ?_⟩
  -- Three links have been followed, and there are no more.
  have hlen := hp.length_le_of_concat
  simp [Indices.path_eq] at hlen

section Write

variable {e : Entry} (hap : mem.Apart root) (hend : mem.IsEndSlot root p table i)

include hap hend

theorem tableAt?_write_of_isEndSlot (hq : IsPath q) :
    (mem.write table i e).tableAt? root q = mem.tableAt? root q := by
  apply tableAt?_write hap hend.isPath hend.tableAt hq
  intro hpre
  -- A path through the slot would not have ended there.
  exact hend.ends (hq.of_isPrefix hpre)

theorem apart_write : (mem.write table i e).Apart root := by
  intro q r f hq hr hqf hrf
  rw [tableAt?_write_of_isEndSlot hap hend hq] at hqf
  rw [tableAt?_write_of_isEndSlot hap hend hr] at hrf
  exact hap hq hr hqf hrf

theorem isTable_write_iff : (mem.write table i e).IsTable root frame ↔ mem.IsTable root frame := by
  unfold IsTable
  refine exists_congr fun q => and_congr_right fun hq => ?_
  rw [tableAt?_write_of_isEndSlot hap hend hq]

theorem isLinkSlot_write_iff {t : Frame} {j : Index} :
    (mem.write table i e).IsLinkSlot root t j ↔ mem.IsLinkSlot root t j := by
  unfold IsLinkSlot
  refine exists_congr fun q => and_congr_right fun hq => ?_
  rw [tableAt?_write_of_isEndSlot hap hend hq.of_append_left]

/-- Links stay as they are. -/
theorem read_write_of_isLinkSlot {t : Frame} {j : Index} (hlink : mem.IsLinkSlot root t j) :
    (mem.write table i e).read t j = mem.read t j := by
  obtain ⟨q, hq, hqt⟩ := hlink
  rw [read_write, if_neg]
  intro heq
  obtain ⟨rfl, rfl⟩ := heq
  -- A slot in which a path goes on is not one at which all paths end.
  obtain rfl := hap hend.isPath hq.of_append_left hend.tableAt hqt
  exact hend.ends hq

theorem ownLinks_write (h : mem.OwnLinks root) (he : p = [] → e = .selfLink root) :
    (mem.write table i e).OwnLinks root where
  link {t j} hlink := by
    rw [isLinkSlot_write_iff hap hend] at hlink
    rw [read_write_of_isLinkSlot hap hend hlink]
    exact h.link hlink
  selfLink := by
    rw [read_write]
    split
    · -- The slot is the root's own, so the table is the root.
      rename_i heq
      obtain ⟨rfl, rfl⟩ := heq
      exact Or.inr (he (hap hend.isPath IsPath.nil hend.tableAt rfl))
    · exact h.selfLink

/-- Of all leaves only the one in the slot is replaced. -/
theorem leaf_write {ix : Indices} (hix : ix.l4 ≠ selfIndex) :
    (mem.write table i e).leaf root ix =
      if ix.path = p ∧ ix.l1 = i then e else mem.leaf root ix := by
  have hpath := Indices.isPath_path hix
  have hsame := tableAt?_write_of_isEndSlot (e := e) hap hend hpath
  cases hq : mem.tableAt? root ix.path with
  | none =>
    rw [hq] at hsame
    rw [leaf_of_none hsame, leaf_of_none hq, if_neg]
    intro heq
    obtain ⟨rfl, -⟩ := heq
    simp [hend.tableAt] at hq
  | some t =>
    rw [hq] at hsame
    rw [leaf_of_some hsame, leaf_of_some hq, read_write]
    -- The tables are apart, so the same table is at the same path.
    have hiff : t = table ↔ ix.path = p := by
      constructor
      · intro heq
        exact hap hpath hend.isPath hq (heq ▸ hend.tableAt)
      · intro heq
        rw [heq, hend.tableAt] at hq
        exact (Option.some.inj hq).symm
    simp only [hiff]

end Write

/-! ## Memory in which nothing has been made -/

theorem tableAt?_of_zero (h : mem.table root = .zero) (p : List Index) :
    mem.tableAt? root p = if p = [] then some root else none := by
  cases p with
  | nil => rfl
  | cons i p => simp [tableAt?, read, h]

theorem apart_of_zero (h : mem.table root = .zero) : mem.Apart root := by
  intro p q f _ _ hp hq
  rw [tableAt?_of_zero h] at hp hq
  -- The root is the only table.
  split at hp <;> split at hq <;> simp_all

theorem isTable_of_zero (h : mem.table root = .zero) : mem.IsTable root frame ↔ frame = root := by
  constructor
  · intro htable
    obtain ⟨p, -, hp⟩ := htable
    rw [tableAt?_of_zero h] at hp
    split at hp
    · exact (Option.some.inj hp).symm
    · simp at hp
  · intro heq
    rw [heq]
    exact isTable_root mem root

theorem ownLinks_of_zero (h : mem.table root = .zero) : mem.OwnLinks root where
  link {t j} hslot := by
    obtain ⟨p, hp, ht⟩ := hslot
    rw [tableAt?_of_zero h] at ht
    split at ht
    · obtain rfl := Option.some.inj ht
      simp [read, h]
    · simp at ht
  selfLink := by simp [read, h]

theorem leaf_of_zero (h : mem.table root = .zero) (ix : Indices) : mem.leaf root ix = .zero := by
  apply leaf_of_none
  simp [tableAt?_of_zero h, Indices.path_eq]

end Memory

end Paging
