import Paging.Proofs.Descent

/-!
# Memories that hold the same tables

Two memories may hold the same tables of a hierarchy and differ in every other frame. As long as the
tables are apart, no entry of the root is huge and the root's own slot leads nowhere else, a walk
reads nothing but tables, so it cannot tell the two memories apart. A write to a slot at which every
path ends, or a new table that was cleared, leaves them holding the same tables again; what a frame
source does to frames that are no tables does not even show.
-/

namespace Paging

namespace Memory

variable {mem mem' mem₁ mem₁' : Memory} {root table next frame : Frame} {p q : List Index}
  {i : Index}

/-! ## What is done to the same tables -/

namespace SameTables

variable (h : mem.SameTables mem' root)

include h

/-- The same entry is written into a slot at which every path ends. -/
theorem write (hap : mem.Apart root) (hend : mem.IsEndSlot root p table i) (e : Entry) :
    (mem.write table i e).SameTables (mem'.write table i e) root := by
  intro f hf
  -- The slot is at the end of a path, so the write makes no table of another frame.
  rw [isTable_write_iff hap hend] at hf
  ext j
  show (mem'.write table i e).read f j = (mem.write table i e).read f j
  rw [read_write, read_write, h.read_eq hf]

/-- The same table is added in both. -/
theorem extend (hap : mem.Apart root) (hx : mem.Extends mem₁ root p i table next)
    (hx' : mem'.Extends mem₁' root p i table next) : mem₁.SameTables mem₁' root := by
  intro f hf
  ext j
  show mem₁'.read f j = mem₁.read f j
  rw [hx.read, hx'.read]
  split
  · rfl
  · rename_i hne
    -- A table that is not the new one was there before.
    rw [h.read_eq (((hx.isTable_iff hap).mp hf).resolve_left hne)]

end SameTables

/-! ## Walks from table to table -/

/-- A hierarchy whose walks lead from table to table: its tables are apart, no entry of the root is
huge, and the root's own slot is empty or names the root. -/
structure WalksToTables (mem : Memory) (root : Frame) : Prop where
  apart : mem.Apart root
  huge_eq : ∀ i, (mem.read root i).huge = false
  selfLink : mem.read root selfIndex = .zero ∨ mem.SelfLinked root

namespace WalksToTables

/-- An empty root is all that there is to walk. -/
theorem of_zero (h : mem.table root = .zero) : mem.WalksToTables root where
  apart := apart_of_zero h
  huge_eq i := by simp [read, h]
  selfLink := Or.inl (by simp [read, h])

variable (h : mem.WalksToTables root)

include h

theorem of_sameTables (hs : mem.SameTables mem' root) : mem'.WalksToTables root where
  apart := hs.apart h.apart
  huge_eq i := by
    rw [hs.read_eq (isTable_root mem root)]
    exact h.huge_eq i
  selfLink := by
    rw [hs.read_self]
    exact h.selfLink.imp_right hs.selfLinked

section Write

variable (hroot : root.isEncodable) (hend : mem.IsEndSlot root p table i) {e : Entry}
  (he : p = [] → e = .selfLink root)

include hend he

/-- Only the link to the root itself is written into the root. -/
theorem eq_selfLink (hslot : root = table) : e = .selfLink root :=
  -- The root is found at the empty path only, so this is the path of the slot.
  he (h.apart hend.isPath IsPath.nil hend.tableAt (hslot ▸ rfl))

include hroot

theorem selfLinked_write (hself : mem.SelfLinked root) :
    (mem.write table i e).SelfLinked root := by
  rw [SelfLinked, read_write]
  split
  · rename_i hslot
    rw [h.eq_selfLink hend he hslot.1]
    simp [hroot]
  · exact hself

theorem write : (mem.write table i e).WalksToTables root where
  apart := apart_write h.apart hend
  huge_eq j := by
    rw [read_write]
    split
    · rename_i hslot
      -- What is written into the root is its link to itself, which is not huge.
      rw [h.eq_selfLink hend he hslot.1, Entry.huge_selfLink]
    · exact h.huge_eq j
  selfLink := by
    rcases h.selfLink with hzero | hself
    · rw [SelfLinked, read_write]
      split
      · rename_i hslot
        rw [h.eq_selfLink hend he hslot.1]
        simp [hroot]
      · exact Or.inl hzero
    · exact Or.inr (h.selfLinked_write hroot hend he hself)

end Write

/-- A new table is linked by a plain link, and beside the root's own slot. -/
theorem extend (hx : mem.Extends mem₁ root p i table next) : mem₁.WalksToTables root where
  apart := hx.apart h.apart
  huge_eq j := by
    -- The new table is not the root, so the root has got a plain link at most.
    rw [hx.read, if_neg hx.root_ne_next]
    split
    · exact Entry.huge_link next
    · exact h.huge_eq j
  selfLink := by
    rw [SelfLinked, hx.read_self h.apart]
    exact h.selfLink

/-! ## Walks stay among the tables -/

/-- Where a walk goes on after at most two links it comes to a table, through the root's own slot as
well. -/
theorem leads_on {n : Nat} (hn : n ≤ 2)
    (ht : ∃ p, IsPath p ∧ p.length ≤ n ∧ mem.tableAt? root p = some table)
    (hpresent : (mem.read table i).present = true)
    (hhuge : n ≠ 0 → (mem.read table i).huge = false) :
    ∃ p, IsPath p ∧ p.length ≤ n + 1 ∧
      mem.tableAt? root p = some (mem.read table i).frame := by
  obtain ⟨p, hp, hlen, ht⟩ := ht
  have hfirst : p = [] → table = root := by
    rintro rfl
    exact (Option.some.inj ht).symm
  by_cases hself : p = [] ∧ i = selfIndex
  · -- The root's own slot leads back to the root.
    obtain ⟨rfl, rfl⟩ := hself
    rw [hfirst rfl] at hpresent ⊢
    rcases h.selfLink with hzero | hlinked
    · simp [hzero] at hpresent
    · exact ⟨[], IsPath.nil, Nat.zero_le _, by rw [hlinked.2]; rfl⟩
  · -- Any other slot leads on by a link, which makes the path longer by one index.
    have hlink : (mem.read table i).isLink = true := by
      refine Entry.isLink_iff.mpr ⟨hpresent, ?_⟩
      -- In the root no entry is huge, and below it the walk has stopped at a huge one.
      by_cases hnil : p = []
      · rw [hfirst hnil]
        exact h.huge_eq i
      · apply hhuge
        have hpos := List.length_pos_iff.mpr hnil
        omega
    refine ⟨p ++ [i], hp.concat (by omega) (fun hnil hi => hself ⟨hnil, hi⟩), by simpa, ?_⟩
    rw [tableAt?_concat ht, if_pos hlink]

end WalksToTables

end Memory

/-! ## Translating -/

namespace Hierarchy

variable {η : Type} [Mmu η] {h : Hierarchy} {mem mem' : Memory}

/-- A translation reads nothing but tables. -/
theorem translateFrom_direct_of_sameTables (hs : mem.SameTables mem' h.root)
    (hp : mem.WalksToTables h.root) (mmu : η) (va : VirtAddr) (ix : Indices)
    (levels above : List Level) (frame : Frame) (hlevels : above ++ levels = Level.topDown)
    (ht : ∃ p, IsPath p ∧ p.length ≤ above.length ∧ mem.tableAt? h.root p = some frame) :
    h.direct.translateFrom mmu mem' va ix levels frame =
      h.direct.translateFrom mmu mem va ix levels frame := by
  induction levels generalizing above frame with
  | nil => rfl
  | cons level lower ih =>
    -- What is read now is in a table, so both memories hold the same entry.
    have htable : mem.IsTable h.root frame := by
      obtain ⟨p, hpath, -, hframe⟩ := ht
      exact ⟨p, hpath, hframe⟩
    rw [translateFrom_cons (h := h.direct) rfl, translateFrom_cons (h := h.direct) rfl,
      hs.read_eq htable]
    simp only
    split
    · -- Nothing is mapped there.
      rfl
    · rename_i hpresent
      split
      · -- The walk ends at this entry.
        rfl
      · rename_i hends
        have habove := Level.above_of_topDown hlevels
        apply ih (above ++ [level])
        · simpa using hlevels
        · rw [List.length_append, List.length_singleton]
          -- The entry is present, and a huge one would have ended the walk below the root.
          cases level with
          | l1 => simp [endsWalk] at hends
          | l4 =>
            subst habove
            exact hp.leads_on (by decide) ht (by simpa using hpresent) (fun hne => absurd rfl hne)
          | l3 =>
            subst habove
            exact hp.leads_on (by decide) ht (by simpa using hpresent)
              (fun _ => by simpa [endsWalk] using hends)
          | l2 =>
            subst habove
            exact hp.leads_on (by decide) ht (by simpa using hpresent)
              (fun _ => by simpa [endsWalk] using hends)

end Hierarchy

end Paging
