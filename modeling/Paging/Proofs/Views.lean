import Paging.Hardware.PageWalk
import Paging.Proofs.WindowWalk

/-!
# What a walk reads

The processor's walk of a page reads four entries. Passes through the root's own slot return to the
root, so in a hierarchy of own links every entry that is read stands in a slot for a link or in the
root, except for one: the last entry of the walk of a page outside of the window is the leaf of that
page. What the processor sees of a page therefore depends on links, and on the page's own leaf.
-/

namespace Paging

/-! ## The slots of a walk -/

namespace Memory

variable {mem mem' : Memory} {root table frame : Frame} {p q : List Index}

/-- Among own links present entries lead where links lead. -/
theorem OwnLinks.tableAt?_of_walkTo? (hown : mem.OwnLinks root)
    (hq : mem.tableAt? root q = some frame) (hp : IsPath (q ++ p))
    (hwalk : mem.walkTo? frame p = some table) :
    mem.tableAt? root (q ++ p) = some table := by
  induction p generalizing q frame with
  | nil =>
    rw [List.append_nil, hq]
    exact hwalk
  | cons i p ih =>
    -- The entry at hand is in a slot for a link, and being present it is one.
    have hsplit : q ++ i :: p = (q ++ [i]) ++ p := by simp
    rw [hsplit] at hp ⊢
    simp only [walkTo?] at hwalk
    split at hwalk
    · rename_i hpresent
      have hlink := hown.isLink_of_present ⟨q, hp.of_append_left, hq⟩ hpresent
      refine ih ?_ hp hwalk
      rw [tableAt?_concat hq, if_pos hlink]
    · cases hwalk

/-- A slot on a walk holds a link or stands in the root, or it is the slot of the page's own leaf.
-/
theorem OwnLinks.slot_of_walkTo? (hown : mem.OwnLinks root) (hself : mem.SelfLinked root)
    (hlen : p.length ≤ 3) (hwalk : mem.walkTo? root p = some table) (i : Index) :
    (mem.IsLinkSlot root table i ∨ table = root) ∨
      p.length = 3 ∧ p.head? ≠ some selfIndex ∧ mem.tableAt? root p = some table := by
  induction p with
  | nil =>
    left
    right
    exact (Option.some.inj hwalk).symm
  | cons j p ih =>
    rw [List.length_cons] at hlen
    by_cases hj : j = selfIndex
    · -- The walk is back at the root, with one level less to go.
      rw [hj, hself.walkTo?_cons] at hwalk
      rcases ih (by omega) hwalk with hslot | ⟨hfull, -⟩
      · exact Or.inl hslot
      · omega
    · -- From any other slot of the root on it follows a path.
      have hp : IsPath (j :: p) := ⟨hlen, by simpa using hj⟩
      have ht : mem.tableAt? root (j :: p) = some table :=
        hown.tableAt?_of_walkTo? (tableAt?_nil mem root) hp hwalk
      by_cases hshort : p.length + 1 ≤ 2
      · left
        left
        exact ⟨j :: p, hp.concat hshort (by simp), ht⟩
      · right
        exact ⟨by rw [List.length_cons]; omega, hp.2, ht⟩

end Memory

/-! ## The entries of a walk -/

namespace Hardware

variable {mem mem' : Memory} {root : Frame} {va : VirtAddr}

/-- A walk is the same in memory in which the entries that it reads are the same. -/
theorem entries_eq_of_read {levels : List Level} {frame : Frame} {es : List Entry}
    (h : entries mem va levels frame = some es)
    (hread : ∀ above level lower t, levels = above ++ level :: lower →
      mem.walkTo? frame (above.map va.index) = some t →
        (mem.read t (va.index level)).present = true →
          mem'.read t (va.index level) = mem.read t (va.index level)) :
    entries mem' va levels frame = some es := by
  induction levels generalizing frame es with
  | nil => exact h
  | cons level lower ih =>
    simp only [entries] at h ⊢
    split at h
    · rename_i hpresent
      -- The first entry is the same, so both walks go on from the same table.
      have hfirst := hread [] level lower frame rfl rfl hpresent
      obtain ⟨rest, hrest, rfl⟩ := Option.map_eq_some_iff.mp h
      rw [hfirst, if_pos hpresent]
      refine Option.map_eq_some_iff.mpr ⟨rest, ih hrest ?_, rfl⟩
      intro above next low t hsplit hwalk
      apply hread (level :: above) next low t
      · rw [hsplit, List.cons_append]
      · simp only [List.map_cons, Memory.walkTo?, hpresent, if_true]
        exact hwalk
    · cases h

/-- A walk that meets an absent entry ends there. -/
theorem entries_eq_none_of_absent {above lower : List Level} {level : Level} {frame table : Frame}
    (hwalk : mem.walkTo? frame (above.map va.index) = some table)
    (habsent : (mem.read table (va.index level)).present = false) :
    entries mem va (above ++ level :: lower) frame = none := by
  induction above generalizing frame with
  | nil =>
    obtain rfl := Option.some.inj hwalk
    simp [entries, habsent]
  | cons first rest ih =>
    simp only [List.map_cons, Memory.walkTo?] at hwalk
    split at hwalk
    · rename_i hpresent
      simp only [List.cons_append, entries, hpresent, if_true, ih hwalk, Option.map_none]
    · cases hwalk

/-- What the processor sees of a page stays the same as long as the links stay, and the page's own
leaf. -/
theorem view_eq_of_read {v : View} (hown : mem.OwnLinks root) (hself : mem.SelfLinked root)
    (hv : view mem root va = some v)
    (hlinks : ∀ t i, mem.IsLinkSlot root t i ∨ t = root → (mem.read t i).present = true →
      mem'.read t i = mem.read t i)
    (hleaf : ∀ t, IsPath va.indices.path → mem.tableAt? root va.indices.path = some t →
      (mem.read t va.indices.l1).present = true →
        mem'.read t va.indices.l1 = mem.read t va.indices.l1) :
    view mem' root va = some v := by
  -- The four entries are enough, since everything that is seen is computed from them.
  obtain ⟨es, hes, hlast⟩ := Option.bind_eq_some_iff.mp hv
  refine Option.bind_eq_some_iff.mpr ⟨es, entries_eq_of_read hes ?_, hlast⟩
  intro above level lower t hsplit hwalk hpresent
  have hlen : (above.map va.index).length ≤ 3 := by
    have htotal := congrArg List.length hsplit
    simp only [Level.topDown, List.length_append, List.length_cons, List.length_nil] at htotal
    rw [List.length_map]
    omega
  rcases hown.slot_of_walkTo? hself hlen hwalk (va.index level) with hslot | ⟨hfull, hhead, ht⟩
  · exact hlinks t _ hslot hpresent
  · -- Three levels have been passed, so this is the last one.
    have hl1 : above = Level.linking ∧ level = .l1 := by
      rw [List.length_map] at hfull
      rcases above with _ | ⟨a, _ | ⟨b, _ | ⟨c, _ | ⟨d, rest⟩⟩⟩⟩ <;> simp at hfull
      simp only [Level.topDown, List.cons_append, List.nil_append, List.cons.injEq] at hsplit
      obtain ⟨rfl, rfl, rfl, rfl, -⟩ := hsplit
      exact ⟨rfl, rfl⟩
    obtain ⟨rfl, rfl⟩ := hl1
    exact hleaf t ⟨hlen, hhead⟩ ht hpresent

end Hardware

end Paging
