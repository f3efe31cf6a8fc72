import Mathlib.Algebra.Group.Nat.Defs
import Paging.MemoryMap.Mapping
import Paging.Proofs.OpRules

/-!
# The pages that a memory map visits

Mapping the regions of a memory map visits their pages one after the other, in the order of the list
and of the addresses. A page that is mapped and a page that was occupied are both counted, and the
visit goes on; the first page that is refused for another reason stops it, and so does a region that
does not fit. This is so for every mapper.
-/

namespace Paging

/-! ## Addresses of pages -/

namespace Address

variable {space : Space}

/-- The address `n` pages further on, counted around the end of the space. -/
def pageAt (a : Address space) (n : Nat) : Address space :=
  ⟨a.word + .ofNat 64 (n * 4096)⟩

/-- Whether the first address past `n` pages is one of the space. -/
def Fits (a : Address space) (n : Nat) : Prop :=
  a.word.toNat + n * 4096 < 2 ^ 64

theorem Fits.mono {a : Address space} {m n : Nat} (h : a.Fits n) (hle : m ≤ n) : a.Fits m := by
  have hbytes : m * 4096 ≤ n * 4096 := Nat.mul_le_mul_right 4096 hle
  exact Nat.lt_of_le_of_lt (Nat.add_le_add_left hbytes _) h

theorem toNat_pageAt {a : Address space} {n : Nat} (h : a.Fits n) :
    (a.pageAt n).word.toNat = a.word.toNat + n * 4096 := by
  unfold Fits at h
  rw [pageAt, BitVec.toNat_add, BitVec.toNat_ofNat, Nat.mod_eq_of_lt (by omega),
    Nat.mod_eq_of_lt (by omega)]

/-- A sum that stays in the space is found. -/
theorem add?_eq_some {a b : Address space} {n : Word}
    (h : a.word.toNat + n.toNat = b.word.toNat) : a.add? n = some b := by
  rw [add?, Word.add?_eq_some_iff.mpr h]
  rfl

theorem add?_eq_none {a : Address space} {n : Word} (h : 2 ^ 64 ≤ a.word.toNat + n.toNat) :
    a.add? n = none := by
  cases hsum : a.add? n with
  | none => rfl
  | some b =>
    -- A word that is the sum would have to be below the limit itself.
    obtain ⟨w, hw, -⟩ := Option.map_eq_some_iff.mp hsum
    have hle := w.isLt
    rw [Word.add?_eq_some_iff] at hw
    omega

/-- The address `n` pages further on is found by adding the distance. -/
theorem add?_mul_pageBytes {a : Address space} {i : Word} (h : a.Fits i.toNat) :
    ∃ d, i.mul? MemoryMap.pageBytes = some d ∧ a.add? d = some (a.pageAt i.toNat) := by
  have hpage := toNat_pageAt h
  unfold Fits at h
  have hd : (BitVec.ofNat 64 (i.toNat * 4096)).toNat = i.toNat * 4096 := by
    rw [BitVec.toNat_ofNat, Nat.mod_eq_of_lt (by omega)]
  refine ⟨.ofNat 64 (i.toNat * 4096), Word.mul?_eq_some_iff.mpr hd.symm, add?_eq_some ?_⟩
  rw [hd, hpage]

end Address

namespace MemoryMap

section Range

variable {space : Space} {virt : VirtAddr} {phys : PhysAddr} {pages bytes : Word}

/-- The check of one address space. -/
theorem isNone_add?_iff (hlen : pages.toNat * 4096 = bytes.toNat) (a : Address space) :
    (a.add? bytes).isNone = true ↔ ¬ a.Fits pages.toNat := by
  rw [Address.Fits, hlen]
  constructor
  · intro hnone hfits
    have hsum : a.word.toNat + bytes.toNat = (a.word + bytes).toNat := by
      rw [BitVec.toNat_add, Nat.mod_eq_of_lt hfits]
    have hsome := Address.add?_eq_some (b := ⟨a.word + bytes⟩) hsum
    simp [hsome] at hnone
  · intro hfits
    rw [Address.add?_eq_none (Nat.le_of_not_lt hfits)]
    rfl

/-- A range is accepted if it fits into both address spaces. -/
theorem checkRange_eq_ok_iff :
    checkRange virt phys pages = .ok () ↔ virt.Fits pages.toNat ∧ phys.Fits pages.toNat := by
  unfold checkRange
  cases hbytes : pages.mul? pageBytes with
  | none =>
    -- The range alone has more bytes than there are addresses.
    simp only [reduceCtorEq, false_iff, not_and]
    intro hvirt
    obtain ⟨d, hd, -⟩ := Address.add?_mul_pageBytes hvirt
    simp [hd] at hbytes
  | some bytes =>
    have hlen : pages.toNat * 4096 = bytes.toNat := Word.mul?_eq_some_iff.mp hbytes
    have hvirt := isNone_add?_iff hlen virt
    have hphys := isNone_add?_iff hlen phys
    grind

/-- A range that does not fit is reported at its physical base, unless only the virtual one is at
fault. -/
theorem checkRange_eq_error {e : RegionError} (h : checkRange virt phys pages = .error e) :
    ∃ base, e = .overflow base pages ∧ (phys.Fits pages.toNat → base = virt.word) ∧
      (¬ phys.Fits pages.toNat → base = phys.word) := by
  unfold checkRange at h
  cases hbytes : pages.mul? pageBytes with
  | none =>
    -- The physical base is what is reported where the length alone is too large.
    have hphys : ¬ phys.Fits pages.toNat := by
      intro hfits
      obtain ⟨d, hd, -⟩ := Address.add?_mul_pageBytes hfits
      simp [hd] at hbytes
    simp only [hbytes, Except.error.injEq] at h
    exact ⟨phys.word, h.symm, fun hfits => absurd hfits hphys, fun _ => rfl⟩
  | some bytes =>
    have hlen : pages.toNat * 4096 = bytes.toNat := Word.mul?_eq_some_iff.mp hbytes
    have hphys := isNone_add?_iff hlen phys
    simp only [hbytes] at h
    split at h
    · -- The physical end is looked at first.
      rename_i hnone
      exact ⟨phys.word, (Except.error.inj h).symm, fun hfits => absurd hfits (hphys.mp hnone),
        fun _ => rfl⟩
    · rename_i hsome
      split at h
      · -- Only the virtual end is too large.
        exact ⟨virt.word, (Except.error.inj h).symm, fun _ => rfl,
          fun hfits => absurd (hphys.mpr hfits) hsome⟩
      · cases h

/-- A region that does not fit is refused as a whole. -/
theorem checkRange_identity_eq_error (h : ¬ phys.Fits pages.toNat) :
    checkRange ⟨phys.word⟩ phys pages = .error (.overflow phys.word pages) := by
  cases hcheck : checkRange ⟨phys.word⟩ phys pages with
  | ok u => exact absurd (checkRange_eq_ok_iff.mp hcheck).2 h
  | error e =>
    obtain ⟨base, rfl, -, hbase⟩ := checkRange_eq_error hcheck
    rw [hbase h]

end Range

end MemoryMap

/-! ## Counts -/

namespace Tally

/-- Tallies that are small enough add up. -/
theorem exists_add? {t : Tally} {k l : Word} (hmapped : t.mapped.toNat + k.toNat < 2 ^ 64)
    (hpresent : t.present.toNat + l.toNat < 2 ^ 64) :
    ∃ u, t.add? ⟨k, l⟩ = some u ∧ u.mapped.toNat = t.mapped.toNat + k.toNat ∧
      u.present.toNat = t.present.toNat + l.toNat := by
  have hm : (t.mapped + k).toNat = t.mapped.toNat + k.toNat := by
    rw [BitVec.toNat_add, Nat.mod_eq_of_lt hmapped]
  have hp : (t.present + l).toNat = t.present.toNat + l.toNat := by
    rw [BitVec.toNat_add, Nat.mod_eq_of_lt hpresent]
  refine ⟨⟨t.mapped + k, t.present + l⟩, ?_, hm, hp⟩
  rw [add?, Word.add?_eq_some_iff.mpr hm.symm, Word.add?_eq_some_iff.mpr hp.symm]
  rfl

/-- Otherwise one of the counts overflows. -/
theorem add?_eq_none {t u : Tally} (h : ¬ (t.mapped.toNat + u.mapped.toNat < 2 ^ 64 ∧
    t.present.toNat + u.present.toNat < 2 ^ 64)) : t.add? u = none := by
  cases hsum : t.add? u with
  | none => rfl
  | some v =>
    -- Both sums would be words, so both counts would be small enough.
    simp only [add?, Option.bind_eq_bind, Option.bind_eq_some_iff, Word.add?_eq_some_iff] at hsum
    obtain ⟨m, hm, p, hp, -⟩ := hsum
    have hmlt := m.isLt
    have hplt := p.isLt
    omega

end Tally

namespace Op

variable {σ ε ε' α : Type}

theorem run_attempt (x : Op σ ε α) (s : σ) :
    (x.attempt : Op σ ε' (Except ε α)).run s =
      match x.run s with
      | (.ok a, s') => (.ok (.ok a), s')
      | (.error (.error e), s') => (.ok (.error e), s')
      | (.error (.fault c), s') => (.error (.fault c), s')
      | (.error (.violation v), s') => (.error (.violation v), s') := rfl

end Op

namespace MemoryMap

/-! ## Visits -/

/-- A step on the way through a memory map. -/
inductive Visit where
  /-- A region is about to be mapped. -/
  | announce (region : Region)
  /-- A page is mapped, unless it is occupied. -/
  | page (virt : VirtAddr) (phys : PhysAddr)

namespace Visit

/-- The frame of a page that is visited. -/
def phys? : Visit → Option PhysAddr
  | announce _ => none
  | page _ phys => some phys

/-- Whether a page that is visited is mapped onto itself. -/
def IsIdentity : Visit → Prop
  | announce _ => True
  | page virt phys => virt = ⟨phys.word⟩

theorem filterMap_announce (r : Region) (steps : List Visit) :
    (announce r :: steps).filterMap phys? = steps.filterMap phys? := rfl

theorem filterMap_page (virt : VirtAddr) (phys : PhysAddr) (steps : List Visit) :
    (page virt phys :: steps).filterMap phys? = phys :: steps.filterMap phys? := rfl

end Visit

/-- The visits to `n` pages of a range, from page `i` on. -/
def rangeVisits (virt : VirtAddr) (phys : PhysAddr) (i n : Nat) : List Visit :=
  (List.range' i n).map fun j => .page (virt.pageAt j) (phys.pageAt j)

/-- The visits to a region. -/
def regionVisits (r : Region) : List Visit :=
  if r.kind.needsMapping then
    .announce r :: rangeVisits ⟨r.base.word⟩ r.base 0 r.pages.toNat
  else []

/-- The visits to the regions of a list. -/
def visits (regions : List Region) : List Visit := regions.flatMap regionVisits

/-- The pages of a region, if it needs mapping. -/
def regionPages (r : Region) : List PhysAddr :=
  if r.kind.needsMapping then (List.range r.pages.toNat).map r.base.pageAt else []

/-- The pages that are visited, each as often as it is listed. -/
def pages (regions : List Region) : List PhysAddr := regions.flatMap regionPages

/-- How many pages of a region are visited. -/
def regionCount (r : Region) : Nat := if r.kind.needsMapping then r.pages.toNat else 0

/-- How many pages of the regions of a list are visited, each as often as it is listed. -/
def pageCount : List Region → Nat
  | [] => 0
  | r :: rest => regionCount r + pageCount rest

section Lists

variable (r : Region) (regions : List Region)

theorem visits_cons : visits (r :: regions) = regionVisits r ++ visits regions := rfl

theorem pages_cons : pages (r :: regions) = regionPages r ++ pages regions := rfl

theorem length_regionPages : (regionPages r).length = regionCount r := by
  unfold regionPages regionCount
  split <;> simp

theorem length_pages : (pages regions).length = pageCount regions := by
  induction regions with
  | nil => rfl
  | cons r rest ih => rw [pages_cons, List.length_append, length_regionPages, ih, pageCount]

theorem filterMap_regionVisits : (regionVisits r).filterMap Visit.phys? = regionPages r := by
  unfold regionVisits regionPages
  split
  · rw [Visit.filterMap_announce, rangeVisits, List.filterMap_map, List.range_eq_range',
      ← List.filterMap_eq_map]
    rfl
  · rfl

/-- The visits are visits to the pages. -/
theorem filterMap_visits : (visits regions).filterMap Visit.phys? = pages regions := by
  rw [visits, pages, List.filterMap_flatMap]
  congr 1
  funext r
  exact filterMap_regionVisits r

/-- Every page is mapped onto itself. -/
theorem isIdentity_of_mem_visits {v : Visit} (hv : v ∈ visits regions) : v.IsIdentity := by
  obtain ⟨r, -, hv⟩ := List.mem_flatMap.mp hv
  unfold regionVisits at hv
  split at hv
  · rcases List.mem_cons.mp hv with rfl | hv
    · trivial
    · obtain ⟨j, -, rfl⟩ := List.mem_map.mp hv
      rfl
  · cases hv

end Lists

variable {σ : Type} [Mapper σ]

/-- From `s` to `s'` all steps were taken; `k` pages were mapped and `l` pages were occupied. -/
inductive Visited (flags : PageFlags) : List Visit → σ → Nat → Nat → σ → Prop where
  | nil (s : σ) : Visited flags [] s 0 0 s
  | announce {steps : List Visit} {s s' : σ} {k l : Nat} (r : Region)
      (hrest : Visited flags steps (Mapper.log (.mappingRegion r) s) k l s') :
      Visited flags (.announce r :: steps) s k l s'
  | mapped {steps : List Visit} {s s₁ s' : σ} {k l : Nat} {virt : VirtAddr} {phys : PhysAddr}
      (hrun : (Mapper.map virt phys flags false).run s = (.ok (), s₁))
      (hrest : Visited flags steps s₁ k l s') :
      Visited flags (.page virt phys :: steps) s (k + 1) l s'
  | occupied {steps : List Visit} {s s₁ s' : σ} {k l : Nat} {virt : VirtAddr} {phys : PhysAddr}
      (hrun : (Mapper.map virt phys flags false).run s = (.error (.error .occupied), s₁))
      (hrest : Visited flags steps s₁ k l s') :
      Visited flags (.page virt phys :: steps) s k (l + 1) s'

/-- Some steps were taken from `s`, and the page that came next was refused. -/
inductive Halted (flags : PageFlags) (steps : List Visit) (s : σ) :
    Stop RegionError → σ → Prop where
  | intro {before after : List Visit} {virt : VirtAddr} {phys : PhysAddr} {s₁ s' : σ} {k l : Nat}
      {cause : Stop MapError} (hsteps : steps = before ++ .page virt phys :: after)
      (hbefore : Visited flags before s k l s₁)
      (hrun : (Mapper.map virt phys flags false).run s₁ = (.error cause, s'))
      (hcause : cause ≠ .error .occupied) :
      Halted flags steps s (cause.mapError (.map virt phys)) s'

section Steps

variable {flags : PageFlags} {steps steps' : List Visit} {s s₁ s' : σ} {k k' l l' : Nat}
  {stop : Stop RegionError}

theorem Visited.append (h : Visited flags steps s k l s₁) (h' : Visited flags steps' s₁ k' l' s') :
    Visited flags (steps ++ steps') s (k + k') (l + l') s' := by
  induction h with
  | nil => simpa using h'
  -- An announcement counts nothing, and each page adds one to one of the counts.
  | announce r _ ih => exact .announce r (ih h')
  | mapped hrun _ ih =>
    rw [Nat.add_right_comm]
    exact .mapped hrun (ih h')
  | @occupied _ _ _ _ _ l _ _ hrun _ ih =>
    rw [Nat.add_right_comm l]
    exact .occupied hrun (ih h')

/-- The page that was refused is not the last one. -/
theorem Halted.append_right (h : Halted flags steps s stop s') (steps' : List Visit) :
    Halted flags (steps ++ steps') s stop s' := by
  obtain ⟨rfl, hbefore, hrun, hcause⟩ := h
  exact .intro (List.append_assoc ..) hbefore hrun hcause

/-- More steps had been taken before. -/
theorem Halted.append_left (h : Visited flags steps s k l s₁)
    (h' : Halted flags steps' s₁ stop s') : Halted flags (steps ++ steps') s stop s' := by
  obtain ⟨rfl, hbefore, hrun, hcause⟩ := h'
  exact .intro (List.append_assoc ..).symm (h.append hbefore) hrun hcause

end Steps

/-! ## Ranges -/

section Range

variable {virt : VirtAddr} {phys : PhysAddr} {flags : PageFlags}

theorem rangeVisits_succ (virt : VirtAddr) (phys : PhysAddr) (i n : Nat) :
    rangeVisits virt phys i (n + 1) =
      .page (virt.pageAt i) (phys.pageAt i) :: rangeVisits virt phys (i + 1) n := by
  rw [rangeVisits, List.range'_succ, List.map_cons]
  rfl

section Body

variable {n : Nat} {i : Word} (hvirt : virt.Fits i.toNat) (hphys : phys.Fits i.toNat)
  {tally t : Tally} {s s₁ : σ}

include hvirt hphys

/-- What becomes of the first page decides how it goes on. -/
theorem run_mapPages_succ : (mapPages virt phys flags (n + 1) i tally).run s =
    match (Mapper.map (virt.pageAt i.toNat) (phys.pageAt i.toNat) flags false).run s with
    | (.ok (), s₁) =>
      (.demand .overflow (tally.add? ⟨1, 0⟩) >>= mapPages virt phys flags n (i + 1)).run s₁
    | (.error (.error .occupied), s₁) =>
      (.demand .overflow (tally.add? ⟨0, 1⟩) >>= mapPages virt phys flags n (i + 1)).run s₁
    | (.error cause, s₁) =>
      (.error (cause.mapError (.map (virt.pageAt i.toNat) (phys.pageAt i.toNat))), s₁) := by
  -- None of the three sums that lead to the page overflows, since the range fits up to it.
  obtain ⟨d, hd, hva⟩ := Address.add?_mul_pageBytes hvirt
  obtain ⟨_, hd', hpa⟩ := Address.add?_mul_pageBytes hphys
  obtain rfl := Option.some.inj (hd'.symm.trans hd)
  rw [mapPages, hd, Op.run_bind_ok (Op.run_demand_some ..), hva,
    Op.run_bind_ok (Op.run_demand_some ..), hpa, Op.run_bind_ok (Op.run_demand_some ..)]
  -- Errors of the mapper are looked at; what stops the mapper itself goes through.
  rcases hmap : (Mapper.map (virt.pageAt i.toNat) (phys.pageAt i.toNat) flags false).run s with
    ⟨(e | c | v) | u, s₁⟩
  · rw [Op.run_bind_ok (a := .error e) (by rw [Op.run_attempt, hmap])]
    cases e <;> rfl
  · exact Op.run_bind_error (e := .fault c) (by rw [Op.run_attempt, hmap]) _
  · exact Op.run_bind_error (e := .violation v) (by rw [Op.run_attempt, hmap]) _
  · rw [Op.run_bind_ok (a := .ok ()) (by rw [Op.run_attempt, hmap])]

/-- A page that is mapped is counted. -/
theorem run_mapPages_of_ok (ht : tally.add? ⟨1, 0⟩ = some t)
    (hmap : (Mapper.map (virt.pageAt i.toNat) (phys.pageAt i.toNat) flags false).run s =
      (.ok (), s₁)) :
    (mapPages virt phys flags (n + 1) i tally).run s =
      (mapPages virt phys flags n (i + 1) t).run s₁ := by
  rw [run_mapPages_succ hvirt hphys, hmap, ht]
  exact Op.run_bind_ok (Op.run_demand_some ..) _

/-- So is a page that was occupied. -/
theorem run_mapPages_of_occupied (ht : tally.add? ⟨0, 1⟩ = some t)
    (hmap : (Mapper.map (virt.pageAt i.toNat) (phys.pageAt i.toNat) flags false).run s =
      (.error (.error .occupied), s₁)) :
    (mapPages virt phys flags (n + 1) i tally).run s =
      (mapPages virt phys flags n (i + 1) t).run s₁ := by
  rw [run_mapPages_succ hvirt hphys, hmap, ht]
  exact Op.run_bind_ok (Op.run_demand_some ..) _

/-- Any other page is reported. -/
theorem run_mapPages_of_error {cause : Stop MapError} (hcause : cause ≠ .error .occupied)
    (hmap : (Mapper.map (virt.pageAt i.toNat) (phys.pageAt i.toNat) flags false).run s =
      (.error cause, s₁)) :
    (mapPages virt phys flags (n + 1) i tally).run s =
      (.error (cause.mapError (.map (virt.pageAt i.toNat) (phys.pageAt i.toNat))), s₁) := by
  rw [run_mapPages_succ hvirt hphys, hmap]
  cases cause with
  | error e =>
    cases e with
    | occupied => exact absurd rfl hcause
    | _ => rfl
  | fault c => rfl
  | violation v => rfl

end Body

/-- The pages of a range that fits are visited in order, up to one that is refused. -/
theorem mapPages_ends (flags : PageFlags) (n : Nat) (i : Word) (t : Tally)
    (hvirt : virt.Fits (i.toNat + n)) (hphys : phys.Fits (i.toNat + n))
    (hcount : t.mapped.toNat + t.present.toNat + n < 2 ^ 64) (s : σ) :
    (mapPages virt phys flags n i t).Ends s
      (fun u s' => ∃ k l, Visited flags (rangeVisits virt phys i.toNat n) s k l s' ∧
        u.mapped.toNat = t.mapped.toNat + k ∧ u.present.toNat = t.present.toNat + l)
      (fun stop s' => Halted flags (rangeVisits virt phys i.toNat n) s stop s') := by
  -- The induction is on the pages that are left. What has been counted and what is left stay
  -- within a word together, so neither the position nor a count overflows.
  induction n generalizing i t s with
  | zero => exact .pure ⟨0, 0, .nil s, rfl, rfl⟩
  | succ n ih =>
    have hvirt' := hvirt.mono (Nat.le_add_right i.toNat (n + 1))
    have hphys' := hphys.mono (Nat.le_add_right i.toNat (n + 1))
    -- The next page is one of the space, so its position does not wrap around.
    have hnext : (i + 1).toNat = i.toNat + 1 := by
      unfold Address.Fits at hvirt
      rw [BitVec.toNat_add]
      exact Nat.mod_eq_of_lt (by simp; omega)
    have hshift : i.toNat + (n + 1) = (i + 1).toNat + n := by omega
    have hone : (1 : Word).toNat = 1 := rfl
    have hzero : (0 : Word).toNat = 0 := rfl
    rw [hshift] at hvirt hphys
    rw [rangeVisits_succ]
    rcases hmap : (Mapper.map (virt.pageAt i.toNat) (phys.pageAt i.toNat) flags false).run s with
      ⟨cause | _, s₁⟩
    · by_cases hcause : cause = .error .occupied
      · subst hcause
        obtain ⟨u, hu, hm, hp⟩ := Tally.exists_add? (t := t) (k := 0) (l := 1) (by omega) (by omega)
        apply Op.Ends.of_run_eq _ (run_mapPages_of_occupied hvirt' hphys' hu hmap)
        apply (ih (i + 1) u hvirt hphys (by omega) s₁).mono
        · intro v s' hend
          obtain ⟨k, l, hrest, hmapped, hpresent⟩ := hend
          rw [hnext] at hrest
          exact ⟨k, l + 1, .occupied hmap hrest, by omega, by omega⟩
        · intro stop s' hend
          rw [hnext] at hend
          exact .append_left (.occupied hmap (.nil s₁)) hend
      · -- This page is the one at which the visit ends.
        exact .error (run_mapPages_of_error hvirt' hphys' hcause hmap)
          (.intro (List.nil_append _).symm (.nil s) hmap hcause)
    · obtain ⟨u, hu, hm, hp⟩ := Tally.exists_add? (t := t) (k := 1) (l := 0) (by omega) (by omega)
      apply Op.Ends.of_run_eq _ (run_mapPages_of_ok hvirt' hphys' hu hmap)
      apply (ih (i + 1) u hvirt hphys (by omega) s₁).mono
      · intro v s' hend
        obtain ⟨k, l, hrest, hmapped, hpresent⟩ := hend
        rw [hnext] at hrest
        exact ⟨k + 1, l, .mapped hmap hrest, by omega, by omega⟩
      · intro stop s' hend
        rw [hnext] at hend
        exact .append_left (.mapped hmap (.nil s₁)) hend

/-- A range is refused before its first page if it does not fit, and visited otherwise. -/
theorem mapRange_ends (virt : VirtAddr) (phys : PhysAddr) (pages : Word) (flags : PageFlags)
    (s : σ) :
    (mapRange virt phys pages flags).Ends s
      (fun t s' => checkRange virt phys pages = .ok () ∧
        Visited flags (rangeVisits virt phys 0 pages.toNat) s t.mapped.toNat t.present.toNat s')
      (fun stop s' => (∃ e, checkRange virt phys pages = .error e ∧ stop = .error e ∧ s' = s) ∨
        checkRange virt phys pages = .ok () ∧
          Halted flags (rangeVisits virt phys 0 pages.toNat) s stop s') := by
  unfold mapRange
  cases hcheck : checkRange virt phys pages with
  | error e => exact .error (Op.run_refuse e s) (Or.inl ⟨e, rfl, rfl, rfl⟩)
  | ok u =>
    obtain ⟨hvirt, hphys⟩ := checkRange_eq_ok_iff.mp hcheck
    have hzero : (0 : Word).toNat = 0 := rfl
    rw [← Nat.zero_add pages.toNat, ← hzero] at hvirt hphys
    -- The pages of one range are counted by a word, and so are their counts.
    have hcount : Tally.zero.mapped.toNat + Tally.zero.present.toNat + pages.toNat < 2 ^ 64 := by
      rw [Tally.zero, hzero, Nat.zero_add]
      exact pages.isLt
    apply (mapPages_ends flags pages.toNat 0 .zero hvirt hphys hcount s).mono
    · intro t s' hend
      obtain ⟨k, l, hvisited, hmapped, hpresent⟩ := hend
      rw [Tally.zero, hzero, Nat.zero_add] at hmapped hpresent
      subst hmapped hpresent
      exact ⟨rfl, hvisited⟩
    · exact fun stop s' hend => Or.inr ⟨rfl, hend⟩

end Range

/-! ## Regions -/

section Regions

variable {flags : PageFlags} {s s₁ s' : σ} {k l : Nat} {r : Region} {regions : List Region}
  {stop : Stop RegionError}

/-- Every page that was visited has been counted. -/
theorem Visited.count {steps : List Visit} (h : Visited flags steps s k l s') :
    k + l = (steps.filterMap Visit.phys?).length := by
  induction h with
  | nil => rfl
  | announce r _ ih => rw [ih, Visit.filterMap_announce]
  | mapped hrun _ ih => rw [Visit.filterMap_page, List.length_cons, ← ih, Nat.add_right_comm]
  | occupied hrun _ ih => rw [Visit.filterMap_page, List.length_cons, ← ih, Nat.add_assoc]

/-- Why a region was not mapped, if `m` pages had been mapped before it and `p` pages had been
occupied. -/
inductive RegionStop (flags : PageFlags) (r : Region) (m p : Nat) (s : σ) :
    Stop RegionError → σ → Prop where
  /-- The region does not fit. -/
  | range (hrange : ¬ r.base.Fits r.pages.toNat) :
      RegionStop flags r m p s (.error (.overflow r.base.word r.pages))
        (Mapper.log (.mappingRegion r) s)
  /-- A page of the region was refused. -/
  | page {stop : Stop RegionError} {s' : σ} (hhalted : Halted flags (regionVisits r) s stop s') :
      RegionStop flags r m p s stop s'
  /-- All pages of the region were visited, and a count is too large. -/
  | overflow {s' : σ} {k l : Nat} (hvisited : Visited flags (regionVisits r) s k l s')
      (hcount : 2 ^ 64 ≤ m + k ∨ 2 ^ 64 ≤ p + l) :
      RegionStop flags r m p s (.violation .overflow) s'

/-- The regions of a list were mapped up to one that was not. -/
inductive RegionsStop (flags : PageFlags) (regions : List Region) (t : Tally) (s : σ)
    (stop : Stop RegionError) (s' : σ) : Prop where
  | intro {done rest : List Region} {r : Region} {s₁ : σ} {k l : Nat}
      (hregions : regions = done ++ r :: rest) (hneeds : r.kind.needsMapping = true)
      (hfits : ∀ x ∈ done, x.kind.needsMapping = true → x.base.Fits x.pages.toNat)
      (hdone : Visited flags (visits done) s k l s₁)
      (hstop : RegionStop flags r (t.mapped.toNat + k) (t.present.toNat + l) s₁ stop s')

/-- A region that needs no mapping is passed over. -/
theorem RegionsStop.skip {t : Tally} (hskip : r.kind.needsMapping = false)
    (h : RegionsStop flags regions t s stop s') : RegionsStop flags (r :: regions) t s stop s' := by
  obtain ⟨rfl, hneeds, hfits, hdone, hstop⟩ := h
  refine .intro (List.cons_append ..).symm hneeds ?_ ?_ hstop
  · intro x hx hneeds
    -- The first region is passed over, so nothing is said of it.
    rcases List.mem_cons.mp hx with rfl | hx
    · simp [hskip] at hneeds
    · exact hfits x hx hneeds
  · rwa [visits_cons, regionVisits, hskip]

/-- A region that was mapped stands before all that follow. -/
theorem RegionsStop.cons {t u : Tally} (hfit : r.base.Fits r.pages.toNat)
    (hvisited : Visited flags (regionVisits r) s k l s₁) (hm : u.mapped.toNat = t.mapped.toNat + k)
    (hp : u.present.toNat = t.present.toNat + l) (h : RegionsStop flags regions u s₁ stop s') :
    RegionsStop flags (r :: regions) t s stop s' := by
  obtain ⟨rfl, hneeds, hfits, hdone, hstop⟩ := h
  -- What was counted before the region at which it stops now includes the first one.
  rw [hm, hp, Nat.add_assoc, Nat.add_assoc] at hstop
  refine .intro (List.cons_append ..).symm hneeds ?_ (hvisited.append hdone) hstop
  intro x hx hneeds
  rcases List.mem_cons.mp hx with rfl | hx
  · exact hfit
  · exact hfits x hx hneeds

/-- A region that needs mapping is announced and then visited. -/
theorem mapRegion_ends (hneeds : r.kind.needsMapping = true) (flags : PageFlags) (s : σ) :
    (identityMapRange r.base r.pages flags).Ends (Mapper.log (.mappingRegion r) s)
      (fun t s' => r.base.Fits r.pages.toNat ∧
        Visited flags (regionVisits r) s t.mapped.toNat t.present.toNat s')
      (fun stop s' => ∀ m p, RegionStop flags r m p s stop s') := by
  have hvisits : regionVisits r =
      .announce r :: rangeVisits ⟨r.base.word⟩ r.base 0 r.pages.toNat := if_pos hneeds
  apply (mapRange_ends ⟨r.base.word⟩ r.base r.pages flags _).mono
  · intro t s' hend
    obtain ⟨hcheck, hvisited⟩ := hend
    rw [hvisits]
    exact ⟨(checkRange_eq_ok_iff.mp hcheck).2, .announce r hvisited⟩
  · intro stop s' hend m p
    rcases hend with ⟨e, hcheck, rfl, rfl⟩ | ⟨-, hhalted⟩
    · -- A range onto itself fits if it fits at its base, so that is what is reported.
      have hrange : ¬ r.base.Fits r.pages.toNat := by
        intro hfits
        have hok : checkRange ⟨r.base.word⟩ r.base r.pages = .ok () :=
          checkRange_eq_ok_iff.mpr ⟨hfits, hfits⟩
        simp [hok] at hcheck
      rw [checkRange_identity_eq_error hrange] at hcheck
      cases hcheck
      exact .range hrange
    · -- The announcement is the first step of the visit.
      apply RegionStop.page
      rw [hvisits]
      exact .append_left (.announce r (.nil _)) hhalted

/-- The regions of a list are visited in order, up to one that is not mapped. -/
theorem mapRegionsFrom_ends (flags : PageFlags) (regions : List Region) (t : Tally) (s : σ) :
    (mapRegionsFrom flags regions t).Ends s
      (fun u s' => (∀ r ∈ regions, r.kind.needsMapping = true → r.base.Fits r.pages.toNat) ∧
        ∃ k l, Visited flags (visits regions) s k l s' ∧
          u.mapped.toNat = t.mapped.toNat + k ∧ u.present.toNat = t.present.toNat + l)
      (RegionsStop flags regions t s) := by
  induction regions generalizing t s with
  | nil => exact .pure ⟨by simp, 0, 0, .nil s, rfl, rfl⟩
  | cons r rest ih =>
    cases hneeds : r.kind.needsMapping with
    | false =>
      -- Nothing is done for the region.
      rw [mapRegionsFrom, if_neg (by simp [hneeds])]
      apply (ih t s).mono
      · intro u s' hend
        obtain ⟨hfits, k, l, hvisited, hcounts⟩ := hend
        refine ⟨?_, k, l, ?_, hcounts⟩
        · intro x hx hx'
          rcases List.mem_cons.mp hx with rfl | hx
          · simp [hneeds] at hx'
          · exact hfits x hx hx'
        · rwa [visits_cons, regionVisits, hneeds]
      · exact fun stop s' hend => hend.skip hneeds
    | true =>
      rw [mapRegionsFrom, if_pos hneeds]
      apply Op.Ends.of_run_eq _ (Op.run_bind_ok (Op.run_change ..) _)
      apply (mapRegion_ends hneeds flags s).bind_mono
      · intro more s₁ hend
        obtain ⟨hfit, hvisited⟩ := hend
        -- The counts are added before the next region is looked at, and may be too large.
        by_cases hcount : t.mapped.toNat + more.mapped.toNat < 2 ^ 64 ∧
            t.present.toNat + more.present.toNat < 2 ^ 64
        · obtain ⟨u, hu, hm, hp⟩ := Tally.exists_add? hcount.1 hcount.2
          have hadd : (.demand .overflow (t.add? more) : Op σ RegionError Tally).run s₁ =
              (.ok u, s₁) := by rw [hu, Op.run_demand_some]
          apply Op.Ends.of_run_eq _ (Op.run_bind_ok hadd _)
          -- The other regions start from the new counts.
          apply (ih u s₁).mono
          · intro v s' hend
            obtain ⟨hfits, k, l, hrest, hm', hp'⟩ := hend
            refine ⟨?_, _, _, hvisited.append hrest, by omega, by omega⟩
            intro x hx hx'
            rcases List.mem_cons.mp hx with rfl | hx
            · exact hfit
            · exact hfits x hx hx'
          · exact fun stop s' hend => hend.cons hfit hvisited hm hp
        · have hadd : (.demand .overflow (t.add? more) : Op σ RegionError Tally).run s₁ =
              (.error (.violation .overflow), s₁) := by
            rw [Tally.add?_eq_none hcount, Op.run_demand_none]
          apply Op.Ends.error (Op.run_bind_error hadd _)
          -- All pages of this region have been visited, and their counts are lost.
          exact .intro (List.nil_append _).symm hneeds (by simp) (.nil s)
            (.overflow hvisited (by omega))
      · exact fun stop s' hend =>
          .intro (List.nil_append _).symm hneeds (by simp) (.nil s) (hend _ _)

/-- All regions of a list are mapped, which is logged, or one of them is not. -/
theorem mapRegions_ends (regions : List Region) (flags : PageFlags) (s : σ) :
    (mapRegions regions flags).Ends s
      (fun t s' => (∀ r ∈ regions, r.kind.needsMapping = true → r.base.Fits r.pages.toNat) ∧
        ∃ s₁, Visited flags (visits regions) s t.mapped.toNat t.present.toNat s₁ ∧
          s' = Mapper.log (.mappedRegions t) s₁)
      (RegionsStop flags regions .zero s) := by
  have hzero : (Tally.zero.mapped.toNat = 0) ∧ Tally.zero.present.toNat = 0 := ⟨rfl, rfl⟩
  cases mapRegionsFrom_ends flags regions .zero s with
  | error hrun hend => exact .error (Op.run_bind_error hrun _) hend
  | @ok t s₁ hrun hend =>
    obtain ⟨hfits, k, l, hvisited, hm, hp⟩ := hend
    rw [hzero.1, Nat.zero_add] at hm
    rw [hzero.2, Nat.zero_add] at hp
    subst hm hp
    exact .ok (Op.run_bind_ok hrun _) ⟨hfits, s₁, hvisited, rfl⟩

end Regions

end MemoryMap

end Paging
