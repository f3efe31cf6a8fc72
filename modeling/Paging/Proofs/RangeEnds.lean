import Paging.Proofs.MapReport
import Paging.Proofs.MapperCalls

/-!
# Ranges at the end of an address space

Every page of a range may be accepted while the range as a whole is not. The pages of a range end at
the last address that belongs to one of them, and a range is checked for the address after that. The
two differ for a range whose last page is the topmost one: it has room, and mapping its pages one by
one succeeds, but there is no address after it. For every other range whose pages are accepted the
check says nothing, and mapping the range is mapping its pages one by one.
-/

namespace Paging

namespace MemoryMap

/-! ## A course and a halt exclude each other -/

section Course

variable {σ : Type} [Mapper σ] {flags : PageFlags} {steps : List Visit} {s s' s'' : σ}
  {k k' l l' : Nat} {stop : Stop RegionError}

/-- Steps that are taken from one state are taken in one way. -/
theorem Visited.unique (h : Visited flags steps s k l s') (h' : Visited flags steps s k' l' s'') :
    k' = k ∧ l' = l ∧ s'' = s' := by
  -- The mapper answers a page in one way only, and with it the state is the same again.
  induction h generalizing k' l' with
  | nil s =>
    cases h'
    exact ⟨rfl, rfl, rfl⟩
  | announce r _ ih =>
    cases h' with
    | announce _ hrest => exact ih hrest
  | mapped hrun _ ih =>
    cases h' with
    | mapped hrun' hrest =>
      obtain rfl := (Prod.mk.inj (hrun.symm.trans hrun')).2
      obtain ⟨rfl, rfl, rfl⟩ := ih hrest
      exact ⟨rfl, rfl, rfl⟩
    -- The two runs of the same call would have different answers.
    | occupied hrun' _ => simp [hrun] at hrun'
  | occupied hrun _ ih =>
    cases h' with
    | mapped hrun' _ => simp [hrun] at hrun'
    | occupied hrun' hrest =>
      obtain rfl := (Prod.mk.inj (hrun.symm.trans hrun')).2
      obtain ⟨rfl, rfl, rfl⟩ := ih hrest
      exact ⟨rfl, rfl, rfl⟩

/-- Taking some steps and then more is taking them all. -/
theorem Visited.of_append {steps' : List Visit} (h : Visited flags (steps ++ steps') s k l s') :
    ∃ i j s₁, Visited flags steps s i j s₁ ∧ ∃ i' j', Visited flags steps' s₁ i' j' s' := by
  induction steps generalizing s k l with
  | nil => exact ⟨0, 0, s, .nil s, k, l, h⟩
  | cons step steps ih =>
    cases h with
    | announce r hrest =>
      obtain ⟨i, j, s₁, hfirst, hlater⟩ := ih hrest
      exact ⟨i, j, s₁, .announce r hfirst, hlater⟩
    | mapped hrun hrest =>
      obtain ⟨i, j, s₁, hfirst, hlater⟩ := ih hrest
      exact ⟨i + 1, j, s₁, .mapped hrun hfirst, hlater⟩
    | occupied hrun hrest =>
      obtain ⟨i, j, s₁, hfirst, hlater⟩ := ih hrest
      exact ⟨i, j + 1, s₁, .occupied hrun hfirst, hlater⟩

/-- Steps that can all be taken are not given up. -/
theorem Visited.not_halted (h : Visited flags steps s k l s') :
    ¬ Halted flags steps s stop s'' := by
  rintro ⟨rfl, hbefore, hrun, hcause⟩
  -- The page that is refused is reached in the state in which it was accepted.
  obtain ⟨i, j, s₁, hbefore', i', j', hlater⟩ := h.of_append
  obtain ⟨-, -, rfl⟩ := hbefore.unique hbefore'
  cases hlater with
  | mapped hrun' _ => simp [hrun] at hrun'
  | occupied hrun' _ =>
    rw [hrun] at hrun'
    -- An occupied page does not stop a range.
    exact hcause (Except.error.inj (Prod.mk.inj hrun').1)

/-- A range that fits is mapped if its pages can be visited. -/
theorem run_mapRange_of_visited {virt : VirtAddr} {phys : PhysAddr} {pages : Word}
    (hvirt : virt.Fits pages.toNat) (hphys : phys.Fits pages.toNat)
    (h : Visited flags (rangeVisits virt phys 0 pages.toNat) s k l s') :
    ∃ t, (mapRange virt phys pages flags).run s = (.ok t, s') ∧ t.mapped.toNat = k ∧
      t.present.toNat = l := by
  have hcheck := checkRange_eq_ok_iff.mpr ⟨hvirt, hphys⟩
  cases mapRange_ends virt phys pages flags s with
  | @ok t s₁ hrun hend =>
    -- The tally counts the course that was taken, and that is the one given.
    obtain ⟨hmapped, hpresent, rfl⟩ := h.unique hend.2
    exact ⟨t, hrun, hmapped, hpresent⟩
  | error hrun hend =>
    rcases hend with ⟨e, hfailed, -⟩ | ⟨-, hhalted⟩
    · simp [hcheck] at hfailed
    · exact absurd hhalted h.not_halted

end Course

end MemoryMap

namespace AddressSpace

open MemoryMap

variable {η α : Type} [Mmu η] [FrameSource α] {s s' : AddressSpace η α} {flags : PageFlags}

/-! ## Pages one by one -/

/-- The calls that map the pages of a range one by one. -/
def pageCalls (virt : VirtAddr) (phys : PhysAddr) (flags : PageFlags) (i n : Nat) : List Action :=
  (List.range' i n).map fun j => .map (virt.pageAt j) (phys.pageAt j) flags false

theorem pageCalls_succ (virt : VirtAddr) (phys : PhysAddr) (flags : PageFlags) (i n : Nat) :
    pageCalls virt phys flags i (n + 1) =
      .map (virt.pageAt i) (phys.pageAt i) flags false :: pageCalls virt phys flags (i + 1) n := by
  rw [pageCalls, List.range'_succ, List.map_cons]
  rfl

theorem ofResult_map_inj {r r' : Except (Stop MapError) Unit}
    (h : Outcome.ofResult .map (fun _ => .done) r = .ofResult .map (fun _ => .done) r') :
    r = r' := by
  rcases r with (e | c | v) | _ <;> rcases r' with (e' | c' | v') | _ <;> cases h <;> rfl

/-- What became of a call says what it has returned. -/
theorem run_map_of_perform {va : VirtAddr} {pa : PhysAddr} {r : Except (Stop MapError) Unit}
    (h : s.perform (.map va pa flags false) = (.ofResult .map (fun _ => .done) r, s')) :
    (Mapper.map va pa flags false).run s = (r, s') := by
  rcases hrun : (Mapper.map va pa flags false).run s with ⟨r', s₁⟩
  rw [perform_eq_of_run_map hrun] at h
  obtain ⟨hresult, rfl⟩ := Prod.mk.inj h
  rw [ofResult_map_inj hresult]

section Accepted

variable {virt : VirtAddr} {phys : PhysAddr} {n : Nat}

/-- Pages that are accepted one by one are visited, and their outcomes are counted. -/
theorem visited_of_performAll (i : Nat)
    (haccepted : ∀ o ∈ (s.performAll (pageCalls virt phys flags i n)).1,
      o = .done ∨ o = .refused (.map .occupied)) :
    Visited flags (rangeVisits virt phys i n) s
      ((s.performAll (pageCalls virt phys flags i n)).1.count .done)
      ((s.performAll (pageCalls virt phys flags i n)).1.count (.refused (.map .occupied)))
      (s.performAll (pageCalls virt phys flags i n)).2 := by
  induction n generalizing i s with
  | zero => exact .nil s
  | succ n ih =>
    rw [rangeVisits_succ]
    rw [pageCalls_succ, performAll] at haccepted ⊢
    rcases hperform : s.perform (.map (virt.pageAt i) (phys.pageAt i) flags false) with ⟨o, s₁⟩
    -- What is assumed of all outcomes splits into the first and those of the run that follows.
    rw [hperform] at haccepted
    obtain ⟨ho, hrest⟩ := List.forall_mem_cons.mp haccepted
    have hlater := ih (i + 1) hrest
    rcases ho with rfl | rfl
    · simpa using Visited.mapped (run_map_of_perform hperform) hlater
    · simpa using Visited.occupied (run_map_of_perform hperform) hlater

/-- The frames of pages that were visited are the bases of encodable frames. -/
theorem isFrameBase_of_visited {steps : List Visit} {k l : Nat}
    (h : Visited flags steps s k l s') : ∀ pa ∈ steps.filterMap Visit.phys?, pa.IsFrameBase := by
  induction h with
  | nil => simp
  | announce r _ ih => rwa [Visit.filterMap_announce]
  | mapped hrun _ ih =>
    rw [Visit.filterMap_page, List.forall_mem_cons]
    exact ⟨(isPlain_and_isFrameBase_of_run_map hrun (by simp) (by simp)).2, ih⟩
  | occupied hrun _ ih =>
    rw [Visit.filterMap_page, List.forall_mem_cons]
    exact ⟨(isPlain_and_isFrameBase_of_run_map hrun (by simp) (by simp)).2, ih⟩

/-- The frames of a range end long before the physical addresses do. -/
theorem fits_of_visited {k l : Nat} (hend : phys.word.toNat + 4096 * n ≤ 2 ^ 64)
    (h : Visited flags (rangeVisits virt phys 0 n) s k l s') : phys.Fits n := by
  cases n with
  | zero =>
    rw [Address.Fits, Nat.zero_mul]
    exact phys.word.isLt
  | succ n =>
    have hfits : phys.Fits n := by
      unfold Address.Fits
      omega
    -- The last frame is one that an entry has room for.
    have hlast : phys.pageAt n ∈ (rangeVisits virt phys 0 (n + 1)).filterMap Visit.phys? :=
      List.mem_filterMap.mpr ⟨_, List.mem_map.mpr ⟨n, by simp, rfl⟩, rfl⟩
    have hlimit : (phys.pageAt n).word.toNat < physicalLimit.toNat :=
      (isFrameBase_of_visited h _ hlast).2
    rw [Address.toNat_pageAt hfits] at hlimit
    rw [Address.Fits, Nat.succ_mul, ← Nat.add_assoc]
    -- The limit of an entry is far below the end of the words.
    exact Nat.lt_trans (Nat.add_lt_add_right hlimit 4096) (by decide)

end Accepted

/-! ## Ranges -/

/-- If each page of a range is accepted when they are mapped one by one, then mapping the range does
the same and counts them all, unless the range comes to the end of the virtual addresses. Then it is
refused, and nothing is done, although its last page may be the topmost one. -/
theorem mapRange_of_performAll (virt : VirtAddr) (phys : PhysAddr) (pages : Word)
    (flags : PageFlags)
    (hphys : phys.word.toNat + 4096 * pages.toNat ≤ 2 ^ 64)
    (haccepted : ∀ o ∈ (s.performAll (pageCalls virt phys flags 0 pages.toNat)).1,
      o = .done ∨ o = .refused (.map .occupied)) :
    let calls := s.performAll (pageCalls virt phys flags 0 pages.toNat)
    let range := (mapRange virt phys pages flags).run s
    (virt.word.toNat + 4096 * pages.toNat < 2 ^ 64 →
      ∃ t : Tally, range = (.ok t, calls.2) ∧ t.mapped.toNat = calls.1.count .done ∧
        t.present.toNat = calls.1.count (.refused (.map .occupied)) ∧
        t.mapped.toNat + t.present.toNat = pages.toNat) ∧
    (2 ^ 64 ≤ virt.word.toNat + 4096 * pages.toNat →
      range = (.error (.error (.overflow virt.word pages)), s)) := by
  intro calls range
  have hvisited := visited_of_performAll 0 haccepted
  -- An accepted frame lies below the limit of an entry, so the frames never wrap.
  have hfits := fits_of_visited hphys hvisited
  constructor
  · intro hbelow
    have hfits' : virt.Fits pages.toNat := by
      unfold Address.Fits
      omega
    obtain ⟨t, hrun, hmapped, hpresent⟩ := run_mapRange_of_visited hfits' hfits hvisited
    refine ⟨t, hrun, hmapped, hpresent, ?_⟩
    rw [hmapped, hpresent, hvisited.count_range]
  · intro htop
    -- The frames have room, so the check fails at the virtual base.
    have hcheck : checkRange virt phys pages = .error (.overflow virt.word pages) := by
      cases hcheck : checkRange virt phys pages with
      | ok u =>
        have hfits' := (checkRange_eq_ok_iff.mp hcheck).1
        unfold Address.Fits at hfits'
        omega
      | error e =>
        obtain ⟨base, rfl, hbase, -⟩ := checkRange_eq_error hcheck
        rw [hbase hfits]
    change (mapRange virt phys pages flags).run s = _
    -- The check comes before the first page, so the state is the one at the start.
    rw [mapRange, hcheck]
    exact Op.run_refuse _ s

/-- With a page that was mapped before, and up to the topmost page. -/
theorem mapRange_of_performAll_specimen :
    let machine : AddressSpace Hardware.Simulated (Screened Script) := .create Specimen.root
      .identity Specimen.hardware
      ⟨{ Specimen.script with words := some [0x2000, 0x3000, 0x4000, 0x5000, 0x6000, 0x7000] }⟩
      Specimen.memory
    let s := (machine.perform (.map ⟨0x6000⟩ ⟨0x9000⟩ .kernelData false)).2
    (∃ t : Tally, (mapRange ⟨0x5000⟩ ⟨0x9000⟩ 3 .kernelData).run s =
      (.ok t, (s.performAll (pageCalls ⟨0x5000⟩ ⟨0x9000⟩ .kernelData 0 3)).2) ∧
        t.mapped.toNat = 2 ∧ t.present.toNat = 1) ∧
      (s.performAll (pageCalls ⟨0xffffffffffffe000⟩ ⟨0x9000⟩ .kernelData 0 2)).1 = [.done, .done] ∧
      (mapRange ⟨0xffffffffffffe000⟩ ⟨0x9000⟩ 2 .kernelData).run s =
        (.error (.error (.overflow 0xffffffffffffe000 2)), s) := by
  intro machine s
  have hlow : (s.performAll (pageCalls ⟨0x5000⟩ ⟨0x9000⟩ .kernelData 0 3)).1 =
      [.done, .refused (.map .occupied), .done] := by decide +kernel
  have hhigh : (s.performAll (pageCalls ⟨0xffffffffffffe000⟩ ⟨0x9000⟩ .kernelData 0 2)).1 =
      [.done, .done] := by decide +kernel
  clear_value s
  have haccepted : ∀ o ∈ (s.performAll (pageCalls ⟨0x5000⟩ ⟨0x9000⟩ .kernelData 0 3)).1,
      o = .done ∨ o = .refused (.map .occupied) := by
    rw [hlow]
    decide
  have haccepted' : ∀ o ∈ (s.performAll
      (pageCalls ⟨0xffffffffffffe000⟩ ⟨0x9000⟩ .kernelData 0 2)).1,
      o = .done ∨ o = .refused (.map .occupied) := by
    rw [hhigh]
    decide
  obtain ⟨hbelow, -⟩ :=
    mapRange_of_performAll ⟨0x5000⟩ ⟨0x9000⟩ 3 .kernelData (by simp) haccepted
  obtain ⟨-, htop⟩ :=
    mapRange_of_performAll ⟨0xffffffffffffe000⟩ ⟨0x9000⟩ 2 .kernelData (by simp) haccepted'
  obtain ⟨t, hrun, hmapped, hpresent, -⟩ := hbelow (by simp)
  refine ⟨⟨t, hrun, hmapped.trans ?_, hpresent.trans ?_⟩, hhigh, htop (by simp)⟩
  · exact congrArg (List.count .done) hlow
  · exact congrArg (List.count (.refused (.map .occupied))) hlow

/-- The topmost page can be mapped, but not as a range. -/
theorem topmost_page_refused :
    let virt : VirtAddr := ⟨0xfffffffffffff000⟩
    let phys : PhysAddr := ⟨0x9000⟩
    let s : AddressSpace Hardware.Simulated (Screened Script) := .create Specimen.root .identity
      Specimen.hardware ⟨{ Specimen.script with words := some [0x2000, 0x3000, 0x4000] }⟩
      Specimen.memory
    virt.isAligned .size4K = true ∧ phys.isAligned .size4K = true ∧
      virt.word.toNat + 4096 * (1 : Word).toNat ≤ 2 ^ 64 ∧
      phys.word.toNat + 4096 * (1 : Word).toNat ≤ 2 ^ 64 ∧
      (s.performAll (pageCalls virt phys .kernelData 0 1)).1 = [.done] ∧
      ((mapRange virt phys 1 .kernelData).run s).1 =
        .error (.error (.overflow 0xfffffffffffff000 1)) := by
  intro virt phys s
  exact ⟨by decide, by decide, by simp [virt], by simp [phys], by decide +kernel,
    by decide +kernel⟩

end AddressSpace

end Paging
