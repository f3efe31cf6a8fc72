import Mathlib.Control.Monad.Basic
import Paging.Proofs.PageVisits
import Paging.Proofs.ScriptedFrames

/-!
# The calls behind a range

A mapper is asked for one page at a time. To say which calls a range makes, the mapper is replaced
by one that keeps a record of its calls and answers as before, each time from the state that the
calls before have left. A range that does not fit makes no call. Any other makes one call for each
of its pages, in order and without force, up to the first answer that is neither "mapped" nor
"occupied", and nothing that is counted on the way overflows. The regions of a memory map are ranges
one after the other.
-/

namespace Paging

/-! ## Two runs of the parts of an operation -/

namespace Op.Coincides

variable {σ τ ε ε' α : Type} {S : σ → τ → Prop} {x : Op σ ε α} {z : Op τ ε α} {s : σ} {t : τ}

theorem demand (v : Violation) (a? : Option α) (hS : S s t) :
    Coincides S (Op.demand v a? : Op σ ε α) (Op.demand v a? : Op τ ε α) s t (fun _ _ => True) := by
  cases a? with
  | none => exact .error (run_demand_none v s) (run_demand_none v t) hS
  | some a => exact .ok (run_demand_some v a s) (run_demand_some v a t) hS trivial

theorem attempt (h : Coincides S x z s t (fun _ _ => True)) :
    Coincides S (x.attempt : Op σ ε' (Except ε α)) (z.attempt : Op τ ε' (Except ε α)) s t
      (fun _ _ => True) := by
  have hxrun : (x.attempt : Op σ ε' (Except ε α)).run s = _ := run_attempt x s
  have hzrun : (z.attempt : Op τ ε' (Except ε α)).run t = _ := run_attempt z t
  cases h with
  | ok hx hz hS =>
    rw [hx] at hxrun
    rw [hz] at hzrun
    exact .ok hxrun hzrun hS trivial
  | @error stop s' t' hx hz hS =>
    rw [hx] at hxrun
    rw [hz] at hzrun
    cases stop with
    | error e => exact .ok hxrun hzrun hS trivial
    | fault c => exact .error hxrun hzrun hS
    | violation v => exact .error hxrun hzrun hS

end Op.Coincides

namespace MemoryMap

/-! ## Records of calls -/

/-- A call of a mapper and its answer. -/
structure Call where
  virt : VirtAddr
  phys : PhysAddr
  flags : PageFlags
  force : Bool
  answer : Except (Stop MapError) Unit

namespace Call

/-- Whether the page was mapped. -/
def mapped (c : Call) : Bool :=
  match c.answer with
  | .ok () => true
  | .error _ => false

/-- Whether the page was occupied. -/
def occupied (c : Call) : Bool :=
  match c.answer with
  | .error (.error .occupied) => true
  | _ => false

/-- The page that was to be mapped. -/
def target (c : Call) : VirtAddr × PhysAddr := (c.virt, c.phys)

end Call

/-- A mapper together with the calls that have been made of it, oldest first. -/
structure Recorded (σ : Type) where
  state : σ
  calls : List Call

variable {σ ε α : Type}

/-- The mapper answers as it does without a record. -/
instance [Mapper σ] : Mapper (Recorded σ) where
  map va pa flags force := fun r =>
    let run := (Mapper.map va pa flags force).run r.state
    (run.1, ⟨run.2, r.calls ++ [⟨va, pa, flags, force, run.1⟩]⟩)
  log record r := { r with state := Mapper.log record r.state }

namespace Recorded

/-- From related states the operation does without a record what it does with one. -/
abbrev Erases (x : Op (Recorded σ) ε α) (y : Op σ ε α) : Prop :=
  ∀ r, x.Coincides (fun r s => r.state = s) y r r.state (fun _ _ => True)

theorem Erases.run_eq {x : Op (Recorded σ) ε α} {y : Op σ ε α} (h : Erases x y)
    (r : Recorded σ) : y.run r.state = ((x.run r).1, (x.run r).2.state) := by
  cases h r with
  | ok hx hy hS => rw [hx, hy, ← hS]
  | error hx hy hS => rw [hx, hy, ← hS]

/-- Parts that do without a record what they do with one make up such a sequence. -/
theorem Erases.bind {β : Type} {x : Op (Recorded σ) ε α} {y : Op σ ε α}
    {f : α → Op (Recorded σ) ε β} {g : α → Op σ ε β} (h : Erases x y)
    (hfg : ∀ a, Erases (f a) (g a)) : Erases (x >>= f) (y >>= g) := by
  intro r
  apply (h r).bind
  rintro a r' _ rfl -
  exact hfg a r'

/-- Whatever has been recorded before, the operation adds calls that come to its outcome. -/
abbrev Makes (x : Op (Recorded σ) ε α) (result : List Call → Except (Stop ε) α → Prop) : Prop :=
  ∀ r, x.Ends r (fun a r' => ∃ calls, r'.calls = r.calls ++ calls ∧ result calls (.ok a))
    (fun stop r' => ∃ calls, r'.calls = r.calls ++ calls ∧ result calls (.error stop))

theorem Makes.run {x : Op (Recorded σ) ε α} {result : List Call → Except (Stop ε) α → Prop}
    (h : Makes x result) (s : σ) : result (x.run ⟨s, []⟩).2.calls (x.run ⟨s, []⟩).1 := by
  -- With nothing recorded before, the record is the calls of the operation.
  cases h ⟨s, []⟩ with
  | ok hrun hend =>
    obtain ⟨calls, rfl, hresult⟩ := hend
    rwa [hrun]
  | error hrun hend =>
    obtain ⟨calls, rfl, hresult⟩ := hend
    rwa [hrun]

variable [Mapper σ]

theorem run_map (r : Recorded σ) (va : VirtAddr) (pa : PhysAddr) (flags : PageFlags)
    (force : Bool) :
    (Mapper.map va pa flags force).run r =
      (((Mapper.map va pa flags force).run r.state).1,
        ⟨((Mapper.map va pa flags force).run r.state).2,
          r.calls ++ [⟨va, pa, flags, force, ((Mapper.map va pa flags force).run r.state).1⟩]⟩) :=
  rfl

theorem calls_of_run_map {r r' : Recorded σ} {va : VirtAddr} {pa : PhysAddr} {flags : PageFlags}
    {force : Bool} {answer : Except (Stop MapError) Unit}
    (h : (Mapper.map va pa flags force).run r = (answer, r')) :
    r'.calls = r.calls ++ [⟨va, pa, flags, force, answer⟩] := by
  obtain ⟨rfl, rfl⟩ := Prod.mk.inj h
  rfl

theorem map_erases (va : VirtAddr) (pa : PhysAddr) (flags : PageFlags) (force : Bool) :
    Erases (Mapper.map va pa flags force) (Mapper.map va pa flags force : Op σ MapError Unit) := by
  intro r
  have hmap := run_map r va pa flags force
  -- A call is recorded after it was answered, so the answer is that of the mapper itself.
  rcases hrun : (Mapper.map va pa flags force : Op σ MapError Unit).run r.state with ⟨stop | _, s'⟩
  · rw [hrun] at hmap
    exact .error hmap hrun rfl
  · rw [hrun] at hmap
    exact .ok hmap hrun rfl trivial

theorem mapPages_erases (virt : VirtAddr) (phys : PhysAddr) (flags : PageFlags) (n : Nat) (i : Word)
    (tally : Tally) :
    Erases (mapPages virt phys flags n i tally)
      (mapPages virt phys flags n i tally : Op σ RegionError Tally) := by
  induction n generalizing i tally with
  | zero => exact fun r => .pure rfl trivial
  | succ n ih =>
    -- Only the call of the mapper touches the state, and all else is computed alike.
    unfold mapPages
    refine .bind (fun r => .demand _ _ rfl) fun distance => ?_
    refine .bind (fun r => .demand _ _ rfl) fun va => ?_
    refine .bind (fun r => .demand _ _ rfl) fun pa => ?_
    refine .bind (fun r => .attempt (map_erases va pa flags false r)) fun answer => ?_
    split
    · -- The page was mapped, it was occupied, or it stops the range.
      exact .bind (fun r => .demand _ _ rfl) fun tally => ih _ tally
    · exact .bind (fun r => .demand _ _ rfl) fun tally => ih _ tally
    · exact fun r => .refuse _ rfl

theorem mapRange_erases (virt : VirtAddr) (phys : PhysAddr) (pages : Word) (flags : PageFlags) :
    Erases (mapRange virt phys pages flags)
      (mapRange virt phys pages flags : Op σ RegionError Tally) := by
  unfold mapRange
  split
  · exact fun r => .refuse _ rfl
  · exact mapPages_erases virt phys flags pages.toNat 0 .zero

theorem log_erases (record : Record) :
    Erases (Op.change (Mapper.log record) : Op (Recorded σ) ε Unit)
      (.change (Mapper.log record)) :=
  fun r => .ok (Op.run_change _ r) (Op.run_change _ r.state) rfl trivial

theorem mapRegionsFrom_erases (flags : PageFlags) (regions : List Region) (tally : Tally) :
    Erases (mapRegionsFrom flags regions tally)
      (mapRegionsFrom flags regions tally : Op σ RegionError Tally) := by
  induction regions generalizing tally with
  | nil => exact fun r => .pure rfl trivial
  | cons region rest ih =>
    unfold mapRegionsFrom
    split
    · refine (log_erases _).bind fun _ => ?_
      refine (mapRange_erases _ _ _ _).bind fun more => ?_
      exact .bind (fun r => .demand _ _ rfl) fun tally => ih tally
    · exact ih tally

theorem mapRegions_erases (regions : List Region) (flags : PageFlags) :
    Erases (mapRegions regions flags) (mapRegions regions flags : Op σ RegionError Tally) := by
  refine (mapRegionsFrom_erases flags regions .zero).bind fun tally => ?_
  exact (log_erases _).bind fun _ r => .pure rfl trivial

end Recorded

/-! ## The calls of a range -/

/-- The page that a visit is to, if it is to a page. -/
def Visit.target? : Visit → Option (VirtAddr × PhysAddr)
  | announce _ => none
  | page virt phys => some (virt, phys)

/-- The calls were made one for each page that is visited, and all were answered by "mapped" or by
"occupied". -/
structure Answered (flags : PageFlags) (steps : List Visit) (calls : List Call) : Prop where
  targets : calls.map Call.target = steps.filterMap Visit.target?
  plain : ∀ c ∈ calls, c.flags = flags ∧ c.force = false
  counted : ∀ c ∈ calls, c.mapped = true ∨ c.occupied = true

section Calls

variable {flags : PageFlags} {steps : List Visit} {calls : List Call} {k l : Nat}

theorem Answered.cons (h : Answered flags steps calls) (virt : VirtAddr) (phys : PhysAddr)
    {answer : Except (Stop MapError) Unit}
    (hanswer : answer = .ok () ∨ answer = .error (.error .occupied)) :
    Answered flags (.page virt phys :: steps) (⟨virt, phys, flags, false, answer⟩ :: calls) where
  targets := congrArg ((virt, phys) :: ·) h.targets
  plain := List.forall_mem_cons.mpr ⟨⟨rfl, rfl⟩, h.plain⟩
  counted := by
    refine List.forall_mem_cons.mpr ⟨?_, h.counted⟩
    rcases hanswer with rfl | rfl
    · exact Or.inl rfl
    · exact Or.inr rfl

variable [Mapper σ] {r r' : Recorded σ}

/-- The visits have left their calls, and the counts are those of the answers. -/
theorem Visited.answered (h : Visited flags steps r k l r') :
    ∃ calls, r'.calls = r.calls ++ calls ∧ Answered flags steps calls ∧
      calls.countP Call.mapped = k ∧ calls.countP Call.occupied = l := by
  induction h with
  | nil r => exact ⟨[], (List.append_nil _).symm, ⟨rfl, by simp, by simp⟩, rfl, rfl⟩
  | announce region _ ih =>
    -- An announcement makes no call.
    obtain ⟨calls, hcalls, hanswered, hcounts⟩ := ih
    exact ⟨calls, hcalls, ⟨hanswered.targets, hanswered.plain, hanswered.counted⟩, hcounts⟩
  | @mapped steps r r₁ r' k l virt phys hrun _ ih =>
    obtain ⟨calls, hcalls, hanswered, hk, hl⟩ := ih
    -- The call of this page stands before those of the pages that follow.
    have hcall := Recorded.calls_of_run_map hrun
    refine ⟨⟨virt, phys, flags, false, .ok ()⟩ :: calls, ?_, hanswered.cons virt phys (Or.inl rfl),
      ?_, ?_⟩
    · rw [hcalls, hcall, List.append_assoc, List.singleton_append]
    · rw [List.countP_cons_of_pos rfl, hk]
    · rw [List.countP_cons_of_neg (by simp [Call.occupied]), hl]
  | @occupied steps r r₁ r' k l virt phys hrun _ ih =>
    obtain ⟨calls, hcalls, hanswered, hk, hl⟩ := ih
    have hcall := Recorded.calls_of_run_map hrun
    refine ⟨⟨virt, phys, flags, false, .error (.error .occupied)⟩ :: calls, ?_,
      hanswered.cons virt phys (Or.inr rfl), ?_, ?_⟩
    · rw [hcalls, hcall, List.append_assoc, List.singleton_append]
    · rw [List.countP_cons_of_neg (by simp [Call.mapped]), hk]
    · rw [List.countP_cons_of_pos rfl, hl]

end Calls

/-! ### Ranges that fit -/

/-- The calls are for the first pages of a range, one after the other and without force. No address
is counted around the end of its space. -/
def IsPageSequence (virt : VirtAddr) (phys : PhysAddr) (flags : PageFlags) (calls : List Call) :
    Prop :=
  ∀ i c, calls[i]? = some c → c.virt.word.toNat = virt.word.toNat + i * 4096 ∧
    c.phys.word.toNat = phys.word.toNat + i * 4096 ∧ c.flags = flags ∧ c.force = false

/-- What mapping a range comes to, by the calls that it makes. -/
inductive RangeResult (virt : VirtAddr) (phys : PhysAddr) (pages : Word) (flags : PageFlags) :
    List Call → Except (Stop RegionError) Tally → Prop where
  /-- The range does not fit into an address space. No call is made. -/
  | refused {base : Word} (hrange : ¬ (virt.Fits pages.toNat ∧ phys.Fits pages.toNat))
      (hvirt : phys.Fits pages.toNat → base = virt.word)
      (hphys : ¬ phys.Fits pages.toNat → base = phys.word) :
      RangeResult virt phys pages flags [] (.error (.error (.overflow base pages)))
  /-- Every page was mapped or occupied, and the answers are counted. -/
  | counted {calls : List Call} {t : Tally} (hvirt : virt.Fits pages.toNat)
      (hphys : phys.Fits pages.toNat) (hcalls : IsPageSequence virt phys flags calls)
      (hlength : calls.length = pages.toNat)
      (hanswers : ∀ c ∈ calls, c.mapped = true ∨ c.occupied = true)
      (hmapped : t.mapped.toNat = calls.countP Call.mapped)
      (hpresent : t.present.toNat = calls.countP Call.occupied)
      (htotal : t.mapped.toNat + t.present.toNat = pages.toNat) :
      RangeResult virt phys pages flags calls (.ok t)
  /-- A page was neither mapped nor occupied. It is the last that was called for. -/
  | stopped {calls : List Call} {last : Call} {cause : Stop MapError}
      (hvirt : virt.Fits pages.toNat) (hphys : phys.Fits pages.toNat)
      (hcalls : IsPageSequence virt phys flags (calls ++ [last]))
      (hlength : calls.length < pages.toNat)
      (hanswers : ∀ c ∈ calls, c.mapped = true ∨ c.occupied = true)
      (hlast : last.answer = .error cause) (hcause : cause ≠ .error .occupied) :
      RangeResult virt phys pages flags (calls ++ [last])
        (.error (cause.mapError (.map last.virt last.phys)))

section Range

variable {virt : VirtAddr} {phys : PhysAddr} {flags : PageFlags} {calls : List Call} {n : Nat}
  {pages : Word}

theorem targets_rangeVisits (virt : VirtAddr) (phys : PhysAddr) (n : Nat) :
    (rangeVisits virt phys 0 n).filterMap Visit.target? =
      (List.range n).map fun i => (virt.pageAt i, phys.pageAt i) := by
  rw [rangeVisits, List.filterMap_map, List.range_eq_range', ← List.filterMap_eq_map]
  rfl

/-- Calls for the first pages of a range that fits are a sequence of its pages. -/
theorem isPageSequence_of_isPrefix (hvirt : virt.Fits n) (hphys : phys.Fits n)
    (htargets : calls.map Call.target <+: (rangeVisits virt phys 0 n).filterMap Visit.target?)
    (hplain : ∀ c ∈ calls, c.flags = flags ∧ c.force = false) :
    IsPageSequence virt phys flags calls := by
  intro i c hc
  rw [targets_rangeVisits] at htargets
  -- No more calls are made than there are pages.
  have hi : i < n := by
    have hlt := (List.getElem?_eq_some_iff.mp hc).1
    have hle := htargets.length_le
    simp only [List.length_map, List.length_range] at hle
    omega
  -- The call is for the page that stands there in the range.
  have htarget : c.target = (virt.pageAt i, phys.pageAt i) := by
    have hsome : (calls.map Call.target)[i]? = some c.target := by rw [List.getElem?_map, hc]; rfl
    obtain ⟨rest, hrest⟩ := htargets
    have hpage := congrArg (·[i]?) hrest
    rw [List.getElem?_append_left (List.getElem?_eq_some_iff.mp hsome).1, hsome] at hpage
    simpa [hi] using hpage
  obtain ⟨hv, hp⟩ := Prod.mk.inj htarget
  have hle : i ≤ n := Nat.le_of_lt hi
  -- The range fits, so the address of a page is not counted around the end.
  rw [hv, hp, Address.toNat_pageAt (hvirt.mono hle), Address.toNat_pageAt (hphys.mono hle)]
  exact ⟨rfl, rfl, hplain c (List.mem_of_getElem? hc)⟩

/-- There is one call for each page. -/
theorem Answered.length_eq (h : Answered flags (rangeVisits virt phys 0 n) calls) :
    calls.length = n := by
  have hlength := congrArg List.length h.targets
  rwa [List.length_map, targets_rangeVisits, List.length_map, List.length_range] at hlength

/-- Every page of a range is counted once. -/
theorem Visited.count_range [Mapper σ] {r r' : σ} {k l : Nat}
    (h : Visited flags (rangeVisits virt phys 0 n) r k l r') : k + l = n := by
  have hpages : (rangeVisits virt phys 0 n).filterMap Visit.phys? =
      (List.range' 0 n).map phys.pageAt := by
    rw [rangeVisits, List.filterMap_map, ← List.filterMap_eq_map]
    rfl
  rw [h.count, hpages, List.length_map, List.length_range']

variable [Mapper σ]

/-- A range makes the calls of its result. -/
theorem mapRange_makes (virt : VirtAddr) (phys : PhysAddr) (pages : Word) (flags : PageFlags) :
    Recorded.Makes (mapRange virt phys pages flags : Op (Recorded σ) RegionError Tally)
      (RangeResult virt phys pages flags) := by
  intro r
  apply (mapRange_ends virt phys pages flags r).mono
  · intro t r' hend
    obtain ⟨hcheck, hvisited⟩ := hend
    obtain ⟨hvirt, hphys⟩ := checkRange_eq_ok_iff.mp hcheck
    -- All pages were visited, so there is a call for each and the counts are those of the answers.
    obtain ⟨calls, hcalls, hanswered, hmapped, hpresent⟩ := hvisited.answered
    refine ⟨calls, hcalls, .counted hvirt hphys ?_ hanswered.length_eq hanswered.counted
      hmapped.symm hpresent.symm ?_⟩
    · exact isPageSequence_of_isPrefix hvirt hphys ⟨[], by rw [hanswered.targets, List.append_nil]⟩
        hanswered.plain
    · exact hvisited.count_range
  · intro stop r' hend
    rcases hend with ⟨e, hcheck, rfl, rfl⟩ | ⟨hcheck, hhalted⟩
    · -- The range was refused before the first call.
      obtain ⟨base, rfl, hvirt, hphys⟩ := checkRange_eq_error hcheck
      refine ⟨[], (List.append_nil _).symm, .refused ?_ hvirt hphys⟩
      intro hfits
      rw [checkRange_eq_ok_iff.mpr hfits] at hcheck
      cases hcheck
    · -- The call for the page that was refused is the last one.
      obtain ⟨hvirt, hphys⟩ := checkRange_eq_ok_iff.mp hcheck
      obtain @⟨before, after, va, pa, r₁, _, k, l, cause, hsteps, hbefore, hrun, hcause⟩ := hhalted
      obtain ⟨calls, hcalls, hanswered, -⟩ := hbefore.answered
      have hcall := Recorded.calls_of_run_map hrun
      have htargets := congrArg (List.filterMap Visit.target?) hsteps
      rw [List.filterMap_append, ← hanswered.targets] at htargets
      refine ⟨calls ++ [⟨va, pa, flags, false, .error cause⟩], ?_,
        .stopped hvirt hphys ?_ ?_ hanswered.counted rfl hcause⟩
      · rw [hcall, hcalls, List.append_assoc]
      · apply isPageSequence_of_isPrefix hvirt hphys
        · refine ⟨after.filterMap Visit.target?, ?_⟩
          rw [htargets, List.map_append, List.append_assoc]
          rfl
        · simpa [or_imp, forall_and] using hanswered.plain
      · have hlength := congrArg List.length htargets
        rw [targets_rangeVisits, List.length_append, List.length_map, List.length_map,
          List.length_range] at hlength
        -- The page that was refused is one of the range, and was not counted among the calls.
        have hpos : 0 < ((Visit.page va pa :: after).filterMap Visit.target?).length := by
          simp [Visit.target?]
        omega

/-- The counting itself overflows nowhere: only a mapper can violate what it relies on. -/
theorem RangeResult.violation_of_call {v : Violation}
    (h : RangeResult virt phys pages flags calls (.error (.violation v))) :
    ∃ c ∈ calls, c.answer = .error (.violation v) := by
  generalize hout : (Except.error (.violation v) : Except (Stop RegionError) Tally) = out at h
  cases h with
  | refused _ _ _ => cases hout
  | counted _ _ _ _ _ _ _ _ => cases hout
  | @stopped calls last cause _ _ _ _ _ hlast _ =>
    refine ⟨last, by simp, ?_⟩
    -- A violation is reported as it is, so it is the mapper's.
    cases cause with
    | violation w =>
      cases hout
      exact hlast
    | _ => cases hout

/-- A range is refused without a call if and only if it does not fit. -/
theorem RangeResult.overflow_iff {out : Except (Stop RegionError) Tally}
    (h : RangeResult virt phys pages flags calls out) :
    (∃ base, out = .error (.error (.overflow base pages))) ↔
      ¬ (virt.Fits pages.toNat ∧ phys.Fits pages.toNat) := by
  cases h with
  | @refused base hrange _ _ => exact ⟨fun _ => hrange, fun _ => ⟨base, rfl⟩⟩
  | counted hvirt hphys _ _ _ _ _ _ => simp [hvirt, hphys]
  | @stopped _ _ cause hvirt hphys _ _ _ _ _ => cases cause <;> simp [hvirt, hphys, Stop.mapError]

end Range

/-! ## The calls of the regions -/

/-- What mapping the regions of a list comes to, by the calls that it makes, if `sum` has been
counted before. -/
inductive RegionsResult (flags : PageFlags) :
    List Region → Tally → List Call → Except (Stop RegionError) Tally → Prop where
  /-- The regions are done. -/
  | done (sum : Tally) : RegionsResult flags [] sum [] (.ok sum)
  /-- A region that needs no mapping is passed over. -/
  | skipped {r : Region} {rest : List Region} {sum : Tally} {calls : List Call}
      {out : Except (Stop RegionError) Tally} (hkind : r.kind = .conventional)
      (hrest : RegionsResult flags rest sum calls out) :
      RegionsResult flags (r :: rest) sum calls out
  /-- The range of a region failed, and no other is tried. -/
  | failed {r : Region} {rest : List Region} {sum : Tally} {calls : List Call}
      {stop : Stop RegionError} (hkind : r.kind ≠ .conventional)
      (hrange : RangeResult ⟨r.base.word⟩ r.base r.pages flags calls (.error stop)) :
      RegionsResult flags (r :: rest) sum calls (.error stop)
  /-- The counts of a region are added to those before. -/
  | counted {r : Region} {rest : List Region} {sum more sum' : Tally} {calls calls' : List Call}
      {out : Except (Stop RegionError) Tally} (hkind : r.kind ≠ .conventional)
      (hrange : RangeResult ⟨r.base.word⟩ r.base r.pages flags calls (.ok more))
      (hmapped : sum'.mapped.toNat = sum.mapped.toNat + more.mapped.toNat)
      (hpresent : sum'.present.toNat = sum.present.toNat + more.present.toNat)
      (hrest : RegionsResult flags rest sum' calls' out) :
      RegionsResult flags (r :: rest) sum (calls ++ calls') out
  /-- A sum of counts is too large. -/
  | overflowed {r : Region} {rest : List Region} {sum more : Tally} {calls : List Call}
      (hkind : r.kind ≠ .conventional)
      (hrange : RangeResult ⟨r.base.word⟩ r.base r.pages flags calls (.ok more))
      (hsum : ¬ (sum.mapped.toNat + more.mapped.toNat < 2 ^ 64 ∧
        sum.present.toNat + more.present.toNat < 2 ^ 64)) :
      RegionsResult flags (r :: rest) sum calls (.error (.violation .overflow))

section Regions

variable {flags : PageFlags} {regions : List Region}

theorem needsMapping_iff (kind : RegionKind) : kind.needsMapping = true ↔ kind ≠ .conventional := by
  cases kind <;> decide

/-- A range that is counted has all of its pages counted. -/
theorem RangeResult.total {virt : VirtAddr} {phys : PhysAddr} {pages : Word} {calls : List Call}
    {t : Tally} (h : RangeResult virt phys pages flags calls (.ok t)) :
    t.mapped.toNat + t.present.toNat = pages.toNat ∧
      t.mapped.toNat = calls.countP Call.mapped ∧ t.present.toNat = calls.countP Call.occupied := by
  cases h with
  | counted _ _ _ _ _ hmapped hpresent htotal => exact ⟨htotal, hmapped, hpresent⟩

/-- All regions together count every page, each as the calls were answered. -/
theorem RegionsResult.total {sum t : Tally} {calls : List Call}
    (h : RegionsResult flags regions sum calls (.ok t)) :
    t.mapped.toNat = sum.mapped.toNat + calls.countP Call.mapped ∧
      t.present.toNat = sum.present.toNat + calls.countP Call.occupied ∧
      calls.countP Call.mapped + calls.countP Call.occupied = pageCount regions := by
  -- Only results with a tally are of interest; for each region the counts are those of its range.
  generalize hout : (Except.ok t : Except (Stop RegionError) Tally) = out at h
  induction h with
  | done sum =>
    cases hout
    exact ⟨rfl, rfl, rfl⟩
  | skipped hkind _ ih =>
    obtain ⟨hm, hp, htotal⟩ := ih hout
    refine ⟨hm, hp, ?_⟩
    -- The region has no page that counts.
    rw [htotal, pageCount, regionCount, hkind]
    exact (Nat.zero_add _).symm
  | failed _ _ => cases hout
  | counted hkind hrange hmapped hpresent _ ih =>
    obtain ⟨hm, hp, htotal⟩ := ih hout
    obtain ⟨htotal', hm', hp'⟩ := hrange.total
    rw [pageCount, regionCount, if_pos ((needsMapping_iff _).mpr hkind), List.countP_append,
      List.countP_append]
    omega
  | overflowed _ _ _ => cases hout

/-- If the page counts add up to a word, no sum overflows. -/
theorem RegionsResult.violation_of_call {sum : Tally} {calls : List Call} {v : Violation}
    (h : RegionsResult flags regions sum calls (.error (.violation v)))
    (hsum : sum.mapped.toNat + sum.present.toNat + pageCount regions < 2 ^ 64) :
    ∃ c ∈ calls, c.answer = .error (.violation v) := by
  generalize hout : (Except.error (.violation v) : Except (Stop RegionError) Tally) = out at h
  induction h with
  | done => cases hout
  | skipped hkind _ ih =>
    rw [pageCount] at hsum
    -- A region that is passed over takes nothing of the bound.
    exact ih (by omega) hout
  | failed _ hrange =>
    cases hout
    exact hrange.violation_of_call
  | counted hkind hrange hmapped hpresent _ ih =>
    obtain ⟨htotal, -⟩ := hrange.total
    rw [pageCount, regionCount, if_pos ((needsMapping_iff _).mpr hkind)] at hsum
    -- The bound for the rest follows, because the region has counted each of its pages once.
    obtain ⟨c, hc, hanswer⟩ := ih (by omega) hout
    exact ⟨c, List.mem_append_right _ hc, hanswer⟩
  | overflowed hkind hrange hover =>
    -- The counts of this region are within the bound, so their sums are.
    obtain ⟨htotal, -⟩ := hrange.total
    rw [pageCount, regionCount, if_pos ((needsMapping_iff _).mpr hkind)] at hsum
    omega

variable [Mapper σ]

/-- The regions of a list make the calls of their result. -/
theorem mapRegionsFrom_makes (flags : PageFlags) (regions : List Region) (sum : Tally) :
    Recorded.Makes (mapRegionsFrom flags regions sum : Op (Recorded σ) RegionError Tally)
      (RegionsResult flags regions sum) := by
  intro r
  induction regions generalizing sum r with
  | nil => exact .pure ⟨[], (List.append_nil _).symm, .done sum⟩
  | cons region rest ih =>
    by_cases hkind : region.kind = .conventional
    · -- Conventional memory is passed over without a call.
      rw [mapRegionsFrom, if_neg (fun hneeds => (needsMapping_iff _).mp hneeds hkind)]
      apply (ih sum r).mono
      · rintro t r' ⟨calls, hcalls, hrest⟩
        exact ⟨calls, hcalls, .skipped hkind hrest⟩
      · rintro stop r' ⟨calls, hcalls, hrest⟩
        exact ⟨calls, hcalls, .skipped hkind hrest⟩
    · rw [mapRegionsFrom, if_pos ((needsMapping_iff _).mpr hkind)]
      apply Op.Ends.of_run_eq _ (Op.run_bind_ok (Op.run_change ..) _)
      apply (mapRange_makes _ _ _ _ _).bind_mono
      · rintro more r₁ ⟨calls, hcalls, hrange⟩
        -- The counts are added before the next region is looked at.
        by_cases hsum : sum.mapped.toNat + more.mapped.toNat < 2 ^ 64 ∧
            sum.present.toNat + more.present.toNat < 2 ^ 64
        · obtain ⟨sum', hadd, hmapped, hpresent⟩ := Tally.exists_add? hsum.1 hsum.2
          have hrun : (.demand .overflow (sum.add? more) :
              Op (Recorded σ) RegionError Tally).run r₁ = (.ok sum', r₁) := by
            rw [hadd, Op.run_demand_some]
          apply Op.Ends.of_run_eq _ (Op.run_bind_ok hrun _)
          apply (ih sum' r₁).mono
          · rintro t r' ⟨calls', hcalls', hrest⟩
            refine ⟨calls ++ calls', ?_, .counted hkind hrange hmapped hpresent hrest⟩
            rw [hcalls', hcalls, List.append_assoc]
            rfl
          · -- Where a later region fails, the calls of this one have been made all the same.
            rintro stop r' ⟨calls', hcalls', hrest⟩
            refine ⟨calls ++ calls', ?_, .counted hkind hrange hmapped hpresent hrest⟩
            rw [hcalls', hcalls, List.append_assoc]
            rfl
        · -- The region has been mapped, but the sum of its counts and the others is no word.
          have hrun : (.demand .overflow (sum.add? more) :
              Op (Recorded σ) RegionError Tally).run r₁ = (.error (.violation .overflow), r₁) := by
            rw [Tally.add?_eq_none hsum, Op.run_demand_none]
          exact .error (Op.run_bind_error hrun _) ⟨calls, hcalls, .overflowed hkind hrange hsum⟩
      · rintro stop r' ⟨calls, hcalls, hrange⟩
        exact ⟨calls, hcalls, .failed hkind hrange⟩

/-- What follows the regions makes no call. -/
theorem mapRegions_makes (regions : List Region) (flags : PageFlags) :
    Recorded.Makes (mapRegions regions flags : Op (Recorded σ) RegionError Tally)
      (RegionsResult flags regions .zero) := by
  intro r
  cases mapRegionsFrom_makes flags regions .zero r with
  | ok hrun hend => exact .ok (Op.run_bind_ok hrun _) hend
  | error hrun hend => exact .error (Op.run_bind_error hrun _) hend

/-! ## Every mapper -/

/-- For every mapper, mapping a range makes the calls of its result, and mapping the regions of a
memory map makes those of their ranges. A record of the calls changes nothing. A range is refused if
it or one of its ends is more than a word, and it has no other overflow; adding up the regions has
none unless they have more pages than a word can count. -/
theorem calls_in_order (s : σ) (virt : VirtAddr) (phys : PhysAddr) (pages : Word)
    (flags : PageFlags) (regions : List Region) :
    let range := (mapRange virt phys pages flags).run (⟨s, []⟩ : Recorded σ)
    let all := (mapRegions regions flags).run (⟨s, []⟩ : Recorded σ)
    ((mapRange virt phys pages flags).run s = (range.1, range.2.state) ∧
      RangeResult virt phys pages flags range.2.calls range.1 ∧
      ((∃ base, range.1 = .error (.error (.overflow base pages))) ↔
        2 ^ 64 - 1 < pages.toNat * 4096 ∨ 2 ^ 64 - 1 < phys.word.toNat + pages.toNat * 4096 ∨
          2 ^ 64 - 1 < virt.word.toNat + pages.toNat * 4096) ∧
      ∀ v, range.1 = .error (.violation v) →
        ∃ c ∈ range.2.calls, c.answer = .error (.violation v)) ∧
    (mapRegions regions flags).run s = (all.1, all.2.state) ∧
      RegionsResult flags regions .zero all.2.calls all.1 ∧
      (∀ t, all.1 = .ok t → t.mapped.toNat = all.2.calls.countP Call.mapped ∧
        t.present.toNat = all.2.calls.countP Call.occupied ∧
        t.mapped.toNat + t.present.toNat = pageCount regions) ∧
      (pageCount regions < 2 ^ 64 → ∀ v, all.1 = .error (.violation v) →
        ∃ c ∈ all.2.calls, c.answer = .error (.violation v)) := by
  intro range all
  have hrange : RangeResult virt phys pages flags range.2.calls range.1 :=
    (mapRange_makes virt phys pages flags).run s
  have hall : RegionsResult flags regions .zero all.2.calls all.1 :=
    (mapRegions_makes regions flags).run s
  refine ⟨⟨(Recorded.mapRange_erases virt phys pages flags).run_eq ⟨s, []⟩, hrange, ?_, ?_⟩,
    (Recorded.mapRegions_erases regions flags).run_eq ⟨s, []⟩, hall, ?_, ?_⟩
  · rw [hrange.overflow_iff, Address.Fits, Address.Fits]
    omega
  · intro v hv
    rw [hv] at hrange
    exact hrange.violation_of_call
  · intro t ht
    rw [ht] at hall
    obtain ⟨hmapped, hpresent, htotal⟩ := hall.total
    have hzero : Tally.zero.mapped.toNat = 0 ∧ Tally.zero.present.toNat = 0 := ⟨rfl, rfl⟩
    omega
  · intro hcount v hv
    rw [hv] at hall
    apply hall.violation_of_call
    rwa [show Tally.zero.mapped.toNat + Tally.zero.present.toNat = 0 from rfl, Nat.zero_add]

end Regions

/-- A range whose second page is not canonical is left there, and one that ends with the address
space is refused. Of three regions, two overlap in a page. -/
theorem calls_in_order_specimen :
    let s : AddressSpace Hardware.Simulated (Screened Script) := .create Specimen.root .identity
      Specimen.hardware ⟨{ Specimen.script with words := some [0x2000, 0x3000, 0x4000] }⟩
      Specimen.memory
    let across := (mapRange ⟨0x7ffffffff000⟩ ⟨0x5000⟩ 3 .bootIdentity).run (⟨s, []⟩ : Recorded _)
    let regions : List Region :=
      [⟨⟨0x5000⟩, 2, .loader⟩, ⟨⟨0x100000⟩, 3, .conventional⟩, ⟨⟨0x6000⟩, 2, .acpi⟩]
    let all := (mapRegions regions .bootIdentity).run (⟨s, []⟩ : Recorded _)
    across.1 = .error (.error (.map ⟨0x800000000000⟩ ⟨0x6000⟩ .invalidVirtual)) ∧
      across.2.calls.map Call.target =
        [(⟨0x7ffffffff000⟩, ⟨0x5000⟩), (⟨0x800000000000⟩, ⟨0x6000⟩)] ∧
      RangeResult ⟨0x7ffffffff000⟩ ⟨0x5000⟩ 3 .bootIdentity across.2.calls across.1 ∧
      (∃ base, ((mapRange ⟨0xfffffffffffff000⟩ ⟨0x5000⟩ 1 .bootIdentity).run
        (⟨s, []⟩ : Recorded _)).1 = .error (.error (.overflow base 1))) ∧
      all.1 = .ok ⟨3, 1⟩ ∧
      RegionsResult .bootIdentity regions .zero all.2.calls all.1 ∧
      all.2.calls.countP Call.mapped = 3 ∧ all.2.calls.countP Call.occupied = 1 := by
  intro s across regions all
  have hstop : across.1 = .error (.error (.map ⟨0x800000000000⟩ ⟨0x6000⟩ .invalidVirtual)) := by
    decide +kernel
  have hacross : across.2.calls.map Call.target =
      [(⟨0x7ffffffff000⟩, ⟨0x5000⟩), (⟨0x800000000000⟩, ⟨0x6000⟩)] := by decide +kernel
  have hplain : ((mapRegions regions .bootIdentity).run s).1 = .ok ⟨3, 1⟩ := by decide +kernel
  clear_value s
  obtain ⟨⟨-, hrange, -⟩, hrun, hregions, hcounts, -⟩ :=
    calls_in_order s ⟨0x7ffffffff000⟩ ⟨0x5000⟩ 3 .bootIdentity regions
  obtain ⟨⟨-, -, hover, -⟩, -⟩ :=
    calls_in_order s ⟨0xfffffffffffff000⟩ ⟨0x5000⟩ 1 .bootIdentity regions
  have hok : all.1 = .ok ⟨3, 1⟩ := by rw [← hplain, hrun]
  obtain ⟨hmapped, hoccupied, -⟩ := hcounts _ hok
  refine ⟨hstop, hacross, hrange, hover.mpr ?_, hok, hregions, hmapped.symm, hoccupied.symm⟩
  exact Or.inr (Or.inr (by simp))

end MemoryMap

end Paging
