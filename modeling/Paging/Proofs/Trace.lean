import Paging.Machine.Basic

/-!
# What the trace accounts for

The trace says everything that happened to memory: carrying out its events one after the other
turns the memory of a machine into the memory that it has later. It also lists every answer of the
frame source.
-/

namespace Paging

/-- Memory after an event. -/
def Event.applyTo (mem : Memory) : Event → Memory
  | .wrote table slot entry => mem.write table slot entry
  | .cleared table => mem.clear table
  | .replaced frame table => mem.setTable frame table
  | _ => mem

/-- Memory after a list of events, newest first. -/
def Memory.after (mem : Memory) (events : List Event) : Memory :=
  events.foldr (fun e mem => e.applyTo mem) mem

@[simp] theorem Memory.after_nil (mem : Memory) : mem.after [] = mem := rfl

@[simp] theorem Memory.after_cons (mem : Memory) (e : Event) (events : List Event) :
    mem.after (e :: events) = e.applyTo (mem.after events) := rfl

theorem Memory.after_append (mem : Memory) (late early : List Event) :
    mem.after (late ++ early) = (mem.after early).after late := by
  simp [Memory.after]

namespace Machine

variable {η α : Type} {m m' m'' : Machine η α}

/-- `m'` is `m` after more events, and these account for its memory. -/
def Continues (m m' : Machine η α) (events : List Event) : Prop :=
  m'.trace = events ++ m.trace ∧ m'.memory = m.memory.after events

theorem Continues.refl (m : Machine η α) : m.Continues m [] := ⟨rfl, rfl⟩

theorem Continues.trans {early late : List Event} (h : m.Continues m' early)
    (h' : m'.Continues m'' late) : m.Continues m'' (late ++ early) := by
  refine ⟨?_, ?_⟩
  · rw [h'.1, h.1, List.append_assoc]
  · rw [h'.2, h.2, Memory.after_append]

theorem continues_write (m : Machine η α) (table : Frame) (slot : Index) (e : Entry) :
    m.Continues (m.write table slot e) [.wrote table slot e] := ⟨rfl, rfl⟩

theorem continues_clear (m : Machine η α) (table : Frame) :
    m.Continues (m.clear table) [.cleared table] := ⟨rfl, rfl⟩

theorem continues_invalidate (m : Machine η α) (va : VirtAddr) :
    m.Continues (m.invalidate va) [.invalidated va] := ⟨rfl, rfl⟩

theorem continues_log (m : Machine η α) (r : Record) :
    m.Continues (m.log r) [.logged r] := ⟨rfl, rfl⟩

theorem continues_foldl_log (m : Machine η α) (rs : List Record) :
    ∃ events, m.Continues (rs.foldl log m) events ∧ ∀ a, Event.requested a ∉ events := by
  -- Each record is one event more, and what comes before it stays.
  induction rs generalizing m with
  | nil => exact ⟨[], .refl m, by simp⟩
  | cons r rs ih =>
    obtain ⟨events, hc, hno⟩ := ih (m.log r)
    rw [List.foldl_cons]
    refine ⟨events ++ [.logged r], (m.continues_log r).trans hc, fun a ha => ?_⟩
    rcases List.mem_append.mp ha with hmem | hmem
    · exact hno a hmem
    · simp at hmem

/-- A request is in the trace with its answer, and everything else in the trace that happens on the
way is no request. -/
theorem continues_request [FrameSource α] (m : Machine η α) :
    ∃ events, m.Continues m.request.2 (events ++ [.requested m.request.1]) ∧
      ∀ a, Event.requested a ∉ events := by
  -- First the question is noted, then the frame is filled, and last the records are logged.
  let asked : Machine η α :=
    { m with frames := (FrameSource.request m.frames).2 }.note (.requested m.request.1)
  have hasked : m.Continues asked [.requested m.request.1] := ⟨rfl, rfl⟩
  have hsettled : ∃ events,
      asked.Continues (asked.settle (FrameSource.request m.frames).1.residue) events ∧
        ∀ a, Event.requested a ∉ events := by
    rcases (FrameSource.request m.frames).1.residue with _ | ⟨f, t⟩
    · exact ⟨[], .refl _, by simp⟩
    · exact ⟨[.replaced f t], ⟨rfl, rfl⟩, by simp⟩
  obtain ⟨settled, hs, hsno⟩ := hsettled
  obtain ⟨logged, hl, hlno⟩ := continues_foldl_log
    (asked.settle (FrameSource.request m.frames).1.residue)
    (FrameSource.request m.frames).1.records
  refine ⟨logged ++ settled, ?_, fun a ha => ?_⟩
  · rw [List.append_assoc]
    exact (hasked.trans hs).trans hl
  · rcases List.mem_append.mp ha with hmem | hmem
    · exact hlno a hmem
    · exact hsno a hmem

/-- The frames that have been handed out, oldest first. -/
def handedOut (m : Machine η α) : List Frame := m.requests.filterMap id

theorem mem_handedOut_iff {f : Frame} :
    f ∈ m.handedOut ↔ Event.requested (some f) ∈ m.trace := by
  simp only [handedOut, requests, List.mem_filterMap, List.mem_reverse, id_eq]
  constructor
  · intro h
    obtain ⟨_, ⟨e, he, hanswer⟩, rfl⟩ := h
    -- Of all events only a request has an answer.
    cases e <;> simp_all
  · intro h
    exact ⟨some f, ⟨_, h, rfl⟩, rfl⟩

end Machine

end Paging
