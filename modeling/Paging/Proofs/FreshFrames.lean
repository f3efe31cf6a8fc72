import Paging.Machine.Basic

/-!
# Sources of fresh frames

A frame source may decline whenever it likes. It is *fresh* if the frames that it does hand out are
encodable, meet a condition such as "is no table of the hierarchy", and are handed out once only,
and if it writes to nothing but the frame that it is handing out. Its next answer then meets the
condition, and what remains of it is fresh for the frames that are still free. A source that is only
*clear* may hand out frames that no entry has room for, and may write to any frame that is still
free.
-/

namespace Paging

namespace FrameSource

variable {α : Type} [FrameSource α]

/-- The answer of a source to request number `n` from now on. -/
def answer : Nat → α → Grant
  | 0, s => (request s).1
  | n + 1, s => answer n (request s).2

/-- A source that hands out frames for which `free` holds, each of them once. Of all memory it
changes only frames for which `free` holds and which it has not handed out. -/
structure Clear (free : Frame → Prop) (s : α) : Prop where
  isFree : ∀ {n f}, (answer n s).frame? = some f → free f
  once : ∀ {m n f}, (answer m s).frame? = some f → (answer n s).frame? = some f → m = n
  residue : ∀ {n f t}, (answer n s).residue = some (f, t) →
    free f ∧ ∀ m < n, (answer m s).frame? ≠ some f

namespace Clear

variable {free free' : Frame → Prop} {s : α}

theorem mono (h : Clear free s) (himp : ∀ f, free f → free' f) : Clear free' s :=
  ⟨fun hf => himp _ (h.isFree hf), h.once, fun hr => (h.residue hr).imp_left (himp _)⟩

/-- After a request the frame that was handed out is no longer free. -/
theorem next (h : Clear free s) :
    Clear (fun f => free f ∧ (request s).1.frame? ≠ some f) (request s).2 where
  isFree {n f} hf := by
    refine ⟨h.isFree (n := n + 1) hf, fun hnow => ?_⟩
    -- The frame of the request would be handed out a second time.
    exact absurd (h.once (m := 0) (n := n + 1) hnow hf) (by omega)
  once {m n f} hm hn := by
    have hsucc := h.once (m := m + 1) (n := n + 1) hm hn
    omega
  residue {n f t} hr := by
    obtain ⟨hfree, hearlier⟩ := h.residue (n := n + 1) hr
    exact ⟨⟨hfree, hearlier 0 (by omega)⟩, fun m hm => hearlier (m + 1) (by omega)⟩

end Clear

/-- Two sources whose answers to all requests are the same. -/
def Alike {β : Type} [FrameSource β] (s : α) (t : β) : Prop :=
  ∀ n, (answer n t).frame? = (answer n s).frame?

theorem Alike.next {β : Type} [FrameSource β] {s : α} {t : β} (h : Alike s t) :
    Alike (request s).2 (request t).2 := fun n => h (n + 1)

/-- A source that hands out encodable frames for which `free` holds, each of them once, and that
leaves all other memory alone. -/
structure Fresh (free : Frame → Prop) (s : α) : Prop where
  isEncodable : ∀ {n f}, (answer n s).frame? = some f → f.isEncodable
  isFree : ∀ {n f}, (answer n s).frame? = some f → free f
  once : ∀ {m n f}, (answer m s).frame? = some f → (answer n s).frame? = some f → m = n
  residue : ∀ {n f t}, (answer n s).residue = some (f, t) → (answer n s).frame? = some f

namespace Fresh

variable {free free' : Frame → Prop} {s : α}

theorem mono (h : Fresh free s) (himp : ∀ f, free f → free' f) : Fresh free' s :=
  ⟨h.isEncodable, fun hf => himp _ (h.isFree hf), h.once, h.residue⟩

theorem clear (h : Fresh free s) : Clear free s where
  isFree := h.isFree
  once := h.once
  residue {n f t} hr := by
    have hgrant := h.residue hr
    -- The frame that is written to is handed out now, so it was not handed out before.
    refine ⟨h.isFree hgrant, fun m hm hearlier => ?_⟩
    exact absurd (h.once hearlier hgrant) (by omega)

/-- After a request the source is fresh for the frames that it did not just hand out. -/
theorem next (h : Fresh free s) :
    Fresh (fun f => free f ∧ (request s).1.frame? ≠ some f) (request s).2 where
  isEncodable {n _} hf := h.isEncodable (n := n + 1) hf
  isFree := h.clear.next.isFree
  once := h.clear.next.once
  residue {n _ _} hr := h.residue (n := n + 1) hr

/-- A source is fresh if its next answer is and what remains of it is. -/
theorem of_next
    (hnow : ∀ {f}, (request s).1.frame? = some f → f.isEncodable ∧ free f)
    (hres : ∀ {f t}, (request s).1.residue = some (f, t) → (request s).1.frame? = some f)
    (hlater : Fresh (fun f => free f ∧ (request s).1.frame? ≠ some f) (request s).2) :
    Fresh free s where
  isEncodable {n f} hf := by
    cases n with
    | zero => exact (hnow hf).1
    | succ n => exact hlater.isEncodable (n := n) hf
  isFree {n f} hf := by
    cases n with
    | zero => exact (hnow hf).2
    | succ n => exact (hlater.isFree (n := n) hf).1
  once {m n f} hm hn := by
    cases m with
    | zero =>
      cases n with
      | zero => rfl
      -- What is handed out now is no longer free later.
      | succ n => exact absurd hm (hlater.isFree (n := n) hn).2
    | succ m =>
      cases n with
      | zero => exact absurd hn (hlater.isFree (n := m) hm).2
      | succ n => exact congrArg Nat.succ (hlater.once (m := m) (n := n) hm hn)
  residue {n f t} hr := by
    cases n with
    | zero => exact hres hr
    | succ n => exact hlater.residue (n := n) hr

/-- A source that declines every request is fresh. -/
theorem of_declines (h : ∀ n, answer n s = ⟨none, none, []⟩) : Fresh free s := by
  constructor <;> intros <;> simp_all

end Fresh

end FrameSource

/-! ## A request

A machine asks its source, then memory gets what the answer leaves in the frame, and the records of
the answer are logged.
-/

namespace Machine

variable {η α : Type} {m : Machine η α}

theorem memory_foldl_log (m : Machine η α) (rs : List Record) :
    (rs.foldl log m).memory = m.memory := by
  induction rs generalizing m with
  | nil => rfl
  | cons r rs ih => exact ih (m.log r)

theorem mmu_foldl_log (m : Machine η α) (rs : List Record) :
    (rs.foldl log m).mmu = m.mmu := by
  induction rs generalizing m with
  | nil => rfl
  | cons r rs ih => exact ih (m.log r)

theorem frames_foldl_log (m : Machine η α) (rs : List Record) :
    (rs.foldl log m).frames = m.frames := by
  induction rs generalizing m with
  | nil => rfl
  | cons r rs ih => exact ih (m.log r)

@[simp] theorem mmu_settle (m : Machine η α) (r : Option (Frame × Table)) :
    (m.settle r).mmu = m.mmu := by
  cases r <;> rfl

@[simp] theorem frames_settle (m : Machine η α) (r : Option (Frame × Table)) :
    (m.settle r).frames = m.frames := by
  cases r <;> rfl

variable [FrameSource α]

theorem answer_request (m : Machine η α) :
    m.request.1 = (FrameSource.request m.frames).1.frame? := rfl

@[simp] theorem mmu_request (m : Machine η α) : m.request.2.mmu = m.mmu := by
  simp [request, mmu_foldl_log]

@[simp] theorem frames_request (m : Machine η α) :
    m.request.2.frames = (FrameSource.request m.frames).2 := by
  simp [request, frames_foldl_log]

theorem memory_request (m : Machine η α) :
    m.request.2.memory =
      match (FrameSource.request m.frames).1.residue with
      | none => m.memory
      | some (f, t) => m.memory.setTable f t := by
  simp only [request, memory_foldl_log]
  rcases (FrameSource.request m.frames).1.residue with _ | ⟨f, t⟩ <;> rfl

/-- A fresh source that declines leaves memory alone. -/
theorem memory_request_of_none {free : Frame → Prop} (hf : FrameSource.Fresh free m.frames)
    (h : m.request.1 = none) : m.request.2.memory = m.memory := by
  rw [memory_request]
  cases hr : (FrameSource.request m.frames).1.residue with
  | none => rfl
  | some p =>
    -- Only a frame that is handed out may be written to, and none is.
    have hgrant := hf.residue (n := 0) hr
    rw [answer_request] at h
    simp [FrameSource.answer, h] at hgrant

/-- A fresh source that hands out a frame writes to no other. -/
theorem memory_request_of_some {free : Frame → Prop} (hf : FrameSource.Fresh free m.frames)
    {next : Frame} (h : m.request.1 = some next) :
    m.request.2.memory = m.memory ∨ ∃ t, m.request.2.memory = m.memory.setTable next t := by
  rw [memory_request]
  cases hr : (FrameSource.request m.frames).1.residue with
  | none => exact Or.inl rfl
  | some p =>
    right
    have hgrant := hf.residue (n := 0) hr
    rw [answer_request] at h
    -- What is written to is the frame that was handed out.
    obtain rfl : next = p.1 := by simpa [FrameSource.answer, h] using hgrant
    exact ⟨p.2, rfl⟩

end Machine

end Paging
