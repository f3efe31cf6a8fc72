import Paging.Proofs.Footprint

/-!
# What a frame source has answered

A machine asks its frame source one request after the other, so what it has asked for is a first
part of all that the source answers. How many requests that were is enough to know what remains of
the source, and a fresh source has handed out every frame once.
-/

namespace Paging

/-! ## Answers -/

namespace FrameSource

variable {α : Type} [FrameSource α]

/-- The answers of a source to the next `n` requests. -/
def answers : Nat → α → List (Option Frame)
  | 0, _ => []
  | n + 1, s => (request s).1.frame? :: answers n (request s).2

/-- What remains of a source after `n` requests. -/
def remaining : Nat → α → α
  | 0, s => s
  | n + 1, s => remaining n (request s).2

@[simp] theorem length_answers (n : Nat) (s : α) : (answers n s).length = n := by
  induction n generalizing s with
  | zero => rfl
  | succ n ih => rw [answers, List.length_cons, ih]

theorem answers_add (m n : Nat) (s : α) :
    answers (m + n) s = answers m s ++ answers n (remaining m s) := by
  induction m generalizing s with
  | zero => rw [Nat.zero_add, answers, List.nil_append, remaining]
  | succ m ih => rw [Nat.succ_add, answers, ih, answers, List.cons_append, remaining]

theorem remaining_add (m n : Nat) (s : α) :
    remaining (m + n) s = remaining n (remaining m s) := by
  induction m generalizing s with
  | zero => rw [Nat.zero_add, remaining]
  | succ m ih => rw [Nat.succ_add, remaining, ih, remaining]

/-- The answers to fewer requests come first. -/
theorem answers_isPrefix {m n : Nat} (h : m ≤ n) (s : α) : answers m s <+: answers n s := by
  obtain ⟨k, rfl⟩ := Nat.exists_eq_add_of_le h
  rw [answers_add]
  exact List.prefix_append _ _

/-- A fresh source hands out free frames, each of them once. -/
theorem Fresh.handed {free : Frame → Prop} {s : α} (h : Fresh free s) (n : Nat) :
    ((answers n s).filterMap id).Nodup ∧ ∀ f ∈ (answers n s).filterMap id, free f := by
  -- What is handed out first is no longer free for the requests that follow.
  induction n generalizing s free with
  | zero => simp [answers]
  | succ n ih =>
    obtain ⟨hnodup, hfree⟩ := ih h.next
    cases hframe : (request s).1.frame? with
    | none =>
      rw [answers, hframe, List.filterMap_cons_none rfl]
      exact ⟨hnodup, fun f hf => (hfree f hf).1⟩
    | some next =>
      rw [answers, hframe, List.filterMap_cons_some (f := id) (b := next) rfl, List.nodup_cons]
      -- `hfree` says of the later frames that none of them is `next`.
      refine ⟨⟨fun hmem => (hfree next hmem).2 hframe, hnodup⟩, fun f hf => ?_⟩
      rcases List.mem_cons.mp hf with rfl | hf
      · exact h.isFree (n := 0) hframe
      · exact (hfree f hf).1

end FrameSource

/-! ## Requests of a machine -/

namespace Machine

variable {η α : Type} [FrameSource α]

/-- From `m` to `m'` the frame source was asked `n` times. -/
structure Asks (n : Nat) (m m' : Machine η α) : Prop where
  requests : m'.requests = m.requests ++ FrameSource.answers n m.frames
  frames : m'.frames = FrameSource.remaining n m.frames

omit [FrameSource α] in
/-- Whether a request was declined on the way from `m` to `m'`. -/
def DeclinedSince (m m' : Machine η α) : Prop := none ∈ m'.requests.drop m.requests.length

namespace Asks

variable {m m₁ m' : Machine η α} {k n : Nat}

/-- Nothing was asked. -/
theorem none (hrequests : m'.requests = m.requests) (hframes : m'.frames = m.frames) :
    Asks 0 m m' :=
  ⟨by rw [hrequests, FrameSource.answers, List.append_nil], hframes⟩

theorem refl (m : Machine η α) : Asks 0 m m := .none rfl rfl

theorem log (m : Machine η α) (r : Record) : Asks 0 m (m.log r) := .none (by simp) rfl

theorem trans (h : Asks k m m₁) (h' : Asks n m₁ m') : Asks (k + n) m m' where
  requests := by
    rw [h'.requests, h.requests, h.frames, FrameSource.answers_add, List.append_assoc]
  frames := by
    rw [h'.frames, h.frames, FrameSource.remaining_add]

/-- What follows a request and is no request itself leaves it at one. -/
theorem request (m : Machine η α) (hrequests : m'.requests = m.request.2.requests)
    (hframes : m'.frames = m.request.2.frames) : Asks 1 m m' where
  requests := by
    rw [hrequests, requests_request, answer_request]
    rfl
  frames := by
    rw [hframes, frames_request]
    rfl

/-- The number of requests follows from the answers. -/
theorem answers_eq (h : Asks n m m') {answers : List (Option Frame)}
    (hrequests : m'.requests = m.requests ++ answers) :
    FrameSource.answers n m.frames = answers ∧ n = answers.length := by
  -- Both lists continue the same earlier answers.
  have heq := List.append_cancel_left (h.requests.symm.trans hrequests)
  refine ⟨heq, ?_⟩
  rw [← heq, FrameSource.length_answers]

theorem declinedSince_iff (h : Asks n m m') :
    m.DeclinedSince m' ↔ Option.none ∈ FrameSource.answers n m.frames := by
  rw [DeclinedSince, h.requests, List.drop_left]

/-- A source that stays clear of the tables hands out no frame for the second time. -/
theorem nodup_handedOut (h : Asks n m m') {root : Frame} (ho : m.Orderly root)
    (ha : m.Accounted root) (hnodup : m.handedOut.Nodup) : m'.handedOut.Nodup := by
  obtain ⟨hnew, hfree⟩ := ho.fresh.handed n
  rw [handedOut, h.requests, List.filterMap_append]
  refine List.nodup_append.mpr ⟨hnodup, hnew, fun f hold g hmem heq => ?_⟩
  -- What was handed out before is a table by now, and no table is handed out.
  subst heq
  apply hfree f hmem
  exact ((ha f).mp (mem_handedOut_iff.mp hold)).2

end Asks

end Machine

/-! ## Requests of an operation -/

variable {η α : Type} [FrameSource α] {h : Hierarchy} {m m' : Machine η α}

theorem Grows.asks (hg : Grows h m m') : ∃ n, m.Asks n m' := by
  cases hg with
  | log r => exact ⟨0, .log m r⟩
  | decline hnone => exact ⟨1, .request m rfl rfl⟩
  | linkSelf hempty => exact ⟨0, .none (by simp) rfl⟩
  | link va p i table next hp ht hvacant hnext =>
    -- Writing, invalidating and clearing ask for nothing.
    exact ⟨1, .request m (by simp only [Machine.requests_clear, Hierarchy.requests_dropped,
      Machine.requests_write]) (by simp)⟩

theorem GrowsTo.asks (hg : GrowsTo h m m') : ∃ n, m.Asks n m' := by
  induction hg with
  | refl => exact ⟨0, .refl m⟩
  | tail _ hstep ih =>
    obtain ⟨k, hk⟩ := ih
    obtain ⟨n, hn⟩ := hstep.asks
    exact ⟨k + n, hk.trans hn⟩

/-- The leaf is replaced after everything has been asked for. -/
theorem SetsLeaf.asks {ix : Indices} {leaf : Entry} (hs : SetsLeaf h ix leaf m m') :
    ∃ n, m.Asks n m' := by
  cases hs with
  | intro m₁ table r hg ht =>
    obtain ⟨n, hn⟩ := hg.asks
    exact ⟨n, hn.trans (.none (by simp) (by simp))⟩

theorem Changes.asks (hc : Changes h m m') : ∃ n, m.Asks n m' := by
  cases hc with
  | grows hg => exact hg.asks
  | setsLeaf ix leaf hix hs => exact hs.asks

/-! ## Requests of an address space -/

namespace Machine

variable [Mmu η] (m : Machine η α) (root : Frame)

omit [FrameSource α] in
@[simp] theorem requests_loadRoot : (m.loadRoot root).2.requests = m.requests := by
  unfold loadRoot
  split <;> simp [requests]

omit [FrameSource α] in
@[simp] theorem frames_loadRoot : (m.loadRoot root).2.frames = m.frames :=
  (m.agrees_loadRoot root).frames

end Machine

namespace AddressSpace

variable [Mmu η] {s : AddressSpace η α}

omit [FrameSource α] in
theorem requests_load (s : AddressSpace η α) : s.load.2.machine.requests = s.machine.requests := by
  rw [← Machine.requests_loadRoot s.machine s.root]
  unfold load
  split <;> rename_i hload <;> simp [hload]

omit [FrameSource α] in
theorem frames_load (s : AddressSpace η α) : s.load.2.machine.frames = s.machine.frames := by
  rw [← Machine.frames_loadRoot s.machine s.root]
  unfold load
  split <;> rename_i hload <;> simp [hload]

omit [FrameSource α] in
@[simp] theorem memory_load (s : AddressSpace η α) :
    s.load.2.machine.memory = s.machine.memory := by
  rw [← (s.machine.agrees_loadRoot s.root).memory]
  unfold load
  split <;> rename_i hload <;> simp [hload]

omit [FrameSource α] in
@[simp] theorem root_load (s : AddressSpace η α) : s.load.2.root = s.root := by
  unfold load
  split <;> rfl

namespace Sound

variable [WalkingMmu η] (hs : s.Sound)

include hs

theorem perform_asks (a : Action) : ∃ n, s.machine.Asks n (s.perform a).2.machine := by
  cases a with
  | map va pa flags force =>
    obtain ⟨m, hrun, hc⟩ := perform_map_onto hs.usable hs.isEncodable hs.orderly va pa flags force
    rw [hrun]
    exact hc.asks
  | identityMap pa flags force =>
    obtain ⟨m, hrun, hc⟩ :=
      perform_map_onto hs.usable hs.isEncodable hs.orderly ⟨pa.word⟩ pa flags force
    rw [perform_identityMap, hrun]
    exact hc.asks
  | unmap va =>
    obtain ⟨m, hrun, hc⟩ := perform_unmap_onto hs.usable va
    rw [hrun]
    exact hc.asks
  | translate va => exact ⟨0, .refl _⟩
  | activate =>
    obtain ⟨m, hg, hcases⟩ := perform_activate hs.usable hs.isEncodable
    obtain ⟨n, hn⟩ := hg.asks
    rcases hcases with ⟨cause, hrun⟩ | ⟨-, hrun⟩
    · rw [hrun]
      exact ⟨n, hn⟩
    · -- The hardware is told the root, and the frame source nothing.
      rw [hrun]
      exact ⟨n, hn.trans (.none (requests_load (s.onto m)) (frames_load (s.onto m)))⟩
  | setAccess access => exact ⟨0, .refl _⟩

end Sound

end AddressSpace

end Paging
