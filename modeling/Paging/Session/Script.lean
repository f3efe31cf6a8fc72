import Paging.Machine.FrameSource

/-!
# A scripted frame source

A session sees a span of 256 consecutive frames, and decides beforehand which words its frame
source offers: those of a script, or else the frames of the span after the first one, in order. A
limit on the number of offers makes the source run dry, and an offered frame can be filled with
leftovers.
-/

namespace Paging

/-! ## Spans of memory -/

/-- A run of 256 frames. Inside it a frame is known by its number. -/
structure Span where
  first : Frame
deriving DecidableEq

namespace Span

/-- The number of frames in a span. -/
def size : Nat := 256

/-- The span whose first frame starts at an address. -/
def ofBase (base : Word) : Span := ⟨.containing ⟨base⟩⟩

/-- The frame with a number. -/
def frame (s : Span) (n : Nat) : Frame :=
  .containing ⟨s.first.base.word + (BitVec.ofNat 64 n <<< 12)⟩

/-- The number of a frame, if it lies in the span. -/
def number? (s : Span) (f : Frame) : Option Nat :=
  let n := ((f.base.word - s.first.base.word) >>> 12).toNat
  if n < size then some n else none

/-- Whether a frame lies in the span. -/
def contains (s : Span) (f : Frame) : Bool := (s.number? f).isSome

/-- The entries of a span that differ between two memories: the number of the frame, the slot and
the entry in the second memory. Only the given frames are looked at. -/
def changes (s : Span) (frames : List Frame) (before after : Memory) :
    List (Nat × Nat × Entry) :=
  let numbers := frames.filterMap s.number?
  ((List.range size).filter fun n => numbers.contains n).flatMap fun n =>
    ((before.table (s.frame n)).changes (after.table (s.frame n))).map fun c => (n, c.1, c.2)

end Span

/-! ## Scripts -/

/-- A scripted source of words. -/
structure Script where
  span : Span
  /-- How many words other than zero may be offered in all. -/
  limit : Option Nat
  /-- How many words other than zero have been offered. -/
  offered : Nat
  /-- The words to come, if they are scripted. -/
  words : Option (List Word)
  /-- The number of the next frame of the span. -/
  next : Nat
  /-- Whether an offered frame of the span is filled with leftovers. -/
  leftovers : Bool
  /-- The words that were offered, newest first. -/
  drawn : List Word

namespace Script

/-- The table of a frame that is full of leftovers. -/
def leftover : Table := .replicate ⟨0xA5A5A5A5A5A5A5A5⟩

/-- Whether the limit has been reached. -/
def isDry (s : Script) : Bool :=
  match s.limit with
  | none => false
  | some n => n ≤ s.offered

/-- The next word and the source without it. -/
def take (s : Script) : Word × Script :=
  -- A dry source keeps what is left of its script for later.
  if s.isDry then (0, s)
  else match s.words with
    | some [] => (0, s)
    | some (w :: rest) => (w, { s with words := some rest })
    | none =>
      if s.next < Span.size then ((s.span.frame s.next).base.word, { s with next := s.next + 1 })
      else (0, s)

/-- What an offer of a word leaves in memory. -/
def residue (s : Script) (w : Word) : Option (Frame × Table) :=
  if s.leftovers then
    match Page.ofAddr? ⟨w⟩ with
    | some frame => if s.span.contains frame then some (frame, leftover) else none
    | none => none
  else none

/-- Offers the next word. -/
def draw (s : Script) : Offer × Script :=
  let (w, s') := s.take
  (⟨w, s.residue w⟩,
    { s' with
      -- Zero stands for no frame, and does not count towards the limit.
      offered := if w = 0 then s'.offered else s'.offered + 1
      drawn := w :: s'.drawn })

/-- The source with more words at the end of its script. -/
def extend (s : Script) (more : List Word) : Script :=
  { s with words := some (s.words.getD [] ++ more) }

instance : WordSource Script := ⟨draw⟩

end Script

/-- The frame source of a session: a script whose offers are screened or taken as they are. -/
structure Supply where
  script : Script
  isScreened : Bool

instance : FrameSource Supply where
  request s :=
    let (offer, script) := s.script.draw
    (if s.isScreened then offer.screened else offer.unscreened, { s with script })

end Paging
