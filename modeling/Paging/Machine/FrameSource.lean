import Paging.Machine.Record
import Paging.Table.Memory

/-!
# Where frames for new tables come from

A `FrameSource` is asked for one frame at a time and may decline. It may leave anything in
memory while it answers, since a new table is cleared after it has been linked.

A source that deals in plain words is *screened*: only a word that is the base of an encodable
frame, and is not zero, becomes a frame.
-/

namespace Paging

/-- The answer of a frame source. -/
structure Grant where
  /-- The frame, unless the source declined. -/
  frame? : Option Frame
  /-- A frame whose contents the source replaced while it answered. -/
  residue : Option (Frame × Table)
  /-- What the source reported. -/
  records : List Record

/-- A source of frames for new tables. -/
class FrameSource (α : Type) where
  request : α → Grant × α

/-! ## Sources of words -/

/-- A word offered as the address of a frame. -/
structure Offer where
  word : Word
  /-- A frame whose contents were replaced when the offer was made. -/
  residue : Option (Frame × Table)

/-- A source of words that stand for frames; zero says that there are none left. -/
class WordSource (β : Type) where
  draw : β → Offer × β

namespace Offer

/-- The address that is offered. -/
def address (o : Offer) : PhysAddr := ⟨o.word⟩

/-- Accepts the base of an encodable frame other than frame zero, and reports any other word but
zero. -/
def screened (o : Offer) : Grant :=
  if o.address.isZero then ⟨none, o.residue, []⟩
  else match Page.ofAddr? o.address with
    | none => ⟨none, o.residue, [.unaligned o.address]⟩
    | some frame =>
      if frame.isEncodable then ⟨some frame, o.residue, []⟩
      else ⟨none, o.residue, [.outOfRange o.address]⟩

/-- Accepts the frame around any address but zero. -/
def unscreened (o : Offer) : Grant :=
  if o.address.isZero then ⟨none, o.residue, []⟩
  else ⟨some (.containing o.address), o.residue, []⟩

end Offer

/-- A source of words whose offers are screened. -/
structure Screened (β : Type) where
  source : β

instance {β : Type} [WordSource β] : FrameSource (Screened β) where
  request s :=
    let (offer, source) := WordSource.draw s.source
    (offer.screened, ⟨source⟩)

end Paging
