import Paging.AddressSpace.Action
import Paging.Hardware.Mmu
import Paging.Proofs.FreshFrames
import Paging.Session.Script

/-!
# Scripted frames

A screened script hands out the frames whose bases it lists, in order, and declines where it lists
zero, when its limit is reached and after its end. It is fresh if the bases that it lists are those
of different free frames and it leaves nothing in them. With such a script there is a small machine
on which everything that is said of fresh sources can be tried.
-/

namespace Paging

namespace Script

variable {s : Script} {w : Word} {rest : List Word}

/-- A script that has come to its end or to its limit offers zero and stays there. -/
theorem draw_of_spent (hspent : s.isDry = true ∨ s.words = some []) (hclean : s.leftovers = false) :
    s.draw = (⟨0, none⟩, { s with drawn := 0 :: s.drawn }) := by
  have htake : s.take = (0, s) := by
    unfold take
    split
    · rfl
    · rename_i hdry
      -- Below its limit a spent script is one that is empty.
      rw [hspent.resolve_left hdry]
  simp [draw, htake, residue, hclean]

theorem draw_of_cons (hdry : s.isDry = false) (hwords : s.words = some (w :: rest))
    (hclean : s.leftovers = false) :
    s.draw = (⟨w, none⟩, { s with
      words := some rest
      offered := if w = 0 then s.offered else s.offered + 1
      drawn := w :: s.drawn }) := by
  have htake : s.take = (w, { s with words := some rest }) := by
    simp [take, hdry, hwords]
  simp [draw, htake, residue, hclean]

end Script

namespace Screened

theorem request_eq (s : Script) :
    FrameSource.request (⟨s⟩ : Screened Script) = (s.draw.1.screened, ⟨s.draw.2⟩) := rfl

/-- Once it is spent a script declines for ever. -/
theorem answer_of_spent {s : Script} (hspent : s.isDry = true ∨ s.words = some [])
    (hclean : s.leftovers = false) (n : Nat) :
    FrameSource.answer n (⟨s⟩ : Screened Script) = ⟨none, none, []⟩ := by
  have hdraw := Script.draw_of_spent hspent hclean
  induction n generalizing s with
  | zero =>
    rw [FrameSource.answer, request_eq, hdraw]
    rfl
  | succ n ih =>
    rw [FrameSource.answer, request_eq, hdraw]
    have hspent' : ({ s with drawn := 0 :: s.drawn } : Script).isDry = true ∨ s.words = some [] :=
      hspent
    exact ih hspent' hclean (Script.draw_of_spent hspent' hclean)

/-- A word other than zero is offered as the frame that it is the base of. -/
theorem screened_of_base {f : Frame} (hf : f.isEncodable) (hne : f.base.word ≠ 0) :
    (⟨f.base.word, none⟩ : Offer).screened = ⟨some f, none, []⟩ := by
  have hzero : (⟨f.base.word⟩ : PhysAddr).isZero = false := by
    rw [Address.isZero, beq_eq_false_iff_ne]
    exact hne
  have hpage : (Page.ofAddr? ⟨f.base.word⟩ : Option Frame) = some f := by
    unfold Page.ofAddr?
    rw [dif_pos f.isAligned_base]
  simp only [Offer.screened, Offer.address, hzero, Bool.false_eq_true, if_false, hpage, hf, if_true]

section Next

variable {s : Script} {rest : List Word} {free : Frame → Prop} (hdry : s.isDry = false)
  (hclean : s.leftovers = false)

include hdry hclean

/-- Zero declines, and nothing has been used up. -/
theorem fresh_of_zero (hwords : s.words = some (0 :: rest))
    (hlater : FrameSource.Fresh free (⟨s.draw.2⟩ : Screened Script)) :
    FrameSource.Fresh free (⟨s⟩ : Screened Script) := by
  have hrequest : (FrameSource.request (⟨s⟩ : Screened Script)).1 = ⟨none, none, []⟩ := by
    rw [request_eq, Script.draw_of_cons hdry hwords hclean]
    rfl
  apply FrameSource.Fresh.of_next
  · simp [hrequest]
  · simp [hrequest]
  · rw [hrequest]
    -- No frame was handed out, so none is less free.
    exact hlater.mono fun f hf => ⟨hf, by simp⟩

/-- The base of a free frame hands the frame out, and it is used up. -/
theorem fresh_of_base {f : Frame} (hf : f.isEncodable) (hne : f.base.word ≠ 0) (hfree : free f)
    (hwords : s.words = some (f.base.word :: rest))
    (hlater : FrameSource.Fresh (fun g => free g ∧ g ≠ f) (⟨s.draw.2⟩ : Screened Script)) :
    FrameSource.Fresh free (⟨s⟩ : Screened Script) := by
  have hrequest : (FrameSource.request (⟨s⟩ : Screened Script)).1 = ⟨some f, none, []⟩ := by
    rw [request_eq, Script.draw_of_cons hdry hwords hclean]
    exact screened_of_base hf hne
  apply FrameSource.Fresh.of_next
  · intro g hg
    rw [hrequest] at hg
    obtain rfl := Option.some.inj hg
    exact ⟨hf, hfree⟩
  · simp [hrequest]
  · rw [hrequest]
    apply hlater.mono
    intro g hg
    refine ⟨hg.1, fun hsame => ?_⟩
    exact hg.2 (Option.some.inj hsame).symm

end Next

/-- A script of the bases of different free frames, and of zeros, is a fresh source. -/
theorem fresh_of_words {s : Script} {words : List Word} {free : Frame → Prop}
    (hwords : s.words = some words) (hclean : s.leftovers = false)
    (hframes : ∀ w ∈ words, w ≠ 0 → ∃ f : Frame, f.base.word = w ∧ f.isEncodable = true ∧ free f)
    (honce : (words.filter (· ≠ 0)).Nodup) : FrameSource.Fresh free (⟨s⟩ : Screened Script) := by
  -- What is free shrinks with every frame that is handed out.
  induction words generalizing s free with
  | nil => exact .of_declines (answer_of_spent (Or.inr hwords) hclean)
  | cons w rest ih =>
    cases hdry : s.isDry with
    | true => exact .of_declines (answer_of_spent (Or.inl hdry) hclean)
    | false =>
      have hdraw := Script.draw_of_cons hdry hwords hclean
      have hwords' : s.draw.2.words = some rest := by rw [hdraw]
      have hclean' : s.draw.2.leftovers = false := by
        rw [hdraw]
        exact hclean
      by_cases hw : w = 0
      · subst hw
        apply fresh_of_zero hdry hclean hwords
        apply ih hwords' hclean'
        · intro w' hw'
          exact hframes w' (List.mem_cons_of_mem 0 hw')
        · simpa using honce
      · obtain ⟨f, rfl, hf, hfree⟩ := hframes w List.mem_cons_self hw
        rw [List.filter_cons_of_pos (by simpa using hw), List.nodup_cons] at honce
        apply fresh_of_base hdry hclean hf hw hfree hwords
        apply ih hwords' hclean' _ honce.2
        intro w' hw' hne
        obtain ⟨g, hbase, hg, hgfree⟩ := hframes w' (List.mem_cons_of_mem _ hw') hne
        refine ⟨g, hbase, hg, hgfree, ?_⟩
        -- The words that are left are not the one that was used.
        intro hsame
        apply honce.1
        rw [← hsame, hbase]
        exact List.mem_filter.mpr ⟨hw', by simpa using hne⟩

/-- For a given script it can be checked that it is fresh. -/
theorem fresh_of_check {s : Script} {words : List Word} {free : Frame → Prop} [DecidablePred free]
    (hwords : s.words = some words) (hclean : s.leftovers = false)
    -- A quantifier over all words would be tried on each of them.
    (hcheck : words.all fun w => decide ((Page.containing ⟨w⟩ : Frame).base.word = w ∧
      (Page.containing ⟨w⟩ : Frame).isEncodable = true ∧ free (Page.containing ⟨w⟩)))
    (honce : (words.filter (· ≠ 0)).Nodup) : FrameSource.Fresh free (⟨s⟩ : Screened Script) := by
  apply fresh_of_words hwords hclean _ honce
  intro w hw _
  exact ⟨_, of_decide_eq_true (List.all_eq_true.mp hcheck w hw)⟩

end Screened

/-! ## A small machine -/

namespace Specimen

def root : Frame := .containing ⟨0x1000⟩

/-- An empty root in memory that is full of leftovers. -/
def memory : Memory := .ofTables fun f => if f = root then .zero else Script.leftover

/-- The bases of six frames, and one refusal after the second of them. -/
def words : List Word := [0x2000, 0x3000, 0, 0x4000, 0x5000, 0x6000, 0x7000]

def script : Script where
  span := .ofBase 0x1000
  limit := none
  offered := 0
  words := some words
  next := 1
  leftovers := false
  drawn := []

def source : Screened Script := ⟨script⟩

def hardware : Hardware.Simulated := ⟨none, fun _ => true⟩

abbrev start : AddressSpace Hardware.Simulated (Screened Script) :=
  .create root .identity hardware source memory

theorem isEncodable_root : root.isEncodable := by decide

theorem table_root : memory.table root = .zero := by
  rw [memory, Memory.table_ofTables, if_pos rfl]

theorem fresh_source : FrameSource.Fresh (· ≠ root) source :=
  Screened.fresh_of_check (show script.words = some words from rfl) rfl (by decide +kernel)
    (by decide +kernel)

end Specimen

end Paging
