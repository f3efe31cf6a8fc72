import Paging.Proofs.ProcessorWalk

/-!
# What goes into an entry comes out of it

An entry is described three times: the layout divides its bits into named fields, the address mask
says which of them hold the frame, and the vocabulary gives each flag its position. The three agree.
So an entry that was made from a frame and named flags gives both back, and its other fields are
zero. The other way round, what is read out of any entry makes the same entry again but for the
*spare* bits, which belong neither to the frame nor to a flag. The frame's address is made of the
bits of the mask and of no others.
-/

namespace Paging

/-! ## Sets of named flags -/

namespace Flags

variable {w : Nat} {v : Vocabulary w} (a : Flags v)

theorem contains_single (i : Fin w) : a.contains (.single i) = a.has i := by
  have hself : (BitVec.twoPow w i).getLsbD i = true := by simp
  simp only [contains, single, has, BitVec.and_twoPow]
  cases a.bits.getLsbD i with
  | true => simp
  | false =>
    -- A single flag is not the empty set, so a set that lacks it does not contain it.
    simp only [Bool.false_eq_true, if_false, beq_eq_false_iff_ne]
    intro hzero
    rw [← hzero] at hself
    simp at hself

/-- A flag's name is listed if its bit is set, provided that no other flag has this name. -/
theorem mem_names_iff {name : String} {i : Fin w} (hv : (v.names.map (·.1)).Nodup)
    (hi : (name, i) ∈ v.names) : name ∈ a.names ↔ a.has i = true := by
  simp only [names, List.mem_map, List.mem_filter]
  constructor
  · rintro ⟨n, ⟨hn, hhas⟩, hname⟩
    -- Two flags with one name are the same flag.
    obtain rfl : n = (name, i) := List.inj_on_of_nodup_map hv hn hi hname
    exact hhas
  · intro hhas
    exact ⟨(name, i), ⟨hi, hhas⟩, rfl⟩

/-- A set of named flags has no bits but named ones. -/
theorem getLsbD_and_known {a : Flags v} (ha : a.unnamed = 0) (i : Nat) :
    (a.bits.getLsbD i && v.known.getLsbD i) = a.bits.getLsbD i := by
  have hbit := congrArg (·.getLsbD i) ha
  simp only [unnamed, BitVec.getLsbD_and, BitVec.getLsbD_not] at hbit
  by_cases hi : i < w
  · simp [hi] at hbit
    grind
  · simp [BitVec.getLsbD_of_ge a.bits i (by omega)]

end Flags

theorem EntryFlags.getLsbD_known (i : Nat) :
    entryVocabulary.known.getLsbD i = decide (i < 9 ∨ i = 63) :=
  Word.getLsbD_eq_decide (P := fun j => j < 9 ∨ j = 63) (by decide) (by omega) i

/-- Named flags are in the nine low bits and in the topmost one. -/
theorem EntryFlags.getLsbD_of_unnamed {flags : EntryFlags} (hflags : flags.unnamed = 0) {i : Nat}
    (hlow : 9 ≤ i) (hhigh : i ≠ 63) : flags.bits.getLsbD i = false := by
  have hout : ¬ (i < 9 ∨ i = 63) := by omega
  rw [← Flags.getLsbD_and_known hflags i, getLsbD_known, decide_eq_false hout, Bool.and_false]

namespace Entry

/-! ## Fields by name -/

/-- The value of the field with the given name. -/
def value? (e : Entry) (name : String) : Option Nat :=
  (layout.field? name).map fun f => (f.get e.bits).toNat

/-- The fields that are truth values, each with the flag that it shows. -/
def flagFields : List (String × String) :=
  [("present", "PRESENT"), ("writable", "WRITABLE"), ("user_access", "USER"),
    ("write_through", "WRITE_THROUGH"), ("cache_disabled", "CACHE_DISABLE"),
    ("accessed", "ACCESSED"), ("dirty", "DIRTY"), ("huge_page", "HUGE_PAGE"),
    ("global", "GLOBAL"), ("no_execute", "NO_EXECUTE")]

/-- The numbers that are left to the operating system. -/
def spareFields : List String := ["os_available_low", "os_available_high", "protection_key"]

/-- No field of the layout is left out, and no flag. -/
theorem fields_complete :
    (∀ n ∈ layout.fields, n.name ∈ flagFields.map (·.1) ∨ n.name ∈ spareFields ∨
      n.name = "frame_bits_51_12") ∧
    ∀ n ∈ entryVocabulary.names, n.1 ∈ flagFields.map (·.2) := by
  decide

/-- The bits that belong neither to the frame nor to a flag. -/
def IsSpareBit (i : Nat) : Prop := 9 ≤ i ∧ i < 12 ∨ 52 ≤ i ∧ i < 63

instance (i : Nat) : Decidable (IsSpareBit i) := inferInstanceAs (Decidable (_ ∨ _))

/-- The layout and the vocabulary have the flag of a field at the same position. -/
theorem exists_flag_of_mem : ∀ p ∈ flagFields, ∃ n ∈ entryVocabulary.names, n.1 = p.2 ∧
    layout.field? p.1 = some ⟨n.2, 1⟩ ∧ (n.2.val < 9 ∨ n.2.val = 63) := by
  decide

theorem exists_spare_of_mem : ∀ name ∈ spareFields, ∃ n ∈ layout.fields,
    layout.field? name = some n.field ∧ ∀ i < 64, n.field.Covers i → IsSpareBit i := by
  decide

theorem getLsbD_flags (e : Entry) (i : Nat) :
    e.flags.bits.getLsbD i = (e.bits.getLsbD i && decide (i < 9 ∨ i = 63)) := by
  simp only [flags, Flags.truncate, BitVec.getLsbD_and, BitVec.getLsbD_not, getLsbD_addressMask,
    EntryFlags.getLsbD_known]
  grind

/-- The fields that are truth values show the flags of the entry. -/
theorem value?_of_mem_flagFields (e : Entry) {name flag : String}
    (h : (name, flag) ∈ flagFields) :
    e.value? name = some (if flag ∈ e.flags.names then 1 else 0) := by
  -- The tables agree on the position, so all flags are treated at once.
  obtain ⟨⟨flag, i⟩, hi, rfl, hfield, hposition⟩ := exists_flag_of_mem _ h
  have hmem : flag ∈ e.flags.names ↔ e.bits.getLsbD i = true := by
    rw [e.flags.mem_names_iff (by decide) hi, Flags.has, getLsbD_flags,
      decide_eq_true hposition, Bool.and_true]
  rw [value?, hfield, Option.map_some, BitField.toNat_get_bit]
  simp only [hmem]

/-- So do the bits that are looked at one by one. -/
theorem eq_contains_flags (e : Entry) :
    e.present = e.flags.contains EntryFlags.present ∧
      e.writable = e.flags.contains EntryFlags.writable ∧
      e.userAccess = e.flags.contains EntryFlags.user ∧
      e.huge = e.flags.contains EntryFlags.huge ∧
      e.noExecute = e.flags.contains EntryFlags.noExecute := by
  simp only [EntryFlags.present, EntryFlags.writable, EntryFlags.user, EntryFlags.huge,
    EntryFlags.noExecute, Flags.contains_single, Flags.has, getLsbD_flags, present, writable,
    userAccess, huge, noExecute]
  simp

theorem value?_of_mem_spareFields {e : Entry} (he : ∀ i, IsSpareBit i → e.bits.getLsbD i = false)
    {name : String} (hname : name ∈ spareFields) : e.value? name = some 0 := by
  obtain ⟨n, -, hfield, hspare⟩ := exists_spare_of_mem name hname
  have hzero : n.field.get e.bits = 0 :=
    BitField.get_eq_zero fun i hi hcovers => he i (hspare i hi hcovers)
  rw [value?, hfield, Option.map_some, hzero]
  rfl

/-! ## There and back -/

section Encode

variable {f : Frame} {flags : EntryFlags}

theorem flags_encode (hflags : flags.unnamed = 0) : (encode f flags).flags = flags := by
  have hbits : (encode f flags).flags.bits = flags.bits := by
    apply BitVec.eq_of_getLsbD_eq
    intro i _
    -- The frame has no bit at the position of a flag, and the flags have no other bits.
    rw [getLsbD_flags, getLsbD_encode, ← Flags.getLsbD_and_known hflags i,
      EntryFlags.getLsbD_known]
    grind
  exact congrArg Flags.mk hbits

theorem getLsbD_encode_of_isSpareBit (hflags : flags.unnamed = 0) {i : Nat} (hi : IsSpareBit i) :
    (encode f flags).bits.getLsbD i = false := by
  have hout : ¬ (12 ≤ i ∧ i < 52) := by
    simp only [IsSpareBit] at hi
    omega
  rw [getLsbD_encode, EntryFlags.getLsbD_of_unnamed hflags (by grind [IsSpareBit])
    (by grind [IsSpareBit]), decide_eq_false hout, Bool.and_false, Bool.false_or]

end Encode

/-- What is read out of an entry makes the entry without its spare bits. -/
theorem getLsbD_encode_self (e : Entry) (i : Nat) :
    (encode e.frame e.flags).bits.getLsbD i = (e.bits.getLsbD i && !decide (IsSpareBit i)) := by
  by_cases hi : i < 64
  · have hframe := getLsbD_address e i
    rw [address] at hframe
    rw [getLsbD_encode, getLsbD_flags, hframe]
    -- A bit of the word belongs to the frame, belongs to a flag, or is spare.
    simp only [IsSpareBit]
    grind
  · rw [BitVec.getLsbD_of_ge _ i (by omega), BitVec.getLsbD_of_ge _ i (by omega), Bool.false_and]

theorem encode_self_eq_iff (e : Entry) :
    encode e.frame e.flags = e ↔ ∀ i, IsSpareBit i → e.bits.getLsbD i = false := by
  constructor
  · intro h i hi
    have hbit := getLsbD_encode_self e i
    rwa [h, decide_eq_true hi, Bool.not_true, Bool.and_false] at hbit
  · intro h
    have hbits : (encode e.frame e.flags).bits = e.bits := by
      apply BitVec.eq_of_getLsbD_eq
      intro i _
      rw [getLsbD_encode_self]
      by_cases hi : IsSpareBit i
      · simp [h i hi]
      · simp [hi]
    exact congrArg Entry.mk hbits

/-! ## The address of the frame -/

theorem word_address (e : Entry) : e.address.word = e.frameNumber.setWidth 64 <<< 12 := by
  apply BitVec.eq_of_getLsbD_eq
  intro i hi
  -- Shifted up by a page, the number has its bits where the address has them.
  rw [getLsbD_address, frameNumber, BitVec.getLsbD_shiftLeft, BitVec.getLsbD_setWidth,
    BitVec.getLsbD_extractLsb']
  grind

theorem address_eq_address_iff {e e' : Entry} :
    e.address = e'.address ↔ ∀ i, 12 ≤ i → i < 52 → e.bits.getLsbD i = e'.bits.getLsbD i := by
  constructor
  · intro h i hlow hhigh
    have hbit := congrArg (·.word.getLsbD i) h
    simpa [getLsbD_address, hlow, hhigh] using hbit
  · intro h
    have hword : e.address.word = e'.address.word := by
      apply BitVec.eq_of_getLsbD_eq
      intro i _
      rw [getLsbD_address, getLsbD_address]
      by_cases hi : 12 ≤ i ∧ i < 52
      · rw [h i hi.1 hi.2]
      · simp [hi]
    exact congrArg Address.mk hword

/-- The fields of an entry are its flags, the spare ones and the frame, and no flag is left out. An
entry can be made from every encodable frame and all named flags, and gives them back; its fields
show the flags one by one, and the spare ones are zero. From what any entry gives, the entry is made
again, with its spare bits cleared. Its address is the number in the bits of the frame, in pages of
4 KiB, and depends on nothing else. -/
theorem encode_round_trip :
    ((∀ n ∈ layout.fields, n.name ∈ flagFields.map (·.1) ∨ n.name ∈ spareFields ∨
        n.name = "frame_bits_51_12") ∧
      ∀ n ∈ entryVocabulary.names, n.1 ∈ flagFields.map (·.2)) ∧
    (∀ (f : Frame) (flags : EntryFlags), f.isEncodable = true → flags.unnamed = 0 →
      ∃ e, encode? f flags = some e ∧ e.frame = f ∧ e.address = f.base ∧ e.flags = flags ∧
        (∀ p ∈ flagFields, e.value? p.1 = some (if p.2 ∈ flags.names then 1 else 0)) ∧
        (e.present = flags.contains EntryFlags.present ∧
          e.writable = flags.contains EntryFlags.writable ∧
          e.userAccess = flags.contains EntryFlags.user ∧
          e.huge = flags.contains EntryFlags.huge ∧
          e.noExecute = flags.contains EntryFlags.noExecute) ∧
        ∀ name ∈ spareFields, e.value? name = some 0) ∧
    (∀ e : Entry, ∃ e', encode? e.frame e.flags = some e' ∧
      (∀ i, e'.bits.getLsbD i = (e.bits.getLsbD i && !decide (IsSpareBit i))) ∧
      (e' = e ↔ ∀ i, IsSpareBit i → e.bits.getLsbD i = false)) ∧
    (∀ e : Entry, e.value? "frame_bits_51_12" = some e.frameNumber.toNat ∧
      e.address.word = e.frameNumber.setWidth 64 <<< 12) ∧
    ∀ e e' : Entry, e.address = e'.address ↔
      ∀ i, 12 ≤ i → i < 52 → e.bits.getLsbD i = e'.bits.getLsbD i := by
  refine ⟨fields_complete, ?_, ?_, fun e => ⟨rfl, e.word_address⟩,
    fun e e' => address_eq_address_iff⟩
  · intro f flags hf hflags
    -- Named flags keep clear of the bits of the frame.
    have hframe : (encode f flags).frame = f := frame_encode hf fun i hlow hhigh =>
      EntryFlags.getLsbD_of_unnamed hflags (by omega) (by omega)
    have hback : (encode f flags).flags = flags := flags_encode hflags
    refine ⟨encode f flags, encode?_of_isEncodable hf flags, hframe, congrArg Page.base hframe,
      hback, ?_, ?_, ?_⟩
    · intro p hp
      rw [value?_of_mem_flagFields _ hp, hback]
    · simpa only [hback] using (encode f flags).eq_contains_flags
    · intro name hname
      exact value?_of_mem_spareFields (fun i hi => getLsbD_encode_of_isSpareBit hflags hi) hname
  · intro e
    exact ⟨encode e.frame e.flags, encode?_of_isEncodable e.isEncodable_frame e.flags,
      e.getLsbD_encode_self, e.encode_self_eq_iff⟩

/-- The topmost encodable frame with the highest flag, and an entry that has a spare bit set. -/
theorem encode_round_trip_specimen :
    let f : Frame := .containing ⟨0xffffffffff000⟩
    let flags : EntryFlags := (EntryFlags.present.union (.single 6)).union EntryFlags.noExecute
    let foreign : Entry := ⟨0x7ff0000000400e01⟩
    (∃ e, encode? f flags = some e ∧ e.frame = f ∧ e.flags = flags ∧
      e.value? "dirty" = some 1 ∧ e.value? "global" = some 0 ∧ e.noExecute = true ∧
      e.value? "protection_key" = some 0) ∧
    ∃ e', encode? foreign.frame foreign.flags = some e' ∧ e' ≠ foreign := by
  intro f flags foreign
  obtain ⟨-, hencode, hself, -⟩ := encode_round_trip
  constructor
  · obtain ⟨e, he, hframe, -, hflags, hshown, ⟨-, -, -, -, hexecute⟩, hspare⟩ :=
      hencode f flags (by decide) (by decide)
    exact ⟨e, he, hframe, hflags, (hshown ("dirty", "DIRTY") (by decide)).trans (by decide),
      (hshown ("global", "GLOBAL") (by decide)).trans (by decide), hexecute.trans (by decide),
      hspare "protection_key" (by decide)⟩
  · obtain ⟨e', he', -, hsame⟩ := hself foreign
    refine ⟨e', he', fun heq => ?_⟩
    -- Bit 9 is spare and set.
    have hclear := hsame.mp heq 9 (by decide)
    exact absurd hclear (by decide)

end Entry

end Paging
