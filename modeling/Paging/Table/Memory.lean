import Paging.Table.Basic

/-!
# Memory

Physical memory as the tables see it: every frame holds a table. The frames that have been
written are kept in a list, so that looking one up does not depend on how often it was written;
`table` is the view of memory by which everything else is stated. Programs use memory through
`read`, `write`, `clear` and `setTable`, and the lemmas below say what each of them does to
every frame.
-/

namespace Paging

/-- The contents of every frame of physical memory. -/
structure Memory where
  /-- The frames that have been written, each at most once. -/
  written : List (Frame × Table)
  /-- The contents of all other frames. -/
  rest : Frame → Table

namespace Memory

/-- Memory with the given contents. -/
def ofTables (tables : Frame → Table) : Memory := ⟨[], tables⟩

/-- Memory in which every frame is zero. -/
def zero : Memory := ofTables fun _ => .zero

/-- The contents of a frame. -/
def table (m : Memory) (f : Frame) : Table :=
  match m.written.find? fun p => p.1 == f with
  | some p => p.2
  | none => m.rest f

/-- Replaces the contents of a frame in a list of written frames. -/
def store (f : Frame) (t : Table) : List (Frame × Table) → List (Frame × Table)
  | [] => [(f, t)]
  | p :: others => if p.1 == f then (f, t) :: others else p :: store f t others

/-- Memory with the contents of a frame replaced. -/
def setTable (m : Memory) (f : Frame) (t : Table) : Memory :=
  { m with written := store f t m.written }

/-- The entry at an index of the table in a frame. -/
def read (m : Memory) (f : Frame) (i : Index) : Entry :=
  (m.table f).get i

/-- Memory with one entry replaced. -/
def write (m : Memory) (f : Frame) (i : Index) (e : Entry) : Memory :=
  m.setTable f ((m.table f).set i e)

/-- Memory with every entry of a frame absent. -/
def clear (m : Memory) (f : Frame) : Memory :=
  m.setTable f .zero

/-- The root's own slot is present and names the root. -/
def SelfLinked (m : Memory) (root : Frame) : Prop :=
  (m.read root selfIndex).present = true ∧ (m.read root selfIndex).frame = root

instance (m : Memory) (root : Frame) : Decidable (m.SelfLinked root) :=
  inferInstanceAs (Decidable (_ ∧ _))

/-! ## Reading after writing -/

@[simp] theorem table_ofTables (tables : Frame → Table) (f : Frame) :
    (ofTables tables).table f = tables f := rfl

@[simp] theorem table_zero (f : Frame) : zero.table f = .zero := rfl

theorem find?_store (f g : Frame) (t : Table) (l : List (Frame × Table)) :
    (store f t l).find? (fun p => p.1 == g) =
      if g = f then some (f, t) else l.find? fun p => p.1 == g := by
  induction l with
  | nil =>
    by_cases h : g = f
    · simp [store, h]
    · simp [store, h, Ne.symm h]
  | cons p l ih =>
    by_cases hp : p.1 = f
    · by_cases h : g = f
      · simp [store, hp, h]
      · simp [store, hp, h, Ne.symm h]
    · by_cases h : g = f
      · subst h
        simp [store, hp, ih]
      · simp only [store, hp, h, List.find?_cons, ih, beq_iff_eq, if_false]

theorem table_setTable (m : Memory) (f g : Frame) (t : Table) :
    (m.setTable f t).table g = if g = f then t else m.table g := by
  unfold table setTable
  rw [find?_store]
  by_cases h : g = f <;> simp [h]

@[simp] theorem table_setTable_self (m : Memory) (f : Frame) (t : Table) :
    (m.setTable f t).table f = t := by
  simp [table_setTable]

theorem table_setTable_of_ne (m : Memory) {f g : Frame} (t : Table) (h : g ≠ f) :
    (m.setTable f t).table g = m.table g := by
  simp [table_setTable, h]

theorem read_write (m : Memory) (f g : Frame) (i j : Index) (e : Entry) :
    (m.write f i e).read g j = if g = f ∧ j = i then e else m.read g j := by
  by_cases hf : g = f
  · subst hf
    by_cases hi : j = i
    · simp [read, write, hi]
    · simp [read, write, hi, Table.get_set_of_ne _ _ (Ne.symm hi)]
  · simp [read, write, hf, table_setTable_of_ne]

@[simp] theorem read_write_self (m : Memory) (f : Frame) (i : Index) (e : Entry) :
    (m.write f i e).read f i = e := by
  simp [read_write]

theorem read_clear (m : Memory) (f g : Frame) (i : Index) :
    (m.clear f).read g i = if g = f then .zero else m.read g i := by
  by_cases hf : g = f
  · simp [read, clear, hf]
  · simp [read, clear, hf, table_setTable_of_ne]

/-- An empty slot is no link of the root to itself. -/
theorem SelfLinked.read_ne_zero {m : Memory} {root : Frame} (h : m.SelfLinked root) :
    m.read root selfIndex ≠ .zero := by
  intro hzero
  have hpresent := h.1
  rw [hzero, Entry.present_zero] at hpresent
  cases hpresent

end Memory

end Paging
