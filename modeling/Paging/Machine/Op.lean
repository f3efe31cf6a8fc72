import Paging.Machine.Failure

/-!
# Operations

An operation acts on a state and ends with a result or stops early. The state it leaves behind is
part of the outcome in either case: what was written before a stop stays written.
-/

namespace Paging

/-- An operation on states `σ` with results `α` and errors `ε`. -/
def Op (σ ε α : Type) : Type := σ → Except (Stop ε) α × σ

namespace Op

variable {σ τ ε ε' α β : Type}

/-- Runs an operation. -/
def run (x : Op σ ε α) (s : σ) : Except (Stop ε) α × σ := x s

@[inline] instance : Monad (Op σ ε) where
  pure a := fun s => (.ok a, s)
  bind x f := fun s =>
    match x s with
    | (.ok a, s') => f a s'
    | (.error e, s') => (.error e, s')

/-- Stops with an error. -/
@[inline] def refuse (e : ε) : Op σ ε α := fun s => (.error (.error e), s)

/-- Stops with a violation. -/
@[inline] def violate (v : Violation) : Op σ ε α := fun s => (.error (.violation v), s)

/-- A value that must exist, on pain of a violation. -/
@[inline] def demand (v : Violation) : Option α → Op σ ε α
  | some a => pure a
  | none => violate v

/-- Looks at the state, which may halt the operation. -/
@[inline] def observe (f : σ → Except Halt α) : Op σ ε α := fun s =>
  ((f s).mapError .ofHalt, s)

/-- Changes the state. -/
@[inline] def change (f : σ → σ) : Op σ ε Unit := fun s => (.ok (), f s)

/-- Renames the errors of an operation. -/
@[inline] def mapError (f : ε → ε') (x : Op σ ε α) : Op σ ε' α := fun s =>
  let (r, s') := x s
  (r.mapError (Stop.mapError f), s')

/-- Turns an error into a result; faults and violations still stop the operation. -/
@[inline] def attempt (x : Op σ ε α) : Op σ ε' (Except ε α) := fun s =>
  match x s with
  | (.ok a, s') => (.ok (.ok a), s')
  | (.error (.error e), s') => (.ok (.error e), s')
  | (.error (.fault c), s') => (.error (.fault c), s')
  | (.error (.violation v), s') => (.error (.violation v), s')

/-- Runs an operation on a part of a larger state. -/
@[inline] def within (get : τ → σ) (put : σ → τ → τ) (x : Op σ ε α) : Op τ ε α := fun t =>
  let (r, s) := x (get t)
  (r, put s t)

/-! ## Running the parts -/

@[simp] theorem run_pure (a : α) (s : σ) : (pure a : Op σ ε α).run s = (.ok a, s) := rfl

theorem run_bind (x : Op σ ε α) (f : α → Op σ ε β) (s : σ) :
    (x >>= f).run s =
      match x.run s with
      | (.ok a, s') => (f a).run s'
      | (.error e, s') => (.error e, s') := rfl

theorem run_bind_ok {x : Op σ ε α} {s s' : σ} {a : α} (h : x.run s = (.ok a, s'))
    (f : α → Op σ ε β) : (x >>= f).run s = (f a).run s' := by
  rw [run_bind, h]

theorem run_bind_error {x : Op σ ε α} {s s' : σ} {e : Stop ε} (h : x.run s = (.error e, s'))
    (f : α → Op σ ε β) : (x >>= f).run s = (.error e, s') := by
  rw [run_bind, h]

@[simp] theorem run_refuse (e : ε) (s : σ) :
    (refuse e : Op σ ε α).run s = (.error (.error e), s) := rfl

@[simp] theorem run_violate (v : Violation) (s : σ) :
    (violate v : Op σ ε α).run s = (.error (.violation v), s) := rfl

@[simp] theorem run_demand_some (v : Violation) (a : α) (s : σ) :
    (demand v (some a) : Op σ ε α).run s = (.ok a, s) := rfl

@[simp] theorem run_demand_none (v : Violation) (s : σ) :
    (demand v none : Op σ ε α).run s = (.error (.violation v), s) := rfl

@[simp] theorem run_change (f : σ → σ) (s : σ) :
    (change f : Op σ ε Unit).run s = (.ok (), f s) := rfl

@[simp] theorem run_observe (f : σ → Except Halt α) (s : σ) :
    (observe f : Op σ ε α).run s = ((f s).mapError .ofHalt, s) := rfl

theorem run_observe_ok {f : σ → Except Halt α} {s : σ} {a : α} (h : f s = .ok a) :
    (observe f : Op σ ε α).run s = (.ok a, s) := by
  rw [run_observe, h]
  rfl

theorem run_observe_error {f : σ → Except Halt α} {s : σ} {c : Halt} (h : f s = .error c) :
    (observe f : Op σ ε α).run s = (.error (.ofHalt c), s) := by
  rw [run_observe, h]
  rfl

@[simp] theorem run_mapError (f : ε → ε') (x : Op σ ε α) (s : σ) :
    (x.mapError f).run s = ((x.run s).1.mapError (Stop.mapError f), (x.run s).2) := rfl

@[simp] theorem run_within (get : τ → σ) (put : σ → τ → τ) (x : Op σ ε α) (t : τ) :
    (within get put x).run t = ((x.run (get t)).1, put (x.run (get t)).2 t) := rfl

end Op

end Paging
