import Paging.Machine.Op

/-!
# Reasoning about operations

`Ends` says how an operation ends from a given state: with a result for which one condition holds,
or stopped with a reason for which another holds. Conditions of a sequence are put together from
those of its parts. A `Contract` says what operations may do from any state whatever, and is kept by
a sequence if all the parts keep it.
-/

namespace Paging

namespace Op

variable {σ ε α β : Type} {x y : Op σ ε α} {f g : α → Op σ ε β} {s s' : σ} {a : α}
  {Q Q' : α → σ → Prop} {E E' : Stop ε → σ → Prop} {R : β → σ → Prop}

/-- From `s` the operation ends with a result as `Q` says, or it stops as `E` says. -/
inductive Ends (x : Op σ ε α) (s : σ) (Q : α → σ → Prop) (E : Stop ε → σ → Prop) : Prop where
  | ok {a : α} {s' : σ} (hrun : x.run s = (.ok a, s')) (hQ : Q a s')
  | error {stop : Stop ε} {s' : σ} (hrun : x.run s = (.error stop, s')) (hE : E stop s')

theorem Ends.pure (hQ : Q a s) : (pure a : Op σ ε α).Ends s Q E := .ok (run_pure a s) hQ

/-- Operations that run alike may replace each other. -/
theorem Ends.of_run_eq (h : y.Ends s' Q E) (heq : x.run s = y.run s') : x.Ends s Q E := by
  cases h with
  | ok hrun hQ => exact .ok (heq.trans hrun) hQ
  | error hrun hE => exact .error (heq.trans hrun) hE

theorem Ends.mono (h : x.Ends s Q E) (hQ : ∀ a s', Q a s' → Q' a s')
    (hE : ∀ stop s', E stop s' → E' stop s') : x.Ends s Q' E' := by
  cases h with
  | ok hrun hend => exact .ok hrun (hQ _ _ hend)
  | error hrun hend => exact .error hrun (hE _ _ hend)

/-- Two things that are known of how an operation ends are known together. -/
theorem Ends.and (h : x.Ends s Q E) (h' : x.Ends s Q' E') :
    x.Ends s (fun a s' => Q a s' ∧ Q' a s') (fun stop s' => E stop s' ∧ E' stop s') := by
  cases h with
  | ok hrun hQ =>
    cases h' with
    | ok hrun' hQ' =>
      rw [hrun] at hrun'
      cases hrun'
      exact .ok hrun ⟨hQ, hQ'⟩
    -- The operation has one end, so this one is not it.
    | error hrun' hE' => simp [hrun] at hrun'
  | error hrun hE =>
    cases h' with
    | ok hrun' hQ' => simp [hrun] at hrun'
    | error hrun' hE' =>
      rw [hrun] at hrun'
      cases hrun'
      exact .error hrun ⟨hE, hE'⟩

/-- In a sequence the second part starts where the first has ended. -/
theorem Ends.bind (hx : x.Ends s Q E) (hf : ∀ a s', Q a s' → (f a).Ends s' R E) :
    (x >>= f).Ends s R E := by
  cases hx with
  | ok hrun hQ => exact (hf _ _ hQ).of_run_eq (run_bind_ok hrun f)
  | error hrun hE => exact .error (run_bind_error hrun f) hE

/-- The second part may start from anything that the first is known to end with. -/
theorem Ends.bind_mono (hx : x.Ends s Q E) (hf : ∀ a s', Q a s' → (f a).Ends s' R E')
    (hE : ∀ stop s', E stop s' → E' stop s') : (x >>= f).Ends s R E' :=
  (hx.mono (fun _ _ hend => hend) hE).bind hf

/-- Sequences run alike if their first parts do, and their second parts from wherever the first can
end. -/
theorem run_bind_congr (h : x.run s = y.run s) (hx : x.Ends s Q E)
    (hfg : ∀ a s', Q a s' → (f a).run s' = (g a).run s') : (x >>= f).run s = (y >>= g).run s := by
  cases hx with
  | ok hrun hQ =>
    rw [run_bind_ok hrun, run_bind_ok (h.symm.trans hrun)]
    exact hfg _ _ hQ
  | error hrun hE => rw [run_bind_error hrun, run_bind_error (h.symm.trans hrun)]

/-! ## Contracts -/

/-- What operations may do: how they may change a state, and how they may stop. It is allowed to do
nothing, and to do one thing after the other. -/
structure Contract (σ ε : Type) where
  ok : σ → σ → Prop
  stop : σ → Stop ε → σ → Prop
  refl (s : σ) : ok s s
  trans {s s₁ s' : σ} (h : ok s s₁) (h' : ok s₁ s') : ok s s'
  stop_trans {s s₁ s' : σ} {reason : Stop ε} (h : ok s s₁) (h' : stop s₁ reason s') :
    stop s reason s'

/-- From whatever state it starts, the operation does what the contract allows. -/
structure Keeps (x : Op σ ε α) (C : Contract σ ε) : Prop where
  ends : ∀ s, x.Ends s (fun _ s' => C.ok s s') (fun reason s' => C.stop s reason s')

namespace Keeps

variable {C : Contract σ ε}

theorem pure (a : α) : (Pure.pure a : Op σ ε α).Keeps C := ⟨fun s => Ends.pure (C.refl s)⟩

theorem refuse {e : ε} (he : ∀ s, C.stop s (.error e) s) : (Op.refuse e : Op σ ε α).Keeps C :=
  ⟨fun s => .error (run_refuse e s) (he s)⟩

theorem change {g : σ → σ} (hg : ∀ s, C.ok s (g s)) : (Op.change g : Op σ ε Unit).Keeps C :=
  ⟨fun s => .ok (run_change g s) (hg s)⟩

/-- What the first part of a sequence has done is done before whatever the second does. -/
theorem bind (hx : x.Keeps C) (hf : ∀ a, (f a).Keeps C) : (x >>= f).Keeps C := by
  -- The contract speaks of every state, so the second part may start from any that is left.
  refine ⟨fun s => (hx.ends s).bind fun a s₁ hfirst => ?_⟩
  exact ((hf a).ends s₁).mono (fun _ _ hend => C.trans hfirst hend)
    fun _ _ hend => C.stop_trans hfirst hend

theorem ite {c : Prop} [Decidable c] (hx : x.Keeps C) (hy : y.Keeps C) :
    (if c then x else y).Keeps C := by
  split
  · exact hx
  · exact hy

end Keeps

/-! ## Two runs -/

section Two

variable {τ : Type} {S : σ → τ → Prop} {z : Op τ ε α} {k : α → Op τ ε β} {t : τ}

/-- From `s` and `t` both operations end with the same result, or stop for the same reason, and `S`
relates what they leave behind. Of a result and the state it is left with `Q` holds. -/
inductive Coincides (S : σ → τ → Prop) (x : Op σ ε α) (y : Op τ ε α) (s : σ) (t : τ)
    (Q : α → σ → Prop) : Prop where
  | ok {a : α} {s' : σ} {t' : τ} (hx : x.run s = (.ok a, s')) (hy : y.run t = (.ok a, t'))
      (hS : S s' t') (hQ : Q a s') : Coincides S x y s t Q
  | error {stop : Stop ε} {s' : σ} {t' : τ} (hx : x.run s = (.error stop, s'))
      (hy : y.run t = (.error stop, t')) (hS : S s' t') : Coincides S x y s t Q

namespace Coincides

theorem pure (hS : S s t) (hQ : Q a s) :
    Coincides S (Pure.pure a : Op σ ε α) (Pure.pure a : Op τ ε α) s t Q :=
  .ok (run_pure a s) (run_pure a t) hS hQ

theorem refuse (e : ε) (hS : S s t) :
    Coincides S (Op.refuse e : Op σ ε α) (Op.refuse e : Op τ ε α) s t Q :=
  .error (run_refuse e s) (run_refuse e t) hS

theorem of_run_eq {z' : Op τ ε α} {t' : τ} (h : Coincides S y z s' t' Q)
    (hx : x.run s = y.run s') (hz : z'.run t = z.run t') : Coincides S x z' s t Q := by
  cases h with
  | ok hy hz' hS hQ => exact .ok (hx.trans hy) (hz.trans hz') hS hQ
  | error hy hz' hS => exact .error (hx.trans hy) (hz.trans hz') hS

theorem mono (h : Coincides S x z s t Q) (hQ : ∀ a s', Q a s' → Q' a s') :
    Coincides S x z s t Q' := by
  cases h with
  | ok hx hz hS hend => exact .ok hx hz hS (hQ _ _ hend)
  | error hx hz hS => exact .error hx hz hS

/-- In two sequences the second parts start where the first have ended. -/
theorem bind (h : Coincides S x z s t Q)
    (hfk : ∀ a s' t', S s' t' → Q a s' → Coincides S (f a) (k a) s' t' R) :
    Coincides S (x >>= f) (z >>= k) s t R := by
  cases h with
  | ok hx hz hS hQ => exact (hfk _ _ _ hS hQ).of_run_eq (run_bind_ok hx f) (run_bind_ok hz k)
  -- Where the first parts stop, both sequences do.
  | error hx hz hS => exact .error (run_bind_error hx f) (run_bind_error hz k) hS

end Coincides

end Two

end Op

end Paging
