/-!
# Outcomes of computations

Computations that yield a result or a fault, and what is claimed of both. `Meets x post fails` says
that a result of `x` satisfies `post`, and a fault satisfies `fails`: with `fails` always false it
is total correctness, with `fails` always true partial correctness, and anything in between tells
why a computation failed.

The rules follow the ways in which computations are put together: one after another, and over a list
from the left.
-/

namespace Peephole

variable {ε α β : Type}

/-! ### Equations -/

@[simp] theorem ok_bind (a : α) (k : α → Except ε β) : (.ok a : Except ε α) >>= k = k a := rfl

@[simp] theorem error_bind (e : ε) (k : α → Except ε β) :
    (.error e : Except ε α) >>= k = .error e := rfl

@[simp] theorem pure_eq_ok (a : α) : (pure a : Except ε α) = .ok a := rfl

@[simp] theorem throw_eq_error (e : ε) : (throw e : Except ε α) = .error e := rfl

@[simp] theorem discard_ok (a : α) : discard (.ok a : Except ε α) = .ok ⟨⟩ := rfl

theorem toOption_eq_some {x : Except ε α} {a : α} : x.toOption = some a ↔ x = .ok a := by
  cases x <;> simp [Except.toOption]

/-- Two computations in a row have a result when both do. -/
theorem bind_eq_ok {x : Except ε α} {k : α → Except ε β} {b : β} :
    x >>= k = .ok b ↔ ∃ a, x = .ok a ∧ k a = .ok b := by
  cases x <;> simp

/-- Two computations in a row fail when one of them does. -/
theorem bind_eq_error {x : Except ε α} {k : α → Except ε β} {e : ε} :
    x >>= k = .error e ↔ x = .error e ∨ ∃ a, x = .ok a ∧ k a = .error e := by
  cases x <;> simp

/-! ### Results and faults -/

/-- A computation **meets** a postcondition when its result satisfies it; its fault has to satisfy
another condition. -/
def Meets (x : Except ε α) (post : α → Prop) (fails : ε → Prop) : Prop :=
  match x with
  | .ok a => post a
  | .error e => fails e

namespace Meets

variable {x : Except ε α} {post : α → Prop} {fails : ε → Prop}

@[simp] theorem ok_iff {a : α} : Meets (.ok a) post fails ↔ post a := Iff.rfl

@[simp] theorem error_iff {e : ε} : Meets (.error e) post fails ↔ fails e := Iff.rfl

/-- One computation after another. -/
theorem bind {k : α → Except ε β} {final : β → Prop} (h : Meets x post fails)
    (hk : ∀ a, post a → Meets (k a) final fails) : Meets (x >>= k) final fails := by
  cases x with
  | ok a => exact hk a h
  | error e => exact h

/-- What follows from what a computation meets is met as well. -/
theorem mono {final : α → Prop} {reports : ε → Prop} (h : Meets x post fails)
    (hpost : ∀ a, post a → final a) (hfails : ∀ e, fails e → reports e) :
    Meets x final reports := by
  cases x with
  | ok a => exact hpost a h
  | error e => exact hfails e h

/-- A computation that never fails has a result. -/
theorem exists_ok (h : Meets x post fun _ => False) : ∃ a, x = .ok a ∧ post a := by
  cases x with
  | ok a => exact ⟨a, rfl, h⟩
  | error e => exact h.elim

/-- What is met by a computation that has a result. -/
theorem of_ok {a : α} (h : Meets x post fails) (hx : x = .ok a) : post a := by
  rw [hx] at h
  exact h

theorem of_error {e : ε} (h : Meets x post fails) (hx : x = .error e) : fails e := by
  rw [hx] at h
  exact h

/-- An invariant of every step over a list, taken where the steps before it lead to, is an invariant
of all of them. -/
theorem foldlM_of_prefix {σ : Type} {inv : σ → Prop} {step : σ → α → Except ε σ} {as : List α}
    {s : σ} (hs : inv s) (hstep : ∀ front a back t, as = front ++ a :: back →
      front.foldlM step s = .ok t → inv t → Meets (step t a) inv fails) :
    Meets (as.foldlM step s) inv fails := by
  induction as generalizing s with
  | nil => exact hs
  | cons a as ih =>
    have hfirst := hstep [] a as s rfl rfl hs
    rw [List.foldlM_cons]
    cases hx : step s a with
    | error e =>
      rw [hx] at hfirst
      exact hfirst
    | ok t =>
      rw [hx] at hfirst
      refine ih hfirst fun front b back u heq hu =>
        hstep (a :: front) b back u (by rw [heq]; rfl) ?_
      rw [List.foldlM_cons, hx, ok_bind, hu]

/-- An invariant of every step over a list is an invariant of all of them. -/
theorem foldlM {σ : Type} {inv : σ → Prop} {step : σ → α → Except ε σ} {as : List α} {s : σ}
    (hs : inv s) (hstep : ∀ s a, a ∈ as → inv s → Meets (step s a) inv fails) :
    Meets (as.foldlM step s) inv fails :=
  foldlM_of_prefix hs fun _ a _ t heq _ => hstep t a (by rw [heq]; simp)

end Meets

end Peephole
