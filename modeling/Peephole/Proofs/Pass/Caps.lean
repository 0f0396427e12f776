import Mathlib
import Peephole.Proofs.Pass.Lifting

/-!
# Caps on sweeps

A cap decides where a run stops and nothing else. An instruction that no rule is selected for is
left with the function just as it was, so that a sweep without a rewrite, and a run without one,
changes nothing at all: `func_eq_of_sweep`. Two runs in a row therefore do what one run under the
sum of their caps does, and a run from a fixpoint finds itself at it: `run_withMaxIterations_add`.
-/

namespace Peephole

namespace Pass

open Func

variable {p : Pass} {f : Func}

/-! ### Runs without a rewrite -/

/-- A sweep without a rewrite leaves the function as it was. -/
theorem func_eq_of_sweep {s : Progress} (h : p.sweep f = .ok s) (hzero : s.replaced = 0) :
    s.func = f := by
  have hattempt (s : Progress) (i : InstId) (hs : s.replaced = 0 → s.func = f) :
      Meets (p.attempt s i) (fun t => t.replaced = 0 → t.func = f) fun _ => True := by
    unfold attempt
    split
    · next hi =>
      obtain ⟨-, t, ht, hfunc, hreplaced⟩ | ⟨result, k, r, b, event, -, hvisit⟩ :=
        visit_cases (p := p) hi
      · rw [ht, Meets.ok_iff, hfunc, hreplaced]
        exact hs
      · -- a rewrite counts, whatever it does
        rw [hvisit]
        cases commit s.func i result r b with
        | error e => trivial
        | ok c => exact fun hcount => (Nat.succ_ne_zero s.replaced hcount).elim
    · exact hs
  have hsweep : Meets (p.sweep f) (fun s => s.replaced = 0 → s.func = f) fun _ => True :=
    Meets.foldlM (fun _ => rfl) fun s b _ hs => Meets.foldlM hs fun s i _ hs => hattempt s i hs
  exact hsweep.of_ok h hzero

/-- A run that has reached its fixpoint ends in a function that a sweep leaves alone. -/
theorem sweep_of_fixpoint {n : Nat} {o : Outcome} (h : p.runFor n f = .ok o)
    (hfix : o.fixpoint) : ∃ s, p.sweep o.func = .ok s ∧ s.func = o.func ∧ s.replaced = 0 := by
  induction n generalizing f o with
  | zero =>
    cases h
    cases hfix
  | succ n ih =>
    rw [runFor] at h
    obtain ⟨s, hs, h⟩ := bind_eq_ok.mp h
    split at h
    · next hzero =>
      cases h
      have hfunc := func_eq_of_sweep hs hzero
      refine ⟨s, ?_, rfl, hzero⟩
      rw [hfunc]
      exact hs
    · obtain ⟨o', ho', h⟩ := bind_eq_ok.mp h
      cases h
      exact ih (o := o') ho' hfix

/-- A run without a rewrite leaves the function as it was. -/
theorem func_eq_of_runFor {n : Nat} {o : Outcome} (h : p.runFor n f = .ok o)
    (hzero : o.replaced = 0) : o.func = f := by
  cases n with
  | zero =>
    cases h
    rfl
  | succ n =>
    rw [runFor] at h
    obtain ⟨s, hs, h⟩ := bind_eq_ok.mp h
    split at h
    · next hs0 =>
      cases h
      exact func_eq_of_sweep hs hs0
    · next hs0 =>
      obtain ⟨o', -, h⟩ := bind_eq_ok.mp h
      cases h
      exact (hs0 (Nat.eq_zero_of_add_eq_zero_right hzero)).elim

/-! ### Runs in a row -/

/-- What a run comes to, leaving aside what it reports on the way: the function, the number of
instructions replaced, and whether the fixpoint is reached. -/
def Outcome.effect (o : Outcome) : Func × Nat × Bool := (o.func, o.replaced, o.fixpoint)

/-- A run does one sweep, and what is left to do after it. -/
theorem effect_runFor_succ (n : Nat) (f : Func) :
    (p.runFor (n + 1) f).map Outcome.effect = (p.sweep f >>= fun s =>
      if s.replaced = 0 then .ok (s.func, 0, true)
      else (p.runFor n s.func).map Outcome.effect >>= fun (g, k, fixpoint) =>
        .ok (g, s.replaced + k, fixpoint)) := by
  rw [runFor]
  cases p.sweep f with
  | error e => rfl
  | ok s =>
    rw [ok_bind, ok_bind]
    split
    · rfl
    · cases p.runFor n s.func <;> rfl

/-- The cap that a pass has been given shows up in what a run reports only. -/
theorem effect_runFor_withMaxIterations (k n : Nat) (f : Func) :
    ((p.withMaxIterations k).runFor n f).map Outcome.effect =
      (p.runFor n f).map Outcome.effect := by
  have hsweep : (p.withMaxIterations k).sweep = p.sweep := rfl
  induction n generalizing f with
  | zero => rfl
  | succ n ih => simp only [effect_runFor_succ, hsweep, ih]

/-- A run goes on where a shorter one has stopped. -/
theorem effect_runFor_add (m : Nat) {n : Nat} (hn : 1 ≤ n) (f : Func) :
    (p.runFor (m + n) f).map Outcome.effect =
      ((p.runFor m f).map Outcome.effect >>= fun (g, k, _) =>
        (p.runFor n g).map Outcome.effect >>= fun (h, k', fixpoint) =>
          .ok (h, k + k', fixpoint)) := by
  induction m generalizing f with
  | zero =>
    have hstart : (p.runFor 0 f).map Outcome.effect = .ok (f, 0, false) := rfl
    rw [hstart, ok_bind, Nat.zero_add]
    dsimp only
    cases p.runFor n f with
    | error e => rfl
    | ok o => simp [Except.map]
  | succ m ih =>
    rw [Nat.add_right_comm, effect_runFor_succ, effect_runFor_succ]
    cases hs : p.sweep f with
    | error e => rfl
    | ok s =>
      simp only [ok_bind]
      split
      · next hzero =>
        -- the first run stops at a fixpoint, where the second one has a sweep to find that out
        obtain ⟨n, rfl⟩ := Nat.exists_eq_add_of_le' hn
        have hfunc := func_eq_of_sweep hs hzero
        simp [effect_runFor_succ, hfunc, hs, hzero]
      · rw [ih]
        cases p.runFor m s.func with
        | error e => rfl
        | ok o =>
          simp only [Except.map, ok_bind, Outcome.effect]
          cases p.runFor n o.func with
          | error e => rfl
          | ok o' => simp [Nat.add_assoc]

/-- Under a cap other than 0, a run sweeps that often. -/
theorem run_withMaxIterations {k : Nat} (hk : 1 ≤ k) (f : Func) :
    ((p.withMaxIterations k).run f).map Outcome.effect = (p.runFor k f).map Outcome.effect := by
  have hcap : (p.withMaxIterations k).maxIterations = k := if_neg (Nat.ne_of_gt hk)
  rw [run, hcap, effect_runFor_withMaxIterations]

/-- Two runs in a row leave the function that one run under the sum of their caps leaves, and their
rewrites add up; a fault of one is the fault of the other. A run from where a run has reached its
fixpoint sweeps once, whatever its cap, replaces nothing, and leaves the function as it is, as does
every run that replaces nothing. -/
theorem run_withMaxIterations_add (p : Pass) (f : Func) :
    (∀ m n, 1 ≤ m → 1 ≤ n → ((p.withMaxIterations (m + n)).run f).map Outcome.effect = (do
      let o ← (p.withMaxIterations m).run f
      let o' ← (p.withMaxIterations n).run o.func
      return (o'.func, o.replaced + o'.replaced, o'.fixpoint))) ∧
    (∀ k o, (p.withMaxIterations k).run f = .ok o → o.fixpoint →
      ∀ k', ∃ o', (p.withMaxIterations k').run o.func = .ok o' ∧ o'.iterations = 1 ∧
        o'.replaced = 0 ∧ o'.fixpoint ∧ o'.func = o.func) ∧
    ∀ k o, (p.withMaxIterations k).run f = .ok o → o.replaced = 0 → o.func = f := by
  refine ⟨fun m n hm hn => ?_, fun k o ho hfix k' => ?_, fun k o ho => func_eq_of_runFor ho⟩
  · rw [run_withMaxIterations (Nat.le_add_right_of_le hm), effect_runFor_add m hn,
      ← run_withMaxIterations hm]
    cases (p.withMaxIterations m).run f with
    | error e => rfl
    | ok o =>
      have hsecond := run_withMaxIterations (p := p) hn o.func
      simp only [Except.map, ok_bind, Outcome.effect] at hsecond ⊢
      rw [← hsecond]
      cases (p.withMaxIterations n).run o.func <;> rfl
  · obtain ⟨s, hs, hfunc, hzero⟩ := sweep_of_fixpoint ho hfix
    obtain ⟨n, hn⟩ : ∃ n, (p.withMaxIterations k').maxIterations = n + 1 := by
      refine Nat.exists_eq_add_of_le' ?_
      simp only [withMaxIterations]
      split
      · decide
      · omega
    refine ⟨⟨s.func, 1, 0, true, s.events⟩, ?_, rfl, rfl, rfl, hfunc⟩
    rw [run, hn, runFor, show (p.withMaxIterations k').sweep o.func = .ok s from hs, ok_bind,
      if_pos hzero]
    rfl

set_option maxRecDepth 100000 in
/-- A first sweep takes the two complements away, and a second one finds nothing to do. -/
theorem run_withMaxIterations_add_complemented : ∃ rs o, RuleSet.load complements = .ok rs ∧
    ((Pass.new rs).withMaxIterations 1).run complemented = .ok o ∧ o.replaced = 1 ∧
    o.fixpoint = false ∧
    (((Pass.new rs).withMaxIterations 2).run complemented).map Outcome.effect =
      .ok (o.func, 1, true) := by
  have hrun : ((RuleSet.load complements).toOption.any fun rs =>
      (((Pass.new rs).withMaxIterations 1).run complemented).toOption.any fun o =>
        o.replaced == 1 && !o.fixpoint &&
          (((Pass.new rs).withMaxIterations 1).run o.func).toOption.any fun o' =>
            o'.replaced == 0 && o'.fixpoint) = true := by
    cbv
  cases hload : RuleSet.load complements with
  | error e => simp [hload, Except.toOption] at hrun
  | ok rs =>
    have hadd := run_withMaxIterations_add (.new rs) complemented
    cases ho : ((Pass.new rs).withMaxIterations 1).run complemented with
    | error e => simp [hload, ho, Except.toOption] at hrun
    | ok o =>
      have hadd' := run_withMaxIterations_add (.new rs) o.func
      cases ho' : ((Pass.new rs).withMaxIterations 1).run o.func with
      | error e => simp [hload, ho, ho', Except.toOption] at hrun
      | ok o' =>
        have hcounts : (o.replaced = 1 ∧ o.fixpoint = false) ∧ o'.replaced = 0 ∧ o'.fixpoint := by
          simpa [hload, ho, ho', Except.toOption] using hrun
        obtain ⟨⟨hone, hopen⟩, hzero, hfix⟩ := hcounts
        refine ⟨rs, o, rfl, ho, hone, hopen, ?_⟩
        rw [hadd.1 1 1 (by decide) (by decide), ho, ok_bind, ho', ok_bind,
          hadd'.2.2 1 o' ho' hzero, hone, hzero, hfix]
        rfl

end Pass

end Peephole
