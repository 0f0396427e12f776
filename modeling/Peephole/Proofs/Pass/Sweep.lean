import Peephole.Proofs.Pass.Commit

/-!
# Sweeps and runs

A run does nothing to its function but rewrites. What every rewrite keeps, a run keeps, and a run
fails only where a rewrite fails: `Keeps.run`.

A run succeeds exactly if everything that it comes to on the way succeeds, `run_ok_iff`. `Visits`
tells which instructions of which functions a run comes to.
-/

namespace Peephole

/-- A walk over a list succeeds exactly if every step succeeds that it comes to. -/
theorem foldlM_ok_iff {ε α σ : Type} {step : σ → α → Except ε σ} {as : List α} {s : σ} :
    (∃ t, as.foldlM step s = .ok t) ↔
      ∀ front a back t, as = front ++ a :: back → front.foldlM step s = .ok t →
        ∃ u, step t a = .ok u := by
  induction as generalizing s with
  | nil => simp
  | cons a as ih =>
    rw [List.foldlM_cons]
    constructor
    · rintro ⟨t, h⟩ front c back u heq hfront
      obtain ⟨s', hs', h⟩ := bind_eq_ok.mp h
      cases front with
      | nil =>
        cases heq
        cases hfront
        exact ⟨s', hs'⟩
      | cons d front =>
        cases heq
        rw [List.foldlM_cons, hs', ok_bind] at hfront
        exact ih.mp ⟨t, h⟩ front c back u rfl hfront
    · intro h
      obtain ⟨s', hs'⟩ := h [] a as s rfl rfl
      rw [hs', ok_bind]
      refine ih.mpr fun front c back u heq hfront => ?_
      refine h (a :: front) c back u (by rw [heq]; rfl) ?_
      rw [List.foldlM_cons, hs', ok_bind]
      exact hfront

namespace Pass

open Func

variable {p : Pass} {inv : Func → Prop} {fails : Fault → Prop}

/-! ### What rewrites keep -/

/-- The first rule of a run that matches is an enabled rule of the rule set, and it matches. -/
theorem firstMatch_eq_some {f : Func} {i : InstId} {run : Run} {k : Nat} {r : Rule} {b : Bindings}
    (h : p.firstMatch f i run = some (k, r, b)) :
    k ∈ run.indices ∧ p.rules.rules[k]? = some r ∧ p.isEnabled r ∧ r.matchInst f i = some b := by
  obtain ⟨m, hm, h⟩ := List.exists_of_findSome?_eq_some h
  split at h
  · next r' hr' =>
    split at h
    · next he =>
      obtain ⟨b', hb', heq⟩ := Option.map_eq_some_iff.mp h
      cases heq
      exact ⟨hm, hr', he, hb'⟩
    · cases h
  · cases h

/-- Whether a rule is **selected** for an instruction: the first enabled rule of the run of the
instruction that matches it. -/
def Selects (p : Pass) (f : Func) (i : InstId) (result : ValueId) (k : Nat) (r : Rule)
    (b : Bindings) : Prop :=
  ∃ d, f.inst? i = some d ∧ d.result = some result ∧
    (p.rules.candidates d.opcode d.width).length ≠ 0 ∧
    p.firstMatch f i (p.rules.candidates d.opcode d.width) = some (k, r, b)

/-- At most one rule is selected. -/
theorem Selects.unique {f : Func} {i : InstId} {result result' : ValueId} {k k' : Nat}
    {r r' : Rule} {b b' : Bindings} (h : p.Selects f i result k r b)
    (h' : p.Selects f i result' k' r' b') : result' = result ∧ r' = r ∧ b' = b := by
  obtain ⟨d, hd, hres, -, hfirst⟩ := h
  obtain ⟨d', hd', hres', -, hfirst'⟩ := h'
  rw [hd] at hd'
  cases hd'
  rw [hres] at hres'
  rw [hfirst] at hfirst'
  cases hres'
  cases hfirst'
  exact ⟨rfl, rfl, rfl⟩

/-- Whether no rule is selected for an instruction, so that a pass leaves it alone. -/
def Quiet (p : Pass) (f : Func) (i : InstId) : Prop :=
  ∀ result k r b, ¬ p.Selects f i result k r b

/-- A visit rewrites by the rule that is selected, and leaves the function alone if there is none.
-/
theorem visit_cases {s : Progress} {i : InstId} (hi : s.func.isAttached i) :
    (p.Quiet s.func i ∧ ∃ t, p.visit s i = .ok t ∧ t.func = s.func ∧ t.replaced = s.replaced) ∨
      ∃ result k r b event, p.Selects s.func i result k r b ∧
        p.visit s i = (commit s.func i result r b >>= fun c =>
          .ok ⟨c.1, s.replaced + 1, s.events ++ c.2 ++ [event]⟩) := by
  obtain ⟨d, -, hd, -⟩ := isAttached_iff.mp hi
  have hnone (h : ∀ result, d.result = some result →
      (p.rules.candidates d.opcode d.width).length ≠ 0 →
      p.firstMatch s.func i (p.rules.candidates d.opcode d.width) = none) :
      p.Quiet s.func i := by
    rintro result k r b ⟨d', hd', hres, hrun, hfirst⟩
    rw [hd] at hd'
    cases hd'
    rw [h result hres hrun] at hfirst
    cases hfirst
  unfold visit
  rw [requireInst, hd, Option.elim_some, ok_bind]
  cases hres : d.result with
  | none => exact .inl ⟨hnone (by simp [hres]), s, rfl, rfl, rfl⟩
  | some result =>
    dsimp only
    by_cases hrun : (p.rules.candidates d.opcode d.width).length = 0
    · rw [if_pos hrun]
      exact .inl ⟨hnone fun _ _ h => (h hrun).elim, _, rfl, rfl, rfl⟩
    · rw [if_neg hrun]
      cases hfirst : p.firstMatch s.func i (p.rules.candidates d.opcode d.width) with
      | none => exact .inl ⟨hnone fun _ _ _ => hfirst, s, rfl, rfl, rfl⟩
      | some m =>
        obtain ⟨k, r, b⟩ := m
        exact .inr ⟨result, k, r, b, _, ⟨d, hd, hres, hrun, hfirst⟩, rfl⟩

/-- A pass **keeps** an invariant when its rewrites do; they may fail in a given way only. -/
def Keeps (p : Pass) (inv : Func → Prop) (fails : Fault → Prop) : Prop :=
  ∀ f i result (k : Nat) r b, inv f → f.isAttached i → f.result? i = some result →
    p.rules.rules[k]? = some r → r.matchInst f i = some b →
    Meets (commit f i result r b) (fun c => inv c.1) fails

/-- Visits an instruction unless it has been detached. -/
def attempt (p : Pass) (s : Progress) (i : InstId) : Except Fault Progress :=
  if s.func.isAttached i then p.visit s i else .ok s

theorem sweepBlock_eq (p : Pass) (s : Progress) (b : BlockId) :
    p.sweepBlock s b = (s.func.blockInsts b).foldlM p.attempt s := rfl

theorem Keeps.visit (h : p.Keeps inv fails) {s : Progress} {i : InstId} (hs : inv s.func)
    (hi : s.func.isAttached i) : Meets (p.visit s i) (fun t => inv t.func) fails := by
  obtain ⟨-, t, ht, hfunc, -⟩ | ⟨result, k, r, b, event, hsel, hvisit⟩ := visit_cases (p := p) hi
  · rw [ht, Meets.ok_iff, hfunc]
    exact hs
  · obtain ⟨d, hd, hres, -, hfirst⟩ := hsel
    obtain ⟨-, hr, -, hm⟩ := firstMatch_eq_some hfirst
    have hresult : s.func.result? i = some result := by
      rw [result?, hd, Option.bind_some, hres]
    rw [hvisit]
    exact Meets.bind (h s.func i result k r b hs hi hresult hr hm) fun c hc => hc

theorem Keeps.attempt (h : p.Keeps inv fails) {s : Progress} {i : InstId} (hs : inv s.func) :
    Meets (p.attempt s i) (fun t => inv t.func) fails := by
  unfold Pass.attempt
  split
  · next hi => exact h.visit hs hi
  · exact hs

theorem Keeps.sweepBlock (h : p.Keeps inv fails) {s : Progress} {b : BlockId} (hs : inv s.func) :
    Meets (p.sweepBlock s b) (fun t => inv t.func) fails :=
  Meets.foldlM hs fun _ _ _ hs => h.attempt hs

theorem Keeps.sweep (h : p.Keeps inv fails) {f : Func} (hf : inv f) :
    Meets (p.sweep f) (fun t => inv t.func) fails := by
  have hs : inv (⟨f, 0, []⟩ : Progress).func := hf
  exact Meets.foldlM hs fun _ _ _ hs => h.sweepBlock hs

theorem Keeps.runFor (h : p.Keeps inv fails) (n : Nat) {f : Func} (hf : inv f) :
    Meets (p.runFor n f) (fun o => inv o.func) fails := by
  induction n generalizing f with
  | zero => exact hf
  | succ n ih =>
    refine (h.sweep hf).bind fun s hs => ?_
    split
    · exact hs
    · exact (ih hs).bind fun o ho => ho

/-- What rewrites keep, a run keeps. -/
theorem Keeps.run (h : p.Keeps inv fails) {f : Func} (hf : inv f) :
    Meets (p.run f) (fun o => inv o.func) fails :=
  h.runFor p.maxIterations hf

/-! ### What a run comes to -/

/-- Whether a run with a number of sweeps left **visits** an attached instruction of a function: in
this sweep, after the blocks and the instructions before it, or in a later one. -/
inductive Visits (p : Pass) : Nat → Func → Func → InstId → Prop
  | now {n f front b back s is i js t} (blocks : f.blockIds = front ++ b :: back)
      (before : front.foldlM p.sweepBlock ⟨f, 0, []⟩ = .ok s)
      (insts : s.func.blockInsts b = is ++ i :: js) (above : is.foldlM p.attempt s = .ok t)
      (attached : t.func.isAttached i) : Visits p (n + 1) f t.func i
  | later {n f s g i} (sweep : p.sweep f = .ok s) (changed : s.replaced ≠ 0)
      (rest : Visits p n s.func g i) : Visits p (n + 1) f g i

/-- Whether an instruction of a function is passed over or rewritten without a fault. -/
def Succeeds (p : Pass) (f : Func) (i : InstId) : Prop :=
  ∀ result k r b, p.Selects f i result k r b → ∃ c, commit f i result r b = .ok c

theorem visit_ok_iff {s : Progress} {i : InstId} (hi : s.func.isAttached i) :
    (∃ t, p.visit s i = .ok t) ↔ p.Succeeds s.func i := by
  obtain ⟨hnone, t, ht, -⟩ | ⟨result, k, r, b, event, hsel, hvisit⟩ := visit_cases (p := p) hi
  · exact ⟨fun _ result k r b h => (hnone result k r b h).elim, fun _ => ⟨t, ht⟩⟩
  · rw [hvisit]
    constructor
    · rintro ⟨t, h⟩ result' k' r' b' hsel'
      obtain ⟨rfl, rfl, rfl⟩ := hsel.unique hsel'
      obtain ⟨c, hc, -⟩ := bind_eq_ok.mp h
      exact ⟨c, hc⟩
    · intro h
      obtain ⟨c, hc⟩ := h result k r b hsel
      exact ⟨_, by rw [hc]; rfl⟩

theorem attempt_ok_iff {s : Progress} {i : InstId} :
    (∃ t, p.attempt s i = .ok t) ↔ (s.func.isAttached i → p.Succeeds s.func i) := by
  unfold attempt
  split
  · next hi => simp only [visit_ok_iff hi, hi, forall_const]
  · next hi => simp [hi]

/-- A run succeeds exactly if every visit of it does. -/
theorem runFor_ok_iff {n : Nat} {f : Func} :
    (∃ o, p.runFor n f = .ok o) ↔ ∀ g i, p.Visits n f g i → p.Succeeds g i := by
  induction n generalizing f with
  | zero =>
    refine ⟨fun _ g i h => (by cases h), fun _ => ⟨_, rfl⟩⟩
  | succ n ih =>
    -- the visits of the first sweep; those of the others are the visits of a shorter run
    have hsweep : (∃ s, p.sweep f = .ok s) ↔ ∀ front b back s is i js t,
        f.blockIds = front ++ b :: back → front.foldlM p.sweepBlock ⟨f, 0, []⟩ = .ok s →
        s.func.blockInsts b = is ++ i :: js → is.foldlM p.attempt s = .ok t →
        t.func.isAttached i → p.Succeeds t.func i := by
      simp only [sweep, foldlM_ok_iff, sweepBlock_eq, attempt_ok_iff]
      constructor
      · intro h front b back s is i js t hb hs hi ht
        exact h front b back s hb hs is i js t hi ht
      · intro h front b back s hb hs is i js t hi ht
        exact h front b back s is i js t hb hs hi ht
    constructor
    · rintro ⟨o, h⟩ g i hv
      obtain ⟨s, hs, h⟩ := bind_eq_ok.mp h
      cases hv with
      | now blocks before insts above attached =>
        exact hsweep.mp ⟨s, hs⟩ _ _ _ _ _ _ _ _ blocks before insts above attached
      | later sweep changed rest =>
        rw [hs] at sweep
        cases sweep
        rw [if_neg changed] at h
        obtain ⟨o', ho', -⟩ := bind_eq_ok.mp h
        exact ih.mp ⟨o', ho'⟩ g i rest
    · intro h
      obtain ⟨s, hs⟩ := hsweep.mpr fun front b back s is i js t hb hs hi ht ha =>
        h t.func i (.now hb hs hi ht ha)
      rw [runFor, hs, ok_bind]
      by_cases hchanged : s.replaced = 0
      · exact ⟨_, by rw [if_pos hchanged]; rfl⟩
      · rw [if_neg hchanged]
        obtain ⟨o, ho⟩ := ih.mpr fun g i hv => h g i (.later hs hchanged hv)
        exact ⟨_, by rw [ho]; rfl⟩

/-- What a run visits satisfies what rewrites keep. -/
theorem Keeps.visits (h : p.Keeps inv fails) {n : Nat} {f g : Func} {i : InstId} (hf : inv f)
    (hv : p.Visits n f g i) : inv g ∧ g.isAttached i := by
  induction hv with
  | @now n f front b back s is i js t blocks before insts above attached =>
    have hs : inv (⟨f, 0, []⟩ : Progress).func := hf
    have hblocks : Meets (front.foldlM p.sweepBlock ⟨f, 0, []⟩) (fun s => inv s.func) fails :=
      Meets.foldlM hs fun _ _ _ hs => h.sweepBlock hs
    have habove : Meets (is.foldlM p.attempt s) (fun s => inv s.func) fails :=
      Meets.foldlM (hblocks.of_ok before) fun _ _ _ hs => h.attempt hs
    exact ⟨habove.of_ok above, attached⟩
  | later sweep changed rest ih => exact ih ((h.sweep hf).of_ok sweep)

end Pass

end Peephole
