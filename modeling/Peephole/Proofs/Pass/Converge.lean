import Peephole.Proofs.Build.Clash
import Peephole.Proofs.Match.Before
import Peephole.Proofs.Pass.Frame

/-!
# Runs that converge

An instruction is **quiet** when no rule is selected for it. A rule set is **inert** when its search
patterns are bare and clash with every expression that a replacement builds: then what is built is
quiet, and what comes before a rewrite stays quiet, since it does not see the rewrite,
`quiet_of_commit`.

So one sweep leaves a quiet function behind, `exists_sweep`, the next one has nothing to do, and a
run that may sweep twice reaches its fixpoint, `run_converges`.
-/

namespace Peephole

/-- Whether a rule set is **inert**: its search patterns are bare, and clash with whatever its
replacements build. -/
structure RuleSet.IsInert (rs : RuleSet) : Prop where
  bare : ∀ (k : Nat) r, rs.rules[k]? = some r → r.search.isBare
  clash : ∀ (k : Nat) r, rs.rules[k]? = some r →
    r.replace.EveryExpr fun p => ∀ (k' : Nat) r', rs.rules[k']? = some r' → p.clashes r'.search

open Func

/-- Every instruction that is built for a replacement realizes an expression of it. -/
theorem Rule.Admitted.emerges_of_build {f g : Func} {gone : List InstId} {P : Array Pattern}
    {r : Rule} {i : InstId} {b : Bindings} {x : ValueId} {events : List Event}
    {Q : Pattern → Prop} (hr : r.Admitted P) (hreach : Reachable f gone) (hf : f.Settled gone)
    (hi : i ∈ f.layout) (hm : r.matchInst f i = some b) (hQ : r.replace.EveryExpr Q)
    (h : r.replace.build f b i = .ok (x, g, events)) : Emerges Q b i f g := by
  unfold Pattern.build at h
  obtain ⟨d, -, h⟩ := bind_eq_ok.mp h
  obtain ⟨⟨y, s⟩, hvalue, h⟩ := bind_eq_ok.mp h
  cases h
  exact Build.emerges_of_value r.replace _ _ s _ hr.replace (hr.sound hreach hf hi hm d.exact)
    hvalue hQ

/-- Every instruction that is built comes before the instruction that is replaced. -/
theorem Emerges.precedes {Q : Pattern → Prop} {b : Bindings} {i j : InstId} {f g : Func}
    (h : Emerges Q b i f g) (hg : g.Coherent) (hj : j ∈ g.layout) (hnone : f.inst? j = none) :
    g.Precedes j i := by
  obtain ⟨q, expected, y, -, hreal, hy⟩ := h j hj hnone
  exact hg.definer_precedes hreal.available (hg.definer?_eq_some.mpr hy)

namespace Pass

open Func Pattern

variable {p : Pass} {t : RuleTable} {rs : RuleSet} {f g : Func} {gone : List InstId} {i : InstId}

/-! ### What stays quiet -/

theorem quiet_of_matchInst_eq_none
    (h : ∀ (k : Nat) r, p.rules.rules[k]? = some r → r.matchInst f i = none) : p.Quiet f i := by
  rintro result k r b ⟨d, -, -, -, hfirst⟩
  obtain ⟨-, hr, -, hm⟩ := firstMatch_eq_some hfirst
  rw [h k r hr] at hm
  cases hm

/-- What comes before an instruction stays quiet as long as nothing changes there. -/
theorem Quiet.of_sameBefore {c : InstId} (h : p.Quiet f i) (hf : f.Coherent) (hd : f.Defined)
    (e : f.SameBefore c g) (hi : f.Precedes i c)
    (hbare : ∀ (k : Nat) r, p.rules.rules[k]? = some r → r.search.isBare) : p.Quiet g i := by
  rintro result k r b ⟨d', hd', hres, hrun, hfirst⟩
  obtain ⟨d, hinst⟩ := Option.isSome_iff_exists.mp (hf.exists_of_mem_layout hi.mem_left)
  obtain ⟨blk, hinst'⟩ := e.inst? hi hinst
  obtain rfl := Option.some.inj (hinst'.symm.trans hd')
  have hmatch (run : Run) : p.firstMatch g i run = p.firstMatch f i run := by
    unfold firstMatch
    congr 1
    funext k
    cases hr : p.rules.rules[k]? with
    | none => rfl
    | some r =>
      dsimp only
      rw [Rule.matchInst_congr hf hd e (hbare k r hr) hi]
  exact h result k r b ⟨d, hinst, hres, hrun, hmatch _ ▸ hfirst⟩

/-! ### One rewrite -/

section Commit

variable {P : Array Pattern} {r : Rule} {b : Bindings} {result : ValueId} {events : List Event}
  (hr : r.Admitted P) (hreach : Reachable f gone) (hf : f.Settled gone) (hi : i ∈ f.layout)
  (hres : f.result? i = some result) (hm : r.matchInst f i = some b)
  (h : commit f i result r b = .ok (g, events))
include hr hreach hf hi hres hm h

/-- The instructions of an inert replacement are quiet, and those before it stay so. What comes
after it keeps its place or is erased. -/
theorem quiet_of_commit {front back : List InstId} (hl : f.layout = front ++ i :: back)
    (hbare : ∀ (k : Nat) r, p.rules.rules[k]? = some r → r.search.isBare)
    (hclash : r.replace.EveryExpr fun q =>
      ∀ (k : Nat) r', p.rules.rules[k]? = some r' → q.clashes r'.search)
    (hquiet : ∀ j ∈ front, p.Quiet f j) :
    ∃ front', g.layout = front' ++ back.filter (g.isAttached ·) ∧
      ∀ j ∈ front', p.Quiet g j := by
  have hout := not_isAttached_of_commit hr hreach hf hi hres hm h
  obtain ⟨x, e, is, -, hbuild, herase, -⟩ := commit_eq_ok hr hreach hf hi hres hm h
  obtain ⟨d, hd, -, hset, hext, hi', hreal⟩ := hr.build_eq_ok hreach hf hi hm hbuild
  have hemerges := hr.emerges_of_build hreach hf hi hm hclash hbuild
  obtain ⟨A, B, hsplit⟩ := List.append_of_mem hi'
  -- everything new comes before the instruction, so that what comes after it has been there
  have hnodup := hset.coherent.nodup_layout
  rw [hsplit] at hnodup
  have hiAB := (List.nodup_cons.mp (List.nodup_middle.mp hnodup)).1
  have hB : B.filter (fun j => (f.inst? j).isSome) = B := by
    refine List.filter_eq_self.mpr fun j hj => ?_
    by_contra hnone
    have hjA := (hset.coherent.precedes_iff hsplit).mp
      (hemerges.precedes hset.coherent (by rw [hsplit]; simp [hj])
        (Option.not_isSome_iff_eq_none.mp hnone))
    exact (List.nodup_append'.mp hnodup).2.2 hjA (List.mem_cons_of_mem i hj)
  have hsame : front = A.filter (fun j => (f.inst? j).isSome) ∧ back = B := by
    have hlayout := hext.layout
    rw [hl, hsplit, List.filter_append, List.filter_cons_of_pos (by rw [hd]; rfl), hB] at hlayout
    have hnodup := hf.coherent.nodup_layout
    rw [hl] at hnodup
    have hifront := (List.nodup_cons.mp (List.nodup_middle.mp hnodup)).1
    rw [List.mem_append, not_or] at hifront
    obtain ⟨hfront, -, hback⟩ :=
      (List.append_cons_inj_of_notMem hifront.1 hifront.2).mp hlayout
    exact ⟨hfront, hback⟩
  obtain ⟨rfl, rfl⟩ := hsame
  have hattached (j : InstId) (hj : j ∈ e.layout) : g.isAttached j ↔ j ∉ is := by
    rw [herase.isAttached_iff, isAttached_replaceAllUses, ← hset.coherent.mem_layout]
    exact and_iff_right hj
  have hiis : i ∈ is := not_not.mp fun hnot => hout ((hattached i hi').mpr hnot)
  refine ⟨A.filter (· ∉ is), ?_, fun j hj => ?_⟩
  · obtain ⟨-, -, hmoved⟩ := settled_replaceAllUses hr hreach hf hi hres hm hbuild
    rw [hmoved.coherent.layout_erases herase, layout_replaceAllUses, hsplit, List.filter_append,
      List.filter_cons_of_neg (by simpa using hiis)]
    congr 1
    refine List.filter_congr fun j hj => ?_
    rw [Bool.eq_iff_iff, hattached j (by rw [hsplit]; simp [hj]), decide_eq_true_iff]
  · obtain ⟨hjA, -⟩ := List.mem_filter.mp hj
    have hprec : e.Precedes j i := (hset.coherent.precedes_iff hsplit).mpr hjA
    have hje : p.Quiet e j := by
      cases hjf : f.inst? j with
      | some dj =>
        have hjfront : j ∈ A.filter fun j => (f.inst? j).isSome :=
          List.mem_filter.mpr ⟨hjA, by rw [hjf]; rfl⟩
        exact (hquiet j hjfront).of_sameBefore hf.coherent hf.defined
          (hext.sameBefore hf.coherent) ((hf.coherent.precedes_iff hl).mpr hjfront) hbare
      | none =>
        obtain ⟨q, expected, y, hq, hreal', hy⟩ := hemerges j hprec.mem_left hjf
        exact quiet_of_matchInst_eq_none fun k r' hr' =>
          hreal'.matchInst_eq_none hset.coherent (hq k r' hr') hy
    exact hje.of_sameBefore hset.coherent hset.defined
      (hset.sameBefore_of_erases (hext.result? hres) hreal.available herase) hprec hbare

end Commit

/-! ### One sweep -/

/-- Whether everything in a function is quiet but what is still to be visited. -/
structure Swept (p : Pass) (f : Func) (pending : List InstId) : Prop where
  known : ∀ j ∈ pending, (f.inst? j).isSome
  split : ∃ done, f.layout = done ++ pending.filter (f.isAttached ·) ∧ ∀ j ∈ done, p.Quiet f j

/-- Whether everything in the blocks before some position is quiet. -/
def QuietBelow (p : Pass) (f : Func) (k : Nat) : Prop :=
  ∀ b : BlockId, b.index < k → ∀ j ∈ f.blockInsts b, p.Quiet f j

/-- A sweep over a quiet function does nothing. -/
theorem sweep_of_quiet (hf : f.Coherent) (h : ∀ j ∈ f.layout, p.Quiet f j) :
    ∃ u, p.sweep f = .ok u ∧ u.func = f ∧ u.replaced = 0 := by
  have hattempt (s : Progress) (i : InstId) (hs : s.func = f ∧ s.replaced = 0) :
      Meets (p.attempt s i) (fun u => u.func = f ∧ u.replaced = 0) fun _ => False := by
    unfold attempt
    split
    · next hi =>
      obtain ⟨-, u, hu, hfunc, hreplaced⟩ | ⟨result, k, r, b, event, hsel, -⟩ :=
        visit_cases (p := p) hi
      · rw [hu, Meets.ok_iff, hfunc, hreplaced]
        exact hs
      · rw [hs.1] at hsel hi
        exact (h i (hf.mem_layout.mpr hi) result k r b hsel).elim
    · exact hs
  have hsweep : Meets (p.sweep f) (fun u => u.func = f ∧ u.replaced = 0) fun _ => False :=
    Meets.foldlM ⟨rfl, rfl⟩ fun s b _ hs => Meets.foldlM hs fun s i _ hs => hattempt s i hs
  exact hsweep.exists_ok

section Sweep

variable {inv : Func → Prop} (hload : RuleSet.load t = .ok rs) (hp : p.rules = rs)
  (hinert : rs.IsInert) (hkeeps : p.Keeps inv fun _ => False)
  (hinv : ∀ f, inv f → ∃ gone, Reachable f gone ∧ f.Settled gone)
include hload hp hinert hkeeps hinv

/-- A visit leaves an instruction quiet or detached, and what was quiet stays so. -/
theorem exists_attempt {s : Progress} {pending : List InstId} (hs : inv s.func)
    (h : p.Swept s.func (i :: pending)) : ∃ u, p.attempt s i = .ok u ∧ inv u.func ∧
      p.Swept u.func pending ∧ s.func.Spares u.func := by
  obtain ⟨gone, hreach, hset⟩ := hinv s.func hs
  obtain ⟨done, hl, hdone⟩ := h.split
  have hknown := (List.forall_mem_cons.mp h.known).2
  unfold attempt
  by_cases hi : s.func.isAttached i
  · rw [List.filter_cons_of_pos hi] at hl
    rw [if_pos hi]
    obtain ⟨hquiet, u, hu, hfunc, -⟩ | ⟨result, k, r, b, event, hsel, hvisit⟩ :=
      visit_cases (p := p) hi
    · refine ⟨u, hu, by rwa [hfunc], ?_, by rw [hfunc]; exact .refl hset.coherent⟩
      rw [hfunc]
      refine ⟨hknown, done ++ [i], by rw [hl]; simp, fun j hj => ?_⟩
      obtain hj | hj := List.mem_append.mp hj
      · exact hdone j hj
      · rwa [List.mem_singleton.mp hj]
    · obtain ⟨d, hd, hres, -, hfirst⟩ := hsel
      obtain ⟨-, hr, -, hm⟩ := firstMatch_eq_some hfirst
      have hresult : s.func.result? i = some result := by
        rw [result?, hd, Option.bind_some, hres]
      obtain ⟨c, hc, hinvc⟩ := (hkeeps s.func i result k r b hs hi hresult hr hm).exists_ok
      rw [hp] at hr
      have hadm := RuleSet.admitted_of_load hload hr
      have hi' := hset.coherent.mem_layout.mpr hi
      have hspares := spares_of_commit hadm hreach hset hi' hresult hm hc
      obtain ⟨front, hfront, hquiet⟩ := quiet_of_commit (p := p) hadm hreach hset hi' hresult hm hc
        hl (hp ▸ hinert.bare) (hp ▸ hinert.clash k r hr) hdone
      refine ⟨_, by rw [hvisit, hc]; rfl, hinvc,
        ⟨fun j hj => hspares.exists_inst (hknown j hj), front, ?_, hquiet⟩, hspares⟩
      -- what is attached after the rewrite has been so before
      rw [hfront, List.filter_filter]
      congr 1
      refine List.filter_congr fun j hj => ?_
      rw [Bool.and_eq_left_iff_imp]
      exact hspares.isAttached (hknown j hj)
  · rw [List.filter_cons_of_neg hi] at hl
    rw [if_neg hi]
    exact ⟨s, rfl, hs, ⟨hknown, done, hl, hdone⟩, .refl hset.coherent⟩

theorem exists_foldlM_attempt {pending : List InstId} (is : List InstId) {s : Progress}
    (hs : inv s.func) (h : p.Swept s.func (is ++ pending)) :
    ∃ u, is.foldlM p.attempt s = .ok u ∧ inv u.func ∧ p.Swept u.func pending ∧
      s.func.Spares u.func := by
  induction is generalizing s with
  | nil =>
    obtain ⟨gone, -, hset⟩ := hinv s.func hs
    exact ⟨s, rfl, hs, h, .refl hset.coherent⟩
  | cons i is ih =>
    obtain ⟨gone, -, hset⟩ := hinv s.func hs
    obtain ⟨u, hu, hinvu, hswept, hspares⟩ := exists_attempt hload hp hinert hkeeps hinv hs h
    obtain ⟨v, hv, hinvv, hswept', hspares'⟩ := ih hinvu hswept
    exact ⟨v, by rw [List.foldlM_cons, hu, ok_bind, hv], hinvv, hswept',
      hspares.trans hset.coherent hspares'⟩

/-- Going over a block leaves it quiet, and the blocks before it stay so. -/
theorem exists_sweepBlock {s : Progress} {k : Nat} (hk : k < s.func.blocks.size)
    (hs : inv s.func) (h : p.QuietBelow s.func k) : ∃ u, p.sweepBlock s ⟨k⟩ = .ok u ∧
      inv u.func ∧ p.QuietBelow u.func (k + 1) ∧ s.func.Spares u.func := by
  obtain ⟨gone, -, hset⟩ := hinv s.func hs
  have hlayout := s.func.layout_eq_append hk
  have hmem (j : InstId) (hj : j ∈ s.func.blockInsts ⟨k⟩ ++
      (s.func.blocks.toList.drop (k + 1)).flatten) : j ∈ s.func.layout := by
    rw [hlayout]
    exact List.mem_append_right _ hj
  have hswept : p.Swept s.func (s.func.blockInsts ⟨k⟩ ++
      (s.func.blocks.toList.drop (k + 1)).flatten) := by
    refine ⟨fun j hj => hset.coherent.exists_of_mem_layout (hmem j hj),
      (s.func.blocks.toList.take k).flatten, ?_, fun j hj => ?_⟩
    · rw [List.filter_eq_self.mpr fun j hj => hset.coherent.mem_layout.mp (hmem j hj)]
      exact hlayout
    · obtain ⟨b, hb, hjb⟩ := exists_of_mem_take hj
      exact h b hb j hjb
  obtain ⟨u, hu, hinvu, hswept', hspares⟩ :=
    exists_foldlM_attempt hload hp hinert hkeeps hinv _ hs hswept
  refine ⟨u, hu, hinvu, fun b hb j hj => ?_, hspares⟩
  obtain ⟨gone', -, hset'⟩ := hinv u.func hinvu
  obtain ⟨done, hl, hdone⟩ := hswept'.split
  have hju : j ∈ u.func.layout := mem_layout_iff.mpr ⟨b, hj⟩
  rw [hl] at hju
  obtain hju | hju := List.mem_append.mp hju
  · exact hdone j hju
  · -- what is still to be visited belongs to later blocks
    obtain ⟨b', hb', hj'⟩ := exists_of_mem_drop (List.mem_filter.mp hju).1
    obtain rfl := hspares.mem_blockInsts hset.coherent hset'.coherent hj' hj
    omega

/-- A sweep leaves a quiet function. -/
theorem exists_sweep (hf : inv f) : ∃ u, p.sweep f = .ok u ∧ inv u.func ∧
    ∀ j ∈ u.func.layout, p.Quiet u.func j := by
  obtain ⟨gone, -, hset⟩ := hinv f hf
  have hblocks (n : Nat) (hn : n ≤ f.blocks.size) :
      ∃ u, ((List.range n).map BlockId.mk).foldlM p.sweepBlock ⟨f, 0, []⟩ = .ok u ∧
        inv u.func ∧ p.QuietBelow u.func n ∧ f.Spares u.func := by
    induction n with
    | zero => exact ⟨⟨f, 0, []⟩, rfl, hf, fun b hb => by omega, .refl hset.coherent⟩
    | succ n ih =>
      obtain ⟨u, hu, hinvu, hquiet, hspares⟩ := ih (Nat.le_of_succ_le hn)
      have hlt : n < u.func.blocks.size := by rw [hspares.size]; exact hn
      obtain ⟨v, hv, hinvv, hquiet', hspares'⟩ :=
        exists_sweepBlock hload hp hinert hkeeps hinv hlt hinvu hquiet
      refine ⟨v, ?_, hinvv, hquiet', hspares.trans hset.coherent hspares'⟩
      rw [List.range_succ, List.map_append, List.foldlM_append, hu, ok_bind]
      simp [hv]
  obtain ⟨u, hu, hinvu, hquiet, hspares⟩ := hblocks f.blocks.size (Nat.le_refl _)
  refine ⟨u, hu, hinvu, fun j hj => ?_⟩
  obtain ⟨b, hb⟩ := mem_layout_iff.mp hj
  refine hquiet b ?_ j hb
  by_contra hlt
  rw [← hspares.size] at hlt
  simp [blockInsts, hlt] at hb

/-- A run of an inert rule set that may sweep twice reaches its fixpoint, and leaves a quiet
function. -/
theorem run_converges (hcap : 2 ≤ p.maxIterations) (hf : inv f) :
    ∃ o, p.run f = .ok o ∧ inv o.func ∧ o.fixpoint = true ∧ o.iterations ≤ 2 ∧
      ∀ j ∈ o.func.layout, p.Quiet o.func j := by
  obtain ⟨n, hn⟩ := Nat.exists_eq_add_of_le' hcap
  obtain ⟨s, hs, hinvs, hquiet⟩ := exists_sweep hload hp hinert hkeeps hinv hf
  rw [run, hn, runFor, hs, ok_bind]
  by_cases hreplaced : s.replaced = 0
  · rw [if_pos hreplaced]
    exact ⟨_, rfl, hinvs, rfl, by simp, hquiet⟩
  · obtain ⟨gone, -, hset⟩ := hinv s.func hinvs
    obtain ⟨u, hu, hfunc, hzero⟩ := sweep_of_quiet hset.coherent hquiet
    rw [if_neg hreplaced, runFor, hu, ok_bind, if_pos hzero]
    refine ⟨_, rfl, ?_, rfl, Nat.le_refl _, ?_⟩
    · simpa only [hfunc] using hinvs
    · simpa only [hfunc] using hquiet

end Sweep

end Pass

end Peephole
