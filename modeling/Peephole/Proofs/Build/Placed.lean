import Peephole.Proofs.Build.Realized

/-!
# Where replacements are placed

Everything that building adds to the layout stands in one piece, right before the instruction that
is replaced and in its block, `Inserts`. And each instruction has been **made for** an expression of
the replacement at a width, which are found among what has been built: there are no two instructions
for one slot and one width, `Records`.

An expression does not occur inside of itself. So while its sources are built nothing is recorded
under its slot, and it is recorded once.
-/

namespace Peephole

/-! ### Parts of patterns -/

namespace Pattern

/-- Whether a pattern **contains** another one, itself included. -/
inductive Contains : Pattern → Pattern → Prop
  | refl {p} : Contains p p
  | arg {slot e guard args p q} (mem : p ∈ args) (inside : Contains p q) :
      Contains (.expr slot e guard args) q

theorem Contains.sizeOf_le {p q : Pattern} (h : p.Contains q) : sizeOf q ≤ sizeOf p := by
  induction h with
  | refl => exact Nat.le_refl _
  | arg mem _ ih =>
    have hlt := List.sizeOf_lt_of_mem mem
    simp only [expr.sizeOf_spec]
    omega

/-- An expression is none of the parts of its sources. -/
theorem Contains.ne_expr {slot : Nat} {e : ExpressionSlot} {guard : Option InstPredicate}
    {args : List Pattern} {p q : Pattern} (hp : p ∈ args) (h : p.Contains q) :
    q ≠ .expr slot e guard args := by
  rintro rfl
  have hlt := List.sizeOf_lt_of_mem hp
  have hle := h.sizeOf_le
  simp only [expr.sizeOf_spec] at hle
  omega

end Pattern

/-! ### Instructions in front of an instruction -/

namespace Func

/-- Whether a function has new instructions right before an instruction of another function and in
its block, and otherwise the same instructions. -/
structure Inserts (f : Func) (c : InstId) (new : List InstId) (g : Func) : Prop where
  mem_new : ∀ {j}, j ∈ new ↔ f.inst? j = none ∧ (g.inst? j).isSome
  layout : ∃ front back, f.layout = front ++ c :: back ∧ g.layout = front ++ new ++ c :: back
  block : ∀ j ∈ new, (g.inst? j).bind (·.block) = (g.inst? c).bind (·.block)

variable {f g h : Func} {c i : InstId} {new : List InstId}

theorem inserts_refl (hc : c ∈ f.layout) : f.Inserts c [] f where
  mem_new {j} := by cases f.inst? j <;> simp
  layout := by
    obtain ⟨front, back, hl⟩ := List.append_of_mem hc
    exact ⟨front, back, hl, by rw [List.append_nil, hl]⟩
  block := by simp

theorem Inserts.congr (s : f.Inserts c new g) (hinsts : h.insts = g.insts)
    (hlayout : h.layout = g.layout) : f.Inserts c new h where
  mem_new := by
    simp only [inst?, hinsts]
    exact s.mem_new
  layout := by
    rw [hlayout]
    exact s.layout
  block := by
    simp only [inst?, hinsts]
    exact s.block

/-- An instruction is emitted into the block of the other one. -/
theorem block_of_emit {e e' : Func} {op : Opcode} {w : Nat} {exact : Bool} {vs : List ValueId}
    (hcreate : f.createInst op w vs = .ok (i, e)) (hexact : e.setExact i exact = .ok e')
    (hinsert : e'.insertBefore c i = .ok g) (hc : (f.inst? c).isSome) :
    (g.inst? i).bind (·.block) = (g.inst? c).bind (·.block) := by
  obtain ⟨d, b, front, back, hd, hb, ha⟩ := insertBefore_eq_ok hinsert
  have hne : c ≠ i := by
    rintro rfl
    rw [(createInst_eq_ok hcreate).absent] at hc
    cases hc
  obtain ⟨d', hd', -⟩ := ha.detached
  rw [ha.inst?, ha.inst?, if_pos rfl, if_neg hne, hd, hd']
  exact hb.symm

/-- What is emitted right before the other instruction comes after what is there already. -/
theorem Inserts.emit {op : Opcode} {w : Nat} {exact : Bool} {vs : List ValueId}
    (s : f.Inserts c new g) (hg : g.Coherent) (ext : f.Extends g)
    (em : g.Emits c op w exact vs i h)
    (hblock : (h.inst? i).bind (·.block) = (h.inst? c).bind (·.block)) :
    f.Inserts c (new ++ [i]) h := by
  obtain ⟨b, hi⟩ := em.inst?_self
  obtain ⟨front, back, hf, hl⟩ := s.layout
  have hnone : f.inst? i = none := by
    cases hd : f.inst? i with
    | none => rfl
    | some d => exact nomatch em.absent.symm.trans (ext.inst? hd)
  have hother {j : InstId} (hj : j ≠ i) : h.inst? j = g.inst? j := em.inst?_of_ne hj
  have hc : c ≠ i := by
    rintro rfl
    have := hg.exists_of_mem_layout (i := c) (by simp [hl])
    rw [em.absent] at this
    cases this
  constructor
  case mem_new =>
    intro j
    rw [List.mem_append, List.mem_singleton, s.mem_new]
    by_cases hj : j = i
    · simp [hj, hnone, hi]
    · rw [hother hj]
      simp [hj]
  case layout =>
    refine ⟨front, back, hf, ?_⟩
    obtain ⟨front', back', hl', hh⟩ := em.layout
    -- the other instruction has one place in the layout
    have hnodup := hg.nodup_layout
    rw [hl', List.nodup_middle, List.nodup_cons, List.mem_append, not_or] at hnodup
    obtain ⟨hfront, -, hback⟩ := (List.append_cons_inj_of_notMem hnodup.1.1 hnodup.1.2).mp
      (hl'.symm.trans hl)
    rw [hh, hfront, hback]
    simp
  case block =>
    intro j hj
    obtain hmem | hmem := List.mem_append.mp hj
    · have hne : j ≠ i := by
        rintro rfl
        have := (s.mem_new.mp hmem).2
        rw [em.absent] at this
        cases this
      rw [hother hne, hother hc]
      exact s.block j hmem
    · rw [List.mem_singleton.mp hmem]
      exact hblock

end Func

open Func

namespace Build

/-! ### What instructions are made for -/

/-- Whether an instruction has been **made for** the expression of a slot: it has the form of the
operation at the width, it is exact if the expression or what is replaced is, and its operands
realize the sources. -/
inductive MadeFor (P : Array Pattern) (site : Site) (f : Func) (d : Inst) : Nat → Prop
  | intro {slot e guard args} (resolved : P[slot]? = some (.expr slot e guard args))
      (form : e.op.withWidth? d.width = some d.opcode) (exact : d.exact = (e.exact || site.exact))
      (sources : RealizedAll f site.bindings site.cursor d.width args d.opcode.info.sourceWidths
        none d.operands) : MadeFor P site f d slot

/-- The slot and the width of something that has been built. -/
def key (entry : Nat × Nat × ValueId) : Nat × Nat := (entry.1, entry.2.1)

/-- What is recorded of building in a function: the new instructions stand right before the cursor,
no expression has been built twice at one width, and every new instruction has been made for one of
them. -/
structure Records (P : Array Pattern) (site : Site) (f : Func) (s : State) : Prop where
  inserts : ∃ new, f.Inserts site.cursor new s.func
  distinct : (s.built.map key).Nodup
  made : ∀ {j d}, s.func.inst? j = some d → f.inst? j = none →
    ∃ slot x, (slot, d.width, x) ∈ s.built ∧ d.result = some x ∧ MadeFor P site s.func d slot

/-- Whether whatever has been built in addition is an expression inside of some patterns. -/
def BuildsWithin (P : Array Pattern) (ps : List Pattern) (s s' : State) : Prop :=
  ∀ entry ∈ s'.built, entry ∈ s.built ∨
    ∃ p ∈ ps, ∃ q, p.Contains q ∧ P[entry.1]? = some q

variable {P : Array Pattern} {site : Site} {gone : List InstId} {f : Func} {s t u : State}

theorem built?_eq_none {slot w : Nat} (h : s.built? slot w = none) :
    (slot, w) ∉ s.built.map key := by
  intro hmem
  obtain ⟨⟨k, n, x⟩, hentry, heq⟩ := List.mem_map.mp hmem
  obtain ⟨rfl, rfl⟩ := Prod.mk.inj heq
  have hfind := Option.map_eq_none_iff.mp h
  simpa [key] using List.find?_eq_none.mp hfind _ hentry

theorem BuildsWithin.refl (ps : List Pattern) (s : State) : BuildsWithin P ps s s :=
  fun _ h => .inl h

theorem BuildsWithin.cons {p : Pattern} {ps : List Pattern} (hst : BuildsWithin P [p] s t)
    (htu : BuildsWithin P ps t u) : BuildsWithin P (p :: ps) s u := by
  intro entry hentry
  obtain hmem | ⟨q, hq, inside⟩ := htu entry hentry
  · obtain hmem | ⟨q, hq, inside⟩ := hst entry hmem
    · exact .inl hmem
    · exact .inr ⟨p, List.mem_cons_self, by rwa [List.mem_singleton.mp hq] at inside⟩
  · exact .inr ⟨q, List.mem_cons_of_mem p hq, inside⟩

theorem MadeFor.extends {g h : Func} {d : Inst} {slot : Nat} (hm : MadeFor P site g d slot)
    (e : g.Extends h) : MadeFor P site h d slot := by
  obtain ⟨resolved, form, exact, sources⟩ := hm
  exact ⟨resolved, form, exact, sources.extends e⟩

/-- A literal is not recorded. -/
theorem Records.literal {g : Func} {w : Nat} {bits : Word} {x : ValueId} (h : Records P site f s)
    (hs : s.func.Settled gone) (hlit : s.func.literal w bits = .ok (x, g)) (events : List Event) :
    Records P site f { s with func := g, events := events } := by
  obtain ⟨-, ext, hlayout, hinsts, -⟩ := hs.literal hlit
  obtain ⟨new, hnew⟩ := h.inserts
  refine ⟨⟨new, hnew.congr hinsts hlayout⟩, h.distinct, fun {j d} hj hnone => ?_⟩
  simp only [inst?, hinsts] at hj
  obtain ⟨slot, y, hmem, hres, hmade⟩ := h.made hj hnone
  exact ⟨slot, y, hmem, hres, hmade.extends ext⟩

/-- What has been added for an expression is recorded under its slot and its width. -/
theorem Records.emit {slot w : Nat} {e : ExpressionSlot} {guard : Option InstPredicate}
    {args : List Pattern} {op : Opcode} {vs : List ValueId} {x : ValueId} (h : Records P site f t)
    (ht : Sound P site gone t) (hext : f.Extends t.func)
    (resolved : P[slot]? = some (.expr slot e guard args)) (form : e.op.withWidth? w = some op)
    (sources : RealizedAll t.func site.bindings site.cursor w args op.info.sourceWidths none vs)
    (hfresh : (slot, w) ∉ t.built.map key) (hu : t.func.Extends u.func)
    (hemit : t.emit site op w e.exact vs = .ok (x, u)) :
    Records P site f { u with built := u.built ++ [(slot, w, x)] } := by
  obtain ⟨hbuilt, hcases⟩ := emit_eq_ok hemit
  have hdistinct : ((u.built ++ [(slot, w, x)]).map key).Nodup := by
    rw [hbuilt, List.map_append, List.map_singleton]
    exact h.distinct.append (List.nodup_singleton _) (by simpa [key] using hfresh)
  obtain ⟨_, _, -, -, hlit⟩ | ⟨i, g, g', hcreate, hexact, hinsert, hres⟩ := hcases
  · obtain ⟨hinserts, -, hmade⟩ := h.literal ht.settled hlit t.events
    refine ⟨hinserts, hdistinct, fun hj hnone => ?_⟩
    obtain ⟨slot', y, hmem, hrest⟩ := hmade hj hnone
    exact ⟨slot', y, List.mem_append_left _ (hbuilt ▸ hmem), hrest⟩
  · have em := emits_of_eq_ok hcreate hexact hinsert
    obtain ⟨new, hnew⟩ := h.inserts
    have hcursor := ht.settled.coherent.exists_of_mem_layout ht.cursor
    refine ⟨⟨new ++ [i], hnew.emit ht.settled.coherent hext em
      (block_of_emit hcreate hexact hinsert hcursor)⟩, hdistinct, fun {j d} hj hnone => ?_⟩
    by_cases hji : j = i
    · subst hji
      obtain ⟨b, hi⟩ := em.inst?_self
      obtain rfl := Option.some.inj (hi.symm.trans hj)
      rw [result?, hi, Option.bind_some] at hres
      exact ⟨slot, x, List.mem_append_right _ (List.mem_singleton_self _), hres,
        ⟨resolved, form, rfl, sources.extends hu⟩⟩
    · obtain ⟨slot', y, hmem, hres', hmade⟩ := h.made ((em.inst?_of_ne hji).symm.trans hj) hnone
      exact ⟨slot', y, List.mem_append_left _ (hbuilt ▸ hmem), hres', hmade.extends hu⟩

mutual

/-- What is recorded of building stays recorded. -/
theorem records_of_value :
    ∀ (p : Pattern) (expected : Option Nat) (s s' : State) (x : ValueId), p.WellFormed P →
      Sound P site gone s → f.Extends s.func → Records P site f s →
      value site p expected s = .ok (x, s') → Records P site f s' ∧ BuildsWithin P [p] s s'
  | .var v guard, expected, s, s', x, _, hs, _, hrec, h => by
    rw [value] at h
    split at h
    · cases h
      exact ⟨hrec, .refl _ s⟩
    · cases h
  | .const slot k, expected, s, s', x, _, hs, _, hrec, h => by
    rw [value] at h
    split at h
    · cases h
    · obtain ⟨bits, -, h⟩ := bind_eq_ok.mp h
      obtain ⟨⟨y, g⟩, hlit, h⟩ := bind_eq_ok.mp h
      cases h
      exact ⟨hrec.literal hs.settled hlit s.events, .refl _ s⟩
  | .expr slot e guard args, expected, s, s', x, hp, hs, hext, hrec, h => by
    cases hp with
    | expr resolved _ _ hargs =>
    obtain ⟨w, -, ⟨-, rfl⟩ | ⟨hnone, op, xs, t, u, hop, hvalues, hemit, rfl⟩⟩ :=
      value_expr_eq_ok h
    · exact ⟨hrec, .refl _ s'⟩
    · obtain ⟨ht, hst, hsources, hknown, hav⟩ :=
        realizedAll_of_values args w op.info.sourceWidths none s t xs hargs hs hvalues
      obtain ⟨hu, htu, -⟩ := ht.emit slot guard hop hsources hknown hav hemit
      obtain ⟨htrec, hwithin⟩ :=
        records_of_values args w op.info.sourceWidths none s t xs hargs hs hext hrec hvalues
      -- the sources have been built without the expression around them
      have hfresh : (slot, w) ∉ t.built.map key := by
        intro hmem
        obtain ⟨⟨k, n, y⟩, hentry, heq⟩ := List.mem_map.mp hmem
        obtain ⟨rfl, rfl⟩ := Prod.mk.inj heq
        obtain hold | ⟨p, hp, q, inside, hq⟩ := hwithin _ hentry
        · exact built?_eq_none hnone (List.mem_map_of_mem hold)
        · exact inside.ne_expr hp (Option.some.inj (hq.symm.trans resolved))
      refine ⟨htrec.emit ht (hext.trans hst) resolved hop hsources hfresh htu hemit, ?_⟩
      intro entry hentry
      obtain hentry | hentry := List.mem_append.mp hentry
      · rw [(emit_eq_ok hemit).1] at hentry
        obtain hold | ⟨p, hp, q, inside, hq⟩ := hwithin entry hentry
        · exact .inl hold
        · exact .inr ⟨_, List.mem_singleton_self _, q, .arg hp inside, hq⟩
      · rw [List.mem_singleton.mp hentry]
        exact .inr ⟨_, List.mem_singleton_self _, _, .refl, resolved⟩

theorem records_of_values :
    ∀ (ps : List Pattern) (w : Nat) (sws : List SourceWidth) (paired : Option Nat) (s s' : State)
      (xs : List ValueId), (∀ p ∈ ps, p.WellFormed P) → Sound P site gone s → f.Extends s.func →
      Records P site f s → values site w ps sws paired s = .ok (xs, s') →
      Records P site f s' ∧ BuildsWithin P ps s s'
  | [], w, sws, paired, s, s', xs, _, hs, _, hrec, h => by
    simp only [values] at h
    cases h
    exact ⟨hrec, .refl _ s⟩
  | p :: ps, w, [], paired, s, s', xs, _, hs, _, hrec, h => by
    simp only [values] at h
    cases h
    exact ⟨hrec, .refl _ s⟩
  | p :: ps, w, sw :: sws, paired, s, s', xs, hps, hs, hext, hrec, h => by
    rw [List.forall_mem_cons] at hps
    obtain ⟨x, t, next, ys, hvalue, -, hvalues, rfl⟩ := values_cons_eq_ok h
    obtain ⟨ht, hst, -⟩ := realized_of_value p _ s t x hps.1 hs hvalue
    obtain ⟨htrec, hfirst⟩ := records_of_value p _ s t x hps.1 hs hext hrec hvalue
    obtain ⟨hurec, hothers⟩ :=
      records_of_values ps w sws next t s' ys hps.2 ht (hext.trans hst) htrec hvalues
    exact ⟨hurec, hfirst.cons hothers⟩

end

end Build

end Peephole
