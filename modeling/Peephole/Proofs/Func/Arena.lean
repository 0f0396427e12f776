import Peephole.Func.Arena
import Peephole.Proofs.Func.Replace
import Peephole.Proofs.Func.Validate
import Peephole.Proofs.Width

/-!
# Consistent arenas

The tables of an arena that edits lead to agree with each other, `Arena.consistent_of_leads`. Those
of the function agree since it is coherent. The two beside it are **in step** with it: most edits
make neither blocks nor literals, `Arena.Edit.inversion`, and the two that do make an entry for what
they make. A literal that has been interned is found again after every other edit, so that requests
tell literals by their widths and by the bits within them, and by nothing else.
-/

namespace Peephole

namespace Func

variable {f g h : Func}

/-! ### Edits without entries -/

/-- Functions with **the same entries** have the same blocks and the same literals. -/
structure SameEntries (f g : Func) : Prop where
  blocks : g.blocks.size = f.blocks.size
  literal {v bits w} : g.value? v = some ⟨.literal bits, w⟩ ↔ f.value? v = some ⟨.literal bits, w⟩

theorem SameEntries.of_value? (hblocks : g.blocks.size = f.blocks.size)
    (hvalue : ∀ v, g.value? v = f.value? v) : f.SameEntries g :=
  ⟨hblocks, fun {v} => by rw [hvalue v]⟩

theorem SameEntries.trans (hfg : f.SameEntries g) (hgh : g.SameEntries h) : f.SameEntries h :=
  ⟨hgh.blocks.trans hfg.blocks, hgh.literal.trans hfg.literal⟩

theorem AddsValue.sameEntries {o : Origin} {w : Nat} {v : ValueId} (e : f.AddsValue o w v g)
    (ho : ∀ bits, o ≠ .literal bits) : f.SameEntries g where
  blocks := by rw [e.blocks]
  literal {x bits n} := by
    rw [e.value?]
    split
    · next hx =>
      subst hx
      simp [e.absent, ho]
    · rfl

theorem Creates.sameEntries {op : Opcode} {w : Nat} {operands : List ValueId} {i : InstId}
    (e : f.Creates op w operands i g) : f.SameEntries g where
  blocks := by rw [e.blocks]
  literal {x bits n} := by
    rw [e.value?]
    split
    · next hx => simp [hx.2, value?_size]
    · rfl

theorem Attaches.sameEntries {i : InstId} {b : BlockId} {before after : List InstId}
    (e : f.Attaches i b before after g) : f.SameEntries g :=
  .of_value? e.blocks_size e.value?

theorem sameEntries_detach (f : Func) (i : InstId) : f.SameEntries (f.detach i) :=
  .of_value? (size_blocks_detach f i) (value?_detach f i)

theorem SameButChains.sameEntries (e : SameButChains f g) : f.SameEntries g :=
  .of_value? (by rw [e.blocks]) e.value?

end Func

namespace Arena

open Func

variable {a b c : Arena}

/-- What an edit comes to: a request for a literal, a new block, or an edit of the function that
leaves its blocks and literals alone. -/
theorem Edit.inversion (e : Edit a b) :
    (∃ w x v, a.literal w x = .ok (v, b)) ∨ (∃ k, a.createBlock = (k, b)) ∨
      ∃ g now, b = { a with func := g } ∧ a.func.Edit now g ∧ a.func.SameEntries g := by
  cases e with
  | literal h => exact .inl ⟨_, _, _, h⟩
  | createBlock h => exact .inr (.inl ⟨_, h⟩)
  | addParam h =>
    obtain ⟨-, e, -⟩ := addParam_eq_ok h
    exact .inr (.inr ⟨_, _, rfl, .addParam h, e.sameEntries (by simp)⟩)
  | createInst known h =>
    exact .inr (.inr ⟨_, _, rfl, .createInst known h, (createInst_eq_ok h).sameEntries⟩)
  | append known h =>
    obtain ⟨_, hcreate, hpush⟩ := append_eq_ok h
    have hsame := (createInst_eq_ok hcreate).sameEntries.trans (pushInst_eq_ok hpush).sameEntries
    exact .inr (.inr ⟨_, _, rfl, .append known h, hsame⟩)
  | setExact h =>
    obtain ⟨-, rfl⟩ := setExact_eq_ok h
    exact .inr (.inr ⟨_, _, rfl, .setExact h, .of_value? rfl fun _ => rfl⟩)
  | pushInst h => exact .inr (.inr ⟨_, _, rfl, .pushInst h, (pushInst_eq_ok h).sameEntries⟩)
  | insertBefore h =>
    obtain ⟨_, _, _, _, -, -, e⟩ := insertBefore_eq_ok h
    exact .inr (.inr ⟨_, _, rfl, .insertBefore h, e.sameEntries⟩)
  | detachInst h =>
    obtain rfl := detachInst_eq_ok h
    exact .inr (.inr ⟨_, _, rfl, .detachInst h, sameEntries_detach _ _⟩)
  | removeInst h =>
    obtain ⟨_, -, -, rfl⟩ := removeInst_eq_ok h
    exact .inr (.inr ⟨_, _, rfl, .removeInst h, (sameButChains_release _ _).sameEntries⟩)
  | eraseDead h =>
    obtain ⟨_, -, herase⟩ := eraseDead_eq_ok h
    exact .inr (.inr ⟨_, _, rfl, .eraseDead h, .of_value? herase.size herase.value?⟩)
  | replaceAllUses knownOld knownNew =>
    obtain ⟨-, -, -, hblocks⟩ := frame_replaceAllUses a.func _ _
    exact .inr (.inr ⟨_, _, rfl, .replaceAllUses knownOld knownNew,
      .of_value? (by rw [hblocks]) (value?_replaceAllUses _ _ _)⟩)

/-! ### Tables in step -/

/-- An arena is **in step** with its function when the tables beside it repeat it: the order has
its blocks, and the interning table has its literals. -/
structure InStep (a : Arena) : Prop where
  order : a.order = a.func.blockIds
  interned {v bits w} : a.interned.lookup (w, bits) = some v ↔
    a.func.value? v = some ⟨.literal bits, w⟩

theorem inStep_empty (name : String) : (empty name).InStep where
  order := rfl
  interned := by simp [empty, Func.empty, value?]

/-- Every literal of a function has its entry in the table that is read off the function. -/
theorem mem_interned_ofFunc {f : Func} {v : ValueId} {bits : Word} {w : Nat} :
    ((w, bits), v) ∈ (ofFunc f).interned ↔ f.value? v = some ⟨.literal bits, w⟩ := by
  rw [ofFunc, List.mem_filterMap]
  constructor
  · rintro ⟨x, -, hx⟩
    split at hx
    · next hvalue =>
      cases hx
      exact hvalue
    · cases hx
  · intro hv
    exact ⟨v, mem_valueIds.mpr (by rw [hv]; rfl), by rw [hv]⟩

/-- The tables that are read off a coherent function are in step with it. -/
theorem inStep_ofFunc {f : Func} (hf : f.Coherent) : (ofFunc f).InStep where
  order := rfl
  interned {v bits w} := by
    have hfound {x : ValueId} (h : (ofFunc f).interned.lookup (w, bits) = some x) :
        f.value? x = some ⟨.literal bits, w⟩ := by
      obtain ⟨l, r, heq, -⟩ := List.lookup_eq_some_iff.mp h
      exact mem_interned_ofFunc.mp (heq ▸ List.mem_append_right l List.mem_cons_self)
    refine ⟨hfound, fun hv => ?_⟩
    have hsome : ((ofFunc f).interned.lookup (w, bits)).isSome :=
      List.lookup_isSome_iff.mpr ⟨_, mem_interned_ofFunc.mpr hv, beq_self_eq_true _⟩
    obtain ⟨x, hx⟩ := Option.isSome_iff_exists.mp hsome
    obtain rfl := hf.interned hv (hfound hx)
    exact hx

theorem InStep.sameEntries {g : Func} (hs : a.InStep) (e : a.func.SameEntries g) :
    InStep { a with func := g } where
  order := by
    rw [hs.order, blockIds, blockIds, e.blocks]
  interned := hs.interned.trans e.literal.symm

/-- A new block is entered at the end of the order. -/
theorem createBlock_eq {k : BlockId} (h : a.createBlock = (k, b)) :
    a.func.createBlock = (k, b.func) ∧ b.order = a.order ++ [k] ∧ b.interned = a.interned := by
  unfold Arena.createBlock at h
  cases h
  exact ⟨rfl, rfl, rfl⟩

theorem InStep.createBlock {k : BlockId} (hs : a.InStep) (h : a.createBlock = (k, b)) :
    b.InStep := by
  obtain ⟨hfunc, horder, hinterned⟩ := createBlock_eq h
  injection hfunc with hk hfunc
  subst hk
  refine ⟨?_, fun {v bits w} => ?_⟩
  · rw [horder, ← hfunc, hs.order]
    simp [blockIds, List.range_succ]
  · rw [hinterned, ← hfunc, hs.interned]
    rfl

section Literal

variable {w : Nat} {x : Word} {v : ValueId}

/-- A request for a literal leads to the one that the table has, or to a new one that is entered
there. -/
theorem literal_eq_ok (h : a.literal w x = .ok (v, b)) :
    supported w ∧
      (b = a ∧ a.interned.lookup (w, x &&& mask w) = some v ∨
        a.interned.lookup (w, x &&& mask w) = none ∧
          a.func.AddsValue (.literal (x &&& mask w)) w v b.func ∧ b.order = a.order ∧
          b.interned = ((w, x &&& mask w), v) :: a.interned) := by
  unfold Arena.literal at h
  split at h
  · next hw =>
    refine ⟨hw, ?_⟩
    dsimp only at h
    split at h
    · next y hy =>
      cases h
      exact .inl ⟨rfl, hy⟩
    · next hnone =>
      cases h
      exact .inr ⟨hnone, addsValue_pushValue _ _ _, rfl, rfl⟩
  · cases h

theorem literal_ok (a : Arena) (x : Word) (hw : supported w) :
    ∃ v b, a.literal w x = .ok (v, b) := by
  unfold Arena.literal
  rw [if_pos hw]
  dsimp only
  split
  · exact ⟨_, _, rfl⟩
  · exact ⟨_, _, rfl⟩

theorem InStep.literal (hs : a.InStep) (h : a.literal w x = .ok (v, b)) : b.InStep := by
  obtain ⟨-, ⟨rfl, -⟩ | ⟨hnone, e, horder, hinterned⟩⟩ := literal_eq_ok h
  · exact hs
  · refine ⟨by rw [horder, hs.order, blockIds, blockIds, e.blocks], fun {y bits n} => ?_⟩
    rw [hinterned, List.lookup_cons, e.value?]
    by_cases hkey : (n, bits) = (w, x &&& mask w)
    · -- the key is that of the new literal, and no other literal has it
      cases hkey
      have habsent (y : ValueId) : a.func.value? y ≠ some ⟨.literal (x &&& mask w), w⟩ := by
        rw [Ne, ← hs.interned, hnone]
        simp
      by_cases hy : y = v
      · simp [hy]
      · simp [hy, Ne.symm hy, habsent]
    · have hnew : ¬ (bits = x &&& mask w ∧ n = w) := fun ⟨hbits, hn⟩ => hkey (by rw [hbits, hn])
      rw [beq_false_of_ne hkey]
      by_cases hy : y = v
      · subst hy
        refine iff_of_false ?_ ?_
        · rw [hs.interned, e.absent]
          simp
        · rw [if_pos rfl]
          intro h
          cases h
          exact hkey rfl
      · simp [hy, hs.interned]

/-- What a request for a literal leads to has the bits and the width that were asked for. -/
theorem InStep.value?_literal (hs : a.InStep) (h : a.literal w x = .ok (v, b)) :
    b.func.value? v = some ⟨.literal (x &&& mask w), w⟩ := by
  obtain ⟨-, ⟨rfl, hv⟩ | ⟨-, e, -⟩⟩ := literal_eq_ok h
  · exact hs.interned.mp hv
  · rw [e.value?, if_pos rfl]

/-- Looking a literal up in the table comes to the same as searching the values for it. -/
theorem InStep.literal_eq (hs : a.InStep) (hf : a.func.Coherent) (w : Nat) (x : Word) :
    (a.literal w x).map (fun (v, b) => (v, b.func)) = a.func.literal w x := by
  unfold Arena.literal Func.literal
  by_cases hw : supported w
  · rw [if_pos hw, if_pos hw]
    dsimp only
    split
    · next v hv =>
      have hv := hs.interned.mp hv
      split
      · next k hk =>
        obtain rfl := hf.interned hv (value?_of_findIdx? hk)
        rfl
      · next hk => exact absurd hv (value?_ne_of_findIdx? hk v)
    · next hnone =>
      split
      · next k hk =>
        rw [hs.interned.mpr (value?_of_findIdx? hk)] at hnone
        cases hnone
      · rfl
  · rw [if_neg hw, if_neg hw]
    rfl

end Literal

/-! ### Edits keep the tables in step -/

/-- Every edit is one of the function, and keeps the tables in step. -/
theorem Edit.inStep (e : Edit a b) (hs : a.InStep) (hf : a.func.Coherent) :
    b.InStep ∧ ∃ now, a.func.Edit now b.func := by
  obtain ⟨w, x, v, h⟩ | ⟨k, h⟩ | ⟨g, now, rfl, h, hsame⟩ := e.inversion
  · have hfunc : a.func.literal w x = .ok (v, b.func) := by
      rw [← hs.literal_eq hf, h]
      rfl
    exact ⟨hs.literal h, [], .literal hfunc⟩
  · exact ⟨hs.createBlock h, [], .createBlock (createBlock_eq h).1⟩
  · exact ⟨hs.sameEntries hsame, now, h⟩

/-- A literal stays what it is. -/
theorem Edit.value?_literal {v : ValueId} {bits : Word} {w : Nat} (e : Edit a b)
    (hv : a.func.value? v = some ⟨.literal bits, w⟩) :
    b.func.value? v = some ⟨.literal bits, w⟩ := by
  obtain ⟨n, x, y, h⟩ | ⟨k, h⟩ | ⟨g, now, rfl, h, hsame⟩ := e.inversion
  · obtain ⟨-, ⟨rfl, -⟩ | ⟨-, e, -⟩⟩ := literal_eq_ok h
    · exact hv
    · exact e.kept hv
  · injection (createBlock_eq h).1 with _ hfunc
    rw [← hfunc]
    exact hv
  · exact hsame.literal.mpr hv

/-- Edits keep the tables in step, and lead from reachable functions to reachable ones. -/
theorem Leads.inStep (h : Leads a b) (hs : a.InStep) {gone : List InstId}
    (hf : Reachable a.func gone) : b.InStep ∧ ∃ gone', Reachable b.func gone' := by
  induction h with
  | refl => exact ⟨hs, gone, hf⟩
  | edit _ e ih =>
    obtain ⟨hs, gone', hf⟩ := ih
    obtain ⟨hs', now, e⟩ := e.inStep hs hf.coherent
    exact ⟨hs', _, hf.edit e⟩

/-- A literal stays what it is, whatever edits follow. -/
theorem Leads.value?_literal {v : ValueId} {bits : Word} {w : Nat} (h : Leads a b)
    (hv : a.func.value? v = some ⟨.literal bits, w⟩) :
    b.func.value? v = some ⟨.literal bits, w⟩ := by
  induction h with
  | refl => exact hv
  | edit _ e ih => exact e.value?_literal ih

/-! ### Consistency -/

/-- The order has every block once, and nothing else. -/
theorem InStep.count_order (hs : a.InStep) (b : BlockId) :
    a.order.count b = if b.index < a.func.blocks.size then 1 else 0 := by
  have hnodup : a.func.blockIds.Nodup :=
    List.nodup_range.map fun k l h => congrArg BlockId.index h
  have hmem : b ∈ a.func.blockIds ↔ b.index < a.func.blocks.size := by
    obtain ⟨k⟩ := b
    simp [blockIds]
  rw [hs.order, hnodup.count]
  simp only [hmem]

/-- The attached instructions in the order of the blocks are the layout of the function. -/
theorem InStep.insts_eq (hs : a.InStep) : a.insts = a.func.layout := by
  have hblocks : a.func.blockIds.map a.func.blockInsts = a.func.blocks.toList := by
    refine List.ext_getElem (by simp [blockIds]) fun k hk hk' => ?_
    simp [blockIds, blockInsts, (show k < a.func.blocks.size by simpa using hk')]
  rw [insts, hs.order, List.flatMap_def, hblocks, layout]

/-- An arena in step with a coherent function is consistent. -/
theorem InStep.consistent (hs : a.InStep) (hf : a.func.Coherent) : a.Consistent where
  parent := hf.listed.symm
  once h := List.count_eq_one_of_mem (hf.distinct _) h
  apart h h' := Option.some.inj ((hf.listed.mp h).symm.trans (hf.listed.mp h'))
  laid := hs.count_order
  definer := hf.definer?_eq_some
  width hd hv := by
    rw [hf.produced hd hv]
    rfl
  parameter := hf.parameter
  masked hv := ⟨hf.supported hv, hf.masked hv⟩
  single := hf.interned
  interned := hs.interned

/-- Two requests for literals, whatever edits lie between them, have the same result exactly if
their widths are the same and their words agree in the low bits. -/
theorem InStep.exists_literal (hs : a.InStep) {gone : List InstId} (hf : Reachable a.func gone)
    {w : Nat} (x : Word) (hw : supported w) :
    ∃ v b, a.literal w x = .ok (v, b) ∧
      ∀ c, Leads b c → ∀ n y, supported n → ∃ u d, c.literal n y = .ok (u, d) ∧
        (u = v ↔ n = w ∧ y.toNat % 2 ^ w = x.toNat % 2 ^ w) := by
  obtain ⟨v, b, hb⟩ := literal_ok a x hw
  refine ⟨v, b, hb, fun c hc n y hn => ?_⟩
  obtain ⟨u, d, hd⟩ := literal_ok c y hn
  refine ⟨u, d, hd, ?_⟩
  -- both literals in the arena that the second request leaves
  obtain ⟨hsb, _, hfb⟩ := ((Leads.refl a).edit (.literal hb)).inStep hs hf
  obtain ⟨hsc, _, hfc⟩ := hc.inStep hsb hfb
  obtain ⟨-, _, hfd⟩ := ((Leads.refl c).edit (.literal hd)).inStep hsc hfc
  have hv := (hc.edit (.literal hd)).value?_literal (hs.value?_literal hb)
  have hu := hsc.value?_literal hd
  have hbits := and_mask_inj (a := y) (b := x) (Integer.width_bounds hw).2
  constructor
  · rintro rfl
    have heq := hu.symm.trans hv
    simp only [Option.some.injEq, Value.mk.injEq, Origin.literal.injEq] at heq
    obtain ⟨hlow, rfl⟩ := heq
    exact ⟨rfl, hbits.mp hlow⟩
  · rintro ⟨rfl, hmod⟩
    rw [hbits.mpr hmod] at hu
    exact hfd.coherent.interned hu hv

/-- The tables of an arena that edits lead to are **consistent**, and requests for literals tell
them by their widths and by the bits within them, and by nothing else. -/
theorem consistent_of_leads {name : String} (h : Leads (empty name) a) :
    a.Consistent ∧
      ∀ w x, supported w → ∃ v b, a.literal w x = .ok (v, b) ∧
        ∀ c, Leads b c → ∀ n y, supported n → ∃ u d, c.literal n y = .ok (u, d) ∧
          (u = v ↔ n = w ∧ y.toNat % 2 ^ w = x.toNat % 2 ^ w) := by
  obtain ⟨hs, gone, hf⟩ := h.inStep (inStep_empty name) (.empty name)
  exact ⟨hs.consistent hf.coherent, fun w x hw => hs.exists_literal hf x hw⟩

/-- A function whose only instruction has been detached. Nine bits set are eight at eight bits, and
the same literal after a parameter has been added. -/
theorem consistent_of_leads_detached : ∃ a, Leads (empty "f") a ∧ a.Consistent ∧
    ∃ v b c d, a.literal 8 0x1ff = .ok (v, b) ∧ Leads b c ∧ c.func.params ≠ b.func.params ∧
      c.literal 8 0xff = .ok (v, d) := by
  let f : Func := ⟨"f", [⟨0⟩], #[⟨.parameter 0 none, 8⟩], #[[]], #[], #[[]]⟩
  let g : Func := ⟨"f", [⟨0⟩], #[⟨.parameter 0 none, 8⟩, ⟨.result ⟨0⟩, 8⟩], #[[⟨⟨0⟩, 0⟩], []],
    #[⟨.ineg, 8, false, [⟨0⟩], some ⟨1⟩, some ⟨0⟩⟩], #[[⟨0⟩]]⟩
  have hparam : (empty "f").createBlock.2.func.addParam 8 none = .ok (⟨0⟩, f) := rfl
  have hinst : f.append ⟨0⟩ .ineg 8 [⟨0⟩] = ⟨g, .ok ⟨0⟩⟩ := rfl
  have hdetach : g.detachInst ⟨0⟩ = ⟨g.detach ⟨0⟩, .ok ()⟩ := rfl
  have h := ((((Leads.refl (empty "f")).edit (.createBlock rfl)).edit (.addParam hparam)).edit
    (.append (by decide) hinst)).edit (.detachInst hdetach)
  obtain ⟨hconsistent, hliteral⟩ := consistent_of_leads h
  obtain ⟨v, b, hb, hlater⟩ := hliteral 8 0x1ff rfl
  obtain ⟨u, k, hadd⟩ : ∃ u k, b.func.addParam 8 none = .ok (u, k) := ⟨_, _, rfl⟩
  have hadded := (Leads.refl b).edit (.addParam hadd)
  obtain ⟨-, -, hparams⟩ := addParam_eq_ok hadd
  obtain ⟨x, d, hd, hsame⟩ := hlater _ hadded 8 0xff rfl
  obtain rfl := hsame.mpr ⟨rfl, by decide⟩
  exact ⟨_, h, hconsistent, x, b, _, d, hb, hadded, by simp [hparams], hd⟩

end Arena

end Peephole
