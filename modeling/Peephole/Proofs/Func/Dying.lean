import Peephole.Proofs.Func.Dead

/-!
# What an erasure erases

An erasure starts with one instruction on a worklist, to which the definitions of the operands of
what it erases are added when they have become dead. It erases what **dies** with the instruction,
which is said without a worklist: `Dies` is the least set with the instruction, if that is dead, and
with everything that only members of the set use.

* `release_detach`: the erasure of one instruction leaves the function `without` it.
* `HasCome`: what holds of the worklist on its way, in whatever order its entries are taken. All
  that is erased dies, and whatever has become dead is still on the worklist.
* `TidilyCalled.eraseDead_eq`: at the end, exactly what dies is gone. Operands may be values that do
  not exist, but not those of what dies: the erasure looks up what defines them.
-/

namespace Peephole

namespace Func

variable {f g : Func} {gone is js : List InstId}

/-! ### Functions without some instructions -/

section Without

variable (f) (is)

theorem inst?_without (j : InstId) :
    (f.without is).inst? j =
      (f.inst? j).map fun d => if j ∈ is then { d with block := none } else d := by
  simp [without, inst?, Array.getElem?_mapIdx]

@[simp] theorem value?_without (v : ValueId) : (f.without is).value? v = f.value? v := rfl

@[simp] theorem definer?_without (v : ValueId) : (f.without is).definer? v = f.definer? v := rfl

@[simp] theorem uses_without (v : ValueId) :
    (f.without is).uses v = (f.uses v).filter (·.user ∉ is) := by
  simp only [without, uses, Array.getElem?_map]
  cases f.chains[v.index]? <;> rfl

@[simp] theorem blockInsts_without (b : BlockId) :
    (f.without is).blockInsts b = (f.blockInsts b).filter (· ∉ is) := by
  simp only [without, blockInsts, Array.getElem?_map]
  cases f.blocks[b.index]? <;> rfl

@[simp] theorem operands_without (j : InstId) : (f.without is).operands j = f.operands j := by
  rw [operands, operands, inst?_without]
  cases f.inst? j with
  | none => rfl
  | some d => by_cases hj : j ∈ is <;> simp [hj]

@[simp] theorem result?_without (j : InstId) : (f.without is).result? j = f.result? j := by
  rw [result?, result?, inst?_without]
  cases f.inst? j with
  | none => rfl
  | some d => by_cases hj : j ∈ is <;> simp [hj]

theorem isAttached_without {j : InstId} :
    (f.without is).isAttached j ↔ f.isAttached j ∧ j ∉ is := by
  rw [isAttached, isAttached, inst?_without]
  cases f.inst? j with
  | none => simp
  | some d => by_cases hj : j ∈ is <;> simp [hj]

end Without

/-- A function is what its look-ups yield. -/
theorem eq_of_lookups (hname : g.name = f.name) (hparams : g.params = f.params)
    (hvalues : g.values = f.values) (hchains : g.chains.size = f.chains.size)
    (huses : ∀ v, g.uses v = f.uses v) (hinsts : ∀ i, g.inst? i = f.inst? i)
    (hblocks : g.blocks.size = f.blocks.size) (hlists : ∀ b, g.blockInsts b = f.blockInsts b) :
    g = f := by
  have hc : g.chains = f.chains := Array.ext hchains fun k hk hk' => by
    simpa [uses, hk, hk'] using huses ⟨k⟩
  have hi : g.insts = f.insts := Array.ext_getElem? fun k => hinsts ⟨k⟩
  have hb : g.blocks = f.blocks := Array.ext hblocks fun k hk hk' => by
    simpa [blockInsts, hk, hk'] using hlists ⟨k⟩
  obtain ⟨name, params, values, chains, insts, blocks⟩ := f
  obtain ⟨name', params', values', chains', insts', blocks'⟩ := g
  simp_all

theorem without_nil (f : Func) : f.without [] = f := by
  refine eq_of_lookups rfl rfl rfl (by simp [without]) (fun v => ?_) (fun i => ?_)
    (by simp [without]) fun b => ?_
  · rw [uses_without]
    simp
  · rw [inst?_without]
    simp
  · rw [blockInsts_without]
    simp

theorem without_without (f : Func) (is js : List InstId) :
    (f.without is).without js = f.without (is ++ js) := by
  refine eq_of_lookups rfl rfl rfl (by simp [without]) (fun v => ?_) (fun i => ?_)
    (by simp [without]) fun b => ?_
  · simp only [uses_without, List.filter_filter, List.mem_append, not_or, Bool.decide_and,
      Bool.and_comm]
  · rw [inst?_without, inst?_without, inst?_without, Option.map_map]
    congr 1
    funext d
    by_cases his : i ∈ is <;> by_cases hjs : i ∈ js <;> simp [his, hjs]
  · simp only [blockInsts_without, List.filter_filter, List.mem_append, not_or, Bool.decide_and,
      Bool.and_comm]

/-- It does not matter in which order instructions are taken away. -/
theorem without_congr (f : Func) (h : ∀ j, j ∈ is ↔ j ∈ js) : f.without is = f.without js := by
  simp only [without, h]

theorem uses_foldl_dropUse (us : List (ValueId × Use)) (f : Func) (v : ValueId) :
    (us.foldl (fun g (v, u) => g.dropUse v u) f).uses v =
      (f.uses v).filter fun u => (v, u) ∉ us := by
  induction us generalizing f with
  | nil => simp
  | cons a us ih =>
    obtain ⟨w, u⟩ := a
    rw [List.foldl_cons, ih, uses_dropUse]
    by_cases hwv : w = v
    · rw [if_pos hwv, List.filter_filter]
      refine List.filter_congr fun x _ => ?_
      by_cases hx : x = u <;> simp [hwv, hx]
    · rw [if_neg hwv]
      refine List.filter_congr fun x _ => ?_
      simp [Ne.symm hwv]

theorem size_chains_release (f : Func) (i : InstId) : (f.release i).chains.size = f.chains.size := by
  unfold release
  generalize f.operandUses i = us
  induction us generalizing f with
  | nil => rfl
  | cons a us ih =>
    rw [List.foldl_cons, ih]
    exact Array.size_modify ..

/-- The erasure of one instruction takes away that instruction. -/
theorem Orderly.release_detach (hf : f.Orderly) (hm : f.Mirrored gone) {i : InstId}
    (hi : i ∉ gone) : (f.detach i).release i = f.without [i] := by
  have same := sameButChains_release (f.detach i) i
  refine eq_of_lookups ?_ ?_ ?_ ?_ (fun v => ?_) (fun j => ?_) ?_ fun b => ?_
  · rw [same.name, name_detach]
    rfl
  · rw [same.params, params_detach]
    rfl
  · rw [same.values]
    unfold Func.detach
    split <;> rfl
  · rw [size_chains_release]
    unfold Func.detach
    split <;> simp [modifyBlock, modifyInst, without]
  · rw [Func.release, uses_foldl_dropUse, uses_detach, uses_without]
    refine List.filter_congr fun u hu => ?_
    -- a chain has an entry of the instruction exactly at the operands of it
    have hu : (f.operands u.user)[u.operand]? = some v := (hm.mem_uses.mp hu).1
    simp only [mem_operandUses, operands_detach, List.mem_singleton]
    by_cases hui : u.user = i
    · simp [← hui, hu]
    · simp [hui]
  · rw [same.inst?, inst?_detach, inst?_without]
    by_cases hji : j = i <;> simp [hji]
  · rw [same.blocks, size_blocks_detach]
    simp [without]
  · have hblocks : ((f.detach i).release i).blockInsts b = (f.detach i).blockInsts b := by
      simp only [blockInsts, same.blocks]
    rw [hblocks, blockInsts_detach, blockInsts_without]
    simp only [List.mem_singleton]
    split
    · rfl
    · next hb =>
      -- no other block lists the instruction
      refine (List.filter_eq_self.mpr fun j hj => decide_eq_true ?_).symm
      rintro rfl
      exact hb (hf.listed.mp hj)

/-! ### A worklist on its way -/

theorem Dies.attached {i j : InstId} (h : f.Dies i j) : f.isAttached j := by
  cases h <;> assumption

/-- What is dead without some instructions is used by these only. -/
theorem isDead_without {j : InstId} :
    (f.without is).isDead j ↔ ∃ d v, f.inst? j = some d ∧ d.opcode.isPure ∧ d.result = some v ∧
      ∀ u ∈ f.uses v, u.user ∈ is := by
  simp only [isDead_iff, inst?_without, uses_without, List.filter_eq_nil_iff, decide_eq_true_eq,
    not_not, Option.map_eq_some_iff]
  constructor
  · rintro ⟨_, v, ⟨d, hd, rfl⟩, hpure, hv, huses⟩
    refine ⟨d, v, hd, ?_, ?_, huses⟩
    · split at hpure <;> exact hpure
    · split at hv <;> exact hv
  · rintro ⟨d, v, hd, hpure, hv, huses⟩
    refine ⟨_, v, ⟨d, hd, rfl⟩, ?_, ?_, huses⟩
    · split <;> exact hpure
    · split <;> exact hv

/-- How far the erasure of an instruction **has come**: some instructions are erased, others are on
the worklist. -/
structure HasCome (f : Func) (gone : List InstId) (i : InstId) (is work : List InstId) : Prop where
  orderly : (f.without is).Orderly
  mirrored : (f.without is).Mirrored (is ++ gone)
  /-- Nothing is erased twice. -/
  nodup : is.Nodup
  /-- Nothing is erased before the instruction itself. -/
  first : is = [] ∨ i ∈ is
  /-- What is erased dies. -/
  dying : ∀ j ∈ is, f.Dies i j
  /-- What is on the worklist defines an operand of something erased. -/
  pushed : ∀ j ∈ work, j = i ∨ ∃ k ∈ is, ∃ v ∈ f.operands k, f.result? j = some v
  /-- What has become dead is on the worklist. -/
  lingering : ∀ j, (f.without is).lingers j → j ∈ work ∨ f.lingers j ∧ j ≠ i

namespace HasCome

variable {i k : InstId} {work rest : List InstId}

theorem start (hf : f.Orderly) (hm : f.Mirrored gone) (i : InstId) :
    f.HasCome gone i [] [i] where
  orderly := by rwa [without_nil]
  mirrored := by rwa [without_nil]
  nodup := .nil
  first := .inl rfl
  dying := by simp
  pushed j hj := .inl (by simpa using hj)
  lingering j hj := by
    rw [without_nil] at hj
    by_cases hji : j = i
    · exact .inl (by simp [hji])
    · exact .inr ⟨hj, hji⟩

/-- The order of a worklist does not matter. -/
theorem perm (h : f.HasCome gone i is work) (hp : work.Perm js) : f.HasCome gone i is js :=
  ⟨h.orderly, h.mirrored, h.nodup, h.first, h.dying, fun j hj => h.pushed j (hp.mem_iff.mpr hj),
    fun j hj => (h.lingering j hj).imp_left hp.mem_iff.mp⟩

theorem skip (h : f.HasCome gone i is (k :: rest))
    (stays : ¬ ((f.without is).isAttached k ∧ (f.without is).isDead k)) :
    f.HasCome gone i is rest where
  orderly := h.orderly
  mirrored := h.mirrored
  nodup := h.nodup
  first := h.first
  dying := h.dying
  pushed j hj := h.pushed j (List.mem_cons_of_mem _ hj)
  lingering j hj := by
    refine (h.lingering j hj).imp_left fun hmem => (List.mem_cons.mp hmem).resolve_left ?_
    rintro rfl
    exact stays (lingers_iff.mp hj)

variable (away : ∀ j ∈ gone, ¬ f.isAttached j) (h : f.HasCome gone i is (k :: rest))
  (attached : (f.without is).isAttached k)

include away h attached in
/-- The erasure of an entry of the worklist takes away that instruction. -/
theorem release_detach : ((f.without is).detach k).release k = f.without (is ++ [k]) := by
  obtain ⟨hk, hkis⟩ := (isAttached_without f is).mp attached
  have hkgone : k ∉ is ++ gone := by
    rw [List.mem_append, not_or]
    exact ⟨hkis, fun hmem => away k hmem hk⟩
  rw [h.orderly.release_detach h.mirrored hkgone, without_without]

variable (hm : f.Mirrored gone)

include away h attached hm in
/-- What becomes dead by an erasure defines an operand of what is erased. -/
theorem lingers_or_mem {j : InstId} (hj : (f.without (is ++ [k])).lingers j) :
    (f.without is).lingers j ∨ j ∈ (f.without (is ++ [k])).deadOperands (f.operands k) := by
  obtain ⟨hattached, hdead⟩ := lingers_iff.mp hj
  obtain ⟨hjf, hjout⟩ := (isAttached_without f _).mp hattached
  rw [List.mem_append, not_or] at hjout
  obtain ⟨d, v, hd, hpure, hv, husers⟩ := isDead_without.mp hdead
  by_cases hall : ∀ u ∈ f.uses v, u.user ∈ is
  · exact .inl (lingers_iff.mpr ⟨(isAttached_without f is).mpr ⟨hjf, hjout.1⟩,
      isDead_without.mpr ⟨d, v, hd, hpure, hv, hall⟩⟩)
  · -- the erased instruction has used the result
    right
    push Not at hall
    obtain ⟨u, hu, huout⟩ := hall
    obtain huk : u.user = k :=
      List.mem_singleton.mp ((List.mem_append.mp (husers u hu)).resolve_left huout)
    have hvk : v ∈ f.operands k := huk ▸ List.mem_of_getElem? (hm.mem_uses.mp hu).1
    have horderly : (f.without (is ++ [k])).Orderly :=
      h.release_detach away attached ▸ (h.orderly.detach k).release k
    refine List.mem_reverse.mpr (List.mem_filterMap.mpr ⟨v, hvk, ?_⟩)
    rw [Option.filter_eq_some_iff]
    refine ⟨horderly.definer.mpr ?_, hdead⟩
    rw [result?_without, result?, hd]
    exact hv

variable (dead : (f.without is).isDead k)
include away h attached hm dead

/-- An attached dead entry of the worklist dies. -/
theorem dies : f.Dies i k := by
  obtain ⟨hk, hkis⟩ := (isAttached_without f is).mp attached
  obtain ⟨d, v, hd, hpure, hv, husers⟩ := isDead_without.mp dead
  obtain rfl | ⟨j, hj, w, hw, hres⟩ := h.pushed k (List.mem_cons_self ..)
  · -- nothing has been erased yet
    obtain rfl := h.first.resolve_right hkis
    rw [without_nil] at dead
    exact .self hk dead
  · obtain rfl : v = w := by
      rw [result?, hd, Option.bind_some, hv] at hres
      exact Option.some.inj hres
    refine .operand hk hd hpure hv ?_ fun u hu => h.dying _ (husers u hu)
    obtain ⟨n, hn⟩ := List.mem_iff_getElem?.mp hw
    have hjgone : j ∉ gone := fun hmem => away j hmem (h.dying j hj).attached
    exact List.ne_nil_of_mem ((hm.mem_uses (u := ⟨j, n⟩)).mpr ⟨hn, hjgone⟩)

theorem erase : f.HasCome gone i (is ++ [k])
    ((f.without (is ++ [k])).deadOperands (f.operands k) ++ rest) := by
  have heq := h.release_detach away attached
  obtain ⟨hk, hkis⟩ := (isAttached_without f is).mp attached
  have horderly : (f.without (is ++ [k])).Orderly := heq ▸ (h.orderly.detach k).release k
  constructor
  case orderly => exact horderly
  case mirrored =>
    obtain ⟨d, _, hd, -⟩ := isAttached_iff.mp attached
    have hexists : (((f.without is).detach k).inst? k).isSome := by
      rw [inst?_detach, if_pos rfl, hd]
      rfl
    refine heq ▸ ((h.mirrored.detach k).release hexists).congr fun j => ?_
    simp only [List.mem_append, List.mem_cons, List.not_mem_nil, or_false]
    tauto
  case nodup => exact List.nodup_append'.mpr ⟨h.nodup, List.nodup_singleton k, by simpa using hkis⟩
  case first =>
    refine .inr ?_
    obtain rfl | hi := h.first
    · obtain rfl | ⟨j, hj, -⟩ := h.pushed k (List.mem_cons_self ..)
      · simp
      · cases hj
    · exact List.mem_append_left _ hi
  case dying =>
    intro j hj
    obtain hj | hj := List.mem_append.mp hj
    · exact h.dying j hj
    · obtain rfl := List.mem_singleton.mp hj
      exact h.dies away attached hm dead
  case pushed =>
    intro j hj
    obtain hj | hj := List.mem_append.mp hj
    · obtain ⟨v, hv, hdef⟩ := List.mem_filterMap.mp (List.mem_reverse.mp hj)
      have hres := horderly.definer.mp (Option.filter_eq_some_iff.mp hdef).1
      exact .inr ⟨k, by simp, v, hv, by rwa [result?_without] at hres⟩
    · refine (h.pushed j (List.mem_cons_of_mem _ hj)).imp_right ?_
      rintro ⟨l, hl, hrest⟩
      exact ⟨l, List.mem_append_left _ hl, hrest⟩
  case lingering =>
    intro j hj
    obtain hold | hnew := h.lingers_or_mem away attached hm hj
    · refine (h.lingering j hold).imp_left fun hmem => ?_
      have hjk : j ≠ k := by
        rintro rfl
        have := ((isAttached_without f _).mp (lingers_iff.mp hj).1).2
        simp at this
      exact List.mem_append_right _ ((List.mem_cons.mp hmem).resolve_left hjk)
    · exact .inl (List.mem_append_left _ hnew)

end HasCome

/-! ### What an erasure erases -/

/-- Once the worklist is empty, everything that dies has been erased. -/
theorem HasCome.mem_of_dies {i j : InstId} (h : f.HasCome gone i is []) (hj : f.Dies i j) :
    j ∈ is := by
  induction hj with
  | self attached dead =>
    by_contra hout
    obtain ⟨d, v, hd, hpure, hv, hnil⟩ := isDead_iff.mp dead
    have hlingers : (f.without is).lingers i :=
      lingers_iff.mpr ⟨(isAttached_without f is).mpr ⟨attached, hout⟩,
        isDead_without.mpr ⟨d, v, hd, hpure, hv, by simp [hnil]⟩⟩
    simpa using h.lingering i hlingers
  | @operand j d v attached inst effectless result used users ih =>
    by_contra hout
    have hlingers : (f.without is).lingers j :=
      lingers_iff.mpr ⟨(isAttached_without f is).mpr ⟨attached, hout⟩,
        isDead_without.mpr ⟨d, v, inst, effectless, result, ih⟩⟩
    -- the result has users, so that the instruction has not been dead from the start
    obtain ⟨hold, -⟩ := (h.lingering j hlingers).resolve_left List.not_mem_nil
    obtain ⟨d', v', hd', -, hv', hnil⟩ := isDead_iff.mp (lingers_iff.mp hold).2
    obtain rfl := Option.some.inj (inst.symm.trans hd')
    obtain rfl := Option.some.inj (result.symm.trans hv')
    exact used hnil

/-- A worklist comes to its end. -/
theorem Drains.hasCome {h : Func} {i : InstId} {work : List InstId} (d : Drains h work js g)
    (hm : f.Mirrored gone) (away : ∀ j ∈ gone, ¬ f.isAttached j) (heq : h = f.without is)
    (hc : f.HasCome gone i is work) :
    f.HasCome gone i (is ++ js) [] ∧ g = f.without (is ++ js) := by
  induction d generalizing is with
  | done => simpa [heq] using hc
  | skip next stays later ih =>
    subst heq
    exact ih rfl ((hc.perm next).skip stays)
  | @erase h work k rest js g next attached dead later ih =>
    subst heq
    have hstep := (hc.perm next).release_detach away attached
    have := ih hstep (by
      rw [hstep, operands_without]
      exact (hc.perm next).erase away attached hm dead)
    simpa using this

/-- The erasure of a stack takes its entries in one of the orders, and nothing stops it when the
operands of what dies exist. -/
theorem HasCome.exists_drains {e : Func} {i : InstId} {stack : List InstId}
    (hc : f.HasCome gone i is stack) (hm : f.Mirrored gone) (away : ∀ j ∈ gone, ¬ f.isAttached j)
    (known : ∀ j, f.Dies i j → f.hasOperands j) (heq : e = f.without is) :
    ∃ js g, e.eraseAll stack = ⟨g, .ok js.length⟩ ∧ Drains e stack js g := by
  induction e, stack using eraseAll.induct generalizing is with
  | case1 e => exact ⟨[], e, by rw [eraseAll]; rfl, .done⟩
  | case2 e k rest hk =>
    rename_i hblock
    subst heq
    simp [hc.orderly.hasBlock k] at hblock
  | case3 e k rest hk =>
    rename_i hoperands
    subst heq
    have hknown := known k (hc.dies away hk.1 hm hk.2)
    simp only [hasOperands, operands_without, value?_without] at hoperands hknown
    simp [hknown] at hoperands
  | case4 e k rest hk e' _ hblock hoperands =>
    rename_i ih
    subst heq
    have hstep := hc.release_detach away hk.1
    obtain ⟨js, g, herase, hdrains⟩ := ih (by
      simp only [e']
      rw [hstep, operands_without]
      exact hc.erase away hk.1 hm hk.2) hstep
    refine ⟨k :: js, g, ?_, .erase (.refl _) hk.1 hk.2 hdrains⟩
    rw [eraseAll, dif_pos hk]
    dsimp only
    rw [if_neg hblock, if_neg hoperands, herase]
    rfl
  | case5 e k rest hk ih =>
    subst heq
    obtain ⟨js, g, herase, hdrains⟩ := ih (hc.skip hk) rfl
    exact ⟨js, g, by rw [eraseAll, dif_neg hk, herase], .skip (.refl _) hk hdrains⟩

theorem TidilyCalled.called (h : TidilyCalled f gone) : Called f gone := by
  induction h with
  | empty name => exact .empty name
  | call _ e _ ih => exact ih.call e

/-- A removed instruction belongs to no block. -/
theorem TidilyCalled.not_isAttached (h : TidilyCalled f gone) :
    ∀ j ∈ gone, ¬ f.isAttached j := by
  cases h with
  | empty name => simp
  | @call f g gone now h e away =>
    intro j hj
    refine (List.mem_append.mp hj).elim (fun hnow => ?_) (away j)
    cases e with
    | edit e =>
      cases e with
      | removeInst h' =>
        obtain ⟨d, hd, hb, rfl⟩ := removeInst_eq_ok h'
        obtain rfl := List.mem_singleton.mp hnow
        rw [(sameButChains_release f j).isAttached, isAttached, hd]
        simp [hb]
      | eraseDead h' =>
        have hout := (List.mem_filter.mp hnow).2
        rw [Bool.and_eq_true, Bool.not_eq_true'] at hout
        exact Bool.eq_false_iff.mp hout.2
      | _ => cases hnow
    | _ => cases hnow

/-- The erasure of an instruction takes away what **dies** with it, and nothing else. It comes to a
result, the number of these instructions, and the order in which it takes the entries of its
worklist does not matter. An operand of what dies that does not exist would stop the erasure. -/
theorem TidilyCalled.eraseDead_eq (hf : TidilyCalled f gone) {i : InstId}
    (hi : (f.inst? i).isSome) (known : ∀ j, f.Dies i j → f.hasOperands j) :
    ∃ is : List InstId, is.Nodup ∧ (∀ j, j ∈ is ↔ f.Dies i j) ∧
      f.eraseDead i = ⟨f.without is, .ok is.length⟩ ∧
      ∀ js g, Drains f [i] js g → js.Perm is ∧ g = f.without is := by
  have hm := hf.called.mirrored
  have hstart : f.HasCome gone i [] [i] := .start hf.called.orderly hm i
  have hdrains {js : List InstId} {g : Func} (d : Drains f [i] js g) :
      js.Nodup ∧ (∀ j, j ∈ js ↔ f.Dies i j) ∧ g = f.without js := by
    obtain ⟨hcome, hg⟩ := d.hasCome hm hf.not_isAttached f.without_nil.symm hstart
    rw [List.nil_append] at hcome hg
    exact ⟨hcome.nodup, fun j => ⟨hcome.dying j, hcome.mem_of_dies⟩, hg⟩
  obtain ⟨is, g, herase, d⟩ :=
    hstart.exists_drains hm hf.not_isAttached known f.without_nil.symm
  obtain ⟨hnodup, hdies, rfl⟩ := hdrains d
  refine ⟨is, hnodup, hdies, by rw [eraseDead, if_pos hi, herase], fun js g d' => ?_⟩
  obtain ⟨hnodup', hdies', rfl⟩ := hdrains d'
  have hsame (j : InstId) : j ∈ js ↔ j ∈ is := (hdies' j).trans (hdies j).symm
  exact ⟨(List.perm_ext_iff_of_nodup hnodup' hnodup).mpr hsame, f.without_congr hsame⟩

/-- A function that stores its parameter. Its product is not used; the sum is a factor of it, and the
complement of the parameter is the other factor and both summands. -/
def unusedProduct : Func where
  name := "f"
  params := [⟨0⟩]
  values := #[⟨.parameter 0 none, 32⟩, ⟨.result ⟨0⟩, 32⟩, ⟨.result ⟨1⟩, 32⟩, ⟨.result ⟨2⟩, 32⟩]
  chains := #[[⟨⟨0⟩, 0⟩, ⟨⟨3⟩, 0⟩], [⟨⟨1⟩, 0⟩, ⟨⟨1⟩, 1⟩, ⟨⟨2⟩, 1⟩], [⟨⟨2⟩, 0⟩], []]
  insts := #[⟨.inot, 32, false, [⟨0⟩], some ⟨1⟩, some ⟨0⟩⟩,
    ⟨.iadd, 32, false, [⟨1⟩, ⟨1⟩], some ⟨2⟩, some ⟨0⟩⟩,
    ⟨.imul, 32, false, [⟨2⟩, ⟨1⟩], some ⟨3⟩, some ⟨0⟩⟩, ⟨.store, 0, false, [⟨0⟩], none, some ⟨0⟩⟩]
  blocks := #[[⟨0⟩, ⟨1⟩, ⟨2⟩, ⟨3⟩]]

theorem tidilyCalled_unusedProduct : TidilyCalled unusedProduct [] := by
  have append {f g : Func} {i : InstId} (h : TidilyCalled f []) (op : Opcode) (w : Nat)
      (operands : List ValueId) (e : f.append ⟨0⟩ op w operands = ⟨g, .ok i⟩) :
      TidilyCalled g [] :=
    h.call (.append e) (by simp)
  have hblock := (TidilyCalled.empty "f").call (.edit (.createBlock rfl)) (by simp)
  have hparam := hblock.call (.edit (.addParam (rfl : Func.addParam _ 32 none = _))) (by simp)
  have hnot : TidilyCalled ⟨"f", [⟨0⟩], #[⟨.parameter 0 none, 32⟩, ⟨.result ⟨0⟩, 32⟩],
      #[[⟨⟨0⟩, 0⟩], []], #[⟨.inot, 32, false, [⟨0⟩], some ⟨1⟩, some ⟨0⟩⟩], #[[⟨0⟩]]⟩ [] :=
    append hparam .inot 32 [⟨0⟩] rfl
  have hsum : TidilyCalled ⟨"f", [⟨0⟩],
      #[⟨.parameter 0 none, 32⟩, ⟨.result ⟨0⟩, 32⟩, ⟨.result ⟨1⟩, 32⟩],
      #[[⟨⟨0⟩, 0⟩], [⟨⟨1⟩, 0⟩, ⟨⟨1⟩, 1⟩], []],
      #[⟨.inot, 32, false, [⟨0⟩], some ⟨1⟩, some ⟨0⟩⟩,
        ⟨.iadd, 32, false, [⟨1⟩, ⟨1⟩], some ⟨2⟩, some ⟨0⟩⟩], #[[⟨0⟩, ⟨1⟩]]⟩ [] :=
    append hnot .iadd 32 [⟨1⟩, ⟨1⟩] rfl
  have hproduct := append hsum .imul 32 [⟨2⟩, ⟨1⟩] rfl
  exact append hproduct .store 0 [⟨0⟩] rfl

theorem TidilyCalled.eraseDead_unusedProduct : TidilyCalled unusedProduct [] ∧
    unusedProduct.Dies ⟨2⟩ ⟨0⟩ ∧ ∃ is : List InstId, ⟨0⟩ ∈ is ∧
      unusedProduct.eraseDead ⟨2⟩ = ⟨unusedProduct.without is, .ok is.length⟩ := by
  have hproduct : unusedProduct.Dies ⟨2⟩ ⟨2⟩ := .self rfl rfl
  have hsum : unusedProduct.Dies ⟨2⟩ ⟨1⟩ := by
    refine .operand rfl rfl rfl rfl (v := ⟨2⟩) (by decide) fun u hu => ?_
    obtain rfl : u = ⟨⟨2⟩, 0⟩ := List.mem_singleton.mp hu
    exact hproduct
  have hnot : unusedProduct.Dies ⟨2⟩ ⟨0⟩ := by
    refine .operand rfl rfl rfl rfl (v := ⟨1⟩) (by decide) fun u hu => ?_
    have hu : u = ⟨⟨1⟩, 0⟩ ∨ u = ⟨⟨1⟩, 1⟩ ∨ u = ⟨⟨2⟩, 1⟩ := by
      simpa [unusedProduct, uses] using hu
    obtain rfl | rfl | rfl := hu
    · exact hsum
    · exact hsum
    · exact hproduct
  have hknown (j : InstId) (hj : unusedProduct.Dies ⟨2⟩ j) : unusedProduct.hasOperands j := by
    have hall : ∀ k < 4, unusedProduct.hasOperands ⟨k⟩ := by decide
    obtain ⟨d, _, hd, -⟩ := isAttached_iff.mp hj.attached
    exact hall j.index (Array.getElem?_eq_some_iff.mp hd).1
  obtain ⟨is, -, hdies, herase, -⟩ := tidilyCalled_unusedProduct.eraseDead_eq rfl hknown
  exact ⟨tidilyCalled_unusedProduct, hnot, is, (hdies _).mpr hnot, herase⟩

end Func

end Peephole
