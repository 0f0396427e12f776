import Peephole.Proofs.Text.Replay

/-!
# Printing and parsing

The text of what has been parsed is parsed again to the same functions, with the same numbers, and
has the same text, `parseProgram_print`. The written form of a function that resolution has built is
resolved to the function, `Parse.func_replay`, and read back from its spelling up to places, which
matter to errors only.
-/

namespace Peephole

namespace Parse

open Print
open Written (orEmpty orEmpty_of_ne_nil)

/-! ### Places -/

theorem locate_eq_ok {α : Type} {total remaining : Nat} {r : Resolved α} {a : α} :
    locate total remaining r = .ok a ↔ r = .ok a := by
  cases r <;> simp [locate, Except.mapError]

/-- Steps that succeed do so without regard to their places. -/
theorem foldlM_locate {α : Type} {total : Nat} {remaining : α → Nat}
    {step : State → α → Resolved State} {as : List α} {s t : State} :
    as.foldlM (fun s a => locate total (remaining a) (step s a)) s = .ok t ↔
      as.foldlM step s = .ok t := by
  induction as generalizing s with
  | nil => simp only [List.foldlM_nil, pure_eq_ok, Except.ok.injEq]
  | cons a as ih => simp only [List.foldlM_cons, bind_eq_ok, locate_eq_ok, ih]

/-- Resolves a block without regard to places. -/
def body (s : State) (is : List Written.Inst) : Resolved State :=
  is.foldlM (inst · ⟨s.func.blocks.size⟩ ·) { s with func := s.func.createBlock.2 }

theorem foldlM_block {total : Nat} {bs : List (List Written.Inst)} {s t : State} :
    bs.foldlM (block total) s = .ok t ↔ bs.foldlM body s = .ok t := by
  induction bs generalizing s with
  | nil => simp only [List.foldlM_nil, pure_eq_ok, Except.ok.injEq]
  | cons is bs ih =>
    have hblock (u : State) : block total s is = .ok u ↔ body s is = .ok u := foldlM_locate
    simp only [List.foldlM_cons, bind_eq_ok, hblock, ih]

/-- A function is resolved by its parameters, and then block by block. -/
theorem func_eq_ok {total : Nat} {w : Written.Func} {f : Func} :
    func total w = .ok f ↔ ∃ s t, w.params.foldlM param ⟨.empty w.name, []⟩ = .ok s ∧
      (orEmpty w.blocks).foldlM body s = .ok t ∧ t.func = f := by
  simp only [func, bind_eq_ok, foldlM_locate, foldlM_block, pure_eq_ok, Except.ok.injEq]
  constructor
  · rintro ⟨s, hs, t, ht, rfl⟩
    exact ⟨s, t, hs, ht, rfl⟩
  · rintro ⟨s, t, hs, ht, rfl⟩
    exact ⟨s, hs, t, ht, rfl⟩

theorem foldlM_body_unplaced (bs : List (List Written.Inst)) (s : State) :
    (bs.map (·.map Written.Inst.unplaced)).foldlM body s = bs.foldlM body s := by
  have hbody (s : State) (is : List Written.Inst) :
      body s (is.map Written.Inst.unplaced) = body s is := by
    rw [body, List.foldlM_map]
    rfl
  rw [List.foldlM_map]
  simp only [hbody]

/-- Functions that differ in places are resolved to the same function. -/
theorem func_of_unplaced {total total' : Nat} {w w' : Written.Func} {f : Func}
    (h : func total w = .ok f) (hname : w'.name = w.name) (hparams : w'.params = w.params)
    (hblocks : (orEmpty w'.blocks).map (·.map Written.Inst.unplaced) =
      (orEmpty w.blocks).map (·.map Written.Inst.unplaced)) : func total' w' = .ok f := by
  obtain ⟨s, t, hs, ht, rfl⟩ := func_eq_ok.mp h
  refine func_eq_ok.mpr ⟨s, t, by rw [hparams, hname, hs], ?_, rfl⟩
  rw [← foldlM_body_unplaced, hblocks, foldlM_body_unplaced, ht]

/-! ### Parameters -/

/-- A parameter that has been resolved is resolved again from what is printed of it. -/
theorem param_replay {s t : State} {p : Written.Param} (h : param s p = .ok t)
    (hn : s.Named s.func.params) :
    ∃ v, t.func.params = s.func.params ++ [v] ∧ s.func.Grows t.func ∧
      t.func.blocks = s.func.blocks ∧ t.Named t.func.params ∧ ∀ f, t.func.Grows f →
        param ⟨s.func, numbered s.func.params⟩ (writtenParam f s.func.params.length v) =
            .ok ⟨t.func, numbered t.func.params⟩ ∧
          f.width v ≤ 255 := by
  simp only [param, bind_eq_ok] at h
  obtain ⟨⟨⟩, hcheck, ⟨v, g⟩, hadd, hdefine⟩ := h
  have hadd := edit_eq_ok.mp hadd
  obtain ⟨hw, adds, hparams⟩ := Func.addParam_eq_ok hadd
  have hv : g.value? v = some ⟨.parameter s.func.params.length p.typeClass, p.width⟩ := by
    rw [adds.value?, if_pos rfl]
  have hbefore : State.Named ⟨g, s.names⟩ s.func.params := hn.grows rfl adds.grows
  obtain ⟨hfunc, hnamed⟩ := hbefore.define hv (fun _ => by simp) hdefine
  obtain rfl : t.func = g := hfunc
  rw [← hparams] at hnamed
  refine ⟨v, hparams, adds.grows, adds.blocks, hnamed, fun f hf => ?_⟩
  have hvf := hf.value? v _ hv
  have hclass : f.typeClass? v = p.typeClass := by rw [Func.typeClass?, hvf]; rfl
  have hwidth : f.width v = p.width := by rw [Func.width, hvf]; rfl
  have hwritten : writtenParam f s.func.params.length v =
      ⟨Numeral.decimal s.func.params.length, p.typeClass, p.width⟩ := by
    rw [writtenParam, hclass, hwidth]
  refine ⟨?_, by rw [hwidth]; exact le_of_supported hw⟩
  rw [hwritten, param, hcheck, ok_bind, edit_eq_ok.mpr hadd, ok_bind, hparams]
  exact define_numbered t.func s.func.params v

theorem params_replay {s t : State} {ps : List Written.Param} (h : ps.foldlM param s = .ok t)
    (hn : s.Named s.func.params) :
    ∃ vs, t.func.params = s.func.params ++ vs ∧ s.func.Grows t.func ∧
      t.func.blocks = s.func.blocks ∧ t.Named t.func.params ∧ ∀ f, t.func.Grows f →
        (vs.mapIdx fun k v => writtenParam f (s.func.params.length + k) v).foldlM param
            ⟨s.func, numbered s.func.params⟩ = .ok ⟨t.func, numbered t.func.params⟩ ∧
          ∀ v ∈ vs, f.width v ≤ 255 := by
  induction ps generalizing s with
  | nil =>
    cases h
    exact ⟨[], (List.append_nil _).symm, .refl _, rfl, hn, fun f _ => ⟨rfl, by simp⟩⟩
  | cons p ps ih =>
    rw [List.foldlM_cons, bind_eq_ok] at h
    obtain ⟨u, hp, hps⟩ := h
    obtain ⟨v, hparams, hgrows, hblocks, hnamed, hreplay⟩ := param_replay hp hn
    obtain ⟨vs, hrest, hgrowsRest, hblocksRest, hnamedRest, hreplays⟩ := ih hps hnamed
    refine ⟨v :: vs, by rw [hrest, hparams, List.append_assoc]; rfl, hgrows.trans hgrowsRest,
      hblocksRest.trans hblocks, hnamedRest, fun f hf => ?_⟩
    obtain ⟨hfirst, hwidth⟩ := hreplay f (hgrowsRest.trans hf)
    obtain ⟨hothers, hwidths⟩ := hreplays f hf
    refine ⟨?_, List.forall_mem_cons.mpr ⟨hwidth, hwidths⟩⟩
    have hshift (k : Nat) : s.func.params.length + (k + 1) = u.func.params.length + k := by
      rw [hparams, List.length_append, List.length_singleton]
      omega
    simp only [List.mapIdx_cons, List.foldlM_cons, hshift, Nat.add_zero, hfirst, ok_bind]
    exact hothers

/-! ### Blocks -/

theorem modify_push {α : Type} (done : Array α) (a : α) (g : α → α) :
    (done.push a).modify done.size g = done.push (g a) := by
  refine Array.ext_getElem? fun k => ?_
  rw [Array.getElem?_modify, Array.getElem?_push, Array.getElem?_push]
  by_cases hk : k = done.size
  · simp [hk]
  · simp [hk, Ne.symm hk]

/-- Instructions that have been resolved at the end of a function are resolved again from what is
printed of them. -/
theorem insts_replay {s t : State} {done : Array (List InstId)} {front : List InstId}
    {is : List Written.Inst} (h : is.foldlM (inst · ⟨done.size⟩ ·) s = .ok t)
    {printed : List ValueId} (hn : s.Named printed) (hblocks : s.func.blocks = done.push front) :
    ∃ ks printed', t.func.blocks = done.push (front ++ ks) ∧ s.func.Grows t.func ∧
      t.func.params = s.func.params ∧ t.Named printed' ∧ ∀ f, t.func.Grows f →
        ∃ js, writtenInsts f printed ks = (js, printed') ∧
          js.foldlM (inst · ⟨done.size⟩ ·) ⟨s.func, numbered printed⟩ =
            .ok ⟨t.func, numbered printed'⟩ ∧
          ∀ j ∈ js, j.IsLegible := by
  induction is generalizing s printed front with
  | nil =>
    cases h
    exact ⟨[], printed, by rw [hblocks, List.append_nil], .refl _, rfl, hn,
      fun f _ => ⟨[], rfl, rfl, by simp⟩⟩
  | cons i is ih =>
    rw [List.foldlM_cons, bind_eq_ok] at h
    obtain ⟨u, hi, his⟩ := h
    obtain ⟨k, d, appends, hreplay⟩ := inst_replay hi hn
    have hmiddle : u.func.blocks = done.push (front ++ [k]) := by
      rw [appends.blocks, hblocks, modify_push]
    obtain ⟨ks, printed', hrest, hgrows, hparams, hnamed, hreplays⟩ := ih his appends.named hmiddle
    refine ⟨k :: ks, printed', by rw [hrest, List.append_assoc]; rfl, appends.grows.trans hgrows,
      hparams.trans appends.params, hnamed, fun f hf => ?_⟩
    obtain ⟨hfirst, hlegible⟩ := hreplay f (hgrows.trans hf)
    obtain ⟨js, hwritten, hothers, hlegibles⟩ := hreplays f hf
    -- the record that printing looks at is the one that was appended
    have hinst : f.inst? k = some d := (hgrows.trans hf).inst? k d appends.inst?
    refine ⟨writtenInst f printed d :: js, ?_, ?_, List.forall_mem_cons.mpr ⟨hlegible, hlegibles⟩⟩
    · rw [writtenInsts, hinst]
      dsimp only
      rw [hwritten]
    · rw [List.foldlM_cons, hfirst, ok_bind, hothers]

/-- Blocks that have been resolved are resolved again from what is printed of them. -/
theorem blocks_replay {s t : State} {bs : List (List Written.Inst)} (h : bs.foldlM body s = .ok t)
    {printed : List ValueId} (hn : s.Named printed) :
    ∃ kss : List (List InstId), kss.length = bs.length ∧
      t.func.blocks.toList = s.func.blocks.toList ++ kss ∧ s.func.Grows t.func ∧
      t.func.params = s.func.params ∧ ∀ f, t.func.Grows f →
        (∃ names, (writtenBlocks f printed kss).foldlM body ⟨s.func, numbered printed⟩ =
          .ok ⟨t.func, names⟩) ∧
        ∀ js ∈ writtenBlocks f printed kss, ∀ j ∈ js, j.IsLegible := by
  induction bs generalizing s printed with
  | nil =>
    cases h
    exact ⟨[], rfl, (List.append_nil _).symm, .refl _, rfl,
      fun f _ => ⟨⟨numbered printed, rfl⟩, by simp [writtenBlocks]⟩⟩
  | cons is bs ih =>
    rw [List.foldlM_cons, bind_eq_ok] at h
    obtain ⟨u, hbody, hbs⟩ := h
    have hcreate : s.func.Grows s.func.createBlock.2 := ⟨rfl, fun _ _ hv => hv, fun _ _ hi => hi⟩
    have hopened : State.Named { s with func := s.func.createBlock.2 } printed :=
      hn.grows rfl hcreate
    obtain ⟨ks, printed', hblocks, hgrows, hparams, hnamed, hreplay⟩ :=
      insts_replay hbody hopened rfl
    obtain ⟨kss, hlength, hrest, hgrowsRest, hparamsRest, hreplays⟩ := ih hbs hnamed
    refine ⟨ks :: kss, congrArg (· + 1) hlength, ?_, (hcreate.trans hgrows).trans hgrowsRest,
      hparamsRest.trans hparams, fun f hf => ?_⟩
    · rw [hrest, hblocks]
      simp
    · obtain ⟨js, hwritten, hfirst, hlegible⟩ := hreplay f (hgrowsRest.trans hf)
      obtain ⟨⟨names, hothers⟩, hlegibles⟩ := hreplays f hf
      rw [writtenBlocks, hwritten]
      refine ⟨⟨names, ?_⟩, List.forall_mem_cons.mpr ⟨hlegible, hlegibles⟩⟩
      have hagain : body ⟨s.func, numbered printed⟩ js = .ok ⟨u.func, numbered printed'⟩ := hfirst
      rw [List.foldlM_cons, hagain, ok_bind, hothers]

/-! ### Functions -/

/-- Whether the text of a function can be read back, and resolution leads to the function again. -/
structure Replays (f : Func) : Prop where
  legible : f.written.IsLegible
  blocks : f.written.blocks ≠ []
  func : ∀ total, func total f.written = .ok f

/-- A function that has been resolved is resolved again from what is printed of it. -/
theorem func_replay {total : Nat} {w : Written.Func} {f : Func} (h : func total w = .ok f)
    (hname : Written.IsName w.name) : Replays f := by
  obtain ⟨s, t, hparams, hblocks, rfl⟩ := func_eq_ok.mp h
  have hempty : State.Named ⟨.empty w.name, []⟩ [] := ⟨by simp, by simp⟩
  obtain ⟨vs, hvs, hgrows, hnone, hnamed, hreplayParams⟩ := params_replay hparams hempty
  obtain ⟨kss, hlength, hkss, hgrowsBlocks, hframe, hreplayBlocks⟩ := blocks_replay hblocks hnamed
  obtain ⟨hreplayed, hwidths⟩ := hreplayParams t.func hgrowsBlocks
  obtain ⟨⟨names, hbodies⟩, hlegible⟩ := hreplayBlocks t.func (.refl _)
  have hfuncName : t.func.name = w.name := (hgrows.trans hgrowsBlocks).name
  have hfuncParams : t.func.params = vs := hframe.trans hvs
  have hwrittenParams : t.func.written.params = vs.mapIdx (writtenParam t.func) := by
    rw [Func.written, hfuncParams]
  have hwrittenBlocks : t.func.written.blocks = writtenBlocks t.func s.func.params kss := by
    rw [Func.written, hkss, hnone, hframe]
    rfl
  -- there is a block, so that what is printed is not taken for a function without a line
  have hne : t.func.written.blocks ≠ [] := by
    have hbodies : (orEmpty w.blocks).length ≠ 0 := by
      cases hw : w.blocks <;> simp [orEmpty]
    rw [hwrittenBlocks, ← List.length_pos_iff, length_writtenBlocks]
    omega
  constructor
  case legible =>
    constructor
    case name =>
      change Written.IsName t.func.name
      rwa [hfuncName]
    case params =>
      intro p hp
      rw [hwrittenParams] at hp
      obtain ⟨k, hk, rfl⟩ := List.mem_mapIdx.mp hp
      exact ⟨Written.isName_decimal k, hwidths _ (List.getElem_mem hk)⟩
    case insts => rwa [hwrittenBlocks]
  case blocks => exact hne
  case func =>
    intro total
    refine func_eq_ok.mpr ⟨⟨s.func, numbered s.func.params⟩, ⟨t.func, names⟩, ?_, ?_, rfl⟩
    · have hstart : t.func.written.name = w.name := hfuncName
      have hcount (k : Nat) : (Func.empty w.name).params.length + k = k := Nat.zero_add k
      simp only [hcount] at hreplayed
      rw [hstart, hwrittenParams]
      exact hreplayed
    · rw [orEmpty_of_ne_nil hne, hwrittenBlocks, hbodies]

/-! ### Programs -/

/-- A function that has been read has a name. -/
theorem isName_of_func {cs rest : List Char} {w : Written.Func}
    (h : Written.func cs = .ok (w, rest)) : Written.IsName w.name := by
  rw [Written.func] at h
  iterate 4 obtain ⟨_, _, -, h⟩ := Reader.bind_eq_ok h
  obtain ⟨name, _, hname, h⟩ := Reader.bind_eq_ok h
  iterate 9 obtain ⟨_, _, -, h⟩ := Reader.bind_eq_ok h
  cases h
  exact Written.isName_of_name hname

/-- What holds of every function that is read and resolved holds of all functions of a text. -/
theorem forall_of_functions {total : Nat} {q : Func → Prop}
    (hq : ∀ {cs rest w f}, Written.func cs = .ok (w, rest) → func total w = .ok f → q f)
    {cs : List Char} {fs : List Func} (h : functions total cs = .ok fs) : ∀ f ∈ fs, q f := by
  induction hn : cs.length using Nat.strongRecOn generalizing cs fs with
  | ind n ih =>
    rw [functions] at h
    split at h
    · cases h
      simp
    · split at h
      · cases h
      · next w rest hw =>
        rw [bind_eq_ok] at h
        obtain ⟨f, hf, h⟩ := h
        split at h
        · next hlt =>
          rw [bind_eq_ok] at h
          obtain ⟨fs, hfs, h⟩ := h
          cases h
          exact List.forall_mem_cons.mpr ⟨hq hw hf, ih _ (hn ▸ hlt) hfs rfl⟩
        · cases h
          simpa using hq hw hf

/-- What has been read and resolved up to the end of a text can be read and resolved again. -/
theorem replays_of_functions {total : Nat} {cs : List Char} {fs : List Func}
    (h : functions total cs = .ok fs) : ∀ f ∈ fs, Replays f :=
  forall_of_functions (fun hw hf => func_replay hf (isName_of_func hw)) h

theorem functions_step {total : Nat} {cs start rest : List Char} {w : Written.Func}
    (hstart : Written.dropBlank false cs = start) (hne : start ≠ [])
    (hw : Written.func start = .ok (w, rest)) (hlt : rest.length < cs.length) {gs : List Func} :
    functions total cs = .ok gs ↔
      ∃ g fs, func total w = .ok g ∧ functions total rest = .ok fs ∧ gs = g :: fs := by
  rw [functions, hstart]
  split
  · next heq => exact (hne rfl).elim
  · rw [hw]
    simp only [if_pos hlt, bind_eq_ok, pure_eq_ok, Except.ok.injEq]
    constructor
    · rintro ⟨g, hg, fs, hfs, rfl⟩
      exact ⟨g, fs, hg, hfs, rfl⟩
    · rintro ⟨g, fs, hg, hfs, rfl⟩
      exact ⟨g, hg, fs, hfs, rfl⟩

theorem functions_of_error {total : Nat} {cs start stopped : List Char}
    (hstart : Written.dropBlank false cs = start) (hne : start ≠ [])
    (hw : Written.func start = .error stopped) :
    functions total cs = .error ⟨.malformed, total - Written.byteLength stopped⟩ := by
  rw [functions, hstart]
  split
  · next heq => exact (hne rfl).elim
  · rw [hw]

/-- The text of a function in front of others is resolved as its written form is. -/
theorem functions_spell {total : Nat} {f : Func} {cs rest : List Char}
    (hlegible : f.written.IsLegible) (hblocks : f.written.blocks ≠ [])
    (hcs : Written.dropBlank false cs = f.written.spell ++ rest) (hlt : rest.length < cs.length)
    {gs : List Func} :
    functions total cs = .ok gs ↔
      ∃ g fs, func total f.written = .ok g ∧ functions total rest = .ok fs ∧ gs = g :: fs := by
  obtain ⟨w, hw, hname, hparams, hbodies⟩ := Written.func_spell hlegible hblocks rest
  have hbodies : (orEmpty w.blocks).map (·.map Written.Inst.unplaced) =
      (orEmpty f.written.blocks).map (·.map Written.Inst.unplaced) := by
    rw [hbodies, orEmpty_of_ne_nil hblocks]
  have hne : f.written.spell ++ rest ≠ [] :=
    List.append_ne_nil_of_left_ne_nil f.written.spell_ne_nil _
  rw [functions_step hcs hne hw hlt]
  constructor
  · rintro ⟨g, fs, hg, hfs, rfl⟩
    exact ⟨g, fs, func_of_unplaced hg hname.symm hparams.symm hbodies.symm, hfs, rfl⟩
  · rintro ⟨g, fs, hg, hfs, rfl⟩
    exact ⟨g, fs, func_of_unplaced hg hname hparams hbodies, hfs, rfl⟩

/-- The text of functions is read and resolved again, with an empty line in front of each. -/
theorem functions_flatMap {fs : List Func} (h : ∀ f ∈ fs, Replays f) (total : Nat) :
    functions total ('\n' :: fs.flatMap fun f => '\n' :: f.print.toList) = .ok fs := by
  induction fs with
  | nil =>
    rw [functions]
    rfl
  | cons f fs ih =>
    rw [List.forall_mem_cons] at h
    let rest := '\n' :: fs.flatMap fun f => '\n' :: f.print.toList
    have htext : '\n' :: (f :: fs).flatMap (fun f => '\n' :: f.print.toList) =
        '\n' :: '\n' :: (f.written.spell ++ rest) := by
      simp [Func.toList_print, rest]
    rw [htext]
    refine (functions_spell h.1.legible h.1.blocks rfl ?_).mpr
      ⟨f, fs, h.1.func total, ih h.2, rfl⟩
    simp only [rest, List.length_cons, List.length_append]
    omega

end Parse

/-- The text of a program is parsed to functions of which each is resolved again. -/
theorem Program.functions_print {p : Program} (h : ∀ f ∈ p.functions, Parse.Replays f)
    (total : Nat) : Parse.functions total p.print.toList = .ok p.functions := by
  obtain ⟨name, fs⟩ := p
  cases fs with
  | nil =>
    rw [Parse.functions]
    rfl
  | cons f fs =>
    rw [List.forall_mem_cons] at h
    let rest := '\n' :: fs.flatMap fun f => '\n' :: f.print.toList
    have htext : (Program.mk name (f :: fs)).print.toList = f.written.spell ++ rest := by
      rw [Program.print, String.toList_intercalate, List.map_map, List.map_cons,
        Written.intercalate_cons, List.flatMap_map]
      simp [Func.toList_print, rest]
    rw [htext]
    refine (Parse.functions_spell h.1.legible h.1.blocks rfl ?_).mpr
      ⟨f, fs, h.1.func total, Parse.functions_flatMap h.2 total, rfl⟩
    have hspell := List.length_pos_iff.mpr f.written.spell_ne_nil
    change rest.length < (f.written.spell ++ rest).length
    rw [List.length_append]
    omega

/-- What has been parsed is printed as a text that is parsed to the same functions, down to the
numbers of their entities, and that is printed as the same text again. -/
theorem parseProgram_print {name text : String} {p : Program}
    (h : parseProgram name text = .ok p) (name' : String) :
    ∃ q, parseProgram name' p.print = .ok q ∧ q.name = name' ∧ q.functions = p.functions ∧
      q.print = p.print := by
  rw [parseProgram, bind_eq_ok] at h
  obtain ⟨fs, hfs, h⟩ := h
  cases h
  have hagain := Program.functions_print (p := ⟨name, fs⟩) (Parse.replays_of_functions hfs)
  refine ⟨⟨name', fs⟩, ?_, rfl, rfl, rfl⟩
  rw [parseProgram, hagain]
  rfl

/-- A text with comments, names and literals of several forms, and a label in the middle. -/
def clampText : String :=
  "fn @clamp(%x: f32, %n :u16) \x7b // from above\n%y: 32 = fmin! %x, 255.0:f32\n" ++
    "^low: // the low byte\n%m:16=iand %n , -1:16 store %m store %y \x7d"

/-- The text as it is printed. -/
def clampPrinted : String :=
  "fn @clamp(%0: f32, %1: u16) \x7b\n^bb0:\n  %2: 32 = fmin! %0, 0x437f0000:32\n" ++
    "^bb1:\n  %3: 16 = iand %1, 0xffff:16\n  store %3\n  store %2\n\x7d\n"

theorem parseProgram_print_clampText : ∃ p, parseProgram "clamp" clampText = .ok p ∧
    p.print = clampPrinted ∧ ∃ q, parseProgram "again" p.print = .ok q ∧ q.name = "again" ∧
      q.functions = p.functions ∧ q.print = p.print := by
  have hprint : (parseProgram "clamp" clampText).map Program.print = .ok clampPrinted := by
    decide +kernel
  cases hp : parseProgram "clamp" clampText with
  | error e =>
    rw [hp] at hprint
    cases hprint
  | ok p =>
    rw [hp] at hprint
    exact ⟨p, rfl, Except.ok.inj hprint, parseProgram_print hp "again"⟩

end Peephole
