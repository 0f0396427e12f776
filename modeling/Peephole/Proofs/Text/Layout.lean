import Peephole.Proofs.Text.Spelling

/-!
# Functions read back

The spelling of a function is read back as the function, `func_spell`. A function is read line by
line, and its lines are grouped into blocks at the labels. Printing labels all blocks of a function
or none, and the grouping undoes both.
-/

namespace Peephole

namespace Written

open Reader

/-- Whether all names and widths of a function can be read back. -/
structure Func.IsLegible (w : Func) : Prop where
  name : IsName w.name
  params : ∀ p ∈ w.params, IsName p.name ∧ p.width ≤ 255
  insts : ∀ is ∈ w.blocks, ∀ i ∈ is, i.IsLegible

/-! ### Spellings -/

/-- The lines of blocks from a given number on. -/
def spellBlocks (labelled : Bool) (k : Nat) : List (List Inst) → List Char
  | [] => []
  | is :: bs =>
    (if labelled then '^' :: 'b' :: 'b' :: (Numeral.digits 10 k ++ [':', '\n']) else []) ++
      (is.flatMap (fun i => ' ' :: ' ' :: i.spell) ++ spellBlocks labelled (k + 1) bs)

/-- The text of a function up to the end of its last line. -/
def Func.spell (w : Func) : List Char :=
  "fn @".toList ++ (w.name.toList ++ '(' :: ([',', ' '].intercalate (w.params.map Param.spell) ++
    (") \x7b\n".toList ++ (spellBlocks (1 < w.blocks.length) 0 w.blocks ++ ['\x7d']))))

theorem Func.spell_ne_nil (w : Func) : w.spell ≠ [] := by
  simp [Func.spell]

/-- The lines of blocks. -/
def linesOf (labelled : Bool) (bs : List (List Inst)) : List (Option Inst) :=
  bs.flatMap fun is => (if labelled then [none] else []) ++ is.map some

/-! ### Lines -/

/-- What spells an instruction begins with a percent sign or a letter. -/
theorem exists_spell_eq {i : Inst} (h : i.IsLegible) :
    ∃ c rest, i.spell = c :: rest ∧ (c = '%' ∨ isNameChar c) := by
  obtain ⟨op, hop⟩ := h.opcode
  obtain ⟨c, name, hname, hc, -⟩ := exists_name_eq op
  cases hr : i.result with
  | none =>
    exact ⟨c, _, by rw [Inst.spell, hr, hop, hname]; rfl, .inr (isNameChar_of_isAlpha hc)⟩
  | some x => exact ⟨'%', _, by rw [Inst.spell, hr]; rfl, .inl rfl⟩

/-- What spells an instruction is no comma, no label and no closing brace. -/
theorem ne_of_spell {c d : Char} (h : c = '%' ∨ isNameChar c)
    (hd : '%' ≠ d ∧ isNameChar d = false) : c ≠ d := by
  obtain rfl | hc := h
  · exact hd.1
  · exact ne_of_isNameChar hc hd.2

theorem dropBlank_spell {i : Inst} (h : i.IsLegible) (cs : List Char) :
    dropBlank false (' ' :: ' ' :: (i.spell ++ cs)) = i.spell ++ cs := by
  obtain ⟨c, rest, hspell, hc⟩ := exists_spell_eq h
  have hb : isBlank c = false := by
    obtain rfl | hname := hc
    · rfl
    · exact isBlank_of_isNameChar hname
  rw [hspell]
  exact dropBlank_cons hb (ne_of_spell hc (by decide))

theorem goesOn_inst {i : Inst} (h : i.IsLegible) (cs : List Char) :
    GoesOn (' ' :: ' ' :: (i.spell ++ cs)) := by
  obtain ⟨c, rest, hspell, hc⟩ := exists_spell_eq h
  exact ⟨c, rest ++ cs, by rw [dropBlank_spell h, hspell]; rfl, ne_of_spell hc (by decide)⟩

theorem lines_step {start mid rest : List Char} {l : Option Inst} {ls : List (Option Inst)}
    (hstart : dropBlank false cs = start) (hbrace : ∀ r, start ≠ '\x7d' :: r)
    (hline : line start = .ok (l, mid)) (hlt : mid.length < cs.length)
    (hrest : lines mid = .ok (ls, rest)) : lines cs = .ok (l :: ls, rest) := by
  rw [lines]
  split
  · next r heq => exact (hbrace r (hstart.symm.trans heq)).elim
  · next heq =>
    rw [hstart, hline]
    dsimp only
    rw [if_pos hlt, hrest]

theorem lines_of_error {start stopped : List Char} (hstart : dropBlank false cs = start)
    (hbrace : ∀ r, start ≠ '\x7d' :: r) (hline : line start = .error stopped) :
    lines cs = .error stopped := by
  rw [lines]
  split
  · next r heq => exact (hbrace r (hstart.symm.trans heq)).elim
  · rw [hstart, hline]

/-- Whether the lines of a function continue with a text, after the end of a line. -/
structure Continues (tail : List Char) (ls : List (Option Inst)) (rest : List Char) : Prop where
  goesOn : GoesOn tail
  lines : ∃ ls', Written.lines ('\n' :: tail) = .ok (ls', rest) ∧
    ls'.map (·.map Inst.unplaced) = ls.map (·.map Inst.unplaced)

namespace Continues

variable {tail rest : List Char} {ls : List (Option Inst)}

theorem brace (rest : List Char) : Continues ('\x7d' :: rest) [] rest where
  goesOn := ⟨'\x7d', rest, rfl, by decide⟩
  lines := by
    refine ⟨[], ?_, rfl⟩
    rw [Written.lines]
    rfl

/-- An instruction goes before the lines of a text. -/
theorem inst {i : Inst} (h : Continues tail ls rest) (hi : i.IsLegible) :
    Continues (' ' :: ' ' :: (i.spell ++ tail)) (some i :: ls) rest := by
  obtain ⟨j, hj, hsame⟩ := inst_spell hi h.goesOn
  obtain ⟨c, spelled, hspell, hc⟩ := exists_spell_eq hi
  obtain ⟨ls', hls', hmap⟩ := h.lines
  have hbrace (r : List Char) : i.spell ++ tail ≠ '\x7d' :: r := by
    intro heq
    rw [hspell] at heq
    exact ne_of_spell hc (by decide) (List.cons.inj heq).1
  have hline : line (i.spell ++ tail) = .ok (some j, '\n' :: tail) := by
    have hinst : line (i.spell ++ tail) = (some <$> Written.inst) (i.spell ++ tail) := by
      rw [hspell, List.cons_append, line]
      rintro r heq
      exact ne_of_spell hc (by decide) (List.cons.inj heq).1
    rw [hinst]
    exact map_of_ok some hj
  refine ⟨goesOn_inst hi tail, some j :: ls', ?_, by simp [hsame, hmap]⟩
  refine lines_step (dropBlank_spell hi tail) hbrace hline ?_ hls'
  simp only [List.length_cons, List.length_append]
  omega

/-- A label goes before the lines of a text. -/
theorem label (h : Continues tail ls rest) (k : Nat) :
    Continues ('^' :: 'b' :: 'b' :: (Numeral.digits 10 k ++ ':' :: '\n' :: tail)) (none :: ls)
      rest := by
  let name := String.ofList ('b' :: 'b' :: Numeral.digits 10 k)
  have hname : IsName name := by
    refine ⟨by simp [name], fun c hc => ?_⟩
    simp only [name, String.toList_ofList, List.mem_cons] at hc
    obtain rfl | rfl | hc := hc
    · rfl
    · rfl
    · exact isNameChar_of_isDigit (isDigit_of_mem_digits hc)
  have htext : 'b' :: 'b' :: (Numeral.digits 10 k ++ ':' :: '\n' :: tail) =
      name.toList ++ ':' :: '\n' :: tail := by
    simp [name]
  have hread : Written.label ('^' :: (name.toList ++ ':' :: '\n' :: tail)) =
      .ok ((), '\n' :: tail) := by
    rw [Written.label, bind_of_ok _ (char_cons _ _),
      bind_of_ok _ (discard_of_ok (name_append hname (stops_cons rfl))),
      bind_of_ok _ (blank_cons rfl (by decide))]
    exact char_cons _ _
  have hline : line ('^' :: (name.toList ++ ':' :: '\n' :: tail)) = .ok (none, '\n' :: tail) := by
    rw [line, bind_of_ok _ hread]
    rfl
  obtain ⟨ls', hls', hmap⟩ := h.lines
  rw [htext]
  refine ⟨⟨'^', _, rfl, by decide⟩, none :: ls', ?_, by simp [hmap]⟩
  refine lines_step rfl (fun r heq => by cases (List.cons.inj heq).1) hline ?_ hls'
  simp only [List.length_cons, List.length_append]
  omega

/-- Instructions go before the lines of a text. -/
theorem insts {is : List Inst} (h : Continues tail ls rest) (hi : ∀ i ∈ is, i.IsLegible) :
    Continues (is.flatMap (fun i => ' ' :: ' ' :: i.spell) ++ tail) (is.map some ++ ls) rest := by
  induction is with
  | nil => exact h
  | cons i is ih =>
    rw [List.forall_mem_cons] at hi
    simpa using (ih hi.2).inst hi.1

/-- Blocks go before the lines of a text. -/
theorem blocks {labelled : Bool} {k : Nat} {bs : List (List Inst)} (h : Continues tail ls rest)
    (hi : ∀ is ∈ bs, ∀ i ∈ is, i.IsLegible) :
    Continues (spellBlocks labelled k bs ++ tail) (linesOf labelled bs ++ ls) rest := by
  induction bs generalizing k with
  | nil => exact h
  | cons is bs ih =>
    rw [List.forall_mem_cons] at hi
    have hbody := (ih (k := k + 1) hi.2).insts hi.1
    cases labelled with
    | false => simpa [spellBlocks, linesOf] using hbody
    | true => simpa [spellBlocks, linesOf] using hbody.label k

end Continues

/-! ### Blocks -/

/-- The instructions before the first label, and the instructions after each label. -/
def gather (ls : List (Option Inst)) : List Inst × List (List Inst) :=
  ls.foldr
    (fun l (current, closed) =>
      match l with
      | some i => (i :: current, closed)
      | none => ([], current :: closed)) ([], [])

theorem blocks_eq (ls : List (Option Inst)) :
    blocks ls = if (gather ls).1.isEmpty then (gather ls).2 else (gather ls).1 :: (gather ls).2 :=
  rfl

@[simp] theorem gather_some (i : Inst) (ls : List (Option Inst)) :
    gather (some i :: ls) = (i :: (gather ls).1, (gather ls).2) := rfl

@[simp] theorem gather_none (ls : List (Option Inst)) :
    gather (none :: ls) = ([], (gather ls).1 :: (gather ls).2) := rfl

theorem gather_append (is : List Inst) (ls : List (Option Inst)) :
    gather (is.map some ++ ls) = (is ++ (gather ls).1, (gather ls).2) := by
  induction is with
  | nil => rfl
  | cons i is ih =>
    rw [List.map_cons, List.cons_append, gather_some, ih]
    rfl

theorem gather_linesOf (bs : List (List Inst)) : gather (linesOf true bs) = ([], bs) := by
  induction bs with
  | nil => rfl
  | cons is bs ih =>
    have hlines : linesOf true (is :: bs) = none :: (is.map some ++ linesOf true bs) := by
      simp [linesOf]
    rw [hlines, gather_none, gather_append, ih, List.append_nil]

theorem gather_unplaced (ls : List (Option Inst)) :
    gather (ls.map (·.map Inst.unplaced)) =
      ((gather ls).1.map Inst.unplaced, (gather ls).2.map (·.map Inst.unplaced)) := by
  induction ls with
  | nil => rfl
  | cons l ls ih =>
    cases l <;> simp [ih]

/-- Blocks are formed without regard to places. -/
theorem blocks_unplaced (ls : List (Option Inst)) :
    blocks (ls.map (·.map Inst.unplaced)) = (blocks ls).map (·.map Inst.unplaced) := by
  rw [blocks_eq, blocks_eq, gather_unplaced, List.isEmpty_map]
  split <;> rfl

/-- The blocks of a function: one that has no line has one empty block. -/
def orEmpty (bs : List (List Inst)) : List (List Inst) := if bs.isEmpty then [[]] else bs

theorem orEmpty_of_ne_nil {bs : List (List Inst)} (h : bs ≠ []) : orEmpty bs = bs := by
  rw [orEmpty, if_neg (by simpa using h)]

theorem orEmpty_unplaced (bs : List (List Inst)) :
    orEmpty (bs.map (·.map Inst.unplaced)) = (orEmpty bs).map (·.map Inst.unplaced) := by
  cases bs <;> rfl

/-- Blocks are formed again when there is a label for each of several, and none for a single one. -/
theorem blocks_linesOf {bs : List (List Inst)} (h : bs ≠ []) :
    orEmpty (blocks (linesOf (1 < bs.length) bs)) = bs := by
  obtain ⟨is, bs, rfl⟩ := List.exists_cons_of_ne_nil h
  cases bs with
  | nil =>
    have hlines : linesOf (1 < [is].length) [is] = is.map some ++ [] := by
      simp [linesOf]
    have hgather : gather (linesOf (1 < [is].length) [is]) = (is, []) := by
      rw [hlines, gather_append]
      simp [gather]
    rw [blocks_eq, hgather]
    cases is <;> rfl
  | cons is' bs =>
    have hlabelled : decide (1 < (is :: is' :: bs).length) = true := by simp
    rw [hlabelled, blocks_eq, gather_linesOf]
    rfl

/-! ### Functions -/

/-- Parameters are read back up to the closing parenthesis. -/
theorem params_spell {ps : List Param} (h : ∀ p ∈ ps, IsName p.name ∧ p.width ≤ 255)
    (cs : List Char) :
    separated param (do blank; Reader.char ','; blank)
        ([',', ' '].intercalate (ps.map Param.spell) ++ ')' :: cs) = .ok (ps, ')' :: cs) := by
  have helement (p : Param) (hp : IsName p.name ∧ p.width ≤ 255) (cs : List Char)
      (hcs : Stops isNameChar cs) : param (p.spell ++ cs) = .ok (p, cs) :=
    param_spell hp.1 hp.2 hcs
  have hseparator (p : Param) (cs : List Char) :
      (do blank; Reader.char ','; blank : Reader Unit) ([',', ' '] ++ (p.spell ++ cs)) =
        .ok ((), p.spell ++ cs) := by
    have hblank : blank (',' :: ' ' :: (p.spell ++ cs)) = .ok ((), ',' :: ' ' :: (p.spell ++ cs)) :=
      blank_cons rfl (by decide)
    exact (bind_of_ok _ hblank).trans (bind_of_ok _ (char_cons _ _))
  have hclose : (blank : Reader Unit) (')' :: cs) = .ok ((), ')' :: cs) :=
    blank_cons rfl (by decide)
  have hstop : (do (do blank; Reader.char ','; blank); param : Reader Param) (')' :: cs) =
      .error (')' :: cs) :=
    bind_of_error _ ((bind_of_ok _ hclose).trans (bind_of_error _ (char_of_ne (by decide))))
  cases ps with
  | nil =>
    have hnone : separated1 param (do blank; Reader.char ','; blank) (')' :: cs) =
        .error (')' :: cs) :=
      bind_of_error _ (bind_of_error _ (bind_of_error _ (char_of_ne (by decide))))
    exact bind_of_ok _ (attempt_of_error hnone)
  | cons p ps =>
    rw [List.forall_mem_cons] at h
    have htext : [',', ' '].intercalate ((p :: ps).map Param.spell) ++ ')' :: cs =
        p.spell ++ (ps.flatMap (fun q => [',', ' '] ++ q.spell) ++ ')' :: cs) := by
      rw [List.map_cons, intercalate_cons, List.flatMap_map, List.append_assoc]
    have hsome := separated1_append (fun q hq => helement q (h.2 q hq)) (fun q _ => hseparator q)
      (by simp) (fun _ => stops_cons rfl) (stops_cons rfl) hstop (helement p h.1)
    rw [htext]
    exact bind_of_ok _ (attempt_of_ok hsome)

/-- A function is read back, with the places of its instructions. -/
theorem func_spell {w : Func} (h : w.IsLegible) (hw : w.blocks ≠ []) (cs : List Char) :
    ∃ w', func (w.spell ++ cs) = .ok (w', cs) ∧ w'.name = w.name ∧ w'.params = w.params ∧
      (orEmpty w'.blocks).map (·.map Inst.unplaced) = w.blocks.map (·.map Inst.unplaced) := by
  let body := spellBlocks (1 < w.blocks.length) 0 w.blocks ++ '\x7d' :: cs
  let params := [',', ' '].intercalate (w.params.map Param.spell) ++ ')' :: ' ' :: '\x7b' ::
    '\n' :: body
  have htext : w.spell ++ cs = "fn".toList ++ (' ' :: '@' :: (w.name.toList ++ '(' :: params)) := by
    simp [Func.spell, params, body]
  have hget : (get : Reader (List Char)) (w.spell ++ cs) = .ok (w.spell ++ cs, w.spell ++ cs) := rfl
  obtain ⟨ls, hls, hsame⟩ := ((Continues.brace cs).blocks (k := 0) h.insts).lines
  have hname : name (w.name.toList ++ '(' :: params) = .ok (w.name, '(' :: params) :=
    name_append h.name (stops_cons rfl)
  have hopen : blank params = .ok ((), params) := by
    cases hw : w.params with
    | nil =>
      simp only [params, hw]
      exact blank_cons rfl (by decide)
    | cons p ps =>
      simp only [params, hw, List.map_cons, intercalate_cons, Param.spell]
      exact blank_cons rfl (by decide)
  have hlines : (lines : Reader (List (Option Inst))) ('\n' :: body) = .ok (ls, cs) := hls
  refine ⟨⟨byteLength (w.spell ++ cs), w.name, w.params, blocks ls⟩, ?_, rfl, rfl, ?_⟩
  · rw [func, bind_of_ok _ hget, htext, bind_of_ok _ (word_append _ _),
      bind_of_ok _ (show blank _ = .ok ((), '@' :: _) from rfl), bind_of_ok _ (char_cons _ _),
      bind_of_ok _ hname, bind_of_ok _ (blank_cons rfl (by decide)), bind_of_ok _ (char_cons _ _),
      bind_of_ok _ hopen, bind_of_ok _ (params_spell h.params _),
      bind_of_ok _ (blank_cons rfl (by decide)), bind_of_ok _ (char_cons _ _),
      bind_of_ok _ (show blank _ = .ok ((), '\x7b' :: _) from rfl), bind_of_ok _ (char_cons _ _),
      bind_of_ok _ hlines]
    rfl
  · rw [List.append_nil] at hsame
    calc (orEmpty (blocks ls)).map (·.map Inst.unplaced)
      _ = orEmpty (blocks (ls.map (·.map Inst.unplaced))) := by
        rw [blocks_unplaced, orEmpty_unplaced]
      _ = (orEmpty (blocks (linesOf (1 < w.blocks.length) w.blocks))).map
          (·.map Inst.unplaced) := by
        rw [hsame, blocks_unplaced, orEmpty_unplaced]
      _ = w.blocks.map (·.map Inst.unplaced) := by rw [blocks_linesOf hw]

end Written

end Peephole
