import Peephole.Proofs.Text.Resolved
import Peephole.Proofs.Text.Within

/-!
# Where errors are found

Parsing has an outcome for every text, and its errors are **located**, `parse_located`: an error of
the form lies where a reader stopped, and an error of resolution where the instruction begins that
is wrong, or, for a parameter, the function. All of these places are the beginnings of end parts of
the text. Their offsets are therefore boundaries of characters and at most the number of bytes of
the text, and no difference of lengths that leads to an offset is cut off at zero.
-/

namespace Peephole

namespace Reader

/-- What comes after a reader that stays within a text starts inside of the text. -/
theorem Within.after {α β : Type} {r : Reader α} (hr : r.Within) {text cs rest : List Char}
    (hcs : cs <:+ text) {g : α → Reader β} {b : β} (h : (r >>= g) cs = .ok (b, rest)) :
    ∃ a middle, middle <:+ text ∧ g a middle = .ok (b, rest) := by
  obtain ⟨a, middle, ha, h⟩ := Reader.bind_eq_ok h
  exact ⟨a, middle, (hr.of_ok ha).trans hcs, h⟩

end Reader

namespace Written

open Reader

/-! ### Bytes -/

theorem byteLength_append (as bs : List Char) :
    byteLength (as ++ bs) = byteLength as + byteLength bs := by
  induction as with
  | nil => exact (Nat.zero_add _).symm
  | cons c as ih => rw [List.cons_append, byteLength, byteLength, ih, Nat.add_assoc]

theorem utf8ByteSize_ofList (cs : List Char) :
    (String.ofList cs).utf8ByteSize = byteLength cs := by
  induction cs with
  | nil => rfl
  | cons c cs ih =>
    rw [← List.singleton_append, String.ofList_append, String.utf8ByteSize_append, ih,
      ← String.singleton_eq_ofList, String.utf8ByteSize_singleton]
    rfl

/-- Whether a part of a text begins after a number of bytes, and goes on to the end. -/
def Begins (text : List Char) (offset : Nat) (part : List Char) : Prop :=
  ∃ before, text = before ++ part ∧ byteLength before = offset

/-- An end part of a text begins where the lengths say. -/
theorem begins_of_suffix {text part : List Char} (h : part <:+ text) :
    Begins text (byteLength text - byteLength part) part := by
  obtain ⟨before, rfl⟩ := h
  refine ⟨before, rfl, ?_⟩
  rw [byteLength_append, Nat.add_sub_cancel_right]

/-- The beginning of an end part is a boundary of characters. -/
theorem Begins.isValid {text : String} {offset : Nat} {part : List Char}
    (h : Begins text.toList offset part) : String.Pos.Raw.IsValid text ⟨offset⟩ := by
  obtain ⟨before, htext, rfl⟩ := h
  rw [String.Pos.Raw.isValid_iff_exists_append]
  refine ⟨String.ofList before, String.ofList part, ?_, ?_⟩
  · rw [← String.ofList_append, ← htext, String.ofList_toList]
  · rw [← utf8ByteSize_ofList]
    rfl

theorem Begins.le {text : String} {offset : Nat} {part : List Char}
    (h : Begins text.toList offset part) : offset ≤ text.utf8ByteSize := by
  obtain ⟨before, htext, rfl⟩ := h
  rw [← String.ofList_toList (s := text), utf8ByteSize_ofList, htext, byteLength_append]
  exact Nat.le_add_right _ _

/-! ### Places of what has been read -/

variable {cs start rest : List Char}

theorem remaining_of_inst {i : Inst} (h : inst cs = .ok (i, rest)) :
    i.remaining = byteLength cs := by
  rw [inst] at h
  obtain ⟨_, _, hget, h⟩ := Reader.bind_eq_ok h
  iterate 4 obtain ⟨_, _, -, h⟩ := Reader.bind_eq_ok h
  cases h
  cases hget
  rfl

theorem remaining_of_func {w : Func} (h : func cs = .ok (w, rest)) :
    w.remaining = byteLength cs := by
  rw [func] at h
  obtain ⟨_, _, hget, h⟩ := Reader.bind_eq_ok h
  iterate 13 obtain ⟨_, _, -, h⟩ := Reader.bind_eq_ok h
  cases h
  cases hget
  rfl

/-- The lines of a function have been read inside of it. -/
theorem read_of_mem_lines {ls : List (Option Inst)} (h : lines cs = .ok (ls, rest)) {i : Inst}
    (hi : some i ∈ ls) : ∃ first after, first <:+ cs ∧ inst first = .ok (i, after) := by
  induction cs using lines_induction generalizing ls rest with
  | brace cs rest' hbrace =>
    rw [lines_of_brace hbrace] at h
    cases h
    cases hi
  | step cs hbrace ih =>
    have hstart := dropBlank_suffix false cs
    rw [lines_of_not_brace hbrace] at h
    obtain ⟨l, middle, hl, h⟩ := Reader.bind_eq_ok h
    obtain ⟨ls, last, hls, h⟩ := Reader.bind_eq_ok h
    cases h
    obtain rfl | hi := List.mem_cons.mp hi
    · refine ⟨dropBlank false cs, middle, hstart, ?_⟩
      unfold line at hl
      split at hl
      · obtain ⟨_, _, -, hl⟩ := Reader.bind_eq_ok hl
        cases hl
      · obtain ⟨j, _, hj, hl⟩ := Reader.bind_eq_ok (g := fun j => pure (some j)) hl
        cases hl
        exact hj
    · obtain ⟨first, after, hfirst, hread⟩ := ih l middle hl hls hi
      exact ⟨first, after, hfirst.trans ((within_line.of_ok hl).trans hstart), hread⟩

theorem mem_of_gather {ls : List (Option Inst)} {i : Inst}
    (h : i ∈ (gather ls).1 ∨ ∃ is ∈ (gather ls).2, i ∈ is) : some i ∈ ls := by
  induction ls with
  | nil => simp [gather] at h
  | cons l ls ih =>
    cases l with
    | none =>
      simp only [gather_none, List.not_mem_nil, List.mem_cons, exists_eq_or_imp, false_or] at h
      exact List.mem_cons_of_mem _ (ih h)
    | some j =>
      simp only [gather_some, List.mem_cons, or_assoc] at h
      obtain rfl | h := h
      · exact List.mem_cons_self
      · exact List.mem_cons_of_mem _ (ih h)

/-- The instructions of a function have been read inside of it. -/
theorem read_of_mem_blocks {w : Func} (h : func cs = .ok (w, rest)) {is : List Inst}
    (his : is ∈ orEmpty w.blocks) {i : Inst} (hi : i ∈ is) :
    ∃ first after, first <:+ cs ∧ inst first = .ok (i, after) := by
  have hin := List.suffix_refl cs
  rw [func] at h
  obtain ⟨_, _, hin, h⟩ := within_get.after hin h
  obtain ⟨_, _, hin, h⟩ := (within_word _).after hin h
  obtain ⟨_, _, hin, h⟩ := within_blank.after hin h
  obtain ⟨_, _, hin, h⟩ := (within_char _).after hin h
  obtain ⟨_, _, hin, h⟩ := within_name.after hin h
  obtain ⟨_, _, hin, h⟩ := within_blank.after hin h
  obtain ⟨_, _, hin, h⟩ := (within_char _).after hin h
  obtain ⟨_, _, hin, h⟩ := within_blank.after hin h
  obtain ⟨_, _, hin, h⟩ := within_params.after hin h
  obtain ⟨_, _, hin, h⟩ := within_blank.after hin h
  obtain ⟨_, _, hin, h⟩ := (within_char _).after hin h
  obtain ⟨_, _, hin, h⟩ := within_blank.after hin h
  obtain ⟨_, _, hin, h⟩ := (within_char _).after hin h
  obtain ⟨ls, _, hls, h⟩ := Reader.bind_eq_ok h
  cases h
  have hmem : some i ∈ ls := by
    refine mem_of_gather ?_
    rw [orEmpty] at his
    split at his
    · simp_all
    · rw [blocks_eq] at his
      split at his
      · exact .inr ⟨is, his, hi⟩
      · obtain rfl | his := List.mem_cons.mp his
        · exact .inl hi
        · exact .inr ⟨is, his, hi⟩
  obtain ⟨first, after, hfirst, hread⟩ := read_of_mem_lines hls hmem
  exact ⟨first, after, hfirst.trans hin, hread⟩

end Written

namespace Parse

open ParseError
open Written (byteLength dropBlank Begins orEmpty)

/-! ### Functions that cannot be resolved -/

/-- Whether the resolution of a written function fails, for what cause, and at which instruction; at
none if it fails at a parameter. Whatever comes before has been resolved. -/
inductive Fails (w : Written.Func) : Option Written.Inst → Cause → Prop
  | param {before p after s cause} (params : w.params = before ++ p :: after)
      (resolved : before.foldlM Parse.param ⟨.empty w.name, []⟩ = .ok s)
      (fails : Parse.param s p = .error cause) : Fails w none cause
  | inst {bs is i js cs s t u cause}
      (params : w.params.foldlM Parse.param ⟨.empty w.name, []⟩ = .ok s)
      (blocks : orEmpty w.blocks = bs ++ (is ++ i :: js) :: cs)
      (resolvedBlocks : bs.foldlM body s = .ok t) (resolvedInsts : body t is = .ok u)
      (fails : Parse.inst u ⟨t.func.blocks.size⟩ i = .error cause) : Fails w (some i) cause

/-- An error of resolution has the place where its instruction begins, or the function. -/
structure Fails.Reports (w : Written.Func) (total : Nat) (e : ParseError) : Prop where
  plain : e.cause.IsPlain
  fails : ∃ i?, Fails w i? e.cause ∧
    e.offset = total - i?.elim w.remaining Written.Inst.remaining

theorem meets_locate {α : Type} {r : Resolved α} {post : α → Prop}
    (h : Meets r post Cause.IsPlain) (total remaining : Nat) :
    Meets (locate total remaining r) post fun e =>
      r = .error e.cause ∧ e.cause.IsPlain ∧ e.offset = total - remaining := by
  cases r with
  | ok a => exact h
  | error cause => exact ⟨rfl, h, rfl⟩

theorem meets_params (total : Nat) (w : Written.Func) :
    Meets (w.params.foldlM (fun s p => locate total w.remaining (param s p)) ⟨.empty w.name, []⟩)
      State.Sound (Fails.Reports w total) := by
  refine Meets.foldlM_of_prefix (State.sound_empty w.name) fun before p after s heq hs hsound => ?_
  refine (meets_locate (meets_param hsound p) total w.remaining).mono (fun _ ht => ht) ?_
  rintro e ⟨hfails, hplain, hoffset⟩
  exact ⟨hplain, none, .param heq (foldlM_locate.mp hs) hfails, hoffset⟩

/-- A block is resolved in a function that has no block yet under its number. -/
theorem meets_block {w : Written.Func} {s t : State} {bs cs : List (List Written.Inst)}
    {is : List Written.Inst} (hs : w.params.foldlM param ⟨.empty w.name, []⟩ = .ok s)
    (heq : orEmpty w.blocks = bs ++ is :: cs) (ht : bs.foldlM body s = .ok t) (hsound : t.Sound)
    (total : Nat) : Meets (block total t is) State.Sound (Fails.Reports w total) := by
  let opened : State := { t with func := t.func.createBlock.2 }
  have hopened : opened.Sound :=
    hsound.grows (hsound.reachable.edit (.createBlock rfl))
      ⟨rfl, fun _ _ hv => hv, fun _ _ hi => hi⟩
  have hlt : t.func.blocks.size < opened.func.blocks.size := by
    simp [opened, Func.createBlock]
  -- the block is there for as long as its instructions are resolved
  have hinsts : Meets (block total t is)
      (fun u => u.Sound ∧ t.func.blocks.size < u.func.blocks.size) (Fails.Reports w total) := by
    refine Meets.foldlM_of_prefix ⟨hopened, hlt⟩ fun before i after u hbefore hu hinv => ?_
    obtain ⟨hsound, hlt⟩ := hinv
    refine (meets_locate (meets_inst hsound hlt i) total i.remaining).mono
      (fun x hx => ⟨hx.1, hx.2 ▸ hlt⟩) ?_
    rintro e ⟨hfails, hplain, hoffset⟩
    exact ⟨hplain, some i, .inst hs (hbefore ▸ heq) ht (foldlM_locate.mp hu) hfails, hoffset⟩
  exact hinsts.mono (fun _ hu => hu.1) fun _ he => he

/-- A function is resolved to one that edits have built, or an instruction or a parameter of it is
wrong. -/
theorem meets_func (total : Nat) (w : Written.Func) :
    Meets (func total w) (fun f => f.Reachable []) (Fails.Reports w total) := by
  rw [func]
  cases hs : w.params.foldlM (fun s p => locate total w.remaining (param s p))
      ⟨.empty w.name, []⟩ with
  | error e => exact (meets_params total w).of_error hs
  | ok s =>
    have hsound : s.Sound := (meets_params total w).of_ok hs
    rw [ok_bind]
    have hblocks : Meets ((orEmpty w.blocks).foldlM (block total) s) State.Sound
        (Fails.Reports w total) :=
      Meets.foldlM_of_prefix hsound fun bs is cs t heq ht hsound =>
        meets_block (foldlM_locate.mp hs) heq (foldlM_block.mp ht) hsound total
    exact hblocks.bind fun t ht => ht.reachable

/-! ### The functions of a text -/

/-- The rounds in which the functions of a text are read and resolved, down to the last one. There
is no bound on their number. -/
inductive Rounds (total : Nat) : List Char → Except ParseError (List Func) → Prop
  | done {cs} (blank : dropBlank false cs = []) : Rounds total cs (.ok [])
  | malformed {cs stopped} (more : dropBlank false cs ≠ [])
      (reads : Written.func (dropBlank false cs) = .error stopped) :
      Rounds total cs (.error ⟨.malformed, total - byteLength stopped⟩)
  | wrong {cs w rest e} (more : dropBlank false cs ≠ [])
      (reads : Written.func (dropBlank false cs) = .ok (w, rest))
      (fails : func total w = .error e) : Rounds total cs (.error e)
  | round {cs w rest f r} (more : dropBlank false cs ≠ [])
      (reads : Written.func (dropBlank false cs) = .ok (w, rest))
      (resolves : func total w = .ok f) (others : Rounds total rest r) :
      Rounds total cs (r.map (f :: ·))

/-- Every round takes something, so that there is a last one. -/
theorem rounds_functions (total : Nat) (cs : List Char) : Rounds total cs (functions total cs) := by
  induction h : cs.length using Nat.strongRecOn generalizing cs with
  | ind n ih =>
    rw [functions]
    split
    · next hblank => exact .done hblank
    · next hmore =>
      have hmore : dropBlank false cs ≠ [] := hmore
      cases hw : Written.func (dropBlank false cs) with
      | error stopped => exact .malformed hmore hw
      | ok x =>
        obtain ⟨w, rest⟩ := x
        have hlt : rest.length < cs.length :=
          Nat.lt_of_lt_of_le (Written.shortens_func.of_ok hw)
            (Written.dropBlank_suffix false cs).length_le
        dsimp only
        cases hf : func total w with
        | error e => exact .wrong hmore hw hf
        | ok f =>
          rw [ok_bind, if_pos hlt]
          have hround := Rounds.round hmore hw hf (ih rest.length (h ▸ hlt) rest rfl)
          cases hr : functions total rest <;> rwa [hr] at hround

/-- Where errors are found in a text. -/
inductive Located (text : List Char) : ParseError → Prop
  /-- A function has not the form of the grammar: where its reader stopped. -/
  | malformed {start stopped offset} (reads : Written.func start = .error stopped)
      (place : Begins text offset stopped) : Located text ⟨.malformed, offset⟩
  /-- A parameter is wrong: where the function begins. -/
  | param {start rest w cause offset} (reads : Written.func start = .ok (w, rest))
      (fails : Fails w none cause) (place : Begins text offset start) : Located text ⟨cause, offset⟩
  /-- An instruction is wrong: where it begins. -/
  | inst {start rest w first after i cause offset} (reads : Written.func start = .ok (w, rest))
      (inside : first <:+ start) (readsInst : Written.inst first = .ok (i, after))
      (fails : Fails w (some i) cause) (place : Begins text offset first) :
      Located text ⟨cause, offset⟩

theorem Located.begins {text : List Char} {e : ParseError} (h : Located text e) :
    ∃ part, Begins text e.offset part := by
  cases h with
  | malformed _ place | param _ _ place | inst _ _ _ _ place => exact ⟨_, place⟩

/-- An error of resolution lies where its instruction or its function begins. -/
theorem Fails.Reports.located {text start rest : List Char} {w : Written.Func} {e : ParseError}
    (h : Fails.Reports w (byteLength text) e) (hstart : start <:+ text)
    (hw : Written.func start = .ok (w, rest)) : Located text e := by
  obtain ⟨cause, offset⟩ := e
  obtain ⟨-, i?, hfails, rfl⟩ := h
  cases i? with
  | none =>
    refine .param hw hfails ?_
    have hremaining := Written.remaining_of_func hw
    simpa only [Option.elim_none, hremaining] using Written.begins_of_suffix hstart
  | some i =>
    have hmem : ∃ is ∈ orEmpty w.blocks, i ∈ is := by
      cases hfails with
      | @inst bs is _ js cs _ _ _ _ _ blocks _ _ _ =>
        exact ⟨is ++ i :: js, by rw [blocks]; simp, by simp⟩
    obtain ⟨is, his, hi⟩ := hmem
    obtain ⟨first, after, hfirst, hread⟩ := Written.read_of_mem_blocks hw his hi
    refine .inst hw hfirst hread hfails ?_
    have hremaining := Written.remaining_of_inst hread
    simpa only [Option.elim_some, hremaining] using
      Written.begins_of_suffix (hfirst.trans hstart)

/-- Rounds that begin inside of a text lead to functions that edits have built, or to an error of
the text. -/
theorem Rounds.meets {text cs : List Char} {r : Except ParseError (List Func)}
    (h : Rounds (byteLength text) cs r) (hcs : cs <:+ text) :
    Meets r (fun fs => ∀ f ∈ fs, f.Reachable []) fun e => e.cause.IsPlain ∧ Located text e := by
  induction h with
  | done => exact fun f hf => absurd hf List.not_mem_nil
  | @malformed cs stopped _ reads =>
    have hstart := (Written.dropBlank_suffix false cs).trans hcs
    exact ⟨trivial, .malformed reads
      (Written.begins_of_suffix ((Written.within_func.of_error reads).trans hstart))⟩
  | @wrong cs w rest e _ reads fails =>
    have hreports := (meets_func (byteLength text) w).of_error fails
    exact ⟨hreports.plain,
      hreports.located ((Written.dropBlank_suffix false cs).trans hcs) reads⟩
  | @round cs w rest f r _ reads resolves _ ih =>
    have hstart := (Written.dropBlank_suffix false cs).trans hcs
    have hf : f.Reachable [] := (meets_func (byteLength text) w).of_ok resolves
    have hothers := ih ((Written.within_func.of_ok reads).trans hstart)
    cases r with
    | error e => exact hothers
    | ok fs => exact List.forall_mem_cons.mpr ⟨hf, hothers⟩

end Parse

/-- Whether an error has something to say about a text, at a place of the text: a number of bytes
that ends at a boundary of characters. -/
structure ParseError.IsPlaced (text : String) (e : ParseError) : Prop where
  plain : e.cause.IsPlain
  le : e.offset ≤ text.utf8ByteSize
  boundary : String.Pos.Raw.IsValid text ⟨e.offset⟩

theorem Parse.Located.isPlaced {text : String} {e : ParseError} (hplain : e.cause.IsPlain)
    (h : Located text.toList e) : e.IsPlaced text := by
  obtain ⟨part, hbegins⟩ := h.begins
  exact ⟨hplain, hbegins.le, hbegins.isValid⟩

/-- Every text is parsed, round by round, to functions that edits have built, or to an error. An
error is never the fault of an edit; it is placed within the text, on a boundary of characters, and
located: where the reader stopped, where the instruction begins that cannot be resolved, or, for a
parameter, where the function begins. When one function was expected, the number of functions is an
error of the whole text. -/
theorem parse_located (name text : String) :
    Parse.Rounds text.utf8ByteSize text.toList ((parseProgram name text).map Program.functions) ∧
    Meets (parseProgram name text) (fun p => p.name = name ∧ ∀ f ∈ p.functions, f.Reachable [])
      (fun e => e.IsPlaced text ∧ Parse.Located text.toList e) ∧
    Meets (parseFunc text) (fun f => f.Reachable []) fun e => e.IsPlaced text ∧
      (Parse.Located text.toList e ∨ ∃ n, n ≠ 1 ∧ e = ⟨.functionCount n, 0⟩) := by
  have hsize : text.utf8ByteSize = Written.byteLength text.toList := by
    rw [← Written.utf8ByteSize_ofList, String.ofList_toList]
  have hrounds := Parse.rounds_functions (Written.byteLength text.toList) text.toList
  have hmeets := hrounds.meets (List.suffix_refl _)
  have hprogram (name : String) : Meets (parseProgram name text)
      (fun p => p.name = name ∧ ∀ f ∈ p.functions, f.Reachable [])
      (fun e => e.IsPlaced text ∧ Parse.Located text.toList e) := by
    rw [parseProgram]
    refine (hmeets.mono (fun _ hfs => hfs) fun e he => ?_).bind fun fs hfs => ⟨rfl, hfs⟩
    exact ⟨he.2.isPlaced he.1, he.2⟩
  refine ⟨?_, hprogram name, ?_⟩
  · rw [parseProgram, hsize]
    cases hfs : Parse.functions (Written.byteLength text.toList) text.toList <;>
      rwa [hfs] at hrounds
  · rw [parseFunc]
    refine ((hprogram "").mono (fun _ hp => hp.2) fun e he => ⟨he.1, .inl he.2⟩).bind fun p hp => ?_
    split
    · next f hfs => exact hp f (by rw [hfs]; exact List.mem_singleton_self f)
    · next hfs =>
      have hbegins : Written.Begins text.toList 0 text.toList := ⟨[], rfl, rfl⟩
      refine ⟨⟨trivial, hbegins.le, hbegins.isValid⟩, .inr ⟨_, fun hcount => ?_, rfl⟩⟩
      obtain ⟨f, hf⟩ := List.length_eq_one_iff.mp hcount
      exact hfs f hf

/-- Offsets count bytes: the letter in the comment takes two. -/
example : parseFunc "fn @f() \x7b // é\n store %x \x7d" =
    .error ⟨.undefinedValue "x", 17⟩ := by
  decide +kernel

end Peephole
