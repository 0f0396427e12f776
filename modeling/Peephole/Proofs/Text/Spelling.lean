import Peephole.Proofs.Opcode
import Peephole.Proofs.Text.Numeral

/-!
# Spellings

What is written has a **spelling**, the text in the layout that printing uses. The spelling of an
operand, a parameter or an instruction is read back as what it spells, as long as that is
**legible**: names are names, numbers are small enough, and no operand is a float. The reader puts a
place to every instruction, which the comparison leaves out.
-/

namespace Peephole

namespace Written

open Reader

/-! ### Legibility -/

/-- Whether a text is a name. -/
structure IsName (s : String) : Prop where
  nonempty : s.toList ≠ []
  chars : ∀ c ∈ s.toList, isNameChar c

/-- Whether an operand is a value or a masked integer, so that it has a spelling. -/
def Operand.IsLegible : Operand → Prop
  | value name => IsName name
  | integer bits width => bits < twoPow 64 ∧ width ≤ 255
  | float .. => False

/-- Whether the operation, the result and the operands of an instruction can be read back. -/
structure Inst.IsLegible (i : Inst) : Prop where
  opcode : ∃ op : Opcode, i.opcode = op.name
  result : ∀ name width, i.result = some (name, width) → IsName name ∧ width ≤ 255
  operands : ∀ o ∈ i.operands, o.IsLegible
  nonempty : i.operands ≠ []

/-! ### Spellings -/

/-- The text of an operand. Floats have none. -/
def Operand.spell : Operand → List Char
  | value name => '%' :: name.toList
  | integer bits width => (Numeral.hexadecimal bits).toList ++ ':' :: Numeral.digits 10 width
  | float .. => []

/-- The text of a parameter. -/
def Param.spell (p : Param) : List Char :=
  '%' :: (p.name.toList ++ ':' :: ' ' ::
    (p.typeClass.elim [] (fun c => [c.letter]) ++ Numeral.digits 10 p.width))

/-- The text of the result of an instruction, up to the operation. -/
def spellResult (result : Option (String × Nat)) : List Char :=
  result.elim [] fun (name, width) =>
    '%' :: (name.toList ++ ':' :: ' ' :: (Numeral.digits 10 width ++ [' ', '=', ' ']))

/-- The text of an instruction up to the end of its line. -/
def Inst.spell (i : Inst) : List Char :=
  spellResult i.result ++ (i.opcode.toList ++ ((if i.exact then ['!'] else []) ++
    ' ' :: ([',', ' '].intercalate (i.operands.map Operand.spell) ++ ['\n'])))

/-- Elements of a list with separators between them. -/
theorem intercalate_cons (sep as : List Char) (bs : List (List Char)) :
    sep.intercalate (as :: bs) = as ++ bs.flatMap (sep ++ ·) := by
  induction bs generalizing as with
  | nil => simp
  | cons b bs ih =>
    rw [List.intercalate_cons_cons, ih]
    simp

/-! ### Names -/

variable {cs : List Char}

theorem isNameChar_of_isDigit {c : Char} (h : c.isDigit) : isNameChar c := by
  simp [isNameChar, Char.isAlphanum, h]

theorem isNameChar_of_isAlpha {c : Char} (h : c.isAlpha) : isNameChar c := by
  simp [isNameChar, Char.isAlphanum, h]

/-- A character of a name is none of the other characters. -/
theorem ne_of_isNameChar {c d : Char} (h : isNameChar c) (hd : isNameChar d = false) : c ≠ d := by
  rintro rfl
  rw [h] at hd
  cases hd

theorem isBlank_of_isNameChar {c : Char} (h : isNameChar c) : isBlank c = false := by
  simp [isBlank, ne_of_isNameChar h (d := ' ') rfl, ne_of_isNameChar h (d := '\t') rfl,
    ne_of_isNameChar h (d := '\n') rfl, ne_of_isNameChar h (d := '\x0c') rfl,
    ne_of_isNameChar h (d := '\r') rfl]

/-- What stops a name stops a number. -/
theorem stops_isDigit (hs : Stops isNameChar cs) : Stops Char.isDigit cs := by
  intro c hc
  have hname := hs c hc
  by_contra hdigit
  rw [isNameChar_of_isDigit (by simpa using hdigit)] at hname
  cases hname

theorem isName_decimal (n : Nat) : IsName (Numeral.decimal n) where
  nonempty := by simpa [Numeral.decimal] using Numeral.digits_ne_nil 10 n
  chars c hc := isNameChar_of_isDigit (isDigit_of_mem_digits (by simpa [Numeral.decimal] using hc))

theorem name_append {s : String} (h : IsName s) (hs : Stops isNameChar cs) :
    name (s.toList ++ cs) = .ok (s, cs) := by
  have hmap := map_of_ok String.ofList (run1_append h.chars h.nonempty hs)
  rwa [String.ofList_toList] at hmap

/-- A name that has been read is a name. -/
theorem isName_of_name {s : String} {rest : List Char} (h : name cs = .ok (s, rest)) :
    IsName s := by
  obtain ⟨as, mid, hrun, hpure⟩ := Reader.bind_eq_ok (g := fun as => pure (String.ofList as)) h
  obtain ⟨hne, hchars⟩ := run1_eq_ok hrun
  cases hpure
  exact ⟨by simpa using hne, by simpa using hchars⟩

theorem valueName_append {s : String} (h : IsName s) (hs : Stops isNameChar cs) :
    valueName ('%' :: (s.toList ++ cs)) = .ok (s, cs) := by
  rw [valueName, bind_of_ok _ (char_cons _ _)]
  exact name_append h hs

/-! ### Blanks -/

theorem dropBlank_cons {c : Char} (hb : isBlank c = false) (hc : c ≠ '/') :
    dropBlank false (c :: cs) = c :: cs := by
  unfold dropBlank
  split <;> simp_all

theorem blank_cons {c : Char} (hb : isBlank c = false) (hc : c ≠ '/') :
    blank (c :: cs) = .ok ((), c :: cs) := by
  rw [blank, dropBlank_cons hb hc]

/-! ### Operands and parameters -/

theorem operand_spell {o : Operand} (h : o.IsLegible) (hs : Stops isNameChar cs) :
    operand (o.spell ++ cs) = .ok (o, cs) := by
  cases o with
  | value name => exact orElse_of_ok (map_of_ok Operand.value (valueName_append h hs))
  | integer bits width =>
    obtain ⟨hbits, hwidth⟩ := h
    let behind := ':' :: (Numeral.digits 10 width ++ cs)
    have htext : (Operand.integer bits width).spell ++ cs =
        (Numeral.hexadecimal bits).toList ++ behind := by
      simp [Operand.spell, behind]
    have hmark : (Numeral.hexadecimal bits).toList ++ behind =
        '0' :: 'x' :: (Numeral.digits 16 bits ++ behind) := by
      simp [Numeral.hexadecimal]
    -- what begins with `0x` is neither a value nor a float
    have hvalue : (Operand.value <$> valueName) ((Numeral.hexadecimal bits).toList ++ behind) =
        .error ((Numeral.hexadecimal bits).toList ++ behind) := by
      rw [hmark]
      rfl
    have hfloat : floatOperand ((Numeral.hexadecimal bits).toList ++ behind) =
        .error ('x' :: (Numeral.digits 16 bits ++ behind)) := by
      rw [hmark]
      rfl
    have hhex : hexNatural ((Numeral.hexadecimal bits).toList ++ behind) = .ok (bits, behind) :=
      hexNatural_hexadecimal hbits (stops_cons rfl)
    rw [htext, operand, orElse_of_error hvalue, orElse_of_error hfloat, integerOperand,
      bind_of_ok _ (orElse_of_ok hhex), bind_of_ok _ (char_cons _ _),
      bind_of_ok _ (width_digits hwidth (stops_isDigit hs))]
    rfl
  | float datum width => exact h.elim

/-- A digit is no letter of a type class. -/
theorem ofLetter?_of_isDigit {c : Char} (h : c.isDigit) : TypeClass.ofLetter? c = none := by
  unfold TypeClass.ofLetter?
  split <;> first | rfl | cases h

theorem exists_digits_eq (n : Nat) : ∃ c ds, Numeral.digits 10 n = c :: ds ∧ c.isDigit := by
  obtain ⟨c, ds, hdigits⟩ := List.exists_cons_of_ne_nil (Numeral.digits_ne_nil 10 n)
  exact ⟨c, ds, hdigits, isDigit_of_mem_digits (n := n) (hdigits ▸ List.mem_cons_self)⟩

/-- What begins with a digit is no blank. -/
theorem blank_digits (n : Nat) (cs : List Char) :
    blank (Numeral.digits 10 n ++ cs) = .ok ((), Numeral.digits 10 n ++ cs) := by
  obtain ⟨c, ds, hdigits, hc⟩ := exists_digits_eq n
  have hname := isNameChar_of_isDigit hc
  rw [hdigits]
  exact blank_cons (isBlank_of_isNameChar hname) (ne_of_isNameChar hname rfl)

theorem param_spell {p : Param} (hname : IsName p.name) (hwidth : p.width ≤ 255)
    (hs : Stops isNameChar cs) : param (p.spell ++ cs) = .ok (p, cs) := by
  let behind := Numeral.digits 10 p.width ++ cs
  let letter := p.typeClass.elim [] (fun c => [c.letter])
  have htext : p.spell ++ cs = '%' :: (p.name.toList ++ ':' :: ' ' :: (letter ++ behind)) := by
    simp [Param.spell, behind, letter]
  have hspace : blank (' ' :: (letter ++ behind)) = .ok ((), letter ++ behind) := by
    have hskip : blank (' ' :: (letter ++ behind)) = blank (letter ++ behind) := rfl
    rw [hskip]
    cases hc : p.typeClass with
    | none =>
      simp only [letter, hc]
      exact blank_digits _ _
    | some c =>
      simp only [letter, hc]
      cases c <;> rfl
  have hletter : attempt (charIf fun c => (TypeClass.ofLetter? c).isSome) (letter ++ behind) =
      .ok (p.typeClass.map TypeClass.letter, behind) := by
    cases hc : p.typeClass with
    | none =>
      obtain ⟨c, ds, hdigits, hdigit⟩ := exists_digits_eq p.width
      have hbehind : behind = c :: (ds ++ cs) := by simp [behind, hdigits]
      simp only [letter, hc, hbehind]
      exact attempt_of_error (charIf_of_not (by rw [ofLetter?_of_isDigit hdigit]; rfl))
    | some c =>
      simp only [letter, hc]
      exact attempt_of_ok (charIf_cons (by rw [TypeClass.ofLetter?_letter]; rfl))
  have hclass : (p.typeClass.map TypeClass.letter).bind TypeClass.ofLetter? = p.typeClass := by
    cases p.typeClass with
    | none => rfl
    | some c => exact TypeClass.ofLetter?_letter c
  rw [htext, param, bind_of_ok _ (valueName_append hname (stops_cons rfl)),
    bind_of_ok _ (blank_cons rfl (by decide)), bind_of_ok _ (char_cons _ _), bind_of_ok _ hspace,
    bind_of_ok _ hletter, bind_of_ok _ (width_digits hwidth (stops_isDigit hs)), hclass]
  rfl

/-! ### Instructions -/

/-- Whether a text goes on after a line: what comes next is no comma. -/
def GoesOn (cs : List Char) : Prop := ∃ c rest, dropBlank false cs = c :: rest ∧ c ≠ ','

/-- A written instruction without its place. -/
def Inst.unplaced (i : Inst) : Inst := { i with remaining := 0 }

/-- The name of an operation begins with a letter. -/
theorem exists_name_eq (op : Opcode) : ∃ c rest, op.name.toList = c :: rest ∧ c.isAlpha ∧
    ∀ d ∈ rest, isNameChar d := by
  have hall : ∀ op ∈ Opcode.all, op.name.toList.head?.any Char.isAlpha ∧
      op.name.toList.tail.all isNameChar := by decide +kernel
  obtain ⟨hhead, htail⟩ := hall op (Opcode.mem_all op)
  cases hname : op.name.toList with
  | nil =>
    rw [hname] at hhead
    cases hhead
  | cons c rest =>
    rw [hname] at hhead htail
    exact ⟨c, rest, rfl, hhead, List.all_eq_true.mp htail⟩

theorem operationName_append (op : Opcode) (hs : Stops isNameChar cs) :
    operationName (op.name.toList ++ cs) = .ok (op.name, cs) := by
  obtain ⟨c, rest, hname, hc, hrest⟩ := exists_name_eq op
  have hstring : String.ofList (c :: rest) = op.name := by rw [← hname, String.ofList_toList]
  rw [hname, List.cons_append, operationName, bind_of_ok _ (charIf_cons (by rw [hc]; rfl)),
    bind_of_ok _ (run_append hrest hs), hstring]
  rfl

theorem result_spell {name : String} {w : Nat} (hname : IsName name) (hw : w ≤ 255)
    {c : Char} (hb : isBlank c = false) (hc : c ≠ '/') :
    result (spellResult (some (name, w)) ++ c :: cs) = .ok ((name, w), c :: cs) := by
  have htext : spellResult (some (name, w)) ++ c :: cs = '%' :: (name.toList ++ ':' :: ' ' ::
      (Numeral.digits 10 w ++ ' ' :: '=' :: ' ' :: c :: cs)) := by
    simp [spellResult]
  have hspace (ds : List Char) : blank (' ' :: ds) = blank ds := rfl
  rw [htext, result, bind_of_ok _ (valueName_append hname (stops_cons rfl)),
    bind_of_ok _ (blank_cons rfl (by decide)), bind_of_ok _ (char_cons _ _),
    bind_of_ok _ ((hspace _).trans (blank_digits _ _)),
    bind_of_ok _ (width_digits hw (stops_cons rfl)),
    bind_of_ok _ ((hspace _).trans (blank_cons rfl (by decide))), bind_of_ok _ (char_cons _ _),
    bind_of_ok _ ((hspace _).trans (blank_cons hb hc))]
  rfl

theorem attempt_result_spell {r : Option (String × Nat)}
    (h : ∀ name width, r = some (name, width) → IsName name ∧ width ≤ 255) {c : Char}
    (hc : c.isAlpha) : attempt result (spellResult r ++ c :: cs) = .ok (r, c :: cs) := by
  have hchar : isNameChar c := isNameChar_of_isAlpha hc
  cases hr : r with
  | none =>
    have hsign : Reader.char '%' (c :: cs) = .error (c :: cs) :=
      char_of_ne (ne_of_isNameChar hchar rfl)
    exact attempt_of_error (bind_of_error _ (bind_of_error _ hsign))
  | some x =>
    obtain ⟨hname, hw⟩ := h x.1 x.2 hr
    exact attempt_of_ok
      (result_spell hname hw (isBlank_of_isNameChar hchar) (ne_of_isNameChar hchar rfl))

/-- What spells an operand begins with no blank. -/
theorem blank_operand {o : Operand} (h : o.IsLegible) (cs : List Char) :
    blank (o.spell ++ cs) = .ok ((), o.spell ++ cs) := by
  cases o with
  | value name => rfl
  | integer bits width =>
    have htext : (Operand.integer bits width).spell ++ cs =
        '0' :: 'x' :: (Numeral.digits 16 bits ++ ':' :: (Numeral.digits 10 width ++ cs)) := by
      simp [Operand.spell, Numeral.hexadecimal]
    rw [htext]
    rfl
  | float datum width => exact h.elim

/-- Operands are read back up to the end of their line. -/
theorem operands_spell {o : Operand} {os : List Operand} (h : ∀ a ∈ o :: os, a.IsLegible)
    (hs : GoesOn cs) :
    separated1 (do blank; operand) (do blank; Reader.char ',')
        (' ' :: ([',', ' '].intercalate ((o :: os).map Operand.spell) ++ '\n' :: cs)) =
      .ok (o :: os, '\n' :: cs) := by
  have helement (a : Operand) (ha : a.IsLegible) (cs : List Char) (hcs : Stops isNameChar cs) :
      (do blank; operand : Reader Operand) ((' ' :: a.spell) ++ cs) = .ok (a, cs) := by
    have hblank : blank ((' ' :: a.spell) ++ cs) = .ok ((), a.spell ++ cs) :=
      blank_operand ha cs
    rw [bind_of_ok _ hblank]
    exact operand_spell ha hcs
  have hseparator (cs : List Char) :
      (do blank; Reader.char ',' : Reader Unit) ([','] ++ cs) = .ok ((), cs) := by
    have hblank : blank (',' :: cs) = .ok ((), ',' :: cs) := blank_cons rfl (by decide)
    exact (bind_of_ok _ hblank).trans (char_cons _ _)
  have hstop : (do (do blank; Reader.char ','); (do blank; operand) : Reader Operand)
      ('\n' :: cs) = .error (dropBlank false cs) := by
    obtain ⟨c, rest, hdrop, hc⟩ := hs
    have hblank : blank ('\n' :: cs) = .ok ((), c :: rest) :=
      congrArg (fun ds => Except.ok ((), ds)) hdrop
    rw [hdrop]
    exact bind_of_error _ ((bind_of_ok _ hblank).trans (char_of_ne hc))
  rw [List.forall_mem_cons] at h
  have htext : ' ' :: ([',', ' '].intercalate ((o :: os).map Operand.spell) ++ '\n' :: cs) =
      (' ' :: o.spell) ++ (os.flatMap (fun a => [','] ++ (' ' :: a.spell)) ++ '\n' :: cs) := by
    rw [List.map_cons, intercalate_cons]
    simp [List.flatMap_map]
  rw [htext]
  exact separated1_append (fun a ha => helement a (h.2 a ha)) (fun _ _ _ => hseparator _)
    (List.cons_ne_nil _ _) (fun _ => stops_cons rfl) (stops_cons rfl) hstop (helement o h.1)

/-- An instruction is read back up to the end of its line, with its place. -/
theorem inst_spell {i : Inst} (h : i.IsLegible) (hs : GoesOn cs) :
    ∃ j, inst (i.spell ++ cs) = .ok (j, '\n' :: cs) ∧ j.unplaced = i.unplaced := by
  obtain ⟨op, hop⟩ := h.opcode
  obtain ⟨c, name, hname, hc, -⟩ := exists_name_eq op
  obtain ⟨o, os, hos⟩ := List.exists_cons_of_ne_nil h.nonempty
  let behind := ' ' :: ([',', ' '].intercalate ((o :: os).map Operand.spell) ++ '\n' :: cs)
  let mark := if i.exact then ['!'] else []
  have htext : i.spell ++ cs = spellResult i.result ++ (op.name.toList ++ (mark ++ behind)) := by
    simp [Inst.spell, hop, hos, behind, mark]
  have hresult : attempt result (i.spell ++ cs) =
      .ok (i.result, op.name.toList ++ (mark ++ behind)) := by
    rw [htext, hname, List.cons_append]
    exact attempt_result_spell h.result hc
  have hstops : Stops isNameChar (mark ++ behind) := by
    cases he : i.exact with
    | false =>
      simp only [mark, he, behind]
      exact stops_cons rfl
    | true =>
      simp only [mark, he]
      exact stops_cons rfl
  have hmark : attempt (Reader.char '!') (mark ++ behind) =
      .ok (if i.exact then some () else none, behind) := by
    cases he : i.exact with
    | false =>
      simp only [mark, he, behind]
      exact attempt_of_error (char_of_ne (by decide))
    | true =>
      simp only [mark, he]
      exact attempt_of_ok (char_cons _ _)
  have hget : (get : Reader (List Char)) (i.spell ++ cs) = .ok (i.spell ++ cs, i.spell ++ cs) := rfl
  refine ⟨⟨byteLength (i.spell ++ cs), i.result, op.name, i.exact, o :: os⟩, ?_, ?_⟩
  · rw [inst, bind_of_ok _ hget, bind_of_ok _ hresult,
      bind_of_ok _ (operationName_append op hstops), bind_of_ok _ hmark,
      bind_of_ok _ (operands_spell (hos ▸ h.operands) hs)]
    cases i.exact <;> rfl
  · simp [Inst.unplaced, ← hop, ← hos]

end Written

end Peephole
