import Peephole.Proofs.Integer
import Peephole.Proofs.Text.Reread
import Peephole.Proofs.Text.Spelled

/-!
# Integers as operands

Which integers an operand may be, `Parse.integerOperand_accepted_iff`. An integer is read as a
word, and then the low bits of the word are asked whether they stand for it, as they are or with
their sign extended. Thus an integer is **accepted** at a width that has room for it, with a sign or
without; and so is a number whose word is the one of a negative integer that the width has room for.
-/

namespace Peephole

/-! ### Words and widths -/

namespace Parse

/-- The low bits of a word stand for it if there are no others, or if the others repeat the
sign. -/
theorem fits_iff {w : Nat} (hw : supported w) (b : Word) :
    fits b w ↔ b.toNat < 2 ^ w ∨ (b.setWidth w).toInt = b.toInt := by
  obtain ⟨h0, h64⟩ := Integer.width_bounds hw
  have hmasked : b &&& mask w = b ↔ b.toNat < 2 ^ w := by
    rw [← BitVec.toNat_inj, toNat_and_mask b h64]
    exact Nat.mod_eq_iff_lt (Nat.two_pow_pos w).ne'
  have hsigned : BitVec.ofInt 64 (signed (b &&& mask w) w) = b ↔
      (b.setWidth w).toInt = b.toInt := by
    have hext : BitVec.ofInt 64 (b.setWidth w).toInt = (b.setWidth w).signExtend 64 := rfl
    rw [signed_and_mask h0 h64 (Nat.le_refl w), signed_eq h0 h64, hext, ← BitVec.toInt_inj,
      BitVec.toInt_signExtend_of_le h64]
  rw [fits, Bool.or_eq_true, beq_iff_eq, beq_iff_eq, hmasked, hsigned]

/-- The integers whose words are accepted at a width. -/
theorem fits_ofInt_iff {w : Nat} (hw : supported w) {n : Int} (hlow : -2 ^ 63 ≤ n)
    (hhigh : n < 2 ^ 64) : fits (BitVec.ofInt 64 n) w ↔
      -2 ^ (w - 1) ≤ n ∧ n < 2 ^ w ∨ 2 ^ 64 - 2 ^ (w - 1) ≤ n := by
  rw [fits_iff hw, Integer.setWidth_ofInt (Integer.width_bounds hw).2, BitVec.toInt_ofInt,
    BitVec.toInt_ofInt, BitVec.toNat_ofInt]
  obtain ⟨c, hc⟩ := Option.isSome_iff_exists.mp hw
  rw [← WidthClass.bits_of_ofBits? hc]
  cases c <;> simp only [WidthClass.bits, Int.bmod] <;> omega

end Parse

/-- The low bits of the word of an integer are what the integer is modulo a power of two. -/
theorem toNat_ofInt_and_mask {w : Nat} (hw : w ≤ 64) (n : Int) :
    ((BitVec.ofInt 64 n &&& mask w).toNat : Int) = n % 2 ^ w := by
  have hpow : ((2 ^ w : Nat) : Int) = 2 ^ w := Int.natCast_pow 2 w
  have hne : (2 ^ w : Int) ≠ 0 := by
    rw [← hpow]
    exact Int.natCast_ne_zero.mpr (Nat.two_pow_pos w).ne'
  rw [Integer.and_mask_eq hw, Integer.setWidth_ofInt hw, BitVec.toNat_setWidth_of_le hw,
    BitVec.toNat_ofInt, hpow, Int.toNat_of_nonneg (Int.emod_nonneg n hne)]

/-! ### A function of one operand -/

namespace Written

open Numeral Reader

variable {os cs : List Char} {o : Operand}

/-- What stands behind the operand of a function that stores it. -/
def closing : List Char := ['\n', '\x7d', '\n']

/-- The text of a function that stores an operand. -/
def storing (os : List Char) : List Char := "fn @f() \x7b\n  store ".toList ++ (os ++ closing)

/-- The reader of an instruction goes on to the operands of a store. -/
theorem inst_store (cs : List Char) : inst ("store".toList ++ ' ' :: cs) =
    (do let operands ← separated1 (do blank; operand) (do blank; Reader.char ',')
        return ⟨byteLength ("store".toList ++ ' ' :: cs), none, "store", false, operands⟩ :
      Reader Inst) (' ' :: cs) := rfl

/-- The reader of a function goes on to its lines. -/
theorem func_storing (os : List Char) : func (storing os) =
    (do let ls ← (lines : Reader (List (Option Inst)))
        return ⟨byteLength (storing os), "f", [], blocks ls⟩ : Reader Func)
      ("\n  store ".toList ++ (os ++ closing)) := rfl

theorem lines_closing : lines closing = .ok ([], ['\n']) := by
  rw [lines]
  rfl

section Storing

variable (hblank : dropBlank false (os ++ closing) = os ++ closing)
include hblank

theorem element_storing : (do blank; operand : Reader Operand) (' ' :: (os ++ closing)) =
    operand (os ++ closing) := by
  have hskip : blank (' ' :: (os ++ closing)) = .ok ((), os ++ closing) :=
    congrArg (fun cs => Except.ok ((), cs)) hblank
  exact bind_of_ok _ hskip

/-- An operand that is read makes a function of a single store. -/
theorem func_storing_of_ok (h : operand (os ++ closing) = .ok (o, closing)) :
    ∃ place place', func (storing os) =
      .ok (⟨place, "f", [], [[⟨place', none, "store", false, [o]⟩]]⟩, ['\n']) := by
  have hstop : (do (do blank; Reader.char ','); (do blank; operand) : Reader Operand) closing =
      .error ['\x7d', '\n'] := rfl
  have hmore : (fun cs => .ok (more (do blank; operand) (do blank; Reader.char ',') cs) :
      Reader (List Operand)) closing = .ok ([], closing) :=
    congrArg Except.ok (more_of_error hstop)
  have hoperands : separated1 (do blank; operand) (do blank; Reader.char ',')
      (' ' :: (os ++ closing)) = .ok ([o], closing) := by
    rw [separated1, bind_of_ok _ ((element_storing hblank).trans h), bind_of_ok _ hmore]
    rfl
  let place := byteLength ("store".toList ++ ' ' :: (os ++ closing))
  have hinst : inst ("store".toList ++ ' ' :: (os ++ closing)) =
      .ok (⟨place, none, "store", false, [o]⟩, closing) := by
    rw [inst_store, bind_of_ok _ hoperands]
    rfl
  have hline : line ("store".toList ++ ' ' :: (os ++ closing)) =
      .ok (some ⟨place, none, "store", false, [o]⟩, closing) := map_of_ok some hinst
  have hlt : closing.length < ("\n  store ".toList ++ (os ++ closing)).length := by
    have hfront : 0 < "\n  store ".toList.length := by decide
    simp only [List.length_append]
    omega
  have hlines : lines ("\n  store ".toList ++ (os ++ closing)) =
      .ok ([some ⟨place, none, "store", false, [o]⟩], ['\n']) :=
    lines_step rfl (by rintro r ⟨⟩) hline hlt lines_closing
  rw [func_storing]
  exact ⟨_, place, bind_of_ok _ hlines⟩

/-- An operand that is not read makes no function. -/
theorem func_storing_of_error {stopped : List Char} (h : operand (os ++ closing) = .error stopped) :
    func (storing os) = .error stopped := by
  have hoperands : separated1 (do blank; operand) (do blank; Reader.char ',')
      (' ' :: (os ++ closing)) = .error stopped :=
    bind_of_error _ ((element_storing hblank).trans h)
  have hline : line ("store".toList ++ ' ' :: (os ++ closing)) = .error stopped := by
    refine map_of_error some ?_
    rw [inst_store, bind_of_error _ hoperands]
  have hlines : lines ("\n  store ".toList ++ (os ++ closing)) = .error stopped :=
    lines_of_error rfl (by rintro r ⟨⟩) hline
  rw [func_storing]
  exact bind_of_error _ hlines

end Storing

end Written

/-- A function that stores a literal. -/
def storedLiteral (b : Word) (w : Nat) : Func where
  name := "f"
  params := []
  values := #[⟨.literal b, w⟩]
  chains := #[[⟨⟨0⟩, 0⟩]]
  insts := #[⟨.store, 0, false, [⟨0⟩], none, some ⟨0⟩⟩]
  blocks := #[[⟨0⟩]]

namespace Parse

open Numeral Reader
open Written (closing storing)

variable {w : Nat} {b : Word}

/-- An integer operand is resolved exactly if its word is accepted, and then it is interned. -/
theorem operand_integer_eq_ok {s : State} (hw : supported w) {v : ValueId} {t : State} :
    operand s (.integer b.toNat w) = .ok (v, t) ↔
      fits b w ∧ ∃ g, s.func.literal w b = .ok (v, g) ∧ t = ⟨g, s.names⟩ := by
  have hcheck : checkWidth w none = .ok () := by
    simp [checkWidth, hw]
  rw [operand, hcheck, ok_bind, BitVec.ofNat_toNat, BitVec.setWidth_eq]
  dsimp only
  cases hb : fits b w with
  | false => simp
  | true =>
    simp only [if_true, bind_eq_ok, edit_eq_ok, true_and]
    constructor
    · rintro ⟨⟨u, g⟩, hliteral, h⟩
      cases h
      exact ⟨g, hliteral, rfl⟩
    · rintro ⟨g, hliteral, rfl⟩
      exact ⟨(v, g), hliteral, rfl⟩

/-- What there is in front of the store: a block without an instruction. -/
def start : State := ⟨(Func.empty "f").createBlock.2, []⟩

/-- What there is when the operand has been interned. -/
def interned (b : Word) (w : Nat) : State :=
  ⟨⟨"f", [], #[⟨.literal (b &&& mask w), w⟩], #[[]], #[], #[[]]⟩, []⟩

theorem literal_start (hw : supported w) (b : Word) :
    start.func.literal w b = .ok (⟨0⟩, (interned b w).func) := by
  rw [Func.literal, if_pos hw]
  simp [start, interned, Func.empty, Func.createBlock, Func.pushValue, Func.reserve]

/-- The store of an integer is resolved exactly if the word of the integer is accepted. -/
theorem inst_start (hw : supported w) (place : Nat) {t : State} :
    inst start ⟨0⟩ ⟨place, none, "store", false, [.integer b.toNat w]⟩ = .ok t ↔
      fits b w ∧ t = ⟨storedLiteral (b &&& mask w) w, []⟩ := by
  have hsucceeds (hfits : fits b w) :
      inst start ⟨0⟩ ⟨place, none, "store", false, [.integer b.toNat w]⟩ =
        .ok ⟨storedLiteral (b &&& mask w) w, []⟩ := by
    have hoperand : operand start (.integer b.toNat w) = .ok (⟨0⟩, interned b w) :=
      (operand_integer_eq_ok hw).mpr ⟨hfits, _, literal_start hw b, rfl⟩
    have hoperands : operands start [.integer b.toNat w] = .ok ([⟨0⟩], interned b w) := by
      rw [operands, hoperand]
      rfl
    exact inst_eq_ok.mpr ⟨.store, 0, [⟨0⟩], interned b w, ⟨0⟩, storedLiteral (b &&& mask w) w,
      storedLiteral (b &&& mask w) w, rfl, rfl, rfl, hoperands, rfl, rfl, rfl⟩
  constructor
  · intro h
    obtain ⟨_, _, vs, u, _, _, _, -, -, -, hoperands, -, -, -⟩ := inst_eq_ok.mp h
    rw [operands] at hoperands
    obtain ⟨⟨v, s⟩, hoperand, -⟩ := bind_eq_ok.mp hoperands
    have hfits := ((operand_integer_eq_ok hw).mp hoperand).1
    rw [hsucceeds hfits] at h
    exact ⟨hfits, (Except.ok.inj h).symm⟩
  · rintro ⟨hfits, rfl⟩
    exact hsucceeds hfits

theorem storing_begins (os : List Char) :
    Written.dropBlank false (storing os) = storing os ∧ storing os ≠ [] := by
  obtain ⟨rest, htext⟩ : ∃ rest, storing os = 'f' :: rest := ⟨_, rfl⟩
  rw [htext]
  exact ⟨Written.dropBlank_cons rfl (by decide), List.cons_ne_nil _ _⟩

/-- A function of a single store is parsed exactly if the store is resolved. -/
theorem parseFunc_storing {os : List Char} {o : Written.Operand}
    (hblank : Written.dropBlank false (os ++ closing) = os ++ closing)
    (h : Written.operand (os ++ closing) = .ok (o, closing)) (f : Func) :
    ∃ place, parseFunc (String.ofList (storing os)) = .ok f ↔
      ∃ t, inst start ⟨0⟩ ⟨place, none, "store", false, [o]⟩ = .ok t ∧ t.func = f := by
  obtain ⟨place, place', hfunc⟩ := Written.func_storing_of_ok hblank h
  obtain ⟨hnotBlank, hne⟩ := storing_begins os
  have hsuffix : closing <:+ storing os :=
    (List.suffix_append os closing).trans (List.suffix_append _ _)
  have hlt : ['\n'].length < (storing os).length :=
    Nat.lt_of_lt_of_le (by decide : 1 < closing.length) hsuffix.length_le
  have hend (total : Nat) : functions total ['\n'] = .ok [] := by
    rw [functions]
    rfl
  have hbody : body ⟨.empty "f", []⟩ [⟨place', none, "store", false, [o]⟩] =
      inst start ⟨0⟩ ⟨place', none, "store", false, [o]⟩ := by
    rw [body, List.foldlM_cons]
    exact bind_pure _
  refine ⟨place', ?_⟩
  rw [parseFunc_iff_functions, String.toList_ofList, functions_step hnotBlank hne hfunc hlt, hend,
    ← hbody]
  constructor
  · rintro ⟨g, fs, hg, -, heq⟩
    obtain ⟨s, t, hs, ht, rfl⟩ := func_eq_ok.mp hg
    cases hs
    obtain ⟨u, hu, ht⟩ := bind_eq_ok.mp ht
    cases ht
    exact ⟨t, hu, (List.cons.inj heq).1.symm⟩
  · rintro ⟨t, ht, rfl⟩
    exact ⟨t.func, [], func_eq_ok.mpr ⟨_, t, rfl, bind_eq_ok.mpr ⟨t, ht, rfl⟩, rfl⟩, rfl, rfl⟩

/-- Nothing is parsed where the operand is not read. -/
theorem parseFunc_storing_of_error {os stopped : List Char}
    (hblank : Written.dropBlank false (os ++ closing) = os ++ closing)
    (h : Written.operand (os ++ closing) = .error stopped) (f : Func) :
    parseFunc (String.ofList (storing os)) ≠ .ok f := by
  obtain ⟨hnotBlank, hne⟩ := storing_begins os
  rw [ne_eq, parseFunc_iff_functions, String.toList_ofList,
    functions_of_error hnotBlank hne (Written.func_storing_of_error hblank h)]
  exact fun hok => by cases hok

/-! ### The integers that are accepted -/

/-- The integers that are **accepted** at a width: those that it has room for, with a sign or
without, and the numbers whose words are those of negative ones. -/
def Accepts (w : Nat) (z : Int) : Prop :=
  -2 ^ (w - 1) ≤ z ∧ z < 2 ^ w ∨ 2 ^ 64 - 2 ^ (w - 1) ≤ z ∧ z < 2 ^ 64

variable {t rest : List Char} {z : Int}

/-- The accepted integers are read as words, which are accepted. -/
theorem accepts_iff_fits (hw : supported w) (z : Int) :
    Accepts w z ↔ (-2 ^ 63 ≤ z ∧ z < 2 ^ 64) ∧ fits (BitVec.ofInt 64 z) w := by
  have hrange (h : Accepts w z) : -2 ^ 63 ≤ z ∧ z < 2 ^ 64 := by
    obtain ⟨c, hc⟩ := Option.isSome_iff_exists.mp hw
    rw [Accepts, ← WidthClass.bits_of_ofBits? hc] at h
    cases c <;> simp only [WidthClass.bits] at h <;> omega
  constructor
  · intro h
    obtain ⟨hlow, hhigh⟩ := hrange h
    exact ⟨⟨hlow, hhigh⟩, (fits_ofInt_iff hw hlow hhigh).mpr (h.imp_right And.left)⟩
  · rintro ⟨⟨hlow, hhigh⟩, hfits⟩
    exact ((fits_ofInt_iff hw hlow hhigh).mp hfits).imp_right fun h => ⟨h, hhigh⟩

/-- An integer in front of its width is read and resolved exactly if it is accepted, and then it is
interned. -/
theorem operand_spells_eq_ok (hw : supported w) (ht : Spells t z) (hrest : Stops Char.isDigit rest)
    {s u : State} {v : ValueId} {left : List Char} :
    (∃ o, Written.operand (t ++ ':' :: (digits 10 w ++ rest)) = .ok (o, left) ∧
        operand s o = .ok (v, u)) ↔
      Accepts w z ∧ left = rest ∧
        ∃ g, s.func.literal w (BitVec.ofInt 64 z) = .ok (v, g) ∧ u = ⟨g, s.names⟩ := by
  rw [accepts_iff_fits hw]
  by_cases hz : -2 ^ 63 ≤ z ∧ z < 2 ^ 64
  · rw [Written.operand_spells ht hz.1 hz.2 (le_of_supported hw) hrest]
    simp only [Except.ok.injEq, Prod.mk.injEq, hz, and_self, true_and]
    constructor
    · rintro ⟨_, ⟨rfl, rfl⟩, hoperand⟩
      obtain ⟨hfits, hliteral⟩ := (operand_integer_eq_ok hw).mp hoperand
      exact ⟨hfits, rfl, hliteral⟩
    · rintro ⟨hfits, rfl, hliteral⟩
      exact ⟨_, ⟨rfl, rfl⟩, (operand_integer_eq_ok hw).mpr ⟨hfits, hliteral⟩⟩
  · obtain ⟨stopped, hstopped⟩ := Written.operand_spells_of_not ht hz (digits 10 w ++ rest)
    rw [hstopped]
    refine iff_of_false ?_ fun h => hz h.1.1
    rintro ⟨o, hread, -⟩
    cases hread

/-- A function that stores an integer is parsed exactly if the integer is accepted. -/
theorem parseFunc_spells_eq_ok (hw : supported w) (ht : Spells t z) {f : Func} :
    parseFunc (String.ofList (storing (t ++ ':' :: digits 10 w))) = .ok f ↔
      Accepts w z ∧ f = storedLiteral (BitVec.ofInt 64 z &&& mask w) w := by
  have htext : t ++ ':' :: digits 10 w ++ closing = t ++ ':' :: (digits 10 w ++ closing) := by
    rw [List.append_assoc, List.cons_append]
  have hblank := Written.dropBlank_spells ht (digits 10 w ++ closing)
  rw [← htext] at hblank
  rw [accepts_iff_fits hw]
  by_cases hz : -2 ^ 63 ≤ z ∧ z < 2 ^ 64
  · have hstops : Stops Char.isDigit closing := stops_cons rfl
    have hread := Written.operand_spells ht hz.1 hz.2 (le_of_supported hw) hstops
    rw [← htext] at hread
    obtain ⟨place, hparse⟩ := parseFunc_storing hblank hread f
    rw [hparse]
    simp only [inst_start hw, hz, and_self, true_and]
    constructor
    · rintro ⟨u, ⟨hfits, rfl⟩, rfl⟩
      exact ⟨hfits, rfl⟩
    · rintro ⟨hfits, rfl⟩
      exact ⟨_, ⟨hfits, rfl⟩, rfl⟩
  · obtain ⟨stopped, hstopped⟩ := Written.operand_spells_of_not ht hz (digits 10 w ++ closing)
    rw [← htext] at hstopped
    exact iff_of_false (parseFunc_storing_of_error hblank hstopped f) fun h => hz h.1.1

/-- Which integers may be operands. An integer in front of a supported width is read and resolved,
whatever has been parsed before and whatever comes behind, exactly if the width has room for it or
its word is the one of a negative integer that the width has room for. It is interned with the
width, and with the bits that it has modulo the power of two. A function that stores it is parsed
under the same condition. -/
theorem integerOperand_accepted_iff (hw : supported w) (ht : Spells t z)
    (hrest : Stops Char.isDigit rest) (s : State) :
    ((∃ o v u, Written.operand (t ++ ':' :: (digits 10 w ++ rest)) = .ok (o, rest) ∧
        operand s o = .ok (v, u)) ↔ Accepts w z) ∧
    (∀ o left v u, Written.operand (t ++ ':' :: (digits 10 w ++ rest)) = .ok (o, left) →
      operand s o = .ok (v, u) → left = rest ∧ u.names = s.names ∧
        ∃ l, u.func.literal? v = some l ∧ l.width = w ∧ (l.bits.toNat : Int) = z % 2 ^ w) ∧
    ((∃ f, parseFunc (String.ofList (storing (t ++ ':' :: digits 10 w))) = .ok f) ↔
      Accepts w z) ∧
    ∀ f, parseFunc (String.ofList (storing (t ++ ':' :: digits 10 w))) = .ok f →
      ∃ v l, f.operands ⟨0⟩ = [v] ∧ f.literal? v = some l ∧ l.width = w ∧
        (l.bits.toNat : Int) = z % 2 ^ w := by
  have hw64 : w ≤ 64 := (Integer.width_bounds hw).2
  have hbits : ((BitVec.ofInt 64 z &&& mask w &&& mask w).toNat : Int) = z % 2 ^ w := by
    rw [and_mask_and_mask (Nat.le_refl w), toNat_ofInt_and_mask hw64]
  refine ⟨⟨?_, fun h => ?_⟩, fun o left v u hread hoperand => ?_, ⟨?_, fun h => ?_⟩, fun f hf => ?_⟩
  · rintro ⟨o, v, u, hread⟩
    exact ((operand_spells_eq_ok hw ht hrest).mp ⟨o, hread⟩).1
  · obtain ⟨⟨v, g⟩, hliteral⟩ := Func.literal_ok s.func (BitVec.ofInt 64 z) hw
    obtain ⟨o, hread⟩ := (operand_spells_eq_ok hw ht hrest).mpr ⟨h, rfl, g, hliteral, rfl⟩
    exact ⟨o, v, _, hread⟩
  · obtain ⟨-, rfl, g, hliteral, rfl⟩ :=
      (operand_spells_eq_ok hw ht hrest).mp ⟨o, hread, hoperand⟩
    obtain ⟨-, hvalue, -, -⟩ := Func.literal_grows hliteral
    exact ⟨rfl, rfl, _, by rw [Func.literal?, hvalue], rfl, hbits⟩
  · rintro ⟨f, hf⟩
    exact ((parseFunc_spells_eq_ok hw ht).mp hf).1
  · exact ⟨_, (parseFunc_spells_eq_ok hw ht).mpr ⟨h, rfl⟩⟩
  · obtain ⟨-, rfl⟩ := (parseFunc_spells_eq_ok hw ht).mp hf
    exact ⟨⟨0⟩, _, rfl, rfl, rfl, hbits⟩

theorem integerOperand_accepted_iff_lowestByte : supported 8 ∧ Spells "-128".toList (-128) ∧
    Stops Char.isDigit closing ∧
    ∃ f v l, parseFunc "fn @f() \x7b\n  store -128:8\n\x7d\n" = .ok f ∧ f.operands ⟨0⟩ = [v] ∧
      f.literal? v = some l ∧ l.width = 8 ∧ (l.bits.toNat : Int) = -128 % 2 ^ 8 := by
  have hspells : Spells "-128".toList (-128) := by
    have hdigits : "-128".toList = '-' :: digits 10 128 := by decide +kernel
    rw [hdigits]
    exact .negative (by decide)
  have hstops : Stops Char.isDigit closing := stops_cons rfl
  have htext : String.ofList (storing ("-128".toList ++ ':' :: digits 10 8)) =
      "fn @f() \x7b\n  store -128:8\n\x7d\n" := by decide +kernel
  have hw : supported 8 := rfl
  obtain ⟨-, -, hparsed, hbits⟩ := integerOperand_accepted_iff hw hspells hstops start
  obtain ⟨f, hf⟩ := hparsed.mpr (.inl (by decide))
  rw [← htext]
  exact ⟨hw, hspells, hstops, f, (hbits f hf).imp fun v => fun ⟨l, hl⟩ => ⟨l, hf, hl⟩⟩

/-- A number beyond eight bits that is accepted as a byte: its word is the one of `-128`. -/
theorem parseFunc_wordOfNegative : Spells "18446744073709551488".toList 18446744073709551488 ∧
    ¬ (18446744073709551488 : Int) < 2 ^ 8 ∧
    parseFunc "fn @f() \x7b\n  store 18446744073709551488:8\n\x7d\n" =
      .ok (storedLiteral 128 8) := by
  have hdigits : "18446744073709551488".toList = digits 10 18446744073709551488 := by
    decide +kernel
  refine ⟨?_, by decide, by decide +kernel⟩
  rw [hdigits]
  exact .decimal 18446744073709551488

end Parse

end Peephole
