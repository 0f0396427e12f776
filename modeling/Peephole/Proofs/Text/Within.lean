import Peephole.Proofs.Outcome
import Peephole.Proofs.Text.Reader

/-!
# Where readers stop

A reader that looks at a text from the front stays **within** it: whether it succeeds or fails, and
however often it goes back on the way, it stops at an end part of the text. One that **shortens**
the text takes at least a character when it succeeds.

Both are read off the combinators, and hold of the whole grammar. They are what the loops of the
grammar rely on: every round takes something, so that the guards that let the loops terminate are
never the reason why one ends.
-/

namespace Peephole

namespace Reader

variable {α β : Type} {r s : Reader α} {cs rest : List Char} {a : α}

/-- A reader stays **within** the text when it stops at an end part of it, whether it succeeds or
fails. -/
structure Within (r : Reader α) : Prop where
  meets (cs : List Char) : Meets (r cs) (·.2 <:+ cs) (· <:+ cs)

/-- A reader **shortens** the text when it takes something off it whenever it succeeds. -/
structure Shortens (r : Reader α) : Prop where
  meets (cs : List Char) : Meets (r cs) (·.2.length < cs.length) fun _ => True

theorem Within.of_ok (h : r.Within) (hr : r cs = .ok (a, rest)) : rest <:+ cs :=
  (h.meets cs).of_ok hr

theorem Within.of_error (h : r.Within) (hr : r cs = .error rest) : rest <:+ cs :=
  (h.meets cs).of_error hr

theorem Shortens.of_ok (h : r.Shortens) (hr : r cs = .ok (a, rest)) : rest.length < cs.length :=
  (h.meets cs).of_ok hr

/-! ### Sequences -/

theorem within_pure (a : α) : (pure a : Reader α).Within := ⟨fun cs => List.suffix_refl cs⟩

theorem within_stop : (stop : Reader α).Within := ⟨fun cs => List.suffix_refl cs⟩

theorem within_get : (get : Reader (List Char)).Within := ⟨fun cs => List.suffix_refl cs⟩

/-- A sequence stays within the text when its parts do. -/
theorem Within.bind {g : α → Reader β} (hr : r.Within) (hg : ∀ a, (g a).Within) :
    (r >>= g).Within where
  meets cs := by
    change Meets (r cs >>= fun x => g x.1 x.2) _ _
    refine (hr.meets cs).bind fun x hx => ?_
    exact ((hg x.1).meets x.2).mono (fun _ h => h.trans hx) fun _ h => h.trans hx

theorem Within.map (h : r.Within) (f : α → β) : (f <$> r).Within where
  meets cs := by
    change Meets (r cs >>= fun x => .ok (f x.1, x.2)) _ _
    exact (h.meets cs).bind fun _ hx => hx

/-- A sequence shortens the text when its first part does. -/
theorem Shortens.bind {g : α → Reader β} (hr : r.Shortens) (hg : ∀ a, (g a).Within) :
    (r >>= g).Shortens where
  meets cs := by
    change Meets (r cs >>= fun x => g x.1 x.2) _ _
    refine (hr.meets cs).bind fun x hx => ?_
    exact ((hg x.1).meets x.2).mono (fun _ h => Nat.lt_of_le_of_lt h.length_le hx)
      fun _ _ => trivial

/-- A sequence shortens the text when its last part does. -/
theorem Within.bind_shortens {g : α → Reader β} (hr : r.Within) (hg : ∀ a, (g a).Shortens) :
    (r >>= g).Shortens where
  meets cs := by
    change Meets (r cs >>= fun x => g x.1 x.2) _ _
    refine ((hr.meets cs).mono (fun _ h => h) fun _ _ => trivial).bind fun x hx => ?_
    exact ((hg x.1).meets x.2).mono (fun _ h => Nat.lt_of_lt_of_le h hx.length_le)
      fun _ _ => trivial

theorem Shortens.map (h : r.Shortens) (f : α → β) : (f <$> r).Shortens where
  meets cs := by
    change Meets (r cs >>= fun x => .ok (f x.1, x.2)) _ _
    exact (h.meets cs).bind fun _ hx => hx

/-! ### Characters -/

theorem within_charIf (p : Char → Bool) : (charIf p).Within where
  meets cs := by
    cases cs with
    | nil => exact List.suffix_refl _
    | cons c cs =>
      rw [charIf]
      split
      · exact List.suffix_cons c cs
      · exact List.suffix_refl _

theorem shortens_charIf (p : Char → Bool) : (charIf p).Shortens where
  meets cs := by
    cases cs with
    | nil => trivial
    | cons c cs =>
      rw [charIf]
      split
      · exact Nat.lt_succ_self cs.length
      · trivial

theorem within_char (c : Char) : (char c).Within := (within_charIf _).map _

theorem shortens_char (c : Char) : (char c).Shortens := (shortens_charIf _).map _

theorem within_word (w : String) : (word w).Within where
  meets cs := by
    rw [word]
    split
    · exact List.drop_suffix _ cs
    · exact List.suffix_refl cs

theorem shortens_word {w : String} (hw : w.toList ≠ []) : (word w).Shortens where
  meets cs := by
    rw [word]
    split
    · next h =>
      have hle : w.toList.length ≤ cs.length := (List.isPrefixOf_iff_prefix.mp h).length_le
      have hpos : 0 < w.toList.length := List.length_pos_iff.mpr hw
      rw [String.length_toList] at hle hpos
      rw [Meets.ok_iff, List.length_drop]
      omega
    · trivial

theorem within_run (p : Char → Bool) : (run p).Within := ⟨fun _ => List.dropWhile_suffix p⟩

theorem within_run1 (p : Char → Bool) : (run1 p).Within where
  meets cs := by
    rw [run1]
    split
    · exact List.suffix_refl cs
    · exact List.dropWhile_suffix p

/-! ### Choices -/

theorem Within.attempt (h : r.Within) : (attempt r).Within where
  meets cs := by
    rw [Reader.attempt]
    split
    · next hr => exact h.of_ok hr
    · exact List.suffix_refl cs

theorem Within.orElse (hr : r.Within) (hs : s.Within) : (orElse r s).Within where
  meets cs := by
    rw [Reader.orElse]
    split
    · next x h => exact hr.of_ok (a := x.1) h
    · exact hs.meets cs

/-! ### Lists of elements -/

section Separated

variable {element : Reader α} {separator : Reader Unit}

/-- As long as a separator and an element follow, a list goes on. Every round takes something. -/
theorem more_eq (hseparator : separator.Shortens) (helement : element.Within) (cs : List Char) :
    more element separator cs =
      match (do separator; element : Reader α) cs with
      | .ok (a, rest) =>
        (a :: (more element separator rest).1, (more element separator rest).2)
      | .error _ => ([], cs) := by
  cases h : (do separator; element : Reader α) cs with
  | error stopped => exact more_of_error h
  | ok x => exact more_of_ok h ((hseparator.bind fun _ => helement).of_ok h)

theorem more_suffix (hseparator : separator.Within) (helement : element.Within) (cs : List Char) :
    (more element separator cs).2 <:+ cs := by
  induction h : cs.length using Nat.strongRecOn generalizing cs with
  | ind n ih =>
    rw [more]
    split
    · next a rest hok =>
      split
      · next hlt =>
        exact (ih rest.length (h ▸ hlt) rest rfl).trans
          ((hseparator.bind fun _ => helement).of_ok hok)
      · exact List.suffix_refl cs
    · exact List.suffix_refl cs

theorem within_separated1 (hseparator : separator.Within) (helement : element.Within) :
    (separated1 element separator).Within :=
  helement.bind fun _ => Within.bind ⟨more_suffix hseparator helement⟩ fun _ => within_pure _

theorem within_separated (hseparator : separator.Within) (helement : element.Within) :
    (separated element separator).Within :=
  (within_separated1 hseparator helement).attempt.bind fun _ => within_pure _

end Separated

end Reader

/-! ### The grammar -/

namespace Written

open Reader

theorem dropBlank_suffix (comment : Bool) (cs : List Char) : dropBlank comment cs <:+ cs := by
  induction comment, cs using dropBlank.induct with
  | case1 comment =>
    rewrite [dropBlank]
    exact List.suffix_refl _
  | case2 c cs ih =>
    rewrite [dropBlank]
    exact ih.trans (List.suffix_cons c cs)
  | case3 cs ih =>
    rewrite [dropBlank]
    exact ih.trans ((List.suffix_cons '/' cs).trans (List.suffix_cons '/' _))
  | case4 c cs hc hb ih =>
    rewrite [dropBlank, if_pos hb]
    · exact ih.trans (List.suffix_cons c cs)
    · exact hc
  | case5 c cs hc hb =>
    rewrite [dropBlank, if_neg hb]
    · exact List.suffix_refl _
    · exact hc

theorem within_blank : blank.Within := ⟨dropBlank_suffix false⟩

theorem within_name : name.Within := (within_run1 _).map _

theorem shortens_operationName : operationName.Shortens :=
  (shortens_charIf _).bind fun _ => (within_run _).bind fun _ => within_pure _

theorem within_operationName : operationName.Within :=
  (within_charIf _).bind fun _ => (within_run _).bind fun _ => within_pure _

theorem within_valueName : valueName.Within := (within_char _).bind fun _ => within_name

theorem within_natural (limit : Nat) : (natural limit).Within where
  meets cs := by
    unfold natural
    split
    · exact List.suffix_cons _ _
    · dsimp only
      split
      · exact List.suffix_refl cs
      · exact List.dropWhile_suffix _

theorem within_width : width.Within := within_natural 255

theorem within_hexNatural : hexNatural.Within := by
  refine (within_word _).bind fun _ => ⟨fun cs => ?_⟩
  dsimp only
  split
  · exact List.suffix_refl cs
  · exact List.dropWhile_suffix _

theorem within_integer : integer.Within := by
  refine (within_char _).attempt.bind fun sign => (within_natural _).bind fun n => ?_
  dsimp only
  split
  · split
    · exact within_stop.bind fun _ => within_pure _
    · exact within_pure _
  · exact within_pure _

theorem within_exponent : exponent.Within :=
  ((within_charIf _).map _).bind fun _ => (within_charIf _).attempt.bind fun _ =>
    (within_run1 _).bind fun _ => within_pure _

theorem within_fraction : fraction.Within :=
  (within_char _).attempt.bind fun _ => (within_run1 _).bind fun _ => (within_char _).bind fun _ =>
    (within_run1 _).bind fun _ => within_exponent.attempt.bind fun _ => within_pure _

theorem within_datum : datum.Within :=
  .orElse ((within_word _).bind fun _ => within_pure _) <|
  .orElse ((within_word _).bind fun _ => within_pure _) <|
  .orElse ((within_word _).bind fun _ => within_pure _) within_fraction

theorem within_operand : operand.Within :=
  .orElse (within_valueName.map _) <|
  .orElse (within_datum.bind fun _ => (within_word _).bind fun _ => within_width.bind fun _ =>
      within_pure _)
    ((within_hexNatural.orElse within_integer).bind fun _ => (within_char _).bind fun _ =>
      within_width.bind fun _ => within_pure _)

theorem within_param : param.Within :=
  within_valueName.bind fun _ => within_blank.bind fun _ => (within_char _).bind fun _ =>
    within_blank.bind fun _ => (within_charIf _).attempt.bind fun _ => within_width.bind fun _ =>
      within_pure _

theorem within_result : result.Within :=
  within_valueName.bind fun _ => within_blank.bind fun _ => (within_char _).bind fun _ =>
    within_blank.bind fun _ => within_width.bind fun _ => within_blank.bind fun _ =>
      (within_char _).bind fun _ => within_blank.bind fun _ => within_pure _

/-- The rest of an instruction, from its operands on. -/
theorem within_operands :
    (separated1 (do blank; operand) (do blank; Reader.char ',')).Within :=
  within_separated1 (within_blank.bind fun _ => within_char _)
    (within_blank.bind fun _ => within_operand)

theorem within_inst : inst.Within :=
  within_get.bind fun _ => within_result.attempt.bind fun _ => within_operationName.bind fun _ =>
    (within_char _).attempt.bind fun _ => within_operands.bind fun _ => within_pure _

theorem shortens_inst : inst.Shortens :=
  within_get.bind_shortens fun _ => within_result.attempt.bind_shortens fun _ =>
    shortens_operationName.bind fun _ => (within_char _).attempt.bind fun _ =>
      within_operands.bind fun _ => within_pure _

theorem within_label : label.Within :=
  (within_char _).bind fun _ => (within_name.map _).bind fun _ => within_blank.bind fun _ =>
    within_char _

theorem shortens_label : label.Shortens :=
  (shortens_char _).bind fun _ => (within_name.map _).bind fun _ => within_blank.bind fun _ =>
    within_char _

theorem within_line : line.Within where
  meets cs := by
    unfold line
    split
    · exact (within_label.bind fun _ => within_pure _).meets _
    · exact (within_inst.map _).meets cs

theorem shortens_line : line.Shortens where
  meets cs := by
    unfold line
    split
    · exact (shortens_label.bind fun _ => within_pure _).meets _
    · exact (shortens_inst.map _).meets cs

theorem lines_of_brace {cs rest : List Char} (h : dropBlank false cs = '\x7d' :: rest) :
    lines cs = .ok ([], rest) := by
  rw [lines]
  split
  · next rest' h' => rw [(List.cons.inj (h'.symm.trans h)).2]
  · next h' => exact absurd h (h' rest)

/-- Up to the closing brace, the lines of a function go on with a line. Every round takes
something. -/
theorem lines_of_not_brace {cs : List Char} (h : ∀ rest, dropBlank false cs ≠ '\x7d' :: rest) :
    lines cs = (do
      let l ← line
      let ls ← (lines : Reader (List (Option Inst)))
      return l :: ls : Reader (List (Option Inst))) (dropBlank false cs) := by
  rw [lines]
  split
  · next rest hclose => exact absurd hclose (h rest)
  · cases hl : line (dropBlank false cs) with
    | error stopped => rw [bind_of_error _ hl]
    | ok x =>
      have hlt : x.2.length < cs.length :=
        Nat.lt_of_lt_of_le (shortens_line.of_ok hl) (dropBlank_suffix false cs).length_le
      rw [bind_of_ok _ hl]
      dsimp only
      rw [if_pos hlt]
      cases hls : lines x.2 with
      | error stopped => rw [bind_of_error _ hls]
      | ok y => rw [bind_of_ok _ hls]; rfl

/-- Lines can be looked at one by one, up to the closing brace. -/
theorem lines_induction {motive : List Char → Prop}
    (brace : ∀ cs rest, dropBlank false cs = '\x7d' :: rest → motive cs)
    (step : ∀ cs, (∀ rest, dropBlank false cs ≠ '\x7d' :: rest) →
      (∀ l rest, line (dropBlank false cs) = .ok (l, rest) → motive rest) → motive cs)
    (cs : List Char) : motive cs := by
  induction h : cs.length using Nat.strongRecOn generalizing cs with
  | ind n ih =>
    by_cases hbrace : ∃ rest, dropBlank false cs = '\x7d' :: rest
    · obtain ⟨rest, hbrace⟩ := hbrace
      exact brace cs rest hbrace
    · refine step cs (fun rest hrest => hbrace ⟨rest, hrest⟩) fun l rest hl => ?_
      exact ih rest.length (h ▸ Nat.lt_of_lt_of_le (shortens_line.of_ok hl)
        (dropBlank_suffix false cs).length_le) rest rfl

theorem within_lines : Within lines where
  meets cs := by
    induction cs using lines_induction with
    | brace cs rest h =>
      rw [lines_of_brace h]
      exact (h ▸ List.suffix_cons _ rest).trans (dropBlank_suffix false cs)
    | step cs h ih =>
      have hstart := dropBlank_suffix false cs
      rw [lines_of_not_brace h]
      cases hl : line (dropBlank false cs) with
      | error stopped =>
        rw [bind_of_error _ hl]
        exact (within_line.of_error hl).trans hstart
      | ok x =>
        have hrest : x.2 <:+ cs := (within_line.of_ok hl).trans hstart
        rw [bind_of_ok _ hl]
        change Meets (lines x.2 >>= fun y => .ok (x.1 :: y.1, y.2)) _ _
        refine Meets.bind ?_ fun _ h => h
        exact (ih x.1 x.2 hl).mono (fun _ h => h.trans hrest) fun _ h => h.trans hrest

/-- What stands between the name of a function and its lines. -/
theorem within_params :
    (separated param (do blank; Reader.char ','; blank)).Within :=
  within_separated (within_blank.bind fun _ => (within_char _).bind fun _ => within_blank)
    within_param

theorem shortens_func : func.Shortens :=
  within_get.bind_shortens fun _ => (shortens_word (by decide)).bind fun _ =>
    within_blank.bind fun _ => (within_char _).bind fun _ => within_name.bind fun _ =>
      within_blank.bind fun _ => (within_char _).bind fun _ => within_blank.bind fun _ =>
        within_params.bind fun _ => within_blank.bind fun _ => (within_char _).bind fun _ =>
          within_blank.bind fun _ => (within_char _).bind fun _ => within_lines.bind fun _ =>
            within_pure _

theorem within_func : func.Within :=
  within_get.bind fun _ => (within_word _).bind fun _ =>
    within_blank.bind fun _ => (within_char _).bind fun _ => within_name.bind fun _ =>
      within_blank.bind fun _ => (within_char _).bind fun _ => within_blank.bind fun _ =>
        within_params.bind fun _ => within_blank.bind fun _ => (within_char _).bind fun _ =>
          within_blank.bind fun _ => (within_char _).bind fun _ => within_lines.bind fun _ =>
            within_pure _

end Written

end Peephole
