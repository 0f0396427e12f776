import Peephole.Text.Written
import Mathlib.Data.List.TakeWhile

/-!
# What readers take

A reader that is applied to what it is meant to take, with more behind it, takes exactly that.
Sequences are followed one reader at a time, by `bind_of_ok`. A run of characters ends where the
text behind it **stops** the run, and a list of elements ends where no separator with an element
follows, `separated1_append`.
-/

namespace Peephole

namespace Reader

variable {α β : Type} {cs rest : List Char} {a : α}

/-! ### Sequences -/

/-- After a reader that succeeds, the rest of the sequence goes on from what it leaves. -/
theorem bind_of_ok {r : Reader α} (g : α → Reader β) (h : r cs = .ok (a, rest)) :
    (r >>= g) cs = g a rest := by
  change StateT.bind r g cs = _
  rw [StateT.bind, h]
  rfl

/-- A sequence succeeds only if its parts do. -/
theorem bind_eq_ok {r : Reader α} {g : α → Reader β} {b : β} (h : (r >>= g) cs = .ok (b, rest)) :
    ∃ a mid, r cs = .ok (a, mid) ∧ g a mid = .ok (b, rest) := by
  change StateT.bind r g cs = _ at h
  rw [StateT.bind] at h
  cases hr : r cs with
  | error e =>
    rw [hr] at h
    cases h
  | ok x =>
    rw [hr] at h
    exact ⟨x.1, x.2, rfl, h⟩

/-- After a reader that fails, the rest of the sequence is not tried. -/
theorem bind_of_error {r : Reader α} (g : α → Reader β) {stopped : List Char}
    (h : r cs = .error stopped) : (r >>= g) cs = .error stopped := by
  change StateT.bind r g cs = _
  rw [StateT.bind, h]
  rfl

theorem map_of_ok {r : Reader α} (f : α → β) (h : r cs = .ok (a, rest)) :
    (f <$> r) cs = .ok (f a, rest) := by
  change StateT.map f r cs = _
  rw [StateT.map, h]
  rfl

theorem map_of_error {r : Reader α} (f : α → β) {stopped : List Char} (h : r cs = .error stopped) :
    (f <$> r) cs = .error stopped := by
  change StateT.map f r cs = _
  rw [StateT.map, h]
  rfl

theorem discard_of_ok {r : Reader α} (h : r cs = .ok (a, rest)) :
    (discard r) cs = .ok ((), rest) :=
  map_of_ok (fun _ => ()) h

/-! ### Choices -/

theorem attempt_of_ok {r : Reader α} (h : r cs = .ok (a, rest)) :
    attempt r cs = .ok (some a, rest) := by
  rw [attempt, h]

theorem attempt_of_error {r : Reader α} {stopped : List Char} (h : r cs = .error stopped) :
    attempt r cs = .ok (none, cs) := by
  rw [attempt, h]

theorem orElse_of_ok {r s : Reader α} (h : r cs = .ok (a, rest)) :
    orElse r s cs = .ok (a, rest) := by
  rw [orElse, h]

theorem orElse_of_error {r s : Reader α} {stopped : List Char} (h : r cs = .error stopped) :
    orElse r s cs = s cs := by
  rw [orElse, h]

/-! ### Characters -/

theorem charIf_cons {p : Char → Bool} {c : Char} (h : p c) : charIf p (c :: cs) = .ok (c, cs) := by
  rw [charIf, if_pos h]

theorem charIf_of_not {p : Char → Bool} {c : Char} (h : p c = false) :
    charIf p (c :: cs) = .error (c :: cs) := by
  rw [charIf, if_neg (Bool.eq_false_iff.mp h)]

theorem char_cons (c : Char) (cs : List Char) : char c (c :: cs) = .ok ((), cs) :=
  discard_of_ok (charIf_cons (beq_self_eq_true c))

theorem char_of_ne {c d : Char} (h : d ≠ c) : char c (d :: cs) = .error (d :: cs) := by
  have hif : charIf (· == c) (d :: cs) = .error (d :: cs) := charIf_of_not (beq_false_of_ne h)
  change StateT.map (fun _ => ()) (charIf (· == c)) (d :: cs) = _
  rw [StateT.map, hif]
  rfl

theorem word_append (s : String) (cs : List Char) : word s (s.toList ++ cs) = .ok ((), cs) := by
  rw [word, if_pos (List.isPrefixOf_iff_prefix.mpr (List.prefix_append _ _)),
    ← String.length_toList, List.drop_left]

theorem word_of_absent {s : String} (h : ¬ s.toList <+: cs) : word s cs = .error cs := by
  rw [word, if_neg (mt List.isPrefixOf_iff_prefix.mp h)]

/-! ### Runs -/

/-- Whether a text **stops** a run of characters: it does not begin with one of them. -/
def Stops (p : Char → Bool) (cs : List Char) : Prop := ∀ c ∈ cs.head?, p c = false

variable {p : Char → Bool} {as : List Char}

theorem stops_cons {c : Char} (h : p c = false) : Stops p (c :: cs) := by
  intro d hd
  obtain rfl := Option.mem_some.mp hd
  exact h

theorem takeWhile_append (h : ∀ c ∈ as, p c) (hs : Stops p cs) :
    (as ++ cs).takeWhile p = as := by
  rw [List.takeWhile_append_of_pos h]
  cases cs with
  | nil => exact List.append_nil as
  | cons c cs =>
    rw [List.takeWhile_cons_of_neg (Bool.eq_false_iff.mp (hs c rfl)), List.append_nil]

theorem dropWhile_append (h : ∀ c ∈ as, p c) (hs : Stops p cs) :
    (as ++ cs).dropWhile p = cs := by
  rw [List.dropWhile_append_of_pos h]
  cases cs with
  | nil => rfl
  | cons c cs => rw [List.dropWhile_cons_of_neg (Bool.eq_false_iff.mp (hs c rfl))]

theorem run_append (h : ∀ c ∈ as, p c) (hs : Stops p cs) : run p (as ++ cs) = .ok (as, cs) := by
  rw [run, takeWhile_append h hs, dropWhile_append h hs]

theorem run1_append (h : ∀ c ∈ as, p c) (hne : as ≠ []) (hs : Stops p cs) :
    run1 p (as ++ cs) = .ok (as, cs) := by
  rw [run1, takeWhile_append h hs, dropWhile_append h hs, if_neg (by simpa using hne)]

/-- What a run takes is not empty and of the class. -/
theorem run1_eq_ok (h : run1 p cs = .ok (as, rest)) : as ≠ [] ∧ ∀ c ∈ as, p c := by
  unfold run1 at h
  split at h
  · cases h
  · next hne =>
    cases h
    exact ⟨by simpa using hne, fun c hc => List.mem_takeWhile_imp hc⟩

/-! ### Lists of elements -/

section Separated

variable {element : Reader α} {separator : Reader Unit}

theorem more_of_ok (h : (do separator; element : Reader α) cs = .ok (a, rest))
    (hlt : rest.length < cs.length) :
    more element separator cs =
      (a :: (more element separator rest).1, (more element separator rest).2) := by
  rw [more]
  split
  · next a' rest' h' =>
    rw [h] at h'
    cases h'
    rw [if_pos hlt]
  · next h' =>
    rw [h] at h'
    cases h'

theorem more_of_error {stopped : List Char}
    (h : (do separator; element : Reader α) cs = .error stopped) :
    more element separator cs = ([], cs) := by
  rw [more]
  split
  · next h' =>
    rw [h] at h'
    cases h'
  · rfl

variable {spell : α → List Char} {sep : List Char} {follows : List Char → Prop} {as : List α}

/-- What stands behind an element begins with a separator, or is what stands at the end. -/
theorem follows_flatMap (hfollows : ∀ cs, follows (sep ++ cs)) (hrest : follows rest) :
    follows (as.flatMap (fun a => sep ++ spell a) ++ rest) := by
  cases as with
  | nil => exact hrest
  | cons b bs =>
    rw [List.flatMap_cons, List.append_assoc, List.append_assoc]
    exact hfollows _

variable (helement : ∀ a ∈ as, ∀ cs, follows cs → element (spell a ++ cs) = .ok (a, cs))
  (hseparator : ∀ a ∈ as, ∀ cs,
    separator (sep ++ (spell a ++ cs)) = .ok ((), spell a ++ cs)) (hsep : sep ≠ [])
  (hfollows : ∀ cs, follows (sep ++ cs)) (hrest : follows rest) {stopped : List Char}
  (hstop : (do separator; element : Reader α) rest = .error stopped)
include helement hseparator hsep hfollows hrest hstop

/-- Elements behind separators are taken up to the end. -/
theorem more_append :
    more element separator (as.flatMap (fun a => sep ++ spell a) ++ rest) = (as, rest) := by
  induction as with
  | nil => exact more_of_error hstop
  | cons a as ih =>
    rw [List.forall_mem_cons] at helement hseparator
    obtain ⟨ha, has⟩ := helement
    let behind := as.flatMap (fun a => sep ++ spell a) ++ rest
    have hcs : (a :: as).flatMap (fun a => sep ++ spell a) ++ rest =
        sep ++ (spell a ++ behind) := by
      simp [behind]
    have hok : (do separator; element : Reader α) (sep ++ (spell a ++ behind)) =
        .ok (a, behind) := by
      rw [bind_of_ok _ (hseparator.1 _)]
      exact ha behind (follows_flatMap hfollows hrest)
    have hlt : behind.length < (sep ++ (spell a ++ behind)).length := by
      have := List.length_pos_iff.mpr hsep
      simp only [List.length_append]
      omega
    rw [hcs, more_of_ok hok hlt, ih has hseparator.2]

/-- Elements with separators between them are taken up to the end. -/
theorem separated1_append {a : α} (ha : ∀ cs, follows cs → element (spell a ++ cs) = .ok (a, cs)) :
    separated1 element separator
        (spell a ++ (as.flatMap (fun a => sep ++ spell a) ++ rest)) = .ok (a :: as, rest) := by
  have hmore := more_append helement hseparator hsep hfollows hrest hstop
  have hothers : (fun cs => .ok (more element separator cs) : Reader (List α))
      (as.flatMap (fun a => sep ++ spell a) ++ rest) = .ok (as, rest) :=
    congrArg Except.ok hmore
  rw [separated1, bind_of_ok _ (ha _ (follows_flatMap hfollows hrest)), bind_of_ok _ hothers]
  rfl

end Separated

end Reader

end Peephole
