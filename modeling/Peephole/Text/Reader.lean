/-!
# Readers

A **reader** takes a value off the front of a text. One that succeeds leaves the rest of the text;
one that fails reports the rest of the text at which it stopped.

* A token that fails stops where it began.
* A sequence that fails stops where its failing element stopped, after the elements before it.
* `attempt` turns a failure into the absence of a value, and goes back to where it began.
* `orElse` goes back to try another reader; when that fails too, it stops where the latter did.
* `separated` takes as many elements as there are, and stops before a separator that no element
  follows.
-/

namespace Peephole

/-- A reader of values of a type. -/
abbrev Reader (α : Type) := StateT (List Char) (Except (List Char)) α

namespace Reader

/-- Stops at the current position. -/
def stop : Reader α := fun cs => .error cs

/-- Takes a character of a class. -/
def charIf (p : Char → Bool) : Reader Char
  | c :: cs => if p c then .ok (c, cs) else .error (c :: cs)
  | [] => .error []

/-- Takes a given character. -/
def char (c : Char) : Reader Unit := discard (charIf (· == c))

/-- Takes a given word. -/
def word (s : String) : Reader Unit := fun cs =>
  if s.toList.isPrefixOf cs then .ok ((), cs.drop s.length) else .error cs

/-- Takes the longest run of characters of a class, which may be empty. -/
def run (p : Char → Bool) : Reader (List Char) := fun cs =>
  .ok (cs.takeWhile p, cs.dropWhile p)

/-- Takes the longest run of characters of a class, which must not be empty. -/
def run1 (p : Char → Bool) : Reader (List Char) := fun cs =>
  if (cs.takeWhile p).isEmpty then .error cs else .ok (cs.takeWhile p, cs.dropWhile p)

/-- Takes a value where there is one. -/
def attempt (r : Reader α) : Reader (Option α) := fun cs =>
  match r cs with
  | .ok (a, rest) => .ok (some a, rest)
  | .error _ => .ok (none, cs)

/-- Takes what the first reader takes, or else what the second one does. -/
def orElse (r s : Reader α) : Reader α := fun cs =>
  match r cs with
  | .ok result => .ok result
  | .error _ => s cs

/-- Takes elements as long as a separator and an element follow. -/
def more (element : Reader α) (separator : Reader Unit) (cs : List Char) : List α × List Char :=
  match (do separator; element : Reader α) cs with
  | .ok (a, rest) =>
    if rest.length < cs.length then
      let (as, rest) := more element separator rest
      (a :: as, rest)
    else ([], cs)
  | .error _ => ([], cs)
termination_by cs.length

/-- Takes one element or more, with separators between them. -/
def separated1 (element : Reader α) (separator : Reader Unit) : Reader (List α) := do
  let a ← element
  let as ← (fun cs => .ok (more element separator cs) : Reader (List α))
  return a :: as

/-- Takes any number of elements, with separators between them. -/
def separated (element : Reader α) (separator : Reader Unit) : Reader (List α) := do
  return (← attempt (separated1 element separator)).getD []

end Reader

end Peephole
