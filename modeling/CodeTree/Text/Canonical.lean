/-!
# Texts that do not depend on identities

An anonymous variable and every label show their identity in printed trees, after a mark: `#`,
`$p`, `@L` or `'L`. Identities depend on what was made before. `canonical` replaces each by its
rank of first appearance within the text, so that two constructions of one tree print alike.
-/

namespace CodeTree.Text

/-- The length of the mark that a text begins with, or zero. -/
def markLength : List Char → Nat
  | '#' :: _ => 1
  | '$' :: 'p' :: _ => 2
  | '@' :: 'L' :: _ => 2
  | '\'' :: 'L' :: _ => 2
  | _ => 0

/-- The identities met so far, in order of first appearance. -/
abbrev Seen := List (List Char)

/-- Takes note of an identity. -/
def note (seen : Seen) (digits : List Char) : Seen :=
  if seen.contains digits then seen else seen ++ [digits]

/-- The number that stands for an identity. -/
def rank (seen : Seen) (digits : List Char) : List Char :=
  (toString (seen.idxOf digits + 1)).toList

/-- Replaces the identities of a text; `out` is what was written before, backwards. -/
def renumber (seen : Seen) (out cs : List Char) : List Char :=
  match cs with
  | [] => out.reverse
  | c :: rest =>
    let behind := rest.drop (markLength (c :: rest) - 1)
    let digits := behind.takeWhile Char.isDigit
    if markLength (c :: rest) = 0 ∨ digits = [] then renumber seen (c :: out) rest
    else
      let seen := note seen digits
      renumber seen ((rank seen digits).reverse ++ (cs.take (markLength cs)).reverse ++ out)
        (behind.dropWhile Char.isDigit)
termination_by cs.length
decreasing_by
  · simp
  · have h := (List.dropWhile_suffix (l := behind) Char.isDigit).length_le
    have h' : behind.length ≤ rest.length := (List.drop_suffix _ rest).length_le
    exact Nat.lt_succ_of_le (Nat.le_trans h h')

/-- The text with every identity replaced by its rank. -/
def canonical (s : String) : String := String.ofList (renumber [] [] s.toList)

end CodeTree.Text
