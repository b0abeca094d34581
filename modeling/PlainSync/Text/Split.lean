/-!
# Splitting text

The parts of a text between the occurrences of a separating character or byte.
-/

namespace PlainSync

/-- The parts of a text between separators: one more than there are separators. -/
def splitOn {α : Type} [DecidableEq α] (separator : α) : List α → List (List α)
  | [] => [[]]
  | c :: rest =>
    if c = separator then [] :: splitOn separator rest
    else
      match splitOn separator rest with
      | [] => [[c]]
      | part :: more => (c :: part) :: more

end PlainSync
