namespace Sigil

/-- A parser reads a value off the front of a list, or fails. -/
abbrev Parser (σ ε : Type) := StateT (List σ) (Except ε)

namespace Parser

variable {σ ε α : Type}

/-- What one round of a repetition reads: nothing, a last item, or an item with more to come. -/
inductive Round (α : Type) where
  | stop
  | last (a : α)
  | more (a : α)

def manyFrom (round : Parser σ ε (Round α)) (input : List σ) : Except ε (List α × List σ) :=
  match round input with
  | .error e => .error e
  | .ok (.stop, rest) => .ok ([], rest)
  | .ok (.last a, rest) => .ok ([a], rest)
  | .ok (.more a, rest) =>
    if rest.length < input.length then
      match manyFrom round rest with
      | .error e => .error e
      | .ok (as, rest) => .ok (a :: as, rest)
    else .ok ([a], rest)
termination_by input.length

/-- Repeats a round for as long as it asks for more and shortens the input. -/
def many (round : Parser σ ε (Round α)) : Parser σ ε (List α) := manyFrom round

def nestFrom {β : Type} (base : β → Parser σ ε α) (step : (β → Parser σ ε α) → β → Parser σ ε α)
    (b : β) (input : List σ) : Except ε (α × List σ) :=
  step (fun b rest => if rest.length < input.length then nestFrom base step b rest else base b rest)
    b input
termination_by input.length

/-- Reads what `step` reads, whose own use of the parser it is given is for the parts nested in it.
A part that is no shorter than the whole is left to `base`. -/
def nestWith {β : Type} (base : β → Parser σ ε α) (step : (β → Parser σ ε α) → β → Parser σ ε α)
    (b : β) : Parser σ ε α :=
  nestFrom base step b

/-- Like `nestWith`, for parts that are all read in the same way. -/
def nest (base : Parser σ ε α) (step : Parser σ ε α → Parser σ ε α) : Parser σ ε α :=
  nestWith (fun _ : Unit => base) (fun part _ => step (part ())) ()

end Parser

end Sigil
