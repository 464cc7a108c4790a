import TopDown.Distinct
import TopDown.Index

/-!
# Layers

What can be reached from one nonterminal, nearest first: the first layer is the nonterminal itself, and each further layer holds
what the layer before it leads to and no earlier layer holds. So the number of a layer is a distance, and the layers one after
the other are the order of a breadth-first search.
-/

namespace TopDown

/-- The layers from `frontier` on, when `seen` holds all earlier layers; `fuel` layers at most. -/
def layersFrom (next : Nonterminal → List Nonterminal) : (fuel : Nat) → (seen : Index Unit) → (frontier : List Nonterminal) →
    List (List Nonterminal)
  | 0, _, _ => []
  | fuel + 1, seen, frontier =>
    if frontier.isEmpty then []
    else
      let seen := seen.insertAll frontier
      frontier :: layersFrom next fuel seen (distinct ((frontier.flatMap next).filter fun nt => !seen.contains nt))

/-- The layers around a nonterminal, when at most `bound` of them lead anywhere: each layer but the last holds such a one. -/
def layers (next : Nonterminal → List Nonterminal) (bound : Nat) (nt : Nonterminal) : List (List Nonterminal) :=
  layersFrom next (bound + 1) .empty [nt]

/-- What can be reached from a nonterminal, itself first, nearest first. -/
def closure (next : Nonterminal → List Nonterminal) (bound : Nat) (nt : Nonterminal) : List Nonterminal :=
  (layers next bound nt).flatten

end TopDown
