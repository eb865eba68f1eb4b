import CaptureLR.Tree.Walk

/-!
# Summaries of syntax trees

What a walk through a whole tree counts.
-/

namespace CaptureLR

/-- Counts over the visits of a walk. -/
structure Summary where
  nodes : Nat
  tokens : Nat
  /-- The largest number of nodes around a visit. -/
  depth : Nat
  /-- The sum of the offsets of the tokens, each multiplied by the number of the token. -/
  checksum : Nat
  /-- The last token visited. -/
  last : Option Token
deriving DecidableEq, Inhabited

namespace Summary

/-- The summary before the first visit. -/
def empty : Summary := ⟨0, 0, 0, 0, none⟩

/-- The visitor that counts every visit and enters every node. -/
def visitor : Visitor Summary := fun s ancestors visit =>
  let s := { s with depth := max s.depth ancestors.size }
  match visit with
  | .node _ => (true, { s with nodes := s.nodes + 1 })
  | .token t =>
      (true, { s with
        tokens := s.tokens + 1
        checksum := s.checksum + t.start.offset * (s.tokens + 1)
        last := some t })

end Summary

/-- The summary of a tree. -/
def NodeOf.summary (n : Node) : Summary := n.walk Summary.visitor Summary.empty

end CaptureLR
