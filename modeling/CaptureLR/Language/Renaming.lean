import CaptureLR.Language
import CaptureLR.NodeClass
import Mathlib.Logic.Function.Defs

/-!
# Renaming classes and instances

The numbers of classes and of instances of combinators tell only which is which. Languages that
differ by these numbers alone have the same classes, in another order and with other targets of
matches, and the same instances, shared in the same places.
-/

namespace CaptureLR

/-- Other numbers for classes and for instances of combinators; different ones stay different. -/
structure Renaming where
  onClass : ClassId → ClassId
  onInstance : CombinatorId → CombinatorId
  onClass_injective : Function.Injective onClass
  onInstance_injective : Function.Injective onInstance

/-! ### Patterns -/

namespace Pattern

mutual

/-- The pattern with its instances renamed. -/
def rename (ρ : Renaming) : Pattern → Pattern
  | literal t => literal t
  | sequence items => sequence (renameList ρ items)
  | combinator id => combinator (ρ.onInstance id)

/-- The patterns with their instances renamed. -/
def renameList (ρ : Renaming) : List Pattern → List Pattern
  | [] => []
  | p :: ps => p.rename ρ :: renameList ρ ps

end

theorem renameList_eq_map (ρ : Renaming) (ps : List Pattern) :
  renameList ρ ps = ps.map (rename ρ)
  := by
  induction ps with
  | nil => rfl
  | cons p ps ih => rw [renameList, List.map_cons, ih]

end Pattern

/-! ### Combinators -/

namespace Trailing

/-- What may follow the last element, renamed. -/
def rename (ρ : Renaming) : Trailing → Trailing
  | forbidden => forbidden
  | delimiter => delimiter
  | pattern p => pattern (p.rename ρ)

end Trailing

namespace Target

/-- The target renamed. -/
def rename (ρ : Renaming) : Target → Target
  | nodeClass c => nodeClass (ρ.onClass c)
  | pattern p => pattern (p.rename ρ)

end Target

namespace Repetition

/-- The repetition with its parts renamed. -/
def rename (ρ : Renaming) (r : Repetition) : Repetition where
  element := r.element.rename ρ
  delimiter := r.delimiter.rename ρ
  trailing := r.trailing.rename ρ
  lower := r.lower
  upper := r.upper

end Repetition

namespace Match

/-- The match with its target renamed. -/
def rename (ρ : Renaming) (m : Match) : Match :=
  { m with target := m.target.map (Target.rename ρ) }

end Match

namespace Shape

/-- What an instance does, renamed. -/
def rename (ρ : Renaming) : Shape → Shape
  | choice branches => choice (branches.map (Pattern.rename ρ))
  | repetition r => repetition (r.rename ρ)
  | capture m => capture (m.rename ρ)

end Shape

namespace Combinator

/-- The combinator with its parts renamed. -/
def rename (ρ : Renaming) (c : Combinator) : Combinator := ⟨c.name, c.shape.rename ρ⟩

end Combinator

/-! ### Classes and captures -/

namespace ClassDecl

/-- The declaration with its pattern renamed. -/
def rename (ρ : Renaming) (d : ClassDecl) : ClassDecl :=
  { d with pattern := d.pattern.map (Pattern.rename ρ) }

end ClassDecl

namespace NodeClass

/-- The class under its other number. -/
def rename (ρ : Renaming) (n : NodeClass) : NodeClass := { n with id := ρ.onClass n.id }

end NodeClass

namespace CaptureKind

/-- What is captured, with the class under its other number. -/
def rename (ρ : Renaming) : CaptureKind → CaptureKind
  | node c => node (ρ.onClass c)
  | token => token
  | span => span

end CaptureKind

namespace Capture

/-- The capture, with the class under its other number. -/
def rename (ρ : Renaming) (c : Capture) : Capture := { c with kind := c.kind.rename ρ }

end Capture

/-! ### Languages -/

/-- A language is another one with its classes and instances renamed: under the new numbers stand the
declarations and the combinators, renamed themselves, and nothing stands where nothing stood. -/
structure Language.IsRenamed (ρ : Renaming) (l l' : Language) : Prop where
  classes : ∀ c : ClassId,
    l'.classes[(ρ.onClass c).index]? = l.classes[c.index]?.map (ClassDecl.rename ρ)
  combinators : ∀ id : CombinatorId,
    l'.combinator? (ρ.onInstance id) = (l.combinator? id).map (Combinator.rename ρ)

end CaptureLR
