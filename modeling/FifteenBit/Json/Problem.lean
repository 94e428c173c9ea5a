/-! What can be wrong with a document. -/

namespace FifteenBit.Json

inductive Problem where
  | malformed
  | truncated
  | mismatched
  deriving DecidableEq, Repr

def Problem.message : Problem → String
  | .malformed => "malformed document"
  | .truncated => "document ends too early"
  | .mismatched => "document of another shape"

/-- The problem met on the way to a value of the wrong kind: one inside it comes
before its kind. -/
def Problem.ofUnwanted {α : Type} : Except Problem α → Problem
  | .error p => p
  | .ok _ => .mismatched

theorem bind_eq_ok {α β : Type} {x : Except Problem α} {f : α → Except Problem β} {b : β} :
    (x >>= f) = .ok b ↔ ∃ a, x = .ok a ∧ f a = .ok b := by
  cases x <;> simp [bind, Except.bind]

end FifteenBit.Json
