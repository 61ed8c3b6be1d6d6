/-!
# Severities

How bad a finding is.  Severities are ordered, from a piece of information to an error, and
only an error makes a run of checks fail.
-/

namespace StyleAudit

/-- How bad a finding is. -/
inductive Severity where
  | info
  | warning
  | error
  deriving DecidableEq, Repr, Inhabited

namespace Severity

/-- The place of the severity in their order, the mildest first. -/
def rank : Severity → Nat
  | info => 0
  | warning => 1
  | error => 2

instance : Ord Severity := ⟨compareOn rank⟩

instance : LE Severity := ⟨fun a b => a.rank ≤ b.rank⟩

instance (a b : Severity) : Decidable (a ≤ b) := inferInstanceAs (Decidable (a.rank ≤ b.rank))

theorem rank_injective {a b : Severity} (h : a.rank = b.rank) : a = b := by
  cases a <;> cases b <;> first | rfl | cases h

/-- Whether a finding of this severity makes a run of checks fail. -/
def isBlocking (s : Severity) : Bool := s == error

/-- The name of the severity. -/
def name : Severity → String
  | info => "info"
  | warning => "warning"
  | error => "error"

/-- The severity with the given name. -/
def ofName? : String → Option Severity
  | "info" => some info
  | "warning" => some warning
  | "error" => some error
  | _ => none

theorem ofName?_name (s : Severity) : ofName? s.name = some s := by
  cases s <;> rfl

end Severity
end StyleAudit
