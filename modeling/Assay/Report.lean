import Assay.Violation
/-!
# Reports

A report is what one validation found: at least one violation, in the order of the schema.
-/
namespace Assay

structure Report where
  first : Violation
  rest : List Violation
  deriving DecidableEq

namespace Report

def toList (r : Report) : List Violation := r.first :: r.rest

/-- The report of some violations, if there are any. -/
def ofList? : List Violation → Option Report
  | [] => none
  | v :: rest => some ⟨v, rest⟩

@[simp] theorem ofList?_eq_none {vs : List Violation} : ofList? vs = none ↔ vs = [] := by
  cases vs <;> simp [ofList?]

@[simp] theorem ofList?_toList (r : Report) : ofList? r.toList = some r := rfl

def append (r s : Report) : Report := ⟨r.first, r.rest ++ s.toList⟩

instance : Append Report := ⟨append⟩

@[simp] theorem toList_append (r s : Report) : (r ++ s).toList = r.toList ++ s.toList := rfl

def length (r : Report) : Nat := r.toList.length

def atPath (r : Report) (p : Path) : List Violation := r.toList.filter (·.path == p)

def withRule (r : Report) (rule : Rule) : List Violation := r.toList.filter (·.rule == rule)

def rules (r : Report) : List Rule := r.toList.map (·.rule)

def describe (r : Report) : String := "\n".intercalate (r.toList.map Violation.render)

end Report

end Assay
