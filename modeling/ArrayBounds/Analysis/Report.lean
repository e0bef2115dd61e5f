/-! # Reports

A report names an array access that was not shown to be in bounds, by its place in the source. The
findings of an analysis are its reports in the order in which they came up, each one once.
-/

namespace ArrayBounds

/-- An access that may be out of bounds. -/
structure Report where
  /-- The name of the source file, or of the class if the file is not known. -/
  file : String
  method : String
  /-- The line, if the method has line numbers. -/
  line : Option UInt32
deriving DecidableEq, Repr, Inhabited

/-- A report in one line. -/
def Report.text (r : Report) : String :=
  let line := match r.line with
    | some line => toString line
    | none => "?"
  s!"{r.file}:{line} in {r.method}"

/-- Distinct reports in the order in which they came up. -/
structure Findings where
  reports : List Report := []
  distinct : reports.Nodup := by decide

namespace Findings

instance : Inhabited Findings := ⟨{}⟩

instance : EmptyCollection Findings := ⟨{}⟩

instance : Membership Report Findings := ⟨fun findings r => r ∈ findings.reports⟩

instance (r : Report) (findings : Findings) : Decidable (r ∈ findings) :=
  inferInstanceAs (Decidable (r ∈ findings.reports))

/-- Adds a report at the end unless it is there already. -/
def insert (findings : Findings) (r : Report) : Findings :=
  if known : r ∈ findings.reports then findings
  else
    { reports := findings.reports ++ [r]
      distinct := by
        rw [List.nodup_append]
        refine ⟨findings.distinct, by simp, ?_⟩
        intro a mem b single same
        rw [List.mem_singleton] at single
        exact known (single ▸ same ▸ mem) }

def size (findings : Findings) : Nat :=
  findings.reports.length

def isEmpty (findings : Findings) : Bool :=
  findings.reports.isEmpty

end Findings

end ArrayBounds
