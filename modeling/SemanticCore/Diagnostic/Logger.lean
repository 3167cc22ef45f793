import SemanticCore.Diagnostic.Basic

/-!
# The log of diagnostics

A logger keeps every diagnostic reported to it and hands it on to its sinks, in the order of the
reports. Clearing the logger forgets what it kept and so what it counts; a sink keeps what it was
given until it is cleared itself.
-/

namespace SemanticCore

/-- The diagnostics kept so far, and what each attached sink holds. -/
structure Logger where
  kept : List Diagnostic := []
  sinks : List (List Diagnostic) := []
  deriving Inhabited

namespace Logger

/-- Keeps a diagnostic and hands it to each sink. -/
def report (l : Logger) (d : Diagnostic) : Logger :=
  { kept := l.kept ++ [d], sinks := l.sinks.map (· ++ [d]) }

/-- Reports diagnostics one by one. -/
def reportAll (l : Logger) (ds : List Diagnostic) : Logger := ds.foldl report l

theorem reportAll_eq (l : Logger) (ds : List Diagnostic) :
    l.reportAll ds = { kept := l.kept ++ ds, sinks := l.sinks.map (· ++ ds) } := by
  induction ds generalizing l with
  | nil => simp [reportAll]
  | cons d ds ih =>
    rw [reportAll, List.foldl_cons]
    refine (ih (l.report d)).trans ?_
    simp [report]

/-- How many of the diagnostics that are kept have a severity. -/
def count (l : Logger) (s : Severity) : Nat := l.kept.countP (·.severity == s)

/-- Each report is counted once, at its severity. -/
theorem count_report (l : Logger) (d : Diagnostic) (s : Severity) :
    (l.report d).count s = l.count s + if d.severity = s then 1 else 0 := by
  simp [count, report, List.countP_append, List.countP_singleton]

/-- Whether an error or a fatal error is kept. -/
def hasErrors (l : Logger) : Bool := 0 < l.count .error || 0 < l.count .fatal

/-- Attaches an empty sink, after the others. -/
def addSink (l : Logger) : Logger := { l with sinks := l.sinks ++ [[]] }

/-- What a sink holds. -/
def sink (l : Logger) (i : Nat) : List Diagnostic := l.sinks.getD i []

/-- Empties a sink; the logger and the other sinks keep what they have. -/
def clearSink (l : Logger) (i : Nat) : Logger := { l with sinks := l.sinks.set i [] }

/-- Forgets what was kept. The sinks keep what they have. -/
def clear (l : Logger) : Logger := { l with kept := [] }

theorem count_clear (l : Logger) (s : Severity) : l.clear.count s = 0 := rfl

end Logger

end SemanticCore
