import ApiDocs.Comment.Basic

/-!
# Diagnostics

While a reference is built, what could not be used is reported: assemblies that could not be bound,
comments that belong to no declaration, and documentation files that could not be read.

## Main definitions

* `Diagnostic`: the reports, with their `code`, `severity` and `message`.
* `Diagnostic.errorCount`: the number of errors among reports.
-/

namespace ApiDocs

/-- How serious a report is. -/
inductive Severity where
  /-- Something is missing from the reference. -/
  | error
  /-- Comments are missing from the reference. -/
  | warning
  /-- Nothing is missing that could be shown. -/
  | info
deriving DecidableEq, Repr

/-- The written form of a severity. -/
def Severity.word : Severity → String
  | error => "error"
  | warning => "warning"
  | info => "info"

/-- A report on the building of a reference. -/
inductive Diagnostic where
  /-- An assembly could not be bound. -/
  | bindingFailure (assembly error : String)
  /-- Comments on types and members of an assembly belong to no declaration. -/
  | unboundEntries (assembly : String) (types members : List Comment)
  /-- A documentation file could not be read, of an assembly or with comments on namespaces. -/
  | docFileSkipped (assembly : Option String) (file error : String)
deriving DecidableEq, Repr

namespace Diagnostic

/-- The code that a report is known by. -/
def code : Diagnostic → String
  | bindingFailure _ _ => "D0001"
  | unboundEntries _ _ _ => "D0002"
  | docFileSkipped _ _ _ => "D0003"

/-- How serious a report is. -/
def severity : Diagnostic → Severity
  | bindingFailure _ _ => .error
  | unboundEntries _ _ _ => .info
  | docFileSkipped _ _ _ => .warning

/-- The assembly that a report is about. -/
def assembly? : Diagnostic → Option String
  | bindingFailure assembly _ => some assembly
  | unboundEntries assembly _ _ => some assembly
  | docFileSkipped assembly _ _ => assembly

/-- What a report says. -/
def body : Diagnostic → String
  | bindingFailure assembly error => "assembly " ++ assembly ++ " skipped: " ++ error
  | unboundEntries assembly types members =>
    assembly ++ ": " ++ Nat.repr types.length ++ " type and " ++ Nat.repr members.length ++
      " member doc entries match nothing"
  | docFileSkipped (some assembly) file error =>
    assembly ++ ": documentation file " ++ file ++ " skipped: " ++ error
  | docFileSkipped none file error =>
    "namespace documentation file " ++ file ++ " skipped: " ++ error

/-- The text of a report. -/
def message (d : Diagnostic) : String :=
  "[" ++ d.code ++ "] " ++ d.body

/-- The number of errors among reports. -/
def errorCount (ds : List Diagnostic) : Nat :=
  ds.countP fun d ↦ d.severity == .error

end Diagnostic

end ApiDocs
