import ApiDocs.Comment.Source
import ApiDocs.Reference.Basic
import ApiDocs.Reference.Extension
import ApiDocs.Reference.Inheritance
import ApiDocs.Reference.Namespace

/-!
# Building references

Every input is bound on its own. An input that cannot be bound is reported and leaves a gap in the
numbering of assemblies; a documentation file that cannot be read is reported and counts as empty.
What depends on several assemblies is done afterwards: comments are inherited, members that are
still undocumented are left out, extensions are attached, overloads are numbered and namespaces are
merged.

## Main definitions

* `AssemblyInput`: an assembly with the source of its comments.
* `BuildError`: why no reference is built.
* `Binding`, `AssemblyInput.bind`: an input on its own.
* `Reference.build`: the reference of a list of inputs.
-/

namespace ApiDocs

/-- An assembly with the source of its comments. -/
structure AssemblyInput where
  /-- Where the declarations come from. -/
  source : AssemblySource
  /-- Where the comments come from, if there are any. -/
  comments : Option CommentSource := none

/-- Why no reference is built. -/
inductive BuildError where
  /-- There are no inputs. -/
  | noAssemblies
  /-- An assembly has no name. -/
  | unnamedAssembly
  /-- Two assemblies have the same name. -/
  | repeatedAssembly (name : String)
  /-- A list of assemblies and a list of documentation files have different lengths. -/
  | unevenLists (assemblies files : Nat)
deriving DecidableEq, Repr

/-- What an error says. -/
def BuildError.body : BuildError → String
  | noAssemblies => "no assemblies to document"
  | unnamedAssembly => "assembly with an empty name"
  | repeatedAssembly name => "assembly " ++ name ++ " listed twice"
  | unevenLists assemblies files =>
    Nat.repr assemblies ++ " assemblies but " ++ Nat.repr files ++ " documentation files"

/-- The text of an error. -/
def BuildError.message (e : BuildError) : String :=
  "invalid argument: " ++ e.body

/-- What comes of an input on its own. -/
structure Binding where
  /-- The comments that were loaded; none if there is no source or it gives none. -/
  comments : Comments
  /-- The assembly, if it was bound. -/
  entry : Option AssemblyEntry
  /-- What was found out. -/
  diagnostics : List Diagnostic

/-- The comments of a source, and the report if it gives none. -/
def CommentSource.loadOrSkip (assembly : Option String) (s : CommentSource) :
    Option Comments × List Diagnostic :=
  match s.load with
  | .ok comments => (some comments, [])
  | .error e => (none, [.docFileSkipped assembly s.label e.message])

/-- The comments of a source that may be missing, and the report if it gives none. -/
def CommentSource.loadAny (assembly : Option String) (s : Option CommentSource) :
    Option Comments × List Diagnostic :=
  match s with
  | none => (none, [])
  | some s => s.loadOrSkip assembly

/-- Binds an input on its own, as the assembly with the given identifier. -/
def AssemblyInput.bind (inclusion : Inclusion) (filter : MemberFilter) (id : AssemblyId)
    (input : AssemblyInput) : Binding :=
  let name := input.source.name
  let loaded := CommentSource.loadAny (some name) input.comments
  let comments := loaded.1.getD .empty
  match AssemblyEntry.build inclusion filter id input.source comments with
  | .ok entry => ⟨comments, some entry, loaded.2 ++ entry.diagnostics⟩
  | .error e => ⟨comments, none, loaded.2 ++ [.bindingFailure name e.message]⟩

/-- Pairs assemblies with documentation files, one for each. -/
def AssemblyInput.ofLists (sources : List AssemblySource) (files : List CommentSource) :
    Except BuildError (List AssemblyInput) :=
  if sources.length = files.length then
    .ok (sources.zipWith (fun source file ↦ ⟨source, some file⟩) files)
  else
    .error (.unevenLists sources.length files.length)

namespace Reference

/-- Checks the names of assemblies, given those before them. -/
def checkNames (seen : List String) : List AssemblyInput → Except BuildError Unit
  | [] => .ok ()
  | input :: inputs =>
    let name := input.source.name
    if name.isEmpty then .error .unnamedAssembly
    else if seen.contains name then .error (.repeatedAssembly name)
    else checkNames (name :: seen) inputs

/-- Checks that there are assemblies and that their names are distinct and not empty. -/
def checkInputs (inputs : List AssemblyInput) : Except BuildError Unit :=
  if inputs.isEmpty then .error .noAssemblies else checkNames [] inputs

/-- Binds every input on its own; an assembly's number is its place in the list. -/
def bindAll (inclusion : Inclusion) (filter : MemberFilter) (inputs : List AssemblyInput) :
    List Binding :=
  inputs.zipIdx.map fun (input, i) ↦ input.bind inclusion filter (.ofNat i)

/-- The assemblies that were bound, each with its comments. -/
def boundEntries (bindings : List Binding) : List (AssemblyEntry × Comments) :=
  bindings.filterMap fun b ↦ b.entry.map fun entry ↦ (entry, b.comments)

/-- Does what depends on several assemblies: comments are inherited, undocumented members left out
if the switches say so, extensions attached and overloads numbered. -/
def complete (inclusion : Inclusion) (index : TypeIndex) (files : List Comments)
    (as : List AssemblyEntry) : List AssemblyEntry :=
  let as := Inheritance.propagate index files as
  let as := if inclusion.undocumentedMembers then as else Inheritance.dropUndocumented as
  let as := Extension.attach index as
  Assemblies.mapTypes TypeEntry.numberOverloads as

/-- The reference of a list of inputs, given the source of comments on namespaces. -/
def build (inclusion : Inclusion) (filter : MemberFilter) (inputs : List AssemblyInput)
    (namespaceComments : Option CommentSource) : Except BuildError Reference := do
  checkInputs inputs
  let bindings := bindAll inclusion filter inputs
  let bound := boundEntries bindings
  let loaded := CommentSource.loadAny none namespaceComments
  let index := TypeIndex.ofAssemblies (bound.map Prod.fst)
  let assemblies := complete inclusion index (bound.map Prod.snd) (bound.map Prod.fst)
  return {
    assemblies, index
    namespaces := NamespaceEntry.merge assemblies loaded.1
    types := (Assemblies.types assemblies).map TypeEntry.id
    diagnostics := bindings.flatMap Binding.diagnostics ++ loaded.2 }

end Reference

end ApiDocs
