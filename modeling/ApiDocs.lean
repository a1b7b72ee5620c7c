import ApiDocs.Decl.Assemble
import ApiDocs.Reference.Build
import ApiDocs.Snapshot.Basic
import ApiDocs.Proofs.Lists
import ApiDocs.Proofs.Text.ByteOrder
import ApiDocs.Proofs.Text.Layout
import ApiDocs.Proofs.Json.Printing
import ApiDocs.Proofs.Snapshot.RoundTrip
import ApiDocs.Proofs.Snapshot.Rewriting
import ApiDocs.Proofs.Markup.Tree
import ApiDocs.Proofs.Markup.Content
import ApiDocs.Proofs.Markup.TagPairs
import ApiDocs.Proofs.Markup.Escape
import ApiDocs.Proofs.Comment.Collection
import ApiDocs.Proofs.Comment.History
import ApiDocs.Proofs.Comment.Sections
import ApiDocs.Proofs.Comment.Reading
import ApiDocs.Proofs.Comment.EmptyElements
import ApiDocs.Proofs.Comment.Rendering
import ApiDocs.Proofs.Decl.Consistency
import ApiDocs.Proofs.Entry.Validation
import ApiDocs.Proofs.Entry.Selection
import ApiDocs.Proofs.Entry.Enclosing
import ApiDocs.Proofs.Entry.Building
import ApiDocs.Proofs.Entry.Listing
import ApiDocs.Proofs.Entry.Overloads
import ApiDocs.Proofs.Entry.Namespaces
import ApiDocs.Proofs.Entry.Renaming
import ApiDocs.Proofs.Reference.Lookup
import ApiDocs.Proofs.Reference.Binding
import ApiDocs.Proofs.Reference.Passes
import ApiDocs.Proofs.Reference.Content
import ApiDocs.Proofs.Reference.Inheritance
import ApiDocs.Proofs.Reference.BaseDepth
import ApiDocs.Proofs.Reference.Sweep
import ApiDocs.Proofs.Reference.Renaming
import ApiDocs.Proofs.Reference.Isolation
import ApiDocs.Proofs.Reference.Integrity
import ApiDocs.Proofs.DocId.Names
import ApiDocs.Proofs.DocId.Types
import ApiDocs.Proofs.DocId.Members
import ApiDocs.Proofs.DocId.Arguments
import ApiDocs.Proofs.Entry.Nesting
import ApiDocs.Proofs.Reference.Namespaces
import ApiDocs.Proofs.Reference.Extensions
import ApiDocs.Proofs.Entry.Switches
import ApiDocs.Proofs.Entry.Reordering
import ApiDocs.Proofs.Reference.Chains
import ApiDocs.Proofs.Reference.StandIns
import ApiDocs.Proofs.Reference.Switches
import ApiDocs.Proofs.Reference.Accounting
import ApiDocs.Proofs.Reference.Skipping
import ApiDocs.Proofs.Entry.Unbound
import ApiDocs.Proofs.Entry.Matching
import ApiDocs.Proofs.Reference.Matching
import ApiDocs.Proofs.Entry.Filtering
import ApiDocs.Proofs.Reference.Filtering
import ApiDocs.Proofs.Reference.Overloads
import ApiDocs.Proofs.Reference.Provenance
import ApiDocs.Proofs.Reference.Queries
import ApiDocs.Proofs.Reference.Annotations
import ApiDocs.Proofs.Reference.InPlace
