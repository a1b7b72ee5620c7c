import ApiDocs.Comment.Reader
import ApiDocs.FileContent

/-!
# Sources of comments

Comments come from a documentation file, from a text in the same format, or from a program that
holds them already.

## Main definitions

* `CommentSource`: the sources, with their `label` and `load`.
* `CommentError`: why a source gives no comments.
-/

namespace ApiDocs

/-- Why a source gives no comments. -/
inductive CommentError where
  /-- The file has no text. -/
  | unreadable (file : String) (fault : FileFault)
  /-- The text is no documentation file. -/
  | malformed (file : String) (error : ReadError)
deriving DecidableEq, Repr

/-- The text of an error. -/
def CommentError.message : CommentError → String
  | unreadable file fault => "cannot read " ++ file ++ ": " ++ fault.message
  | malformed file error =>
    "malformed documentation XML in " ++ file ++ " at byte " ++ Nat.repr error.position ++ ": " ++
      error.fault.message

/-- Where comments come from. -/
inductive CommentSource where
  /-- A text in the format of documentation files, with a label for messages. -/
  | text (label content : String)
  /-- A file. -/
  | file (name : String) (content : FileContent)
  /-- Comments that are held already. -/
  | memory (comments : Comments)

namespace CommentSource

/-- The name of a source in messages. -/
def label : CommentSource → String
  | text label _ => label
  | file name _ => name
  | memory comments =>
    match comments.assemblyName with
    | some name => "<in-memory docs for " ++ name ++ ">"
    | none => "<in-memory docs>"

/-- The comments in a text with a label. -/
def parse (label content : String) : Except CommentError Comments :=
  (Comments.read content).mapError (.malformed label)

/-- The comments that a source gives. -/
def load : CommentSource → Except CommentError Comments
  | text label content => parse label content
  | file name content => do
    parse name (← content.text.mapError (.unreadable name))
  | memory comments => .ok comments

end CommentSource

end ApiDocs
