/-!
# Contents of files

What a reader finds where a file should be.

## Main definitions

* `FileContent`: no file, or a file's bytes.
* `FileContent.text`: the content as text, or why there is none.
-/

namespace ApiDocs

/-- What is found under a file's name. -/
inductive FileContent where
  /-- There is no such file. -/
  | missing
  /-- The bytes of the file. -/
  | bytes (data : ByteArray)

/-- Why a file has no text. -/
inductive FileFault where
  /-- There is no such file. -/
  | missing
  /-- The bytes are not UTF-8. -/
  | notText
deriving DecidableEq, Repr

/-- The text of a fault. -/
def FileFault.message : FileFault → String
  | missing => "No such file or directory (os error 2)"
  | notText => "stream did not contain valid UTF-8"

namespace FileContent

/-- The content of a file with a text. -/
def ofText (text : String) : FileContent :=
  bytes text.toUTF8

/-- The text of a file. -/
def text : FileContent → Except FileFault String
  | missing => .error .missing
  | bytes data =>
    match String.fromUTF8? data with
    | some text => .ok text
    | none => .error .notText

end FileContent

end ApiDocs
