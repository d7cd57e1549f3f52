import Stylesheet.Text.UTF8

/-!
# Sources

A source has a name, which problems are reported under, and a text. A text comes from characters or
from bytes; a stream may also fail to give its text, and a file may be out of reach.
-/

namespace Stylesheet

structure SourceText where
  name : String
  text : String
deriving DecidableEq, Repr, Inhabited

namespace SourceText

/-- The text of bytes; what is no UTF-8 becomes U+FFFD. -/
def ofBytes (name : String) (bytes : List Nat) : SourceText := ⟨name, UTF8.decodeLossy bytes⟩

end SourceText

/-- Why a stream gave no text: with a message, or without one. -/
inductive StreamFailure where
  | message (text : String)
  | unexplained
deriving DecidableEq, Repr

namespace StreamFailure

def toText : StreamFailure → String
  | .message text => text
  | .unexplained => "unknown panic"

end StreamFailure

/-- A named text that may turn out not to be readable. -/
structure Stream where
  name : String
  text : Except StreamFailure String

namespace Stream

def ofSource (s : SourceText) : Stream := ⟨s.name, .ok s.text⟩

end Stream

/-- A file that could not be read: its path, and what the system says. -/
structure FileError where
  path : String
  reason : String
deriving DecidableEq, Repr

namespace FileError

/-- The words of the system for a path at which there is no file. -/
def noSuchFile (path : String) : FileError := ⟨path, "No such file or directory (os error 2)"⟩

def message (e : FileError) : String :=
  "Failed to read stylesheet '" ++ e.path ++ "': " ++ e.reason

end FileError

end Stylesheet
