import DocModelLexer.Path

namespace DocModelLexer

inductive FileError.Cause where
  | missing
  | notDirectory
  | isDirectory
  | nameTooLong
  | other (number : Nat) (reason : String)
  deriving DecidableEq, Repr, Inhabited

inductive FileError where
  | refused (cause : FileError.Cause) (path : Path)
  | nullCharacter
  deriving DecidableEq, Repr, Inhabited

namespace FileError

def Cause.number : Cause → Nat
  | .missing => 2
  | .notDirectory => 20
  | .isDirectory => 21
  | .nameTooLong => 36
  | .other number _ => number

def Cause.reason : Cause → String
  | .missing => "No such file or directory"
  | .notDirectory => "Not a directory"
  | .isDirectory => "Is a directory"
  | .nameTooLong => "File name too long"
  | .other _ reason => reason

def message : FileError → String
  | .refused cause path => s!"[Errno {cause.number}] {cause.reason}: {path.quoted}"
  | .nullCharacter => "embedded null byte"

def isRefusal : FileError → Bool
  | .refused .. => true
  | .nullCharacter => false

end FileError

end DocModelLexer
