import ShaderForge.Files.Path

/-!
# ShaderForge.Files.Error

Why an operation on files fails.

* `FileCause` — the cause, with its wording.
* `FileError` — the operation, what it was applied to, and the cause.
-/

namespace ShaderForge

inductive FileCause where
  | notFound
  | absent
  | exists
  | notDirectory
  | isDirectory
  | tooManyLinks
  | nameTooLong
  | invalidArgument
  | permissionDenied
  | patternHasSeparator
  | notEmpty
  deriving DecidableEq, Repr, Inhabited

def FileCause.text : FileCause → Bytes
  | .notFound => "no such file or directory"
  | .absent => "file does not exist"
  | .exists => "file exists"
  | .notDirectory => "not a directory"
  | .isDirectory => "is a directory"
  | .tooManyLinks => "too many levels of symbolic links"
  | .nameTooLong => "file name too long"
  | .invalidArgument => "invalid argument"
  | .permissionDenied => "permission denied"
  | .patternHasSeparator => "pattern contains path separator"
  | .notEmpty => "directory not empty"

def FileCause.isMissing : FileCause → Bool
  | .notFound | .absent => true
  | _ => false

structure FileError where
  action : Bytes
  subject : Path
  cause : FileCause
  deriving DecidableEq, Repr, Inhabited

def FileError.message (e : FileError) : Bytes :=
  e.action ++ " " ++ e.subject ++ ": " ++ e.cause.text

end ShaderForge
