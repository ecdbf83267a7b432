import Scaffold.Text.Basic

/-!
# Causes of failed file operations

What the file system can answer instead of doing what it was asked, with the wording and number
that Linux gives each answer.
-/

namespace Scaffold

/-- Why a file operation failed. -/
inductive Cause where
  | noSuchFile
  | fileExists
  | notADirectory
  | isADirectory
  | directoryNotEmpty
  | tooManyLinks
  | permissionDenied
  /-- The place is a mount point, or a directory under a name that stands for another. -/
  | busy
  /-- A name or a whole path has too many bytes. -/
  | nameTooLong
  /-- A path holds the character NUL, which ends a path where the system reads it. -/
  | nulInPath
  /-- The bytes of a file are no UTF-8 text. -/
  | invalidText
  /-- Any other answer, with its wording. -/
  | other (message : Text)
  deriving DecidableEq, Repr

/-- The wording of a cause. -/
def Cause.message : Cause → Text
  | noSuchFile => "No such file or directory (os error 2)".toList
  | fileExists => "File exists (os error 17)".toList
  | notADirectory => "Not a directory (os error 20)".toList
  | isADirectory => "Is a directory (os error 21)".toList
  | directoryNotEmpty => "Directory not empty (os error 39)".toList
  | tooManyLinks => "Too many levels of symbolic links (os error 40)".toList
  | permissionDenied => "Permission denied (os error 13)".toList
  | busy => "Device or resource busy (os error 16)".toList
  | nameTooLong => "File name too long (os error 36)".toList
  | nulInPath => "file name contained an unexpected NUL byte".toList
  | invalidText => "stream did not contain valid UTF-8".toList
  | other message => message

end Scaffold
