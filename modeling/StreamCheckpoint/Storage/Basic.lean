import StreamCheckpoint.Storage.Path

/-! Storages, as far as checkpoint state needs them: a file can be removed, and a file that is gone
already is as good as one that was removed. -/

namespace StreamCheckpoint

/-- Why a storage refused. -/
inductive IoError
  /-- The path names a directory. -/
  | isDirectory
  /-- The path goes through a file as if it were a directory. -/
  | notDirectory
  /-- The path has a NUL character in it. -/
  | nulInPath
  /-- The path, or a name in it, is longer than a storage allows. -/
  | nameTooLong
  | other (detail : String)
deriving DecidableEq, Repr

def IoError.message : IoError → String
  | isDirectory => "Is a directory (os error 21)"
  | notDirectory => "Not a directory (os error 20)"
  | nulInPath => "file name contained an unexpected NUL byte"
  | nameTooLong => "File name too long (os error 36)"
  | other detail => detail

/-- What an attempt to remove a file comes to. -/
inductive Removal
  | removed
  | missing
  | failed (e : IoError)
deriving DecidableEq, Repr

/-- Whether a file is gone after an attempt to remove it. -/
def Removal.result : Removal → Except IoError Unit
  | removed => .ok ()
  | missing => .ok ()
  | failed e => .error e

/-- A place where files are. -/
class Storage (σ : Type) where
  /-- Removes the file that a path names. -/
  remove : σ → Path → Removal × σ

end StreamCheckpoint
