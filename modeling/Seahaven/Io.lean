import Seahaven.Text

/-!
# Host errors

`std::io::Error`, either a number the operating system answered or a kind with a message the
program wrote. Only the kinds and numbers that the modelled functions raise or look at are listed.
-/

namespace Seahaven

/-- `std::io::ErrorKind`. -/
inductive ErrorKind
  | notFound
  | permissionDenied
  | alreadyExists
  | notADirectory
  | isADirectory
  | directoryNotEmpty
  | crossesDevices
  | filesystemLoop
  | invalidInput
  | invalidData
  | other
  | uncategorized
  deriving DecidableEq

/-- The operating system's error numbers. -/
inductive Errno
  | noent
  | exist
  | notdir
  | isdir
  | notempty
  | xdev
  | loop
  | inval
  | perm
  | acces
  | nxio
  deriving DecidableEq

/-- The kind the standard library gives an error number. -/
def Errno.kind : Errno → ErrorKind
  | .noent => .notFound
  | .exist => .alreadyExists
  | .notdir => .notADirectory
  | .isdir => .isADirectory
  | .notempty => .directoryNotEmpty
  | .xdev => .crossesDevices
  | .loop => .filesystemLoop
  | .inval => .invalidInput
  | .perm => .permissionDenied
  | .acces => .permissionDenied
  | .nxio => .uncategorized

/-- `std::io::Error`. -/
inductive IoError
  | os (errno : Errno)
  | custom (kind : ErrorKind) (message : OsStr)
  deriving DecidableEq

/-- `std::io::Error::kind`. -/
def IoError.kind : IoError → ErrorKind
  | .os errno => errno.kind
  | .custom kind _ => kind

@[simp] theorem IoError.kind_os (e : Errno) : (IoError.os e).kind = e.kind := rfl

@[simp] theorem IoError.kind_custom (k : ErrorKind) (m : OsStr) : (IoError.custom k m).kind = k :=
  rfl

/-- The operating system's text for an error number, and the number. -/
def Errno.text : Errno → OsStr × OsStr
  | .noent => (Seahaven.os "No such file or directory", Seahaven.os "2")
  | .exist => (Seahaven.os "File exists", Seahaven.os "17")
  | .notdir => (Seahaven.os "Not a directory", Seahaven.os "20")
  | .isdir => (Seahaven.os "Is a directory", Seahaven.os "21")
  | .notempty => (Seahaven.os "Directory not empty", Seahaven.os "39")
  | .xdev => (Seahaven.os "Invalid cross-device link", Seahaven.os "18")
  | .loop => (Seahaven.os "Too many levels of symbolic links", Seahaven.os "40")
  | .inval => (Seahaven.os "Invalid argument", Seahaven.os "22")
  | .perm => (Seahaven.os "Operation not permitted", Seahaven.os "1")
  | .acces => (Seahaven.os "Permission denied", Seahaven.os "13")
  | .nxio => (Seahaven.os "No such device or address", Seahaven.os "6")

/-- `std::io::Error::to_string`. -/
def IoError.toStr : IoError → OsStr
  | .os errno => errno.text.1 ++ Seahaven.os " (os error " ++ errno.text.2 ++ Seahaven.os ")"
  | .custom _ message => message

end Seahaven
