import Scaffold.Text.Basic

/-!
# Refusals of the file system

What can go wrong with a path or with the node it leads to. The texts and the
numbers are those of the POSIX errors; the last two have no number, because
they are found before or after the system is asked.
-/

namespace Scaffold

/-- Why the file system refuses. -/
inductive IoError where
  /-- Nothing stands there, or a directory on the way is missing. -/
  | notFound
  /-- Something stands there already. -/
  | alreadyExists
  /-- A step leads through something that is no directory. -/
  | notADirectory
  /-- A directory stands where a file is needed. -/
  | isADirectory
  /-- A name is longer than 255 bytes, or a path is longer than 4095 bytes. -/
  | invalidFilename
  /-- A directory that is to be taken away holds something. -/
  | directoryNotEmpty
  /-- What is to be taken away is in use. -/
  | resourceBusy
  /-- What is to be taken away is named by a dot. -/
  | invalidArgument
  /-- The path leads through more than forty links. -/
  | filesystemLoop
  /-- The path holds a NUL character. -/
  | invalidInput
  /-- The content is no text. -/
  | invalidData
  deriving DecidableEq, Repr

namespace IoError

/-- The wording of a refusal. -/
def message : IoError → Text
  | notFound => "No such file or directory (os error 2)".toList
  | alreadyExists => "File exists (os error 17)".toList
  | notADirectory => "Not a directory (os error 20)".toList
  | isADirectory => "Is a directory (os error 21)".toList
  | invalidFilename => "File name too long (os error 36)".toList
  | directoryNotEmpty => "Directory not empty (os error 39)".toList
  | resourceBusy => "Device or resource busy (os error 16)".toList
  | invalidArgument => "Invalid argument (os error 22)".toList
  | filesystemLoop => "Too many levels of symbolic links (os error 40)".toList
  | invalidInput => "file name contained an unexpected NUL byte".toList
  | invalidData => "stream did not contain valid UTF-8".toList

end IoError

end Scaffold
