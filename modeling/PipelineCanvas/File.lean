/-! Files that hold text, as programs see them: a `FileReader` gives the text of the file at a path,
or the `FileError` that says why there is none. The causes that a program tells apart have their own
names, with the words that the system has for them; the others keep what the system says. -/
namespace PipelineCanvas

/-- Why a file cannot be read or written. -/
inductive FileError where
  | notFound
  | notDirectory
  | isDirectory
  | nameTooLong
  /-- The bytes of the file are not UTF-8. -/
  | notText
  /-- Another cause, in the words of the system. -/
  | other (message : String)
deriving DecidableEq

def FileError.message : FileError → String
  | .notFound => "No such file or directory (os error 2)"
  | .notDirectory => "Not a directory (os error 20)"
  | .isDirectory => "Is a directory (os error 21)"
  | .nameTooLong => "File name too long (os error 36)"
  | .notText => "stream did not contain valid UTF-8"
  | .other message => message

/-- What reading the file at a path gives. -/
abbrev FileReader := String → Except FileError String

/-- The text that the bytes of a file encode. -/
def decodeText (bytes : ByteArray) : Except FileError String :=
  match String.fromUTF8? bytes with
  | some text => return text
  | none => throw .notText

end PipelineCanvas
