import PipelineCanvas.CommandLine.Run
/-! The command line: turns a saved canvas into a pipeline source. This is the only module that
touches the system. It reads all files that the options name before the run begins, so that the run
itself, `product`, is a function of texts, and carries out what comes of it. -/
namespace PipelineCanvas.CommandLine

/-- The cause that the system gives by number. The number may come with its sign turned. -/
def numbered (code : UInt32) (details : String) : FileError :=
  match min code.toNat (-code).toNat with
  | 20 => .notDirectory
  | 21 => .isDirectory
  | 36 => .nameTooLong
  | number => .other s!"{details} (os error {number})"

/-- The cause of a failure of the file system. -/
def fileError : IO.Error → FileError
  | .noFileOrDirectory .. => .notFound
  | .inappropriateType _ code details => numbered code details
  | .invalidArgument _ code details => numbered code details
  | .permissionDenied _ code details => numbered code details
  | .otherError code details => numbered code details
  | e => .other (toString e)

/-- Reads a file. -/
def readPath (path : String) : IO (Except FileError String) := do
  match ← (IO.FS.readBinFile path).toBaseIO with
  | .ok bytes => return decodeText bytes
  | .error e => return .error (fileError e)

/-- Reads the files at the paths, to be looked up by path. -/
def readPaths (paths : List String) : IO FileReader := do
  let contents ← paths.mapM fun path => return (path, ← readPath path)
  return fun path => (contents.lookup path).getD (.error .notFound)

/-- Writes a file. -/
def writePath (path text : String) : IO (Except FileError Unit) := do
  match ← (IO.FS.writeFile path text).toBaseIO with
  | .ok () => return .ok ()
  | .error e => return .error (fileError e)

/-- Runs the command line on the files of the system. -/
def run (args : List String) : IO Report := do
  match Options.ofArguments? args with
  | none => return .usage
  | some o =>
    let read ← readPaths (o.diagram :: o.catalog.toList ++ o.schema.toList)
    match product o read with
    | .error problem => return .failure problem
    | .ok (.source source) => return .printed source
    | .ok (.registration path r) => return .saved path (← writePath path r.toText)

end PipelineCanvas.CommandLine

/-- Writes the source of the canvas that the arguments name. -/
def main (args : List String) : IO UInt32 := do
  let report ← PipelineCanvas.CommandLine.run args
  IO.print report.output
  IO.eprint report.errors
  return report.exitCode.toUInt32
