import LayeredConfig.CommandLine.Run

namespace LayeredConfig.CommandLine

/-- The names on the way to an absolute place. -/
def namesOf (path : String) : List String :=
  ((pieces '/' path.toList).filter (· ≠ [])).map String.ofList

def bodyOf (bytes : ByteArray) : Body :=
  match String.fromUTF8? bytes with
  | some s => .text s
  | none => .bytes bytes.toList

/-- Adds an entry of the system, and everything below it. Links and what cannot
be read are left out. -/
partial def gather (files : FileTree) (entry : IO.FS.DirEntry) : IO FileTree := do
  let names := namesOf entry.path.toString
  let adding (e : Entry) : FileTree := { files with entries := (names, e) :: files.entries }
  try
    match (← entry.path.symlinkMetadata).type with
    | .dir => (← entry.path.readDir).foldlM gather (adding .directory)
    | .file => return adding (.file (bodyOf (← IO.FS.readBinFile entry.path)))
    | _ => return files
  catch _ => return files

/-- Adds a directory of the system with everything below it, and the directories
above it. -/
def gatherBelow (files : FileTree) (place : Location) : IO FileTree := do
  let names := namesOf place.text
  let dir := (← IO.currentDir) / place.text
  if names ≠ [] && (files.entry? names).isNone && (← dir.isDir) then
    let missing := ((List.range names.length).map (names.take ·)).filter (files.entry? · |>.isNone)
    let above := missing.map fun names => (names, Entry.directory)
    (← dir.readDir).foldlM gather { files with entries := (names, .directory) :: above ++ files.entries }
  else return files

/-- The time of the system: that of a file made now. -/
def clock : IO Instant := do
  let (_, file) ← IO.FS.createTempFile
  let time := (← file.metadata).modified
  IO.FS.removeFile file
  return ⟨time.sec, time.nsec.toNat⟩

/-- Makes the system's files those after a run. -/
def commit (before after : FileTree) : IO Unit := do
  for (names, entry) in after.entries do
    if before.entry? names ≠ some entry then
      let path := "/" ++ "/".intercalate names
      match entry with
      | .directory => IO.FS.createDirAll path
      | .file (.text s) => IO.FS.writeFile path s
      | .file (.bytes bytes) => IO.FS.writeBinFile path ⟨bytes.toArray⟩
  for (names, _) in before.entries do
    if (after.entry? names).isNone then IO.FS.removeFile ("/" ++ "/".intercalate names)

/-- Runs the program on the files of the system. -/
def onSystem (args : List String) : IO UInt32 := do
  let here : Location := ⟨(← IO.currentDir).toString⟩
  let ground ← gatherBelow ⟨[], namesOf here.text⟩ here
  let files ← match Command.ofArguments? args with
    | some command => (command.outlook ground).foldlM gatherBelow ground
    | none => pure ground
  let (after, reply) := runArguments (← clock) files args
  commit files after
  IO.print reply.output
  IO.eprint reply.complaint
  return reply.code.toUInt32

end LayeredConfig.CommandLine

def main (args : List String) : IO UInt32 :=
  LayeredConfig.CommandLine.onSystem args
