import DerivedQuery.CommandLine.Run

/-!
# The program

Takes a snapshot of the files that the arguments name, runs the command on it
and writes the outcome.
-/

namespace DerivedQuery

namespace CommandLine

/-- The paths that a command reads. -/
def Command.paths : Command -> List String
  | .tokens _ => []
  | .parse file _ target => file :: target.config.toList
  | .check paths target => paths ++ target.config.toList

/-- Read a file. -/
def snapshotFile (path : String) : IO FileTree := do
  try
    return .file (← IO.FS.readFile path)
  catch _ =>
    return .unreadable

/-- Read an entry of a directory. Links and special files are left out, and so
are entries that cannot be looked into; the others are read all the same. -/
partial def snapshotEntry (entry : IO.FS.DirEntry) : IO (Option (String × FileTree)) := do
  try
    let metadata ← entry.path.symlinkMetadata
    match metadata.type with
    | .file => return some (entry.fileName, ← snapshotFile entry.path.toString)
    | .dir =>
        let entries ← entry.path.readDir
        let trees ← entries.toList.filterMapM snapshotEntry
        return some (entry.fileName, .directory trees)
    | _ => return none
  catch _ =>
    return none

/-- Read what a path leads to. A directory that cannot be listed has nothing in
it. -/
def snapshot (path : String) : IO (Option FileTree) := do
  try
    let real ← IO.FS.realPath path
    if ← real.isDir then
      let entries ← try real.readDir catch _ => pure #[]
      let trees ← entries.toList.filterMapM snapshotEntry
      return some (.directory trees)
    else
      return some (← snapshotFile path)
  catch _ =>
    return none

end CommandLine

end DerivedQuery

open DerivedQuery CommandLine in
/-- Run the program on real files. -/
def main (arguments : List String) : IO UInt32 := do
  let paths :=
    match Command.read arguments with
    | .ok command => command.paths
    | .error _ => []
  let trees ← paths.mapM fun path => return (path, ← snapshot path)
  let outcome := run (fun path => (trees.lookup path).join) arguments
  for notice in outcome.notices do
    IO.eprintln notice.render
  IO.print outcome.output
  return outcome.exitCode.toUInt32
