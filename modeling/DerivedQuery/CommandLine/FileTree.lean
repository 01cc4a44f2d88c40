/-!
# Files and directories

The inputs of a command are files, named one by one or found below a directory.
Files below a directory are taken in the order of their paths, compared
component by component.
-/

namespace DerivedQuery

namespace CommandLine

/-- What a path leads to. -/
inductive FileTree
  | file (text : String)
  /-- A file whose text cannot be read. -/
  | unreadable
  | directory (entries : List (String × FileTree))
  deriving Inhabited, Repr

/-- What each path leads to, if it leads anywhere. -/
abbrev FileSystem : Type := String -> Option FileTree

namespace FileTree

/-- The text of a file that can be read. -/
def text? : FileTree -> Option String
  | .file text => some text
  | .unreadable | .directory _ => none

/-- Follow the components of a path. `above` are the directories passed, the
nearest first. -/
def follow (above : List FileTree) (tree : FileTree) : List String -> Option FileTree
  | [] => some tree
  | component :: rest =>
      match tree with
      | .file _ | .unreadable => none
      | .directory entries =>
          if component = "" || component = "." then
            follow above tree rest
          else if component = ".." then
            match above with
            | [] => none
            | parent :: others => follow others parent rest
          else
            match entries.lookup component with
            | none => none
            | some entry => follow (tree :: above) entry rest

/-- What a path leads to, taken from a working directory. A path that leaves
the directory leads nowhere. -/
def find? (working : FileTree) (path : String) : Option FileTree :=
  if path.isEmpty || path.startsWith "/" then
    none
  else
    follow [] working (path.splitOn "/")

/-- Whether the extension of a file name is `json`. A name that is nothing but
an extension has none. -/
def hasJsonExtension (name : String) : Bool :=
  name.endsWith ".json" && name != ".json"

mutual

/-- The JSON files of an entry and below it, each with its path. -/
def documents (name : String) : FileTree -> List (List String × FileTree)
  | .file text => if hasJsonExtension name then [([name], .file text)] else []
  | .unreadable => if hasJsonExtension name then [([name], .unreadable)] else []
  | .directory entries =>
      (documentsBelow entries).map fun found => (name :: found.1, found.2)
termination_by structural tree => tree

/-- The JSON files below a directory, each with its path. -/
def documentsBelow : List (String × FileTree) -> List (List String × FileTree)
  | [] => []
  | (name, tree) :: rest => documents name tree ++ documentsBelow rest
termination_by structural entries => entries

end

/-- Whether a path does not come behind another one. -/
def pathLE : List String -> List String -> Bool
  | [], _ => true
  | _ :: _, [] => false
  | left :: leftRest, right :: rightRest =>
      if left = right then pathLE leftRest rightRest else decide (left < right)

/-- The JSON files below a directory in the order of their paths. -/
def sortedDocuments (entries : List (String × FileTree)) : List (List String × FileTree) :=
  (documentsBelow entries).mergeSort fun left right => pathLE left.1 right.1

end FileTree

/-- A file that a command reads. -/
structure Input where
  /-- The path, as it is shown. -/
  path : String
  /-- What the path leads to. -/
  tree : Option FileTree

namespace Input

/-- The path of a file below a directory. -/
def below (directory : String) (components : List String) : String :=
  (if directory.endsWith "/" then directory else directory ++ "/") ++
    "/".intercalate components

/-- The files that a path stands for: itself, unless it is a directory. -/
def ofPath (files : FileSystem) (path : String) : List Input :=
  match files path with
  | some (.directory entries) =>
      (FileTree.sortedDocuments entries).map fun found => ⟨below path found.1, some found.2⟩
  | tree => [⟨path, tree⟩]

/-- The files that some paths stand for. -/
def ofPaths (files : FileSystem) (paths : List String) : List Input :=
  paths.flatMap (ofPath files)

/-- The text of an input. -/
def text? (input : Input) : Option String :=
  input.tree.bind FileTree.text?

end Input

end CommandLine

end DerivedQuery
