import DerivedQuery.CommandLine.FileTree
import Mathlib.Data.List.Forall2
import Mathlib.Data.List.Lex
import Mathlib.Data.List.Nodup
import Mathlib.Data.String.Basic

/-!
# The files below a directory

A path argument stands for itself unless it is a directory, and a directory for
the JSON files below it. These come in the order of their paths, which are
compared component by component: `a/z.json` stands in front of `a-b.json`,
although `-` stands in front of `/`. The order in which a directory lists its
entries makes no difference.
-/

namespace DerivedQuery
namespace CommandLine

/-- What stands behind the last point of a file name is its extension, if
something stands in front of that point. -/
def HasExtension (name extension : String) : Prop :=
  ∃ stem, stem ≠ "" ∧ name = stem ++ "." ++ extension ∧ '.' ∉ extension.toList

theorem endsWith_iff
    {text ending : String} :
    text.endsWith ending ↔ ∃ front, text = front ++ ending := by
  rw [String.endsWith_eq_endsWith_toSlice, String.Slice.endsWith_string_iff, String.copy_toSlice]
  constructor
  · rintro ⟨front, text_eq⟩
    refine ⟨String.ofList front, ?_⟩
    rw [← String.toList_inj, String.toList_append, String.toList_ofList, text_eq]
  · rintro ⟨front, rfl⟩
    exact ⟨front.toList, String.toList_append.symm⟩

namespace FileTree

theorem hasJsonExtension_iff
    {name : String} :
    hasJsonExtension name ↔ HasExtension name "json" := by
  have joined (stem : String) : stem ++ "." ++ "json" = stem ++ ".json" := by
    rw [String.append_assoc]
    rfl
  simp only [hasJsonExtension, HasExtension, Bool.and_eq_true, endsWith_iff, bne_iff_ne, joined]
  constructor
  · rintro ⟨⟨stem, rfl⟩, more⟩
    refine ⟨stem, ?_, rfl, by decide⟩
    rintro rfl
    exact more rfl
  · rintro ⟨stem, nonempty, rfl, -⟩
    refine ⟨⟨stem, rfl⟩, ?_⟩
    intro same
    rw [← String.toList_inj, String.toList_append, List.append_left_eq_self] at same
    exact nonempty (String.toList_eq_nil_iff.mp same)

/-! ## Paths below a directory -/

/-- A path leads from the entries of a directory to what stands at its end. -/
inductive Leads : List (String × FileTree) -> List String -> FileTree -> Prop
  | entry
      {entries : List (String × FileTree)}
      {name : String}
      {tree : FileTree}
      (member : (name, tree) ∈ entries) :
      Leads entries [name] tree
  | into
      {entries inner : List (String × FileTree)}
      {name : String}
      {path : List String}
      {tree : FileTree}
      (member : (name, .directory inner) ∈ entries)
      (further : Leads inner path tree) :
      Leads entries (name :: path) tree

/-- A file, whether its text can be read or not. -/
def IsFile : FileTree -> Prop
  | .file _ | .unreadable => True
  | .directory _ => False

/-- A path below a directory that leads to a file whose name has the extension
`json`. -/
structure Document (entries : List (String × FileTree)) (path : List String) (tree : FileTree) :
    Prop where
  leads : Leads entries path tree
  isFile : tree.IsFile
  extension : ∃ name ∈ path.getLast?, HasExtension name "json"

/-- Entries of a directory with different names, none of them empty or with a
slash in it, and the same in the directories below. -/
inductive Proper : List (String × FileTree) -> Prop
  | intro
      {entries : List (String × FileTree)}
      (distinct : (entries.map Prod.fst).Nodup)
      (named : ∀ entry ∈ entries, entry.1 ≠ "" ∧ '/' ∉ entry.1.toList)
      (below : ∀ name inner, (name, .directory inner) ∈ entries -> Proper inner) :
      Proper entries

theorem Leads.ne_nil
    {entries : List (String × FileTree)}
    {path : List String}
    {tree : FileTree}
    (leads : Leads entries path tree) :
    path ≠ [] := by
  cases leads <;> exact List.cons_ne_nil _ _

/-- Every component of a path is the name of an entry. -/
theorem Leads.named
    {entries : List (String × FileTree)}
    {path : List String}
    {tree : FileTree}
    (leads : Leads entries path tree)
    (proper : Proper entries) :
    ∀ name ∈ path, name ≠ "" ∧ '/' ∉ name.toList := by
  induction leads with
  | entry member =>
      obtain ⟨-, named, -⟩ := proper
      exact List.forall_mem_singleton.mpr (named _ member)
  | into member further hypothesis =>
      obtain ⟨-, named, below⟩ := proper
      exact List.forall_mem_cons.mpr ⟨named _ member, hypothesis (below _ _ member)⟩

/-! ## The documents that are listed -/

theorem documentsBelow_eq_flatMap
    (entries : List (String × FileTree)) :
    documentsBelow entries = entries.flatMap fun entry => documents entry.1 entry.2 := by
  induction entries with
  | nil => rfl
  | cons entry rest hypothesis =>
      obtain ⟨name, tree⟩ := entry
      rw [documentsBelow, hypothesis, List.flatMap_cons]

/-- An entry is a document itself or has documents below it. -/
theorem mem_documents_iff
    {name : String}
    {tree : FileTree}
    {found : List String × FileTree} :
    found ∈ documents name tree ↔
      (found = ([name], tree) ∧ tree.IsFile ∧ HasExtension name "json") ∨
        ∃ inner, tree = .directory inner ∧
          ∃ deeper ∈ documentsBelow inner, found = (name :: deeper.1, deeper.2) := by
  rw [← hasJsonExtension_iff]
  cases tree with
  | file text => by_cases json : hasJsonExtension name <;> simp [documents, IsFile, json]
  | unreadable => by_cases json : hasJsonExtension name <;> simp [documents, IsFile, json]
  | directory entries =>
      rw [documents, List.mem_map]
      constructor
      · rintro ⟨deeper, member, rfl⟩
        exact .inr ⟨entries, rfl, deeper, member, rfl⟩
      · rintro (⟨-, impossible, -⟩ | ⟨_, ⟨⟩, deeper, member, rfl⟩)
        · exact impossible.elim
        · exact ⟨deeper, member, rfl⟩

theorem head?_of_mem_documents
    {name : String}
    {tree : FileTree}
    {path : List String}
    (member : path ∈ (documents name tree).map Prod.fst) :
    path.head? = some name := by
  obtain ⟨found, foundMember, rfl⟩ := List.mem_map.mp member
  rcases mem_documents_iff.mp foundMember with ⟨rfl, -, -⟩ | ⟨inner, -, deeper, -, rfl⟩
  · rfl
  · rfl

/-- The paths that are listed are those of the documents. -/
theorem mem_documentsBelow_iff
    {entries : List (String × FileTree)}
    {path : List String}
    {tree : FileTree} :
    (path, tree) ∈ documentsBelow entries ↔ Document entries path tree := by
  constructor
  · intro member
    induction path generalizing entries with
    | nil =>
        rw [documentsBelow_eq_flatMap, List.mem_flatMap] at member
        obtain ⟨entry, -, found⟩ := member
        cases head?_of_mem_documents (List.mem_map_of_mem found)
    | cons name rest hypothesis =>
        rw [documentsBelow_eq_flatMap, List.mem_flatMap] at member
        obtain ⟨⟨_, entry⟩, entryMember, found⟩ := member
        rcases mem_documents_iff.mp found with
          ⟨⟨⟩, isFile, json⟩ | ⟨inner, rfl, deeper, deeperMember, ⟨⟩⟩
        · exact ⟨.entry entryMember, isFile, _, rfl, json⟩
        · obtain ⟨leads, isFile, extension⟩ := hypothesis deeperMember
          refine ⟨.into entryMember leads, isFile, ?_⟩
          rwa [List.getLast?_cons_of_ne_nil leads.ne_nil]
  · rintro ⟨leads, isFile, extension⟩
    induction leads with
    | @entry entries name tree member =>
        rw [documentsBelow_eq_flatMap, List.mem_flatMap]
        obtain ⟨_, ⟨⟩, json⟩ := extension
        exact ⟨_, member, mem_documents_iff.mpr (.inl ⟨rfl, isFile, json⟩)⟩
    | @into entries inner name path tree member further hypothesis =>
        rw [List.getLast?_cons_of_ne_nil further.ne_nil] at extension
        rw [documentsBelow_eq_flatMap, List.mem_flatMap]
        exact ⟨_, member, mem_documents_iff.mpr
          (.inr ⟨inner, rfl, _, hypothesis isFile extension, rfl⟩)⟩

/-- No path is listed twice. -/
theorem nodup_documentsBelow
    {entries : List (String × FileTree)}
    (proper : Proper entries) :
    ((documentsBelow entries).map Prod.fst).Nodup := by
  induction proper with
  | @intro entries distinct named below hypothesis =>
      rw [documentsBelow_eq_flatMap, List.map_flatMap, List.nodup_flatMap]
      constructor
      · rintro ⟨name, tree⟩ member
        cases tree with
        | directory inner =>
            have further := hypothesis name inner member
            rw [documents, List.map_map]
            rw [List.Nodup, List.pairwise_map] at further ⊢
            refine further.imp ?_
            intro deeper other different same
            exact different (List.cons.inj same).2
        | file text => by_cases json : hasJsonExtension name <;> simp [documents, json]
        | unreadable => by_cases json : hasJsonExtension name <;> simp [documents, json]
      · rw [List.Nodup, List.pairwise_map] at distinct
        refine distinct.imp ?_
        intro entry other different path member otherMember
        have starts := head?_of_mem_documents member
        rw [head?_of_mem_documents otherMember, Option.some.injEq] at starts
        exact different starts.symm

/-! ## The order of paths -/

theorem pathLE_iff
    {left right : List String} :
    pathLE left right ↔ left = right ∨ left < right := by
  fun_induction pathLE left right with
  | case1 right => cases right <;> simp
  | case2 => simp
  | case3 component leftRest rightRest hypothesis => simp [hypothesis]
  | case4 left leftRest right rightRest different =>
      simp [different, List.cons_lt_cons_iff]

theorem pathLE_trans
    {first second third : List String}
    (before : pathLE first second)
    (after : pathLE second third) :
    pathLE first third := by
  rw [pathLE_iff] at before after ⊢
  rcases before with rfl | before
  · exact after
  · rcases after with rfl | after
    · exact .inr before
    · exact .inr (before.trans after)

theorem pathLE_total (left right : List String) : pathLE left right || pathLE right left := by
  rw [Bool.or_eq_true, pathLE_iff, pathLE_iff]
  rcases lt_trichotomy left right with before | same | behind
  · exact .inl (.inr before)
  · exact .inl (.inl same)
  · exact .inr (.inr behind)

/-- Different paths are sorted into a strictly increasing order. -/
theorem pairwise_mergeSort_pathLE
    {found : List (List String × FileTree)}
    (distinct : (found.map Prod.fst).Nodup) :
    (found.mergeSort fun left right => pathLE left.1 right.1).Pairwise fun left right =>
      left.1 < right.1 := by
  have sorted : (found.mergeSort fun left right => pathLE left.1 right.1).Pairwise
      fun left right => pathLE left.1 right.1 := by
    apply List.pairwise_mergeSort
    · intro first second third
      exact pathLE_trans
    · intro left right
      exact pathLE_total left.1 right.1
  have rearranged := (found.mergeSort_perm fun left right => pathLE left.1 right.1).map Prod.fst
  have distinctSorted := rearranged.nodup_iff.mpr distinct
  rw [List.Nodup, List.pairwise_map] at distinctSorted
  refine (sorted.and distinctSorted).imp ?_
  rintro left right ⟨ordered, different⟩
  exact (pathLE_iff.mp ordered).resolve_left different

theorem mem_sortedDocuments_iff
    {entries : List (String × FileTree)}
    {path : List String}
    {tree : FileTree} :
    (path, tree) ∈ sortedDocuments entries ↔ Document entries path tree := by
  rw [sortedDocuments, List.mem_mergeSort, mem_documentsBelow_iff]

/-- The order in which documents are listed does not matter. -/
theorem mergeSort_eq_sortedDocuments
    {entries : List (String × FileTree)}
    {listing : List (List String × FileTree)}
    (proper : Proper entries)
    (permuted : listing.Perm (documentsBelow entries)) :
    (listing.mergeSort fun left right => pathLE left.1 right.1) = sortedDocuments entries := by
  have distinct := nodup_documentsBelow proper
  have listed := (permuted.map Prod.fst).nodup_iff.mpr distinct
  refine List.Perm.eq_of_pairwise ?_ (pairwise_mergeSort_pathLE listed)
    (pairwise_mergeSort_pathLE distinct) ?_
  · intro found other _ _ before behind
    exact absurd before behind.asymm
  · exact (listing.mergeSort_perm _).trans
      (permuted.trans ((documentsBelow entries).mergeSort_perm _).symm)

end FileTree

/-! ## Path arguments -/

/-- The components of a path: what stands between its slashes, without the empty
pieces. -/
def components (path : String) : List String :=
  ((path.toList.splitOn '/').filter (· ≠ [])).map String.ofList

theorem components_append_slash (front : String) :
    components (front ++ "/") = components front := by
  have text_eq : (front ++ "/").toList = front.toList ++ '/' :: [] := String.toList_append
  rw [components, text_eq, List.splitOn_append_cons_self, List.filter_append]
  simp [components]

/-- The names behind a slash are components. -/
theorem components_append_intercalate
    (front : String)
    {path : List String}
    (nonempty : path ≠ [])
    (named : ∀ name ∈ path, name ≠ "" ∧ '/' ∉ name.toList) :
    components (front ++ "/" ++ "/".intercalate path) = components front ++ path := by
  have text_eq : (front ++ "/" ++ "/".intercalate path).toList =
      front.toList ++ '/' :: ['/'].intercalate (path.map String.toList) := by
    rw [String.toList_append, String.toList_append, String.toList_intercalate, List.append_assoc]
    rfl
  have pieces : (['/'].intercalate (path.map String.toList)).splitOn '/' =
      path.map String.toList := by
    apply List.splitOn_intercalate
    · exact List.forall_mem_map.mpr fun name member => (named name member).2
    · simpa using nonempty
  have kept : (path.map String.toList).filter (· ≠ []) = path.map String.toList := by
    rw [List.filter_eq_self, List.forall_mem_map]
    intro name member
    simpa using (named name member).1
  rw [components, text_eq, List.splitOn_append_cons_self, List.filter_append, pieces, kept,
    List.map_append, List.map_map]
  simp [components, Function.comp_def]

/-- Behind the components of a directory come those of the path below it. -/
theorem components_below
    (directory : String)
    {path : List String}
    (nonempty : path ≠ [])
    (named : ∀ name ∈ path, name ≠ "" ∧ '/' ∉ name.toList) :
    components (Input.below directory path) = components directory ++ path := by
  unfold Input.below
  split
  · rename_i ends
    obtain ⟨front, rfl⟩ := endsWith_iff.mp ends
    rw [components_append_intercalate front nonempty named, components_append_slash]
  · exact components_append_intercalate directory nonempty named

/-- The inputs that a path argument stands for: the path itself unless it is a
directory, and otherwise the documents below it, in the order of their paths. -/
inductive Expands (files : FileSystem) (path : String) : List Input -> Prop
  | itself
      (notDirectory : ∀ entries, files path ≠ some (.directory entries)) :
      Expands files path [⟨path, files path⟩]
  | below
      {entries : List (String × FileTree)}
      {inputs : List Input}
      (isDirectory : files path = some (.directory entries))
      (increasing : inputs.Pairwise fun input other =>
        components input.path < components other.path)
      (documents : ∀ input, input ∈ inputs ↔
        ∃ way tree, FileTree.Document entries way tree ∧
          input = ⟨Input.below path way, some tree⟩) :
      Expands files path inputs

/-- The paths of the documents below a directory increase. -/
theorem pairwise_components_below
    {entries : List (String × FileTree)}
    (proper : FileTree.Proper entries)
    (directory : String) :
    (FileTree.sortedDocuments entries).Pairwise fun found other =>
      components (Input.below directory found.1) < components (Input.below directory other.1) := by
  have sorted := FileTree.pairwise_mergeSort_pathLE (FileTree.nodup_documentsBelow proper)
  refine sorted.imp_of_mem ?_
  intro found other member otherMember before
  have leads := (FileTree.mem_sortedDocuments_iff.mp member).leads
  have otherLeads := (FileTree.mem_sortedDocuments_iff.mp otherMember).leads
  rw [components_below directory leads.ne_nil (leads.named proper),
    components_below directory otherLeads.ne_nil (otherLeads.named proper)]
  exact List.append_left_lt before

theorem expands_ofPath
    {files : FileSystem}
    {path : String}
    (proper : ∀ entries, files path = some (.directory entries) -> FileTree.Proper entries) :
    Expands files path (Input.ofPath files path) := by
  unfold Input.ofPath
  split
  · rename_i entries isDirectory
    refine .below isDirectory ?_ ?_
    · rw [List.pairwise_map]
      exact pairwise_components_below (proper entries isDirectory) path
    · intro input
      simp only [List.mem_map, Prod.exists, FileTree.mem_sortedDocuments_iff]
      simp only [eq_comm]
  · rename_i notDirectory
    exact .itself notDirectory

/-- Each path argument stands, in its turn, for the inputs that it expands to. What
a directory expands to does not depend on the order in which the documents below it
are found. -/
theorem ofPaths_expands_directories
    (files : FileSystem)
    (paths : List String)
    (proper : ∀ path ∈ paths, ∀ entries, files path = some (.directory entries) ->
      FileTree.Proper entries) :
    (∃ rows, List.Forall₂ (Expands files) paths rows ∧
      Input.ofPaths files paths = rows.flatten) ∧
    (∀ path ∈ paths, ∀ entries, files path = some (.directory entries) ->
      ∀ listing : List (List String × FileTree),
        listing.Perm (FileTree.documentsBelow entries) ->
          Input.ofPath files path =
            (listing.mergeSort fun left right => FileTree.pathLE left.1 right.1).map fun found =>
              ⟨Input.below path found.1, some found.2⟩) := by
  constructor
  · refine ⟨paths.map (Input.ofPath files), ?_, List.flatMap_def⟩
    rw [List.forall₂_map_right_iff, List.forall₂_same]
    intro path member
    exact expands_ofPath (proper path member)
  · intro path member entries isDirectory listing permuted
    rw [FileTree.mergeSort_eq_sortedDocuments (proper path member entries isDirectory) permuted,
      Input.ofPath, isDirectory]

/-- A hyphen stands in front of a slash, but a directory in front of a file whose
name goes on with a hyphen. -/
theorem ofPaths_expands_directories_hyphen :
    let inner : List (String × FileTree) := [(".json", .unreadable), ("z.json", .file "")]
    let entries : List (String × FileTree) :=
      [("a-b.json", .file ""), ("a.txt", .file ""), ("a", .directory inner)]
    let files : FileSystem := fun path => [("d", .directory entries)].lookup path
    let paths := ["none", "d"]
    (∀ path ∈ paths, ∀ entries, files path = some (.directory entries) ->
      FileTree.Proper entries) ∧
    ∃ rows, List.Forall₂ (Expands files) paths rows ∧
      rows.flatten.map Input.path = ["none", "d/a/z.json", "d/a-b.json"] := by
  intro inner entries files paths
  have properInner : FileTree.Proper inner :=
    .intro (by decide) (by simp [inner]) (by simp [inner])
  have properEntries : FileTree.Proper entries := by
    refine .intro (by decide) (by simp [entries]) ?_
    intro name below member
    obtain ⟨rfl, rfl⟩ : name = "a" ∧ below = inner := by simpa [entries] using member
    exact properInner
  have proper : ∀ path ∈ paths, ∀ entries, files path = some (.directory entries) ->
      FileTree.Proper entries := by
    simp only [paths, List.forall_mem_cons, List.not_mem_nil, false_implies, implies_true,
      and_true]
    constructor
    · rintro _ ⟨⟩
    · rintro _ ⟨⟩
      exact properEntries
  obtain ⟨⟨rows, expands, inputs_eq⟩, listed⟩ := ofPaths_expands_directories files paths proper
  refine ⟨proper, rows, expands, ?_⟩
  have documents_eq : FileTree.documentsBelow entries =
      [(["a-b.json"], .file ""), (["a", "z.json"], .file "")] := by
    have listedNames : FileTree.hasJsonExtension "a-b.json" ∧ FileTree.hasJsonExtension "z.json" ∧
        ¬FileTree.hasJsonExtension "a.txt" ∧ ¬FileTree.hasJsonExtension ".json" := by
      decide +kernel
    simp [entries, inner, FileTree.documentsBelow, FileTree.documents, listedNames]
  have below := listed "d" (by simp [paths]) entries rfl
    [(["a", "z.json"], .file ""), (["a-b.json"], .file "")] (documents_eq ▸ .swap _ _ _)
  rw [List.mergeSort_of_pairwise (by decide +kernel)] at below
  rw [← inputs_eq, Input.ofPaths, List.flatMap_cons, List.flatMap_singleton, below]
  decide +kernel

end CommandLine
end DerivedQuery
