import StyleAudit.Files.Path
import StyleAudit.Table
import StyleAudit.Text.Utf8

/-!
# Directory trees

The files a run can see are a tree, given as a value: a file with its bytes, or a directory
with its entries in the order of their names.  Paths are looked up from the directory at the
root of the tree, and nothing lies above it.

* `Node.find` --- what a path leads to, or why it leads nowhere;
* `Node.files` --- the paths of all files below a node, depth first.
-/

namespace StyleAudit

/-- Why a path leads nowhere, or what is there cannot be read. -/
inductive FileFault where
  | notFound
  | notDirectory
  | isDirectory
  /-- The bytes were asked for as text and are none. -/
  | notText
  deriving DecidableEq, Repr

/-- What a fault says. -/
def FileFault.message : FileFault → String
  | notFound => "No such file or directory (os error 2)"
  | notDirectory => "Not a directory (os error 20)"
  | isDirectory => "Is a directory (os error 21)"
  | notText => "stream did not contain valid UTF-8"

/-- A file or a directory. -/
inductive Node where
  | file (bytes : List UInt8)
  | folder (entries : List (Text × Node))
  deriving Inhabited

namespace Node

/-! ## Looking up -/

/-- Follows the pieces of a path from a node; `above` are the directories around it, the
nearest first. -/
def descend (above : List Node) (node : Node) : List Text → Except FileFault Node
  | [] => .ok node
  | piece :: rest =>
    match node with
    | file _ => .error .notDirectory
    | folder entries =>
      if piece = [] ∨ piece = ['.'] then descend above node rest
      else if piece = ['.', '.'] then
        match above with
        | [] => .error .notFound
        | dir :: further => descend further dir rest
      else
        match entries.lookup piece with
        | none => .error .notFound
        | some child => descend (node :: above) child rest

/-- What the path leads to. -/
def find (tree : Node) (p : Path) : Except FileFault Node :=
  if p.text.isEmpty || p.isAbsolute then .error .notFound
  else descend [] tree (Text.splitOn '/' p.text)

/-- Whether the path leads to a file. -/
def isFile (tree : Node) (p : Path) : Bool :=
  match tree.find p with
  | .ok (file _) => true
  | _ => false

/-- Whether the path leads to a directory. -/
def isFolder (tree : Node) (p : Path) : Bool :=
  match tree.find p with
  | .ok (folder _) => true
  | _ => false

/-- Whether the path leads anywhere. -/
def hasPath (tree : Node) (p : Path) : Bool := (tree.find p).toBool

/-- The bytes of the file that the path leads to. -/
def read (tree : Node) (p : Path) : Except FileFault (List UInt8) :=
  match tree.find p with
  | .ok (file bytes) => .ok bytes
  | .ok (folder _) => .error .isDirectory
  | .error fault => .error fault

/-- The text of the file that the path leads to. -/
def readText (tree : Node) (p : Path) : Except FileFault Text := do
  (Utf8.decode (← tree.read p)).mapError fun _ => .notText

/-! ## All files -/

mutual

/-- The paths of all files at or below a node that has the given path, depth first, in the
order of the entries. -/
def files (p : Path) : Node → List Path
  | file _ => [p]
  | folder entries => filesOf p entries

/-- The paths of all files at or below the entries of a directory. -/
def filesOf (p : Path) : List (Text × Node) → List Path
  | [] => []
  | (name, node) :: rest => node.files (p.join name) ++ filesOf p rest

end

/-! ## Building -/

/-- The entries with the one of the given name replaced, or put in its place in the order of
names. -/
def setEntry (name : Text) (node : Node) : List (Text × Node) → List (Text × Node)
  | [] => [(name, node)]
  | (other, old) :: rest =>
    match compare name other with
    | .lt => (name, node) :: (other, old) :: rest
    | .eq => (name, node) :: rest
    | .gt => (other, old) :: setEntry name node rest

/-- The entries of a directory; a file has none. -/
def entries : Node → List (Text × Node)
  | folder es => es
  | file _ => []

/-- The tree with a node put where the names lead, directories made on the way. -/
def put (leaf : Node) : List Text → Node → Node
  | [], _ => leaf
  | name :: rest, node =>
    folder (setEntry name (put leaf rest ((node.entries.lookup name).getD (folder [])))
      node.entries)

/-- The names that lead to a place in a tree, from its path. -/
def namesOf (p : Path) : List Text :=
  p.parts.filterMap fun
    | .name n => some n
    | _ => none

/-- The tree with a file added. -/
def addFile (tree : Node) (p : Path) (bytes : List UInt8) : Node :=
  put (file bytes) (namesOf p) tree

/-- The tree with a directory added; one that is there already stays. -/
def addFolder (tree : Node) (p : Path) : Node :=
  match tree.find p with
  | .ok (folder es) => put (folder es) (namesOf p) tree
  | _ => put (folder []) (namesOf p) tree

end Node
end StyleAudit
