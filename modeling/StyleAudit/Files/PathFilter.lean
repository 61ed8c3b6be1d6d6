import StyleAudit.Failure
import StyleAudit.Files.Glob
import StyleAudit.Files.Tree
import StyleAudit.Text.Blank
import StyleAudit.Text.Lines

/-!
# Which files are looked at

A `PathFilter` decides about files by their paths.  It has a list of patterns, and it reads
further patterns from ignore files that stand beside the files or in directories above.  A
pattern leaves out what it matches; with `!` in front it lets that in again.  The last pattern
of the list that matches decides.

How a pattern is matched depends on its shape, in this order:

1. one that ends in a slash matches what is below the directory;
2. one that begins with a slash matches whole paths, without that slash;
3. one with a slash inside matches whole paths;
4. any other matches the name of the file.

Ignore files are asked only about paths that the list lets in.  They are read from the nearest
directory up, and a later one that has a matching pattern overrules the earlier ones.  Paths
are matched as seen from the directory of the ignore file.
-/

namespace StyleAudit

/-- A pattern of a path filter. -/
structure FilterPattern where
  /-- The pattern without the `!`. -/
  text : Text
  glob : Glob.Pattern
  /-- Whether it lets in what it matches. -/
  includes : Bool
  deriving DecidableEq, Repr

namespace FilterPattern

/-- Reads a pattern. -/
def parse (raw : Text) : Except Glob.Fault FilterPattern :=
  match raw with
  | '!' :: t => (Glob.compile t).map fun g => ⟨t, g, true⟩
  | t => (Glob.compile t).map fun g => ⟨t, g, false⟩

/-- Whether the text of a pattern is a pattern and matches the text. -/
def compiledMatches (pattern t : Text) : Bool :=
  match Glob.compile pattern with
  | .ok g => Glob.isMatch g t
  | .error _ => false

/-- Whether the pattern matches the path. -/
def appliesTo (p : FilterPattern) (path : Path) : Bool :=
  if p.text.endsIn '/' then
    compiledMatches (p.text.dropEndWhile (· == '/') ++ "/**".toList) path.text
  else
    match p.text with
    | '/' :: anchored => compiledMatches anchored path.text
    | t =>
      if t.contains '/' then Glob.isMatch p.glob path.text
      else (path.fileName?.map (Glob.isMatch p.glob)).getD false

end FilterPattern

/-- Decides which files are looked at. -/
structure PathFilter where
  patterns : List FilterPattern
  /-- The name of ignore files; none are read if there is no name. -/
  ignoreName : Option Text
  /-- The extensions of stylesheets, without the point. -/
  extensions : List Text
  deriving Repr

namespace PathFilter

/-! ## Building -/

/-- Reads a pattern of a filter. -/
def parsePattern (raw : Text) : Except Failure FilterPattern :=
  (FilterPattern.parse raw).mapError fun fault =>
    .pattern ("Invalid pattern '" ++ String.ofList raw ++ "': " ++ fault.message)

/-- The filter with the given patterns, for stylesheets with the extension `css`. -/
def ofPatterns (patterns : List Text) (ignoreName : Option Text) : Except Failure PathFilter := do
  let patterns ← patterns.mapM parsePattern
  return ⟨patterns, ignoreName, ["css".toList]⟩

/-- The patterns of the standard filter: packages, repositories, generated files. -/
def standardPatterns : List Text :=
  ["**/node_modules/**", "**/.git/**", "**/*.min.css", "**/dist/**", "**/build/**"].map
    String.toList

/-- The standard filter. -/
def standard : Except Failure PathFilter :=
  ofPatterns standardPatterns (some ".cssignore".toList)

/-- The filter with other extensions.  Points in front of them do not count. -/
def withExtensions (f : PathFilter) (extensions : List Text) : PathFilter :=
  { f with extensions := extensions.map fun e => e.dropWhile (· == '.') }

/-- The filter that reads no ignore files. -/
def withoutIgnoreFiles (f : PathFilter) : PathFilter := { f with ignoreName := none }

/-- The filter with one more pattern at the end of its list. -/
def addPattern (f : PathFilter) (raw : Text) : Except Failure PathFilter := do
  return { f with patterns := f.patterns ++ [← parsePattern raw] }

/-! ## Deciding -/

/-- Whether the path names a stylesheet, up to the case of ASCII letters in the
extension. -/
def isStylesheet (f : PathFilter) (p : Path) : Bool :=
  match p.extension? with
  | some e => f.extensions.any e.sameName
  | none => false

/-- What the last pattern that matches the path says; `otherwise` if none does. -/
def lastWord (patterns : List FilterPattern) (path : Path) (otherwise : Bool) : Bool :=
  patterns.foldl (fun word p => if p.appliesTo path then p.includes else word) otherwise

/-- The patterns in the text of an ignore file, one on a line.  Blank lines and lines that
begin with `#` hold none, and one that is no pattern is passed over. -/
def ignorePatterns (t : Text) : List FilterPattern :=
  (t.sourceLines.map Text.trim).filterMap fun line =>
    if line.isEmpty || line.startsWith '#' then none else (FilterPattern.parse line).toOption

/-- The patterns of an ignore file; none if there is no such file. -/
def readIgnoreFile (tree : Node) (file : Path) : Except Failure (List FilterPattern) :=
  if tree.hasPath file then
    match tree.readText file with
    | .ok t => .ok (ignorePatterns t)
    | .error fault =>
      .error (.configuration ("Failed to read ignore file '" ++ String.ofList file.text ++
        "': " ++ fault.message))
  else .ok []

/-- Whether the path is still let in after the ignore file of one directory above it. -/
def askIgnoreFile (tree : Node) (name : Text) (path : Path) (included : Bool) (dir : Path) :
    Except Failure Bool := do
  let patterns ← readIgnoreFile tree (dir.join name)
  return match path.relativeTo? dir with
    | some relative => lastWord patterns relative included
    | none => included

/-- Whether the ignore files above the path let it in. -/
def passesIgnoreFiles (f : PathFilter) (tree : Node) (path : Path) : Except Failure Bool :=
  match f.ignoreName with
  | none => .ok true
  | some name => path.ancestors.foldlM (askIgnoreFile tree name path) true

/-- Whether the file is looked at. -/
def admits (f : PathFilter) (tree : Node) (path : Path) : Except Failure Bool :=
  if lastWord f.patterns path true then f.passesIgnoreFiles tree path else .ok false

/-! ## Many files -/

/-- The paths of a list that are looked at. -/
def filterPaths (f : PathFilter) (tree : Node) (paths : List Path) :
    Except Failure (List Path) :=
  paths.filterM (f.admits tree)

/-- The stylesheets at or below a path that are looked at, depth first, the entries of a
directory in the order of their names. -/
def findFiles (f : PathFilter) (tree : Node) (root : Path) : Except Failure (List Path) :=
  match tree.find root with
  | .ok node => f.filterPaths tree ((node.files root).filter f.isStylesheet)
  | .error _ => .ok []

/-- What each pattern of the list says to the path, in words. -/
def explain (f : PathFilter) (path : Path) : List String :=
  f.patterns.mapIdx fun i p =>
    "Pattern " ++ toString i ++ ": " ++ (if p.includes then "!" else "") ++
      String.ofList p.text ++ " -> " ++ if p.appliesTo path then "MATCH" else "no match"

end PathFilter
end StyleAudit
