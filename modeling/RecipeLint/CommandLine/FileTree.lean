import RecipeLint.CommandLine.Run

/-!
# File trees

A directory in memory, for runs that touch nothing else. There are directories wherever a file
needs them. Nothing is known about what lies outside of the tree, except that it is a directory.
-/

namespace RecipeLint.CommandLine

structure FileTree where
  files : List (List Text × List UInt8)

namespace FileTree

def components : Text → List Text
  | [] => [[]]
  | c :: cs =>
    if c = '/' then [] :: components cs
    else
      match components cs with
      | [] => [[c]]
      | name :: names => (c :: name) :: names

def ofList (files : List (Text × List UInt8)) : FileTree where
  files := files.map fun (path, content) => (components path, content)

/-- A place in a tree, or outside of it. -/
inductive Place where
  | inside (names : List Text)
  | outside
deriving DecidableEq

def file? (tree : FileTree) (names : List Text) : Option (List UInt8) :=
  (tree.files.find? fun file => file.1 == names).map Prod.snd

def isDirectory (tree : FileTree) (names : List Text) : Bool :=
  names.isEmpty || tree.files.any fun file => names.isPrefixOf file.1 && names != file.1

def content (tree : FileTree) : Place → Except SystemError (List UInt8)
  | .outside => .error .isDirectory
  | .inside names =>
    if tree.isDirectory names then .error .isDirectory
    else (tree.file? names).elim (.error .notFound) .ok

/-- The place that a component of a path leads to from a directory. -/
def step : Place → Text → Except SystemError Place
  | place, [] | place, ['.'] => .ok place
  | .outside, ['.', '.'] | .inside [], ['.', '.'] => .ok .outside
  | .inside names, ['.', '.'] => .ok (.inside names.dropLast)
  | .outside, _ => .error .notFound
  | .inside names, name => .ok (.inside (names ++ [name]))

/-- The place at the end of a path. Every component but the last must lead to a directory. -/
def walk (tree : FileTree) (place : Place) : List Text → Except SystemError Place
  | [] => .ok place
  | name :: names =>
    match tree.content place with
    | .ok _ => .error .notDirectory
    | .error e => do if e = .isDirectory then tree.walk (← step place name) names else .error e

def read (tree : FileTree) (path : Text) : Except SystemError (List UInt8) :=
  match path with
  | [] => .error .notFound
  | '/' :: rest => do tree.content (← tree.walk .outside (components rest))
  | _ => do tree.content (← tree.walk (.inside []) (components path))

def world (tree : FileTree) (input : List UInt8) (configDirectory? : Option Text) : World Id where
  readFile := tree.read
  readInput := input
  configDirectory? := configDirectory?

end FileTree

end RecipeLint.CommandLine
