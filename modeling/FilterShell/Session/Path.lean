import FilterShell.Fault

/-!
# Paths of modules

A path is shown without empty parts and parts that mean the directory itself.  To find a module,
parts that mean the directory above are resolved too.
-/

namespace FilterShell.Session

/-- A slash. -/
def slash : Rune := '/'

/-- The parts of a path between its slashes. -/
def pathParts (path : Text) : List Text := go [] path
where
  go (part : Text) : Text → List Text
    | []     => [part.reverse]
    | r :: s => if r = slash then part.reverse :: go [] s else go (r :: part) s

/-- The parts that mean something. -/
def namedParts (path : Text) : List Text :=
  (pathParts path).filter fun p => !p.isEmpty && p ≠ Text.ofString "."

/-- How a path starts: with one slash, with two, or not at the top. -/
def pathRoot (path : Text) : Text :=
  match (path.takeWhile (· = slash)).length with
  | 0 => []
  | 2 => "//"
  | _ => "/"

/-- The text of a path. -/
def pathText (path : Text) : Text :=
  match pathRoot path ++ Text.join [slash] (namedParts path) with
  | []   => "."
  | text => text

/-- Where a path leads: from the top or from the working directory, so many levels up, and then
down. -/
structure Route where
  top  : Bool
  up   : Nat := 0
  down : List Text := []

namespace Route

/-- One more part of a path. -/
def follow (r : Route) (part : Text) : Route :=
  if part ≠ Text.ofString ".." then { r with down := r.down ++ [part] }
  else if !r.down.isEmpty then { r with down := r.down.dropLast }
  else if r.top then r
  else { r with up := r.up + 1 }

/-- Where a path leads. -/
def ofPath (path : Text) : Route :=
  (namedParts path).foldl follow { top := !(pathRoot path).isEmpty }

/-- The shortest path that leads there. -/
def name (r : Route) : Text :=
  (if r.top then [slash] else [])
    ++ Text.join [slash] (List.replicate r.up (Text.ofString "..") ++ r.down)

/-- The routes to the directories on the way down. -/
def ancestors (r : Route) : List Route :=
  (List.range r.down.length).map fun n => { r with down := r.down.take n }

end Route

/-- The files that modules are read from, by the names of their routes. -/
structure Files where
  texts       : List (Text × Text) := []
  /-- Directories, besides those of the files. -/
  directories : List Text := []

/-- Ends of lines are written in three ways; all mean the same. -/
def universalLines : Text → Text
  | []          => []
  | [r]         => [if r.code = 13 then '\n' else r]
  | r :: s :: t =>
    if r.code = 13 then
      if s.code = 10 then '\n' :: universalLines t else '\n' :: universalLines (s :: t)
    else r :: universalLines (s :: t)

/-- The text of a module. -/
def readModule (files : Files) (path : Text) : Except Fault Text :=
  let route := Route.ofPath path
  let name := route.name
  if path.any (·.code = 0) then .error .badName
  else match files.texts.lookup name with
    | some t => .ok (universalLines t)
    | none   =>
      if route.down.isEmpty || files.directories.contains name
          || files.texts.any fun (n, _) => (n.dropStart? (name ++ [slash])).isSome then
        .error .isDirectory
      else if route.ancestors.any fun r => (files.texts.lookup r.name).isSome then .error .notDirectory
      else .error .noSuchFile

end FilterShell.Session
