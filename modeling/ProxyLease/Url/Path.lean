import ProxyLease.Text.Fields
import ProxyLease.Url.Basic
import ProxyLease.Url.Percent

/-!
# Paths

The text of a path is cut at slashes, and at backslashes too under a special
scheme. A single dot, also written `%2e`, names no segment and a double dot takes
the last one back, except a drive letter. When either ends the path, an empty
segment follows. Under the file scheme a drive letter ends in a colon and leading
empty segments are dropped.
-/

namespace ProxyLease.UrlPath

def isSingleDot (segment : List Char) : Bool :=
  String.ofList (segment.map Char.toLower) ∈ [".", "%2e"]

def isDoubleDot (segment : List Char) : Bool :=
  String.ofList (segment.map Char.toLower) ∈ ["..", ".%2e", "%2e.", "%2e%2e"]

/-- A letter and a colon or a bar. -/
def isDriveLetter : List Char → Bool
  | [c, d] => c.isAlpha && (d == ':' || d == '|')
  | _ => false

/-- The segments without the last one; a drive letter stays. -/
def shorten (segments : List (List Char)) : List (List Char) :=
  match segments.getLast? with
  | some last => if isDriveLetter last then segments else segments.dropLast
  | none => []

/-- The form in which the first segment of a file path is kept. -/
def normalDrive : List Char → List Char
  | [c, d] => if isDriveLetter [c, d] then [c, ':'] else [c, d]
  | segment => segment

/-- Adds one piece of the text; `final` says that no slash follows it. -/
def addSegment (kind : SchemeKind) (segments : List (List Char)) (piece : List Char)
    (final : Bool) : List (List Char) :=
  let segment := Percent.encode Percent.path piece
  let close (list : List (List Char)) := if final then list ++ [[]] else list
  if isDoubleDot segment then close (shorten segments)
  else if isSingleDot segment then close segments
  else if kind = .file ∧ segments = [] then [normalDrive segment]
  else segments ++ [segment]

def addSegments (kind : SchemeKind) : List (List Char) → List (List Char) → List (List Char)
  | segments, [] => segments
  | segments, [piece] => addSegment kind segments piece true
  | segments, piece :: rest => addSegments kind (addSegment kind segments piece false) rest

/-- The list without its leading empty segments, never empty itself. -/
def dropLeadingEmpty : List (List Char) → List (List Char)
  | [] => [[]]
  | [] :: rest => dropLeadingEmpty rest
  | segments => segments

/-- The segments of a path text that begins after its first slash. -/
def parseSegments (kind : SchemeKind) (text : List Char) : List (List Char) :=
  let isSlash (c : Char) : Bool := c == '/' || (kind.isSpecial && c == '\\')
  let segments := addSegments kind [] (Text.fields isSlash text)
  if kind = .file then dropLeadingEmpty segments else segments

/-- A path as it is written; a slash stands before every segment. -/
def chars : UrlPath → List Char
  | .hierarchical list => list.flatMap ('/' :: ·)
  | .opaqueText text => text

end ProxyLease.UrlPath
