import ModelText.Codec.Error

/-!
# Error reports

What the program says when it gives up: what it was doing, and below that what went wrong, from the
outermost cause to the innermost. A single cause stands alone, several are numbered.
-/

namespace ModelText.CommandLine

/-- What the program was doing, and the causes that kept it from doing it. -/
structure Report where
  title : String
  causes : List String
deriving DecidableEq, Repr

namespace Report

/-- The causes that an error of the codec consists of. -/
def causesOf (error : CodecError) : List String :=
  error.message :: error.source?.toList

/-- What went wrong with a stream, while doing something. -/
def ofStream (title : String) (error : StreamError) : Report :=
  ⟨title, [error.message]⟩

/-- What went wrong in the codec, while doing something. -/
def ofCodec (title : String) (error : CodecError) : Report :=
  ⟨title, causesOf error⟩

/-- A text of several lines, each line after the first indented. -/
def hanging (indent : List Char) (text : String) : List Char :=
  text.toList.flatMap fun c => if c = '\n' then '\n' :: indent else [c]

/-- Causes with their numbers, from `n` on, each on a line of its own. -/
def numbered : Nat → List String → List Char
  | _, [] => []
  | n, cause :: causes =>
    let number := (toString n).toList
    '\n' :: List.replicate (5 - number.length) ' ' ++ number ++ [':', ' '] ++
      hanging (List.replicate 7 ' ') cause ++ numbered (n + 1) causes

/-- The causes below their heading. -/
def causesText : List String → List Char
  | [] => []
  | [cause] =>
    "\n\nCaused by:\n    ".toList ++ hanging (List.replicate 4 ' ') cause
  | causes => "\n\nCaused by:".toList ++ numbered 0 causes

/-- The whole report. -/
def text (report : Report) : String :=
  "Error: " ++ report.title ++ String.ofList (causesText report.causes)

end Report

end ModelText.CommandLine
