/-!
# Descriptions

The common form of the texts that describe a value: its name, and its parts in braces with a name
each. A description may be open, with two dots for parts that are not shown.
-/

namespace PerThread.Text

/-- The parts of a description, in order, each `name: text`. -/
abbrev Parts := List (String × String)

/-- The parts as they are written, and the dots at the end if there are more. -/
def items (parts : Parts) (isOpen : Bool) : List String :=
  parts.map (fun p => p.1 ++ ": " ++ p.2) ++ if isOpen then [".."] else []

/-- A description on one line: `Name { a: 1, b: 2 }`. -/
def record (name : String) (parts : Parts) (isOpen : Bool) : String :=
  name ++ " \x7b " ++ ", ".intercalate (items parts isOpen) ++ " \x7d"

/-- A description with a line for each part. The closing dots have no comma. -/
def recordLines (name : String) (parts : Parts) (isOpen : Bool) : String :=
  let lines := parts.map (fun p => "    " ++ p.1 ++ ": " ++ p.2 ++ ",\n")
  name ++ " \x7b\n" ++ String.join lines ++ (if isOpen then "    ..\n" else "") ++ "\x7d"

/-- A description that wraps another: `Name(text)`. -/
def wrapped (name text : String) : String := name ++ "(" ++ text ++ ")"

def optional : Option String → String
  | none => "None"
  | some text => wrapped "Some" text

def flag (b : Bool) : String := if b then "true" else "false"

end PerThread.Text
