/-!
# Symbols

A symbol is a qualified name such as `nat.plus`: dots separate its parts, and two symbols are the
same when their texts are. The part before the last dot is the space the symbol lives in, the part
after it is its base name.
-/

namespace LambdaPi

/-- A qualified name. -/
structure Symbol where
  text : String
deriving DecidableEq, Repr, Inhabited

/-- Cut a list of characters at its last dot. -/
def cutAtLastDot : List Char → Option (List Char × List Char)
  | [] => none
  | c :: cs =>
    match cutAtLastDot cs with
    | some (before, after) => some (c :: before, after)
    | none => if c = '.' then some ([], cs) else none

namespace Symbol

/-- The name `name` inside the space `space`; nothing is put in front of it in the empty space. -/
def qualify (space name : String) : Symbol :=
  ⟨if space = "" then name else space ++ "." ++ name⟩

/-- Everything before the last dot, and the empty text if there is no dot. -/
def space (s : Symbol) : String :=
  match cutAtLastDot s.text.toList with
  | some (before, _) => String.ofList before
  | none => ""

/-- Everything after the last dot, and the whole text if there is no dot. -/
def baseName (s : Symbol) : String :=
  match cutAtLastDot s.text.toList with
  | some (_, after) => String.ofList after
  | none => s.text

/-- Symbols are ordered as their texts are, by code points. -/
def before (s t : Symbol) : Bool := decide (s.text < t.text)

/-- The smallest of some symbols. -/
def smallest? : List Symbol → Option Symbol
  | [] => none
  | s :: rest =>
    match smallest? rest with
    | none => some s
    | some t => if t.before s then some t else some s

/-- Insert a symbol into an ordered list, unless it is there already. -/
def insertSorted (s : Symbol) : List Symbol → List Symbol
  | [] => [s]
  | t :: rest =>
    if s = t then t :: rest
    else if s.before t then s :: t :: rest
    else t :: insertSorted s rest

/-- The given symbols in order, each once. -/
def sorted (symbols : List Symbol) : List Symbol :=
  symbols.foldr insertSorted []

end Symbol

end LambdaPi
