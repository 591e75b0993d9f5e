import LambdaPi.Term.Basic

/-!
# Display of terms

A compound argument or head is put in parentheses, a meta-variable shows its arguments in brackets,
and a variable shows its name if it has one, otherwise its number.
-/

namespace LambdaPi

/-- A named meta-variable shows its name, an anonymous one its number behind a star. -/
def MetaName.display : MetaName → String
  | named text => text
  | fresh number => s!"*{number}"

namespace Term

/-- Text of a meta-variable's name. -/
def displayMeta : Option MetaName → String
  | some m => m.display
  | none => "_"

/-- Let a term write its text, in parentheses unless the term is atomic. -/
def enclosed (t : Term) (write : String → String) (text : String) : String :=
  if t.isAtomic then write text else write (text ++ "(") ++ ")"

mutual

/-- Write a term behind a text. -/
def write (t : Term) (text : String) : String :=
  match t with
  | kind => text ++ "Kind"
  | type => text ++ "Type"
  | symb s => text ++ s.text
  | bvar _ (some x) => text ++ x
  | bvar n none => text ++ s!"#{n}"
  | joker => text ++ "*"
  | appl (appl f b) a => enclosed a a.write ((appl f b).write text ++ " ")
  | appl f a => enclosed a a.write (enclosed f f.write text ++ " ")
  | prod (some x) A B => B.write (A.write (text ++ "(" ++ x ++ " : ") ++ ") -> ")
  | prod none A B => B.write (enclosed A A.write text ++ " -> ")
  | abst x none t => t.write (text ++ x ++ " => ")
  | abst x (some A) t => t.write (A.write (text ++ "(" ++ x ++ " : ") ++ ") => ")
  | mvar m args => writeArgs args (text ++ displayMeta m ++ "[") ++ "]"

/-- Write a list of arguments behind a text, with commas between them. -/
def writeArgs (args : List Term) (text : String) : String :=
  match args with
  | [] => text
  | [t] => t.write text
  | t :: ts => writeArgs ts (t.write text ++ ", ")

end

/-- Text of a term. -/
def display (t : Term) : String :=
  t.write ""

end Term

end LambdaPi
