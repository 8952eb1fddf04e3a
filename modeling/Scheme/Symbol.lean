/-!
# Symbols

A symbol is its name. Some symbols head special forms, and some have an abbreviation in written
data.
-/

namespace Scheme

structure Symbol where
  name : String
deriving DecidableEq

namespace Symbol

def quote : Symbol := ⟨"quote"⟩
def quasiquote : Symbol := ⟨"quasiquote"⟩
def unquote : Symbol := ⟨"unquote"⟩
def unquoteSplicing : Symbol := ⟨"unquote-splicing"⟩
def begin : Symbol := ⟨"begin"⟩
def else_ : Symbol := ⟨"else"⟩
def arrow : Symbol := ⟨"=>"⟩

/-- The mark that stands for a two-element list headed by the symbol. -/
def abbreviation? (s : Symbol) : Option String :=
  if s = quote then some "'"
  else if s = quasiquote then some "`"
  else if s = unquote then some ","
  else if s = unquoteSplicing then some ",@"
  else none

end Symbol

/-- Forms that the evaluator treats itself. -/
inductive SpecialForm where
  | quotation
  | sequence
  | definition
  | assignment
  | branch
  | clauses
  | abstraction
  | transformer
deriving DecidableEq

/-- The special form that a symbol heads. -/
def SpecialForm.ofSymbol? (s : Symbol) : Option SpecialForm :=
  if s.name = "quote" then some .quotation
  else if s.name = "begin" then some .sequence
  else if s.name = "define" then some .definition
  else if s.name = "set!" then some .assignment
  else if s.name = "if" then some .branch
  else if s.name = "cond" then some .clauses
  else if s.name = "lambda" then some .abstraction
  else if s.name = "macro" then some .transformer
  else none

end Scheme
