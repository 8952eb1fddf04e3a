import Scheme.Datum
import Scheme.Number.Numeral
/-!
# The text of data

In written text strings and characters are quoted so that reading gives them back; in displayed
text they stand for themselves.
-/

namespace Scheme

/-- How strings and characters are shown. -/
inductive Style where
  | written
  | displayed
deriving DecidableEq

namespace Style

def character (style : Style) (c : Char) : String :=
  match style with
  | .displayed => c.toString
  | .written =>
    if c = ' ' then "#\\space" else if c = '\n' then "#\\newline" else "#\\" ++ c.toString

/-- A character inside a quoted string. -/
def escape (c : Char) : List Char :=
  if c = '\x22' ∨ c = '\\' then ['\\', c] else [c]

def string (style : Style) (chars : List Char) : String :=
  match style with
  | .displayed => String.ofList chars
  | .written => "\"" ++ String.ofList (chars.flatMap escape) ++ "\""

def boolean (value : Bool) : String :=
  if value then "#t" else "#f"

end Style

namespace Datum

/-- The mark and the body of a list that prints abbreviated. -/
def abbreviated? : Datum → Option (String × Datum)
  | .pair (.symbol head) (.pair body .nil) => head.abbreviation?.map (·, body)
  | _ => none

mutual

/-- The text of a datum. -/
def text (style : Style) : Datum → String
  | .nil => "()"
  | .boolean value => Style.boolean value
  | .number value => Number.toText value
  | .character value => style.character value
  | .symbol value => value.name
  | .string value => style.string value
  | .vector elements => "#(" ++ elementTexts style elements ++ ")"
  | .pair first rest =>
    match first, rest with
    | .symbol head, .pair body .nil =>
      match head.abbreviation? with
      | some mark => mark ++ text style body
      | none => "(" ++ head.name ++ " " ++ text style body ++ ")"
    | first, rest => "(" ++ text style first ++ tailText style rest

/-- The text of the rest of a list after an element. -/
def tailText (style : Style) : Datum → String
  | .nil => ")"
  | .pair first rest => " " ++ text style first ++ tailText style rest
  | tail => " . " ++ text style tail ++ ")"

/-- The texts of elements, with spaces between. -/
def elementTexts (style : Style) : List Datum → String
  | [] => ""
  | [d] => text style d
  | d :: rest => text style d ++ " " ++ elementTexts style rest

end

end Datum

end Scheme
