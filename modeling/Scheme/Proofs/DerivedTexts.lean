import Scheme.Proofs.Disjunctions
import Scheme.Proofs.TemplateTransformer
/-!
# Texts of derived forms

The bodies of the transformers for local bindings, for recursive ones, for iteration and for delayed
expressions, with the templates that their calls expand to.
-/

namespace Scheme

namespace Primitive

def caddr : Primitive := exactly 1 "caddr" (pathOf [.first, .rest, .rest])
def cddr : Primitive := exactly 1 "cddr" (pathOf [.rest, .rest])
def force : Primitive := ⟨"force", .control .force, 1, some 1⟩

end Primitive

namespace Datum

/-- The form of a template. -/
def template (d : Datum) : Datum :=
  .form "quasiquote" [d]

def unquoted (d : Datum) : Datum :=
  .form "unquote" [d]

/-- A mapping of a procedure over lists. -/
def mapping (procedure : Datum) (lists : List String) : Datum :=
  .form "map" (procedure :: lists.map name)

/-- A procedure with one expression in its body. -/
def procedure (parameters : List String) (body : Datum) : Datum :=
  .form "lambda" [.list (parameters.map name), body]

/-- Local bindings of names to expressions around one form. -/
def bindings (pairs : List (String × Datum)) (body : Datum) : Datum :=
  .form "let" [.list (pairs.map fun p => .list [name p.1, p.2]), body]

end Datum

/-- What local bindings expand to: a call of an abstraction. -/
def bindingTemplate : Datum :=
  .pair (.pair (.name "lambda")
      (.pair (.unquoted (.mapping (.name "first") ["bindings"])) (.unquoted (.name "body"))))
    (.unquoted (.mapping (.name "second") ["bindings"]))

/-- What local bindings with a name of their own expand to. -/
def namedTemplate : Datum :=
  .form "let" [.list [.list [.unquoted (.name "name"), .boolean false]],
    .form "set!" [.unquoted (.name "name"),
      .pair (.name "lambda")
        (.pair (.unquoted (.mapping (.name "first") ["bindings"])) (.unquoted (.name "body")))],
    .pair (.unquoted (.name "name")) (.unquoted (.mapping (.name "second") ["bindings"]))]

/-- The text of the transformer for local bindings. -/
def bindingText : Datum :=
  .form "begin"
    [.form "define" [.form "named-let" [.name "name", .name "bindings", .name "body"],
      namedTemplate.template],
    .form "if" [.form "symbol?" [.name "bindings"],
      .form "named-let" [.name "bindings", .form "first" [.name "body"], .form "rest" [.name "body"]],
      bindingTemplate.template]]

/-- A binding that has no value yet. -/
def unsetTemplate : Datum :=
  .list [.unquoted (.name "var"), .boolean false]

/-- An assignment of the value. -/
def assignmentTemplate : Datum :=
  .form "set!" [.unquoted (.name "var"), .unquoted (.name "val")]

/-- What recursive bindings expand to: local bindings that are assigned before the body. -/
def recursionTemplate : Datum :=
  .pair (.name "let")
    (.pair (.unquoted (.mapping (.procedure ["var"] unsetTemplate.template) ["vars"]))
      (.pair (.form "unquote-splicing"
          [.mapping (.procedure ["var", "val"] assignmentTemplate.template) ["vars", "vals"]])
        (.unquoted (.name "body"))))

/-- The expressions for the names and the values of recursive bindings. -/
def recursionParts : List (String × Datum) :=
  [("vars", .mapping (.name "first") ["bindings"]), ("vals", .mapping (.name "second") ["bindings"])]

/-- The text of the transformer for recursive bindings. -/
def recursionText : Datum :=
  .bindings recursionParts recursionTemplate.template

/-- What an iteration expands to: a procedure that calls itself in tail position. -/
def iterationTemplate : Datum :=
  .form "letrec"
    [.list [.list [.name "__loop__",
      .form "lambda" [.unquoted (.name "variables"),
        .form "if" [.unquoted (.name "test"), .pair (.name "begin") (.unquoted (.name "result")),
          .pair (.name "begin") (.pair (.form "unquote-splicing" [.name "body"])
            (.list [.pair (.name "__loop__") (.unquoted (.name "steps"))]))]]]],
    .pair (.name "__loop__") (.unquoted (.name "inits"))]

/-- The next value of a variable: that of its third part, or the variable as it is. -/
def stepText : Datum :=
  .form "if" [.form "null?" [.form "cddr" [.name "clause"]], .form "first" [.name "clause"],
    .form "third" [.name "clause"]]

/-- The expressions for the parts of an iteration. -/
def iterationParts : List (String × Datum) :=
  [("variables", .mapping (.name "first") ["bindings"]),
    ("inits", .mapping (.name "second") ["bindings"]),
    ("steps", .mapping (.procedure ["clause"] stepText) ["bindings"]),
    ("test", .form "first" [.name "test-and-result"]),
    ("result", .form "rest" [.name "test-and-result"])]

/-- The text of the transformer for iterations. -/
def iterationText : Datum :=
  .bindings iterationParts iterationTemplate.template

/-- What a delayed expression expands to: a call of the procedure that makes promises. -/
def promiseTemplate : Datum :=
  .list [.unquoted (.name "make-promise"), .form "lambda" [.nil, .unquoted (.name "exp")]]

/-- A test of whether a promise has a result, which answers it. -/
def resultText (otherwise : Datum) : Datum :=
  .form "if" [.name "result-ready?", .name "result", otherwise]

/-- The local binding of the value in a promise, around the test that makes it the result. -/
def valueText : Datum :=
  .bindings [("x", .form "proc" [])]
    (resultText (.form "begin" [.form "set!" [.name "result-ready?", .boolean true],
      .form "set!" [.name "result", .name "x"], .name "result"]))

/-- The local bindings of the variables of a promise, around its procedure. -/
def makerText : Datum :=
  .bindings [("result-ready?", .boolean false), ("result", .boolean false)]
    (.form "lambda" [.nil, resultText valueText])

/-- The text of the transformer for delayed expressions. -/
def delayText : Datum :=
  .form "begin" [.form "define" [.form "make-promise" [.name "proc"], makerText],
    promiseTemplate.template]

end Scheme
