import Scheme.Primitive
/-!
# The table of primitives
-/

namespace Scheme.Primitive

def exactly (count : Nat) (name : String) (operation : DirectOperation) : Primitive :=
  ⟨name, .direct operation, count, some count⟩

def between (least most : Nat) (name : String) (operation : DirectOperation) : Primitive :=
  ⟨name, .direct operation, least, some most⟩

def atLeast (least : Nat) (name : String) (operation : DirectOperation) : Primitive :=
  ⟨name, .direct operation, least, none⟩

/-- The path a name such as `cadr` spells; the letter nearest to the end is followed first. -/
def pathOf (letters : List Side) : DirectOperation :=
  .list (.path letters.reverse)

/-- The names `car` to `cddddr`, with the letters `a` and `d` as the fields. -/
def accessors : Nat → List (List Side)
  | 0 => [[]]
  | n + 1 => (accessors n).flatMap fun sides => [.first :: sides, .rest :: sides]

def accessorName (letters : List Side) : String :=
  String.ofList ('c' :: letters.map (fun | .first => 'a' | .rest => 'd') ++ ['r'])

def accessorTable : List Primitive :=
  ([1, 2, 3, 4].flatMap accessors).map fun letters =>
    exactly 1 (accessorName letters) (pathOf letters)

def equivalenceTable : List Primitive :=
  [ exactly 1 "not" .not,
    exactly 2 "eq?" (.same .eq),
    exactly 2 "eqv?" (.same .eqv),
    exactly 2 "equal?" (.same .equal),
    exactly 1 "boolean?" (.test .boolean),
    exactly 1 "pair?" (.test .pair),
    exactly 1 "null?" (.test .null),
    exactly 1 "symbol?" (.test .symbol),
    exactly 1 "number?" (.test .number),
    exactly 1 "complex?" (.test .number),
    exactly 1 "real?" (.test .number),
    exactly 1 "char?" (.test .character),
    exactly 1 "string?" (.test .string),
    exactly 1 "vector?" (.test .vector),
    exactly 1 "procedure?" (.test .procedure),
    exactly 1 "eof-object?" (.test .endOfFile),
    exactly 1 "input-port?" (.test .inputPort),
    exactly 1 "output-port?" (.test .outputPort),
    atLeast 0 "error" .error,
    between 0 1 "exit" .exit ]

def listTable : List Primitive :=
  [ exactly 2 "cons" (.list .cons),
    exactly 2 "set-car!" (.list (.set .first)),
    exactly 2 "set-cdr!" (.list (.set .rest)),
    atLeast 0 "list" (.list .list),
    atLeast 0 "_list*" (.list .listStar),
    exactly 1 "list?" (.list .isList),
    exactly 1 "length" (.list .length),
    atLeast 0 "append" (.list .append),
    exactly 1 "reverse" (.list .reverse),
    exactly 2 "list-tail" (.list .tail),
    exactly 2 "list-ref" (.list .element),
    exactly 2 "memq" (.list (.member .eq)),
    exactly 2 "memv" (.list (.member .eqv)),
    exactly 2 "member" (.list (.member .equal)),
    exactly 2 "assq" (.list (.association .eq)),
    exactly 2 "assv" (.list (.association .eqv)),
    exactly 2 "assoc" (.list (.association .equal)) ]

def numberTable : List Primitive :=
  [ atLeast 2 "<" (.number (.compare .lt)),
    atLeast 2 "<=" (.number (.compare .le)),
    atLeast 2 "=" (.number (.compare .eq)),
    atLeast 2 ">=" (.number (.compare .ge)),
    atLeast 2 ">" (.number (.compare .gt)),
    atLeast 0 "+" (.number .add),
    atLeast 0 "*" (.number .multiply),
    atLeast 1 "-" (.number .subtract),
    atLeast 1 "/" (.number .divide),
    exactly 2 "quotient" (.number .quotient),
    exactly 2 "remainder" (.number .remainder),
    exactly 2 "modulo" (.number .modulo),
    atLeast 1 "max" (.number .max),
    atLeast 1 "min" (.number .min),
    exactly 1 "abs" (.number .abs),
    exactly 1 "floor" (.number (.round .down)),
    exactly 1 "ceiling" (.number (.round .up)),
    exactly 1 "truncate" (.number (.round .towardZero)),
    exactly 1 "round" (.number (.round .halfToEven)),
    exactly 1 "exp" (.number (.function .exp)),
    exactly 1 "log" (.number (.function .log)),
    exactly 1 "sin" (.number (.function .sin)),
    exactly 1 "cos" (.number (.function .cos)),
    exactly 1 "tan" (.number (.function .tan)),
    exactly 1 "asin" (.number (.function .asin)),
    exactly 1 "acos" (.number (.function .acos)),
    exactly 1 "sqrt" (.number (.function .sqrt)),
    between 1 2 "atan" (.number .atan),
    exactly 2 "expt" (.number .expt),
    atLeast 0 "gcd" (.number .gcd),
    atLeast 0 "lcm" (.number .lcm),
    exactly 1 "integer?" (.number .isExact),
    exactly 1 "rational?" (.number .isExact),
    exactly 1 "exact?" (.number .isExact),
    exactly 1 "inexact?" (.number .isInexact),
    exactly 1 "zero?" (.number .isZero),
    exactly 1 "positive?" (.number .isPositive),
    exactly 1 "negative?" (.number .isNegative),
    exactly 1 "odd?" (.number .isOdd),
    exactly 1 "even?" (.number .isEven),
    between 1 2 "number->string" (.number .toText),
    between 1 2 "string->number" (.number .ofText) ]

def characterTable : List Primitive :=
  [ exactly 2 "char<?" (.character (.compare .lt false)),
    exactly 2 "char<=?" (.character (.compare .le false)),
    exactly 2 "char=?" (.character (.compare .eq false)),
    exactly 2 "char>=?" (.character (.compare .ge false)),
    exactly 2 "char>?" (.character (.compare .gt false)),
    exactly 2 "char-ci<?" (.character (.compare .lt true)),
    exactly 2 "char-ci<=?" (.character (.compare .le true)),
    exactly 2 "char-ci=?" (.character (.compare .eq true)),
    exactly 2 "char-ci>=?" (.character (.compare .ge true)),
    exactly 2 "char-ci>?" (.character (.compare .gt true)),
    exactly 1 "char-alphabetic?" (.character .isAlphabetic),
    exactly 1 "char-numeric?" (.character .isNumeric),
    exactly 1 "char-whitespace?" (.character .isBlank),
    exactly 1 "char-upper-case?" (.character .isUpper),
    exactly 1 "char-lower-case?" (.character .isLower),
    exactly 1 "char->integer" (.character .toCode),
    exactly 1 "integer->char" (.character .ofCode),
    exactly 1 "char-upcase" (.character .upcase),
    exactly 1 "char-downcase" (.character .downcase) ]

def stringTable : List Primitive :=
  [ exactly 2 "string<?" (.string (.compare .lt false)),
    exactly 2 "string<=?" (.string (.compare .le false)),
    exactly 2 "string=?" (.string (.compare .eq false)),
    exactly 2 "string>=?" (.string (.compare .ge false)),
    exactly 2 "string>?" (.string (.compare .gt false)),
    exactly 2 "string-ci<?" (.string (.compare .lt true)),
    exactly 2 "string-ci<=?" (.string (.compare .le true)),
    exactly 2 "string-ci=?" (.string (.compare .eq true)),
    exactly 2 "string-ci>=?" (.string (.compare .ge true)),
    exactly 2 "string-ci>?" (.string (.compare .gt true)),
    between 1 2 "make-string" (.string .make),
    atLeast 0 "string" (.string .ofCharacters),
    exactly 1 "string-length" (.string .length),
    exactly 2 "string-ref" (.string .get),
    exactly 3 "string-set!" (.string .set),
    exactly 3 "substring" (.string .substring),
    atLeast 0 "string-append" (.string .append),
    exactly 1 "string->list" (.string .toList),
    exactly 1 "list->string" (.string .ofList),
    exactly 1 "symbol->string" (.string .ofSymbol),
    exactly 1 "string->symbol" (.string .toSymbol) ]

def vectorTable : List Primitive :=
  [ between 1 2 "make-vector" (.vector .make),
    atLeast 0 "vector" (.vector .ofElements),
    exactly 1 "vector-length" (.vector .length),
    exactly 2 "vector-ref" (.vector .get),
    exactly 3 "vector-set!" (.vector .set),
    exactly 1 "vector->list" (.vector .toList),
    exactly 1 "list->vector" (.vector .ofList) ]

def portTable : List Primitive :=
  [ exactly 0 "current-input-port" (.port .currentInput),
    exactly 0 "current-output-port" (.port .currentOutput),
    exactly 1 "open-input-file" (.port .openInput),
    exactly 1 "open-output-file" (.port .openOutput),
    exactly 1 "close-input-port" (.port .closeInput),
    exactly 1 "close-output-port" (.port .closeOutput),
    between 0 1 "read" (.port .read),
    between 0 1 "read-char" (.port .readChar),
    between 0 1 "peek-char" (.port .peekChar),
    between 1 2 "write" (.port .write),
    between 1 2 "display" (.port .display),
    between 1 2 "write-char" (.port .display),
    between 0 1 "newline" (.port .newline) ]

def controlTable : List Primitive :=
  [ ⟨"apply", .control .apply, 2, none⟩,
    ⟨"map", .control .map, 1, none⟩,
    ⟨"for-each", .control .forEach, 1, none⟩,
    ⟨"call-with-current-continuation", .control .callWithContinuation, 1, some 1⟩,
    ⟨"force", .control .force, 1, some 1⟩,
    ⟨"eval", .control .eval, 1, some 2⟩,
    ⟨"macro-expand", .control .expand, 1, some 1⟩,
    ⟨"time-call", .control .timeCall, 1, some 2⟩,
    ⟨"call-with-input-file", .control .callWithInput, 2, some 2⟩,
    ⟨"call-with-output-file", .control .callWithOutput, 2, some 2⟩,
    ⟨"load", .control .load, 1, some 1⟩ ]

/-- All primitives. Their names are distinct. -/
def table : List Primitive :=
  equivalenceTable ++ accessorTable ++ listTable ++ numberTable ++ characterTable ++
    stringTable ++ vectorTable ++ portTable ++ controlTable

end Scheme.Primitive
