import Scheme.Cursor
import Scheme.Proofs.EncodedTexts
/-!
# Lines of a text

A source is decoded line by line. If its bytes encode a text then so does each of their lines, and
the events are the characters of the text.
-/

namespace Scheme

namespace Event

theorem splitLines_append {line unit : List UInt8} (hfeed : 10 ∉ unit) (rest : List UInt8) :
    splitLines line (unit ++ rest) = splitLines (unit.reverse ++ line) rest := by
  induction unit generalizing line with
  | nil => rfl
  | cons b unit ih =>
      rw [List.mem_cons, not_or] at hfeed
      rw [List.cons_append, splitLines, if_neg (Ne.symm hfeed.1), ih hfeed.2]
      simp

theorem ofText_append (text more : List Char) :
    ofText (text ++ more) = ofText text ++ ofText more :=
  List.map_append

/-- The lines of bytes that encode a text encode the lines of the text; `line` encodes the part of
the first line before the bytes. -/
theorem flatMap_splitLines (before text : List Char) {line : List UInt8}
    (hline : line.reverse = before.flatMap String.utf8EncodeChar) :
    (splitLines line (text.flatMap String.utf8EncodeChar)).flatMap ofLine =
      ofText (before ++ text) := by
  induction text generalizing before line with
  | nil =>
      have hdecode := Text.decode?_eq_some.2 hline
      cases line with
      | nil =>
          cases hdecode
          rfl
      | cons b line =>
          rw [List.reverse_cons] at hdecode
          simp [splitLines, ofLine, hdecode]
  | cons c text ih =>
      rw [List.flatMap_cons]
      by_cases hfeed : 10 ∈ String.utf8EncodeChar c
      · have hencoding := Text.eq_of_lineFeed_mem hfeed
        have hdecode : Text.decode? (line.reverse ++ [10]) = some (before ++ [c]) :=
          Text.decode?_eq_some.2 (by simp [hline, hencoding])
        have hsplit : splitLines line ([10] ++ text.flatMap String.utf8EncodeChar) =
            (line.reverse ++ [10]) :: splitLines [] (text.flatMap String.utf8EncodeChar) := by
          simp [splitLines]
        rw [hencoding, hsplit, List.flatMap_cons, ih [] rfl, ofLine, hdecode]
        simp [← ofText_append]
      · rw [splitLines_append hfeed, ih (before ++ [c]) (by simp [hline])]
        simp

/-- Bytes that encode a text give its characters. -/
theorem ofBytes_of_decode? {bytes : List UInt8} {text : List Char}
    (h : Text.decode? bytes = some text) : ofBytes bytes = ofText text := by
  rw [Text.decode?_eq_some.1 h]
  exact flatMap_splitLines [] text rfl

end Event

end Scheme
