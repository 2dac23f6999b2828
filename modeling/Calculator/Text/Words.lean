import Calculator.Text.CharClass

/-!
# Words of a text

`words` cuts a text at white space, of which any amount separates two words
and none is part of one.
-/

namespace Calculator.Text

def wordChars : List Char → List (List Char)
  | [] => []
  | c :: rest =>
    if isWhiteSpace c then wordChars rest
    else
      (c :: rest.takeWhile fun d => !isWhiteSpace d) ::
        wordChars (rest.dropWhile fun d => !isWhiteSpace d)
termination_by text => text.length
decreasing_by
  · exact Nat.lt_succ_self _
  · exact Nat.lt_succ_of_le (List.dropWhile_sublist _).length_le

def words (text : String) : List String := (wordChars text.toList).map String.ofList

end Calculator.Text
