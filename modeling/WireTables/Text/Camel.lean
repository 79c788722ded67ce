import WireTables.Text.Case
import WireTables.Text.Letter

/-!
# Joined words with capitals

A name is cut into words and the words are joined again, each with its first letter in upper case
and the rest in lower case. Characters that are neither letters nor numbers separate words; inside
a run of letters and numbers a word also ends before an upper-case letter that follows a
lower-case one, and before the last of several upper-case letters that a lower-case one follows.
-/

namespace WireTables.Text

/-- The case of the letters seen last inside the current word. -/
inductive CaseMode where
  | start
  | lower
  | upper
  deriving DecidableEq

/-- The words of a run of letters and numbers; `word` holds the current word in reverse. -/
def wordsOfRun (mode : CaseMode) (word : List Char) : List Char → List (List Char)
  | [] => if word.isEmpty then [] else [word.reverse]
  | [c] => [(c :: word).reverse]
  | c :: next :: rest =>
    let after := if isLower c then .lower else if isUpper c then .upper else mode
    if after == .lower && isUpper next then
      (c :: word).reverse :: wordsOfRun .start [] (next :: rest)
    else if mode == .upper && isUpper c && isLower next then
      word.reverse :: wordsOfRun .start [c] (next :: rest)
    else wordsOfRun after (c :: word) (next :: rest)

/-- The runs of letters and numbers of a text. -/
def runs : List Char → List (List Char)
  | [] => [[]]
  | c :: rest =>
    match runs rest with
    | run :: more => if isLetterOrNumber c then (c :: run) :: more else [] :: run :: more
    | [] => [[c]]

/-- Lower case, with the final form of sigma at the end. -/
def lowerWord : List Char → List Char
  | [] => []
  | [c] => if c == 'Σ' then ['ς'] else lowerChar c
  | c :: rest => lowerChar c ++ lowerWord rest

/-- A word with its first letter in upper case and the rest in lower case. -/
def capitalized : List Char → List Char
  | [] => []
  | c :: rest => upperChar c ++ lowerWord rest

/-- The words of a name, capitalized and joined. -/
def camel (s : String) : String :=
  String.ofList (((runs s.toList).flatMap (wordsOfRun .start [])).flatMap capitalized)

end WireTables.Text
