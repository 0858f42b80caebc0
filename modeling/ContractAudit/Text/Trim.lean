import ContractAudit.Text.CharClass

/-!
# Trimming and words

Texts are lists of characters. `trim` drops the blanks at both ends, `words` splits at
stretches of blanks, and `squeeze` writes the words with one space between them.
-/

namespace ContractAudit

/-- The text without the blanks in front. -/
def trimLeft (cs : List Char) : List Char :=
  cs.dropWhile isBlank

/-- The text without the blanks behind. -/
def trimRight (cs : List Char) : List Char :=
  (cs.reverse.dropWhile isBlank).reverse

/-- The text without the blanks at either end. -/
def trim (cs : List Char) : List Char :=
  trimRight (trimLeft cs)

/-- The words of the second text, the first word continuing `word` (kept reversed),
after the words `done` (kept reversed). -/
def wordsAfter (done : List (List Char)) (word : List Char) : List Char → List (List Char)
  | [] => (if word.isEmpty then done else word.reverse :: done).reverse
  | c :: cs =>
    if isBlank c then wordsAfter (if word.isEmpty then done else word.reverse :: done) [] cs
    else wordsAfter done (c :: word) cs

/-- The maximal stretches without blanks, in order. -/
def words (cs : List Char) : List (List Char) :=
  wordsAfter [] [] cs

/-- The words of a text with one space between them. -/
def squeeze (cs : List Char) : List Char :=
  ([' '].intercalate (words cs))

/-- The pieces of the second text between separators, the first piece continuing `piece`
(kept reversed), after the pieces `done` (kept reversed). -/
def splitAfter (isSep : Char → Bool) (done : List (List Char)) (piece : List Char) :
    List Char → List (List Char)
  | [] => (piece.reverse :: done).reverse
  | c :: cs =>
    if isSep c then splitAfter isSep (piece.reverse :: done) [] cs
    else splitAfter isSep done (c :: piece) cs

/-- The pieces of a text between separators, empty ones included. -/
def splitAt (isSep : Char → Bool) (cs : List Char) : List (List Char) :=
  splitAfter isSep [] [] cs

/-- The trimmed pieces that are not empty. -/
def trimmedPieces (pieces : List (List Char)) : List (List Char) :=
  (pieces.map trim).filter (!·.isEmpty)

end ContractAudit
