import XmlWriter.Content.CharData

/-!
# Comments

A comment may not contain two hyphens in a row and may not end with one. Its text is written like
character data, with references that a reader of comments will show as they stand.
-/

namespace XmlWriter

namespace Comment

/-- The part of a document that the text of a comment is, in messages. -/
def context : Text := Text.ofString "comment"

/-- What is wrong with a text as a comment: first a double hyphen, then a hyphen at the end, then an
illegal character. -/
def flaw? (t : Text) : Option Flaw :=
  if Text.contains (Text.ofString "--") t then some .doubleHyphen
  else if (Text.ofString "-").isSuffixOf t then some .trailingHyphen
  else charFlaw? context t

/-- A text written as a comment. -/
def encode (t : Text) : Text := Text.ofString "<!--" ++ CharData.encode t ++ Text.ofString "-->"

/-- The check of a comment, if checks are enforced. -/
def check (enforce : Bool) (t : Text) : Except Flaw Unit := vet enforce (flaw? t)

end Comment

end XmlWriter
