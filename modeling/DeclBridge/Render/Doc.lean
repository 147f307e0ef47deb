import DeclBridge.Decl.Basic
import DeclBridge.Text.Blank
import DeclBridge.Text.Split

/-!
Doc lines: comments as they stand in front of Rust items.
-/

namespace DeclBridge.Comment

/-- The text of a block comment between its delimiters; a text without both is taken as a whole. -/
def body (text : List Char) : List Char :=
  match text with
  | '/' :: '*' :: rest =>
      if ['*', '/'].isSuffixOf rest then rest.take (rest.length - 2) else text
  | _ => text

/-- The list without the empty lines at its beginning and its end. -/
def dropEmptyEnds (lines : List (List Char)) : List (List Char) :=
  (((lines.dropWhile List.isEmpty).reverse).dropWhile List.isEmpty).reverse

/-- The doc lines of a comment. A line comment keeps its text; of a block comment each line loses
the white space around it, and empty lines count only between others. -/
def docLines (c : Comment) : List String :=
  match c.text.toList with
  | '/' :: '/' :: rest => [String.ofList ('/' :: '/' :: '/' :: rest)]
  | text =>
      (dropEmptyEnds ((Text.split '\n' (body text)).map Text.trim)).map fun line =>
        if line = [] then "///" else String.ofList ('/' :: '/' :: '/' :: ' ' :: line)

end DeclBridge.Comment

namespace DeclBridge

/-- The doc lines of comments, the trailing one last. -/
def docLines (comments : List Comment) (trailing : Option Comment) : List String :=
  (comments ++ trailing.toList).flatMap Comment.docLines

end DeclBridge
