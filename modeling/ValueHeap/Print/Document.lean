/-!
# Documents

Text with possible line breaks and colours. How a document is drawn is up to a `Renderer`: the printer makes
documents and hands them over.
-/

namespace ValueHeap

/-- The colours that texts are given. -/
inductive Colour where
  | cyan | magenta | green
  deriving Repr, DecidableEq

inductive Doc where
  | text (s : String)
  | coloured (colour : Colour) (s : String)
  /-- A space, or a line end in a group that is broken. -/
  | line
  /-- Indents the line ends inside. -/
  | nest (indent : Nat) (d : Doc)
  | group (d : Doc)
  | append (a b : Doc)
  deriving Repr, DecidableEq

/-- The documents with `separator` between them. -/
def Doc.separated (separator : Doc) : List Doc → Doc
  | [] => .text ""
  | [d] => d
  | d :: ds => .append d (.append separator (separated separator ds))

/-- What an output writes to set a colour, and to set it back. -/
structure Palette where
  set : Colour → String
  reset : String

/-- What draws documents. -/
structure Renderer where
  /-- The text of a document, to a line width. -/
  text : Nat → Doc → String
  /-- What is written of a document to an output, to a line width. -/
  write : Palette → Nat → Doc → String
  /-- An output that has no colours. -/
  plain : Palette
  /-- An output that has the colours of a terminal. -/
  terminal : Palette

end ValueHeap
