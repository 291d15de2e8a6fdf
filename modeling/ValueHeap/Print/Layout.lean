import ValueHeap.Print.Document
import ValueHeap.Text.Width

/-!
# Breaking lines

A group is laid out on one line if it fits there together with what follows it up to the next possible break;
otherwise its own breaks become line ends, indented by the enclosing nests.

* `Doc.layout` cuts a document into pieces;
* `Piece.plain` writes a piece, `Piece.painted` writes it with the colours of a palette around coloured texts;
* `Renderer.standard` draws documents in this way.
-/

namespace ValueHeap

/-- A piece of a laid-out document. -/
inductive Piece where
  | text (s : String)
  | coloured (colour : Colour) (s : String)
  /-- A line end and the indentation of the next line. -/
  | newline (indent : Nat)
  deriving Repr, DecidableEq

namespace Doc

/-- The number of constructors. -/
def weight : Doc → Nat
  | text _ | coloured _ _ | line => 1
  | nest _ d | group d => d.weight + 1
  | append a b => a.weight + b.weight + 1

/-- A part of a document that is still to be laid out. -/
structure Pending where
  indent : Nat
  flat : Bool
  doc : Doc
  deriving Repr, DecidableEq

/-- The work left in a list of parts. -/
def pendingWeight (ps : List Pending) : Nat := ps.foldr (fun p n => p.doc.weight + n) 0

/-- Does the text up to the next line end stay within the width, from `column` on? Groups that are
still to come count as broken. -/
def fits (width column : Nat) (ps : List Pending) : Bool :=
  match ps with
  | [] => true
  | ⟨i, flat, d⟩ :: rest =>
    match d with
    | .text s | .coloured _ s =>
      let column := column + Text.displayWidth s
      if width < column then false else fits width column rest
    | .line =>
      if flat then
        if width < column + 1 then false else fits width (column + 1) rest
      else true
    | .nest _ d | .group d => fits width column (⟨i, flat, d⟩ :: rest)
    | .append a b => fits width column (⟨i, flat, a⟩ :: ⟨i, flat, b⟩ :: rest)
termination_by pendingWeight ps
decreasing_by all_goals simp only [pendingWeight, List.foldr_cons, weight]; omega

/-- Lays out the parts after the pieces `done`, which are in reverse. -/
def layoutFrom (width column : Nat) (done : List Piece) (ps : List Pending) : List Piece :=
  match ps with
  | [] => done.reverse
  | ⟨i, flat, d⟩ :: rest =>
    match d with
    | .text s => layoutFrom width (column + Text.displayWidth s) (.text s :: done) rest
    | .coloured c s => layoutFrom width (column + Text.displayWidth s) (.coloured c s :: done) rest
    | .line =>
      if flat then layoutFrom width (column + 1) (.text " " :: done) rest
      else layoutFrom width i (.newline i :: done) rest
    | .nest n d => layoutFrom width column done (⟨i + n, flat, d⟩ :: rest)
    | .group d =>
      let flat := flat || fits width column (⟨i, true, d⟩ :: rest)
      layoutFrom width column done (⟨i, flat, d⟩ :: rest)
    | .append a b => layoutFrom width column done (⟨i, flat, a⟩ :: ⟨i, flat, b⟩ :: rest)
termination_by pendingWeight ps
decreasing_by all_goals simp only [pendingWeight, List.foldr_cons, weight]; omega

/-- The pieces of a document laid out to a width. -/
def layout (width : Nat) (d : Doc) : List Piece := layoutFrom width 0 [] [⟨0, false, d⟩]

end Doc

namespace Piece

/-- A line end and spaces. -/
def breakText (indent : Nat) : String := "\n" ++ String.ofList (List.replicate indent ' ')

/-- The piece without colour. -/
def plain : Piece → String
  | text s | coloured _ s => s
  | newline indent => breakText indent

/-- The piece with the colours of a palette. -/
def painted (palette : Palette) : Piece → String
  | text s => s
  | coloured colour s => palette.set colour ++ s ++ palette.reset
  | newline indent => breakText indent

end Piece

namespace Palette

/-- The palette of an output without colours. -/
def blank : Palette := ⟨fun _ => "", ""⟩

/-- The escape sequence that sets a terminal's text colour back. -/
def resetSequence : String := "\x1b[0m"

/-- The escape sequence that sets a terminal's text colour. -/
def sequence : Colour → String
  | .cyan => "\x1b[36m"
  | .magenta => "\x1b[35m"
  | .green => "\x1b[32m"

/-- The palette of a terminal. What was set before is set back before a colour is set. -/
def ansi : Palette := ⟨fun colour => resetSequence ++ sequence colour, resetSequence⟩

end Palette

/-- Draws documents as they are laid out. -/
def Renderer.standard : Renderer where
  text width d := String.join ((d.layout width).map Piece.plain)
  write palette width d := String.join ((d.layout width).map (Piece.painted palette))
  plain := .blank
  terminal := .ansi

end ValueHeap
