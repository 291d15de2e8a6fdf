import Std.Data.HashSet
import ValueHeap.Number.Boxed
import ValueHeap.Number.Text
import ValueHeap.Print.Document

/-!
# Printing values

Composites are printed with their fields in brackets, down to a number of levels. Below that they print
as an ellipsis; a composite inside itself prints as a cycle.

The printer keeps the set of the composites that it is inside of. A composite enters the set before its
fields are printed and leaves it afterwards, so that it can be printed again beside itself, but not inside.
-/

namespace ValueHeap

/-- The line width that values are laid out to. -/
def printWidth : Nat := 70

/-- Composites print their fields down to this depth. -/
def printDepth : Nat := 64

/-- The text of an immediate that is no number. -/
def Pattern.text (p : Pattern) : String :=
  if p = truth then "true"
  else if p = falsehood then "false"
  else if p.isVoid then "()"
  else if p.isEmpty then "<empty>"
  else "<unknown>"

/-- The brackets of a composite. -/
def Shape.brackets : Shape → String × String
  | .tuple => ("(", ")")
  | .array => ("[> ", "]")
  | .record module type =>
    ("<record " ++ toString module.toNat ++ ":" ++ toString type.toNat ++ ">\x7b", "\x7d")
  | .variant module type index =>
    ("<variant " ++ toString module.toNat ++ ":" ++ toString type.toNat ++ ":" ++
      toString index.toNat ++ ">(", ")")
  | .closure .. => ("<lambda>", "")

/-- The text of a byte buffer. -/
def bufferText (data : List UInt8) : String :=
  "<bytes" ++ String.join (data.map fun b => " " ++ Text.hexPadded 2 b.toNat) ++ ">"

/-- The document of a packed character. -/
def charDoc (packed : UInt32) : Doc :=
  match (Utf8.unpack packed).toOption.bind Utf8.char? with
  | some c => .coloured .green (Text.quoteChar c)
  | none => .text "<malformed char>"

/-- A composite with the documents of its fields. -/
def compositeDoc (shape : Shape) (fields : List Doc) : Doc :=
  let (opening, closing) := shape.brackets
  .append (.text opening)
    (.append (.group (.nest 2 (Doc.separated (.append (.text ",") .line) fields))) (.text closing))

namespace Heap

/-- The document of a value. `levels` is how many levels of composites may be printed in full; the state
is the set of composites around the value. -/
def document (h : Heap) (levels : Nat) (w : Word) : StateM (Std.HashSet BlockId) Doc :=
  match h.number? w, w with
  | some x, _ => return .coloured .cyan x.text
  | none, .immediate p => return .coloured .magenta p.text
  | none, .reference b =>
    match h.block? w with
    | none => return .text "<unknown>"
    | some (.text bs) => return .coloured .green (Text.quoteText (Utf8.decodeLossy bs))
    | some (.bytes data) => return .text (bufferText data)
    | some (.char packed) => return charDoc packed
    | some (.number ..) => return .text "<number>"
    | some (.composite (.closure ..) _) => return .text "<lambda>"
    | some (.composite shape fields) =>
      match levels with
      | 0 => return .text "..."
      | levels + 1 => do
        if b ∈ (← get) then return .text "<cycle>"
        modify (·.insert b)
        let docs ← fields.mapM fun x => h.document levels x
        modify (·.erase b)
        return compositeDoc shape docs

/-- The document of a value that stands alone. -/
def print (h : Heap) (w : Word) : Doc := (h.document printDepth w ∅).1

/-- The text of a value, as `r` draws it. -/
def display (h : Heap) (r : Renderer) (w : Word) : String := r.text printWidth (h.print w)

/-- What `r` writes of a value, coloured for a terminal or plain. -/
def pretty (h : Heap) (r : Renderer) (colour : Bool) (w : Word) : String :=
  r.write (if colour then r.terminal else r.plain) printWidth (h.print w)

end Heap

end ValueHeap
