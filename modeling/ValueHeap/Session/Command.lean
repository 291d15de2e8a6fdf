import ValueHeap.Equality.Run
import ValueHeap.Hash.Walk
import ValueHeap.Heap.Integer
import ValueHeap.Heap.Layout
import ValueHeap.Number.Operation
import ValueHeap.Print.Layout
import ValueHeap.Print.Value
import ValueHeap.Session.Expr

/-!
# Commands

What a session can do with values, grouped by what it does to the heap: questions leave it alone,
makers give a new value, changes write into a block, and raw writes bypass every rule. No command
consumes its operands.
-/

namespace ValueHeap

/-- What a session takes from outside. -/
structure Settings where
  /-- The seed of the hash. -/
  seed : UInt32
  /-- The levels to which the hash unrolls a value. -/
  depth : Nat
  /-- Where blocks will lie. -/
  address : BlockId → Pattern
  /-- What draws values. -/
  renderer : Renderer

/-- The settings with the given seed and depth. -/
def Settings.usual (seed : UInt32) (depth : Nat) : Settings := ⟨seed, depth, Heap.sequential, .standard⟩

/-- What a command answers. The owner of a value in an answer is whoever asked. -/
inductive Reply where
  | value (w : Word)
  | done
  | truth (b : Bool)
  | size (n : Nat)
  | integer (n : Int)
  | float (t : FloatType) (pattern : Nat)
  | text (s : String)
  | bytes (data : List UInt8)
  | order (o : Option Ordering)
  | number (x : Number)
  | shape (s : Shape)
  /-- A word with its type, and the block if it is a reference. -/
  | contents (w : Word) (type : TypeName) (block : Option Block)
  /-- Live blocks, their bytes, and all allocations so far. -/
  | totals (blocks bytes allocations : Nat)
  deriving Repr, DecidableEq

/-- A question about one value. -/
inductive Query where
  | int (t : IntType)
  | float (t : FloatType)
  | number
  | charCode
  | charValue
  | textLength
  | textBytes
  | textString
  | bufferLength
  | bufferBytes
  | bufferInt (layout : Bytes.IntLayout) (index : Int)
  | bufferFloat (t : FloatType) (index : Int)
  | fieldCount (kind : Kind)
  | shape (kind : Kind)
  | hash
  | hashWith (seed : UInt32)
  | display
  | pretty (colour : Bool)
  | contents
  deriving Repr, DecidableEq

/-- The bytes that a float takes in a buffer. -/
def FloatType.width : FloatType → Nat
  | float32 => 4
  | float64 => 8

def Query.answer (s : Settings) (h : Heap) (w : Word) : Query → Except Error Reply
  | int t => (t.expect w h).map (.integer ·.toInt)
  | float t => (t.expect w h).map (.float t)
  | number => (h.expectNumber w).map .number
  | charCode => (h.charCode w).map .size
  | charValue => (h.charValue w).map (.text ·.toString)
  | textLength => (h.textLength w).map .size
  | textBytes => (h.textBytes w).map .bytes
  | textString => (h.textString w).map .text
  | bufferLength => (h.bufferLength w).map .size
  | bufferBytes => (h.bufferBytes w).map .bytes
  | bufferInt layout index => (h.bufferGetInt layout w index).map .integer
  | bufferFloat t index => (h.bufferGet t.width w index).map (.float t)
  | fieldCount kind => (h.fieldCount kind w).map .size
  | shape kind => (h.shapeOf kind w).map .shape
  | hash => .ok (.size (h.hash s.seed s.depth w).toNat)
  | hashWith seed => .ok (.size (h.hash seed s.depth w).toNat)
  | display => .ok (.text (h.display s.renderer w))
  | pretty colour => .ok (.text (h.pretty s.renderer colour w))
  | contents => .ok (.contents w (h.typeName w) (h.block? w))

/-- A question about two values. -/
inductive PairQuery where
  | same | identical | sameHash | sameNumber | compare
  deriving Repr, DecidableEq

def PairQuery.answer (s : Settings) (h : Heap) (x y : Word) : PairQuery → Except Error Reply
  | same => .ok (.truth (h.same x y))
  | identical => .ok (.truth (x == y))
  | sameHash => .ok (.truth (h.hash s.seed s.depth x == h.hash s.seed s.depth y))
  | sameNumber => .ok (.truth (h.numbersSame x y))
  | compare => (h.compareNumbers x y).map .order

/-- Makes a value from one value. -/
inductive Maker where
  | int (t : IntType) (op : IntUnary)
  | float (t : FloatType) (op : FloatUnary)
  | charText
  | charSucc
  | charPred
  | bufferOfText
  | textOfBuffer
  | bufferCopy
  | bufferSlice (start len : Int)
  | bufferResize (left right : Int)
  | filled (n : Nat)
  | field (kind : Kind) (index : UInt64)
  | hash
  deriving Repr, DecidableEq

def Maker.run (s : Settings) (w : Word) : Maker → Action Word
  | int t op => Action.intUnary t op w
  | float t op => Action.floatUnary t op w
  | charText => Action.charText w
  | charSucc => Action.charSucc w
  | charPred => Action.charPred w
  | bufferOfText => Action.bufferOfText w
  | textOfBuffer => Action.textOfBuffer w
  | bufferCopy => Action.bufferCopy w
  | bufferSlice start len => Action.bufferSlice w start len
  | bufferResize left right => Action.bufferResize w left right
  | filled n => Action.newFilled n w
  | field kind index => Action.getField kind w index
  | hash => Action.newHash s.seed s.depth w

/-- Makes a value from two values. -/
inductive PairMaker where
  | int (t : IntType) (op : IntBinary)
  | intTest (t : IntType) (r : Relation) (signed : Bool)
  | float (t : FloatType) (op : FloatBinary)
  | floatTest (t : FloatType) (r : Relation)
  | parseInteger
  | textConcat
  | bufferConcat
  deriving Repr, DecidableEq

def PairMaker.run (x y : Word) : PairMaker → Action Word
  | int t op => Action.intBinary t op x y
  | intTest t r signed => Action.intTest t r signed x y
  | float t op => Action.floatBinary t op x y
  | floatTest t r => Action.floatTest t r x y
  | parseInteger => Action.parseInteger x y
  | textConcat => Action.textConcat x y
  | bufferConcat => Action.bufferConcat x y

/-- Writes into a value. -/
inductive Change where
  | bufferFill (n : Int)
  | bufferInt (width : Nat) (index value : Int)
  | bufferFloat (t : FloatType) (index : Int) (pattern : Nat)
  deriving Repr, DecidableEq

def Change.run (w : Word) : Change → Action Unit
  | bufferFill n => Action.bufferFill w n
  | bufferInt width index value => Action.bufferSetInt width w index value
  | bufferFloat t index pattern => Action.bufferSet t.width w index pattern

/-- Writes into a value with another one at hand. -/
inductive PairChange where
  | bufferMove (srcIndex dstIndex len : Int)
  | setField (kind : Kind) (index : UInt64)
  deriving Repr, DecidableEq

/-- A stored value gets an owner of its own. -/
def PairChange.run (x y : Word) : PairChange → Action Unit
  | bufferMove srcIndex dstIndex len => Action.bufferMove srcIndex dstIndex len x y
  | setField kind index => do
    Action.update (·.acquire y)
    Action.setField kind x index y

/-- A raw write to a block. -/
inductive RawWrite where
  | header (offset : Nat) (v : UInt32)
  | byte (index : Nat) (v : UInt8)
  deriving Repr, DecidableEq

def RawWrite.patch : RawWrite → Block → Block
  | header offset v => Block.patch offset v
  | byte index v => Block.patchByte index v

inductive Command where
  | build (e : Expr)
  | ask (q : Query) (x : Expr)
  | askPair (q : PairQuery) (x y : Expr)
  | make (op : Maker) (x : Expr)
  | makePair (op : PairMaker) (x y : Expr)
  | change (op : Change) (x : Expr)
  | changePair (op : PairChange) (x y : Expr)
  /-- The number of owners of a value's block, the question's own not counted. -/
  | owners (x : Expr)
  | drop (name : String)
  | totals
  | blank (kind : Kind) (extent : Nat)
  | write (op : RawWrite) (x : Expr)

end ValueHeap
