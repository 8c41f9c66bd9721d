import Datboi.Core.Assemble
import Datboi.Lib.Heap
import Mathlib.Order.Nat

/-!
# The rateless set-reconciliation codec

A set is coded as an endless sequence of cells, each the XOR of the symbols mapped to its
index, the XOR of their checksums and a signed count. The encoder produces one set's
cells in order; the decoder takes another set out of them and peels cells with a single
symbol left, until the difference of the two sets is recovered.

A loop of the source takes a fuel argument here and returns `none` when it runs out.
-/

namespace Datboi.Riblt

variable {w : Nat}

/-- The checksum function, and the floating-point expression of the index mapping, which
computes the distance to the next index from the generator's state and the last index. -/
structure Codec (w : Nat) where
  hashSymbol : BitVec w → BitVec 64
  step : BitVec 64 → Nat → Nat

/-- A source symbol with its checksum. -/
structure HashedSymbol (w : Nat) where
  symbol : BitVec w
  hash : BitVec 64
  deriving DecidableEq, Repr

def HashedSymbol.new (codec : Codec w) (symbol : BitVec w) : HashedSymbol w :=
  ⟨symbol, codec.hashSymbol symbol⟩

/-- One cell. The count is a signed 64-bit integer, which wraps. -/
@[ext]
structure CodedSymbol (w : Nat) where
  symbol : BitVec w := 0
  hash : BitVec 64 := 0
  count : BitVec 64 := 0
  deriving DecidableEq, Repr

abbrev add : Int := 1

abbrev remove : Int := -1

def CodedSymbol.apply (c : CodedSymbol w) (s : HashedSymbol w) (direction : Int) :
    CodedSymbol w where
  symbol := c.symbol ^^^ s.symbol
  hash := c.hash ^^^ s.hash
  count := c.count + BitVec.ofInt 64 direction

/-! ## The index mapping -/

/-- The generator of a symbol's indices, seeded with its checksum. -/
structure RandomMapping where
  prng : BitVec 64
  lastIndex : Nat
  deriving DecidableEq, Repr

instance : Inhabited RandomMapping := ⟨⟨0, 0⟩⟩

instance : Inhabited (HashedSymbol w) := ⟨⟨0, 0⟩⟩

def RandomMapping.seed (hash : BitVec 64) : RandomMapping := ⟨hash, 0⟩

def RandomMapping.nextIndex (codec : Codec w) (m : RandomMapping) : RandomMapping :=
  let prng := m.prng * 0xda942042e4dd58b5
  ⟨prng, saturatingAdd m.lastIndex (codec.step prng m.lastIndex)⟩

/-- A source symbol's next pending index. -/
structure SymbolMapping where
  sourceIdx : Nat
  codedIdx : Nat
  deriving DecidableEq, Repr

instance : Inhabited SymbolMapping := ⟨⟨0, 0⟩⟩

def fixHead (q : List SymbolMapping) : List SymbolMapping :=
  Heap.siftDown SymbolMapping.codedIdx q.length q 0

def fixTail (q : List SymbolMapping) : List SymbolMapping :=
  Heap.siftUp SymbolMapping.codedIdx (q.length - 1) q (q.length - 1)

/-! ## Coding windows -/

/-- A set of source symbols with their mapping state. -/
structure CodingWindow (w : Nat) where
  symbols : List (HashedSymbol w) := []
  mappings : List RandomMapping := []
  queue : List SymbolMapping := []
  nextIdx : Nat := 0
  deriving DecidableEq

namespace CodingWindow

def addHashedSymbolWithMapping (window : CodingWindow w) (t : HashedSymbol w) (m : RandomMapping) :
    CodingWindow w :=
  { window with
    symbols := window.symbols ++ [t]
    mappings := window.mappings ++ [m]
    queue := fixTail (window.queue ++ [⟨window.symbols.length, m.lastIndex⟩]) }

def addHashedSymbol (window : CodingWindow w) (t : HashedSymbol w) : CodingWindow w :=
  window.addHashedSymbolWithMapping t (.seed t.hash)

/-- Step the generator of the queue's head, and restore the heap. -/
def advanceHead (codec : Codec w) (window : CodingWindow w) : CodingWindow w :=
  let head := Heap.look window.queue 0
  let next := (Heap.look window.mappings head.sourceIdx).nextIndex codec
  { window with
    mappings := window.mappings.set head.sourceIdx next
    queue := fixHead (window.queue.set 0 { head with codedIdx := next.lastIndex }) }

/-- Apply the symbols whose next index is the window's, advancing each. -/
def applyLoop (codec : Codec w) (direction : Int) :
    Nat → CodingWindow w → CodedSymbol w → Option (CodedSymbol w × CodingWindow w)
  | 0, _, _ => none
  | fuel + 1, window, cw =>
    let head := Heap.look window.queue 0
    if head.codedIdx = window.nextIdx then
      applyLoop codec direction fuel (window.advanceHead codec)
        (cw.apply (Heap.look window.symbols head.sourceIdx) direction)
    else some (cw, window)

/-- Apply every source symbol mapped to the next index onto a cell, and advance. -/
def applyWindow (codec : Codec w) (fuel : Nat) (window : CodingWindow w) (cw : CodedSymbol w)
    (direction : Int) : Option (CodedSymbol w × CodingWindow w) :=
  if window.queue = [] then some (cw, { window with nextIdx := window.nextIdx + 1 })
  else
    (applyLoop codec direction fuel window cw).map fun (cw, window) =>
      (cw, { window with nextIdx := window.nextIdx + 1 })

end CodingWindow

/-- Keep the first occurrence of each symbol. -/
def dedupLoop : List (BitVec w) → List (BitVec w) → List (BitVec w)
  | _, [] => []
  | seen, symbol :: rest =>
    if symbol ∈ seen then dedupLoop seen rest else symbol :: dedupLoop (symbol :: seen) rest

def dedupSymbols (codec : Codec w) (symbols : List (BitVec w)) : List (HashedSymbol w) :=
  (dedupLoop [] symbols).map (HashedSymbol.new codec)

/-- A window over the distinct symbols of a list. -/
def windowOf (codec : Codec w) (symbols : List (BitVec w)) : CodingWindow w :=
  (dedupSymbols codec symbols).foldl CodingWindow.addHashedSymbol {}

/-! ## Encoder -/

structure Encoder (w : Nat) where
  window : CodingWindow w
  deriving DecidableEq

def Encoder.new (codec : Codec w) (set : List (BitVec w)) : Encoder w := ⟨windowOf codec set⟩

def Encoder.produceNextCodedSymbol (codec : Codec w) (fuel : Nat) (encoder : Encoder w) :
    Option (CodedSymbol w × Encoder w) :=
  (encoder.window.applyWindow codec fuel {} add).map fun (c, window) => (c, ⟨window⟩)

/-- The encoder's next cells, one at a time. -/
def Encoder.produce (codec : Codec w) (fuel : Nat) :
    Nat → Encoder w → Option (List (CodedSymbol w) × Encoder w)
  | 0, encoder => some ([], encoder)
  | n + 1, encoder => do
      let (cells, encoder) ← produce codec fuel n encoder
      let (c, encoder) ← encoder.produceNextCodedSymbol codec fuel
      return (cells ++ [c], encoder)

/-- Apply a symbol to the cells of a block that starts at an index, from the symbol's
pending index on. -/
def encodeSymbol (codec : Codec w) (start : Nat) (hs : HashedSymbol w) :
    Nat → RandomMapping → List (CodedSymbol w) → Option (List (CodedSymbol w))
  | 0, _, _ => none
  | fuel + 1, m, out =>
    if start + out.length ≤ m.lastIndex then some out
    else
      encodeSymbol codec start hs fuel (m.nextIndex codec)
        (if start ≤ m.lastIndex then
          out.set (m.lastIndex - start) ((out.getD (m.lastIndex - start) {}).apply hs add)
        else out)

/-- The cells of a set from an index on, in one pass over the set. -/
def encodeBlock (codec : Codec w) (fuel : Nat) (set : List (BitVec w)) (start len : Nat) :
    Option (List (CodedSymbol w)) :=
  set.foldlM (fun out symbol =>
    let hs := HashedSymbol.new codec symbol
    encodeSymbol codec start hs fuel (.seed hs.hash) out) (List.replicate len {})

/-- Consecutive blocks of given lengths, one after the other. -/
def encodeBlocks (codec : Codec w) (fuel : Nat) (set : List (BitVec w)) :
    Nat → List Nat → Option (List (CodedSymbol w))
  | _, [] => some []
  | start, len :: lens => do
      let block ← encodeBlock codec fuel set start len
      let rest ← encodeBlocks codec fuel set (start + len) lens
      return block ++ rest

/-! ## Decoder -/

/-- Cells received so far, the windows of the symbols recovered on either side and of the
decoder's own set, the cells that can be peeled, and how many were. -/
structure Decoder (w : Nat) where
  cs : List (CodedSymbol w) := []
  localWindow : CodingWindow w := {}
  window : CodingWindow w
  remoteWindow : CodingWindow w := {}
  decodable : List Nat := []
  decodedCount : Nat := 0
  malformed : Bool := false
  deriving DecidableEq

namespace Decoder

def new (codec : Codec w) (prior : List (BitVec w)) : Decoder w where
  window := windowOf codec prior

/-- Every cell received so far has been decoded. -/
def decoded (decoder : Decoder w) : Bool :=
  !decoder.malformed && decoder.decodedCount = decoder.cs.length

def isMalformed (decoder : Decoder w) : Bool := decoder.malformed

/-- Symbols of the encoder's set only. -/
def remote (decoder : Decoder w) : List (BitVec w) :=
  decoder.remoteWindow.symbols.map HashedSymbol.symbol

/-- Symbols of the decoder's set only. -/
def local_ (decoder : Decoder w) : List (BitVec w) :=
  decoder.localWindow.symbols.map HashedSymbol.symbol

/-- A count of one, either way, with a matching checksum. -/
def looksPure (codec : Codec w) (c : CodedSymbol w) : Bool :=
  (c.count = 1 ∨ c.count = -1) ∧ c.hash = codec.hashSymbol c.symbol

/-- Take the next cell of the remote sequence. -/
def addCodedSymbol (codec : Codec w) (fuel : Nat) (decoder : Decoder w) (c : CodedSymbol w) :
    Option (Decoder w) :=
  if decoder.malformed then some decoder
  else do
    let (c, window) ← decoder.window.applyWindow codec fuel c remove
    let (c, remoteWindow) ← decoder.remoteWindow.applyWindow codec fuel c remove
    let (c, localWindow) ← decoder.localWindow.applyWindow codec fuel c add
    return { decoder with
      cs := decoder.cs ++ [c]
      window := window
      remoteWindow := remoteWindow
      localWindow := localWindow
      decodable := if looksPure codec c ∨ (c.count = 0 ∧ c.hash = 0) then
          decoder.decodable ++ [decoder.cs.length]
        else decoder.decodable }

/-- Map a recovered symbol onto the cells it takes part in, from its pending index on. -/
def applyNewLoop (codec : Codec w) (t : HashedSymbol w) (direction : Int) :
    Nat → RandomMapping → List (CodedSymbol w) → List Nat →
      Option (RandomMapping × List (CodedSymbol w) × List Nat)
  | 0, _, _, _ => none
  | fuel + 1, m, cs, decodable =>
    match cs[m.lastIndex]? with
    | none => some (m, cs, decodable)
    | some c =>
      let c := c.apply t direction
      applyNewLoop codec t direction fuel (m.nextIndex codec) (cs.set m.lastIndex c)
        (if looksPure codec c then decodable ++ [m.lastIndex] else decodable)

/-- Map a recovered symbol onto every received cell it takes part in. -/
def applyNewSymbol (codec : Codec w) (fuel : Nat) (decoder : Decoder w) (t : HashedSymbol w)
    (direction : Int) : Option (RandomMapping × Decoder w) :=
  (applyNewLoop codec t direction fuel (.seed t.hash) decoder.cs decoder.decodable).map
    fun (m, cs, decodable) => (m, { decoder with cs := cs, decodable := decodable })

/-- Peel one decodable cell: a single symbol is taken out of every cell it is in and noted
on its side, an empty cell is only counted, and any other count refuses the stream. -/
def peelCell (codec : Codec w) (fuel : Nat) (decoder : Decoder w) (cidx : Nat) :
    Option (Decoder w) :=
  let c := decoder.cs.getD cidx {}
  let ns : HashedSymbol w := ⟨c.symbol, c.hash⟩
  if c.count = 1 then do
    let (m, decoder) ← decoder.applyNewSymbol codec fuel ns remove
    return { decoder with
      remoteWindow := decoder.remoteWindow.addHashedSymbolWithMapping ns m
      decodedCount := decoder.decodedCount + 1 }
  else if c.count = -1 then do
    let (m, decoder) ← decoder.applyNewSymbol codec fuel ns add
    return { decoder with
      localWindow := decoder.localWindow.addHashedSymbolWithMapping ns m
      decodedCount := decoder.decodedCount + 1 }
  else if c.count = 0 then some { decoder with decodedCount := decoder.decodedCount + 1 }
  else some { decoder with malformed := true }

/-- Peel the decodable cells from position `didx` on; the list grows while it is walked. -/
def decodeLoop (codec : Codec w) (loopFuel : Nat) : Nat → Nat → Decoder w → Option (Decoder w)
  | 0, _, _ => none
  | fuel + 1, didx, decoder =>
    match decoder.decodable[didx]? with
    | none => some decoder
    | some cidx => do
        let decoder ← decoder.peelCell codec loopFuel cidx
        if decoder.malformed then return decoder
        decodeLoop codec loopFuel fuel (didx + 1) decoder

/-- Peel every decodable cell, cascading, and clear the list. -/
def tryDecode (codec : Codec w) (fuel : Nat) (decoder : Decoder w) : Option (Decoder w) :=
  if decoder.malformed then some decoder
  else (decodeLoop codec fuel fuel 0 decoder).map fun decoder => { decoder with decodable := [] }

/-- Take cells off the wire, decoding after each. -/
def feed (codec : Codec w) (fuel : Nat) : Decoder w → List (CodedSymbol w) → Option (Decoder w)
  | decoder, [] => some decoder
  | decoder, c :: rest => do
      let decoder ← decoder.addCodedSymbol codec fuel c
      let decoder ← decoder.tryDecode codec fuel
      feed codec fuel decoder rest

end Decoder

/-! ## A reconciliation -/

/-- Feed a decoder the first `k` cells of a set's sequence, decoding after each. -/
def reconcile (codec : Codec w) (fuel : Nat) (set prior : List (BitVec w)) :
    Nat → Option (Encoder w × Decoder w)
  | 0 => some (.new codec set, .new codec prior)
  | k + 1 => do
      let (encoder, decoder) ← reconcile codec fuel set prior k
      let (c, encoder) ← encoder.produceNextCodedSymbol codec fuel
      let decoder ← decoder.addCodedSymbol codec fuel c
      let decoder ← decoder.tryDecode codec fuel
      return (encoder, decoder)

end Datboi.Riblt
