import Mathlib.Algebra.Ring.Nat
import Mathlib.Logic.Function.Basic

/-!
# The heap of `String` objects and text blocks

A `doost::String` holds a tagged pointer to a text block and two links to its neighbours among the
owners of that block; the block holds a pointer to its first owner and the text. This file models
the objects, the blocks and the private operations on them: `attach`, `detach`, `moveFrom`,
`replaceOwner` and `makeBlock`.

A `String*` is an `Option ObjectId` and a `Block*` is an address, with 0 for the null pointer. A
function of the source is a function to `Option Heap`: the value is `none` where the source would
read or write an object or a block that does not exist.
-/

namespace Doost.Strings

/-- `std::uintptr_t`, and the address of a `Block`; 0 is the null pointer. -/
abbrev UIntPtr := BitVec 64

/-- `std::size_t`. -/
abbrev SizeT := BitVec 64

/-- The address of a `String` object. -/
abbrev ObjectId := ℕ

/-- The address of a `std::ostream`. -/
abbrev StreamId := ℕ

/-! ## Objects and blocks -/

/-- `String::TaggedBlockPointer`: the block's address with the uniqueness bit in bit 0. -/
structure TaggedBlockPointer where
  taggedAddress : UIntPtr
deriving DecidableEq, Repr

namespace TaggedBlockPointer

def kUniqueMask : UIntPtr := 1

def kAddressMask : UIntPtr := ~~~kUniqueMask

def pointer (p : TaggedBlockPointer) : UIntPtr := p.taggedAddress &&& kAddressMask

def unique (p : TaggedBlockPointer) : Bool := p.taggedAddress &&& kUniqueMask != 0

def setUnique (p : TaggedBlockPointer) (uniqueBlock : Bool) : TaggedBlockPointer :=
  if uniqueBlock then ⟨p.taggedAddress ||| kUniqueMask⟩ else ⟨p.taggedAddress &&& kAddressMask⟩

/-- What `set` leaves in the pointer, whatever it held. -/
def set (block : UIntPtr) (uniqueBlock : Bool) : TaggedBlockPointer :=
  setUnique ⟨block⟩ uniqueBlock

/-- What `reset` leaves in the pointer, and its default initialiser. -/
def reset : TaggedBlockPointer := ⟨0⟩

end TaggedBlockPointer

/-- A `String` object: `block_`, `previous_` and `next_`. -/
structure StringObject where
  block : TaggedBlockPointer
  previous : Option ObjectId
  next : Option ObjectId
deriving DecidableEq, Repr

/-- A `String` as its member initialisers leave it. -/
def StringObject.null : StringObject := ⟨.reset, none, none⟩

/-- A `Block` and the characters behind it. -/
structure Block where
  first : Option ObjectId
  data : List UInt8
deriving DecidableEq, Repr

/-! ## The debug trace -/

/-- The bytes of an ASCII literal. -/
def ascii (literal : String) : List UInt8 := literal.toList.map fun c => UInt8.ofNat c.toNat

/-- What `print_escaped` writes for one character. -/
def escaped (c : UInt8) : List UInt8 :=
  if [c] = ascii "\\" then ascii "\\\\"
  else if [c] = ascii "\"" then ascii "\\\""
  else if [c] = ascii "\n" then ascii "\\n"
  else if [c] = ascii "\r" then ascii "\\r"
  else if [c] = ascii "\t" then ascii "\\t"
  else [c]

/-- `print_escaped` on the characters from `value` on: it stops at the first zero, and `none`
stands for a read past the last character. -/
def printEscaped : List UInt8 → Option (List UInt8)
  | [] => none
  | c :: value => if c = 0 then some [] else (printEscaped value).map (escaped c ++ ·)

/-- The build's `string_debug_trace_enabled`, the stream in `debug_trace_stream()`, and all that
each stream has received. -/
structure DebugTrace where
  enabled : Bool
  stream : Option StreamId
  output : StreamId → List UInt8

namespace DebugTrace

def write (t : DebugTrace) (stream : StreamId) (bytes : List UInt8) : DebugTrace :=
  { t with output := Function.update t.output stream (t.output stream ++ bytes) }

/-- The trace part of `detach`: the line for a block that is about to be freed. -/
def release (t : DebugTrace) (data : List UInt8) : Option DebugTrace :=
  if t.enabled then
    match t.stream with
    | some stream => do
      let text ← printEscaped data
      return t.write stream (ascii "String release: \"" ++ text ++ ascii "\"\n")
    | none => some t
  else some t

end DebugTrace

/-! ## The heap -/

/-- All that the operations read and write. -/
@[ext]
structure Heap where
  strings : ObjectId → Option StringObject
  blocks : UIntPtr → Option Block
  trace : DebugTrace

namespace Heap

/-- `h` with the objects and blocks that exist changed by `f` and `g`. -/
def mapAll (h : Heap) (f : ObjectId → StringObject → StringObject) (g : UIntPtr → Block → Block) :
    Heap :=
  ⟨fun x => (h.strings x).map (f x), fun b => (h.blocks b).map (g b), h.trace⟩

/-- An assignment to fields of the object at `x`. -/
def modifyString (h : Heap) (x : ObjectId) (f : StringObject → StringObject) : Option Heap :=
  (h.strings x).map fun _ => h.mapAll (fun z s => if z = x then f s else s) fun _ b => b

/-- An assignment to `first` of the block at `block`. -/
def setFirst (h : Heap) (block : UIntPtr) (value : Option ObjectId) : Option Heap :=
  (h.blocks block).map fun _ =>
    h.mapAll (fun _ s => s) fun c b => if c = block then { b with first := value } else b

/-- `previous->next_ = value`, or `block->first = value` when there is no previous owner. -/
def setForward (h : Heap) (block : UIntPtr) (previous value : Option ObjectId) : Option Heap :=
  match previous with
  | some p => h.modifyString p fun s => { s with next := value }
  | none => h.setFirst block value

/-- Assignments to fields of `*p` behind a test that `p` is not null. -/
def modifyPointee (h : Heap) (p : Option ObjectId) (f : StringObject → StringObject) :
    Option Heap :=
  match p with
  | some x => h.modifyString x f
  | none => some h

/-! ## Attaching and detaching -/

/-- `String::attach`. -/
def attach (h : Heap) (this : ObjectId) (block : UIntPtr) : Option Heap := do
  let h ← h.modifyString this fun _ => ⟨.set block false, none, none⟩
  if block = 0 then return h
  let oldFirst := (← h.blocks block).first
  let h ← h.modifyString this fun s => { s with next := oldFirst }
  let h ← h.modifyPointee oldFirst fun s =>
    { s with previous := some this, block := s.block.setUnique false }
  let h ← h.setFirst block (some this)
  h.modifyString this fun s => { s with block := s.block.setUnique oldFirst.isNone }

/-- The end of `detach` for a block without owners: trace, `block->~Block()` and `delete[]`. -/
def releaseBlock (h : Heap) (block : UIntPtr) : Option Heap := do
  let trace ← h.trace.release (← h.blocks block).data
  return { h with blocks := Function.update h.blocks block none, trace := trace }

/-- The second half of `detach`, when the object is out of the chain: the block without owners is
released, and a sole owner gets its uniqueness bit. -/
def settleBlock (h : Heap) (block : UIntPtr) : Option Heap := do
  match (← h.blocks block).first with
  | none => h.releaseBlock block
  | some first =>
    if (← h.strings first).next = none then
      h.modifyString first fun s => { s with block := s.block.setUnique true }
    else return h

/-- `String::detach`. -/
def detach (h : Heap) (this : ObjectId) : Option Heap := do
  let block := (← h.strings this).block.pointer
  if block = 0 then return h
  let h ← h.setForward block (← h.strings this).previous (← h.strings this).next
  let previous := (← h.strings this).previous
  let h ← h.modifyPointee (← h.strings this).next fun s => { s with previous := previous }
  let h ← h.modifyString this fun _ => ⟨.reset, none, none⟩
  h.settleBlock block

/-- `String::replace_owner`. -/
def replaceOwner (h : Heap) (block : UIntPtr) (previous next : Option ObjectId)
    (replacement : ObjectId) : Option Heap := do
  if block = 0 then return h
  let h ← h.setForward block previous (some replacement)
  h.modifyPointee next fun s => { s with previous := some replacement }

/-- `String::move_from`. -/
def moveFrom (h : Heap) (this other : ObjectId) : Option Heap := do
  let tag := (← h.strings other).block
  let h ← h.modifyString this fun s => { s with block := tag }
  let h ← h.modifyString other fun s => { s with block := .reset }
  let previous := (← h.strings other).previous
  let h ← h.modifyString other fun s => { s with previous := none }
  let h ← h.modifyString this fun s => { s with previous := previous }
  let next := (← h.strings other).next
  let h ← h.modifyString other fun s => { s with next := none }
  let h ← h.modifyString this fun s => { s with next := next }
  let s ← h.strings this
  if s.block.pointer = 0 then return h
  h.replaceOwner s.block.pointer s.previous s.next this

/-- `String::swap`. -/
def swap (h : Heap) (this other : ObjectId) : Option Heap := do
  if this = other then return h
  let a ← h.strings this
  let b ← h.strings other
  if a.block.pointer = b.block.pointer then return h
  let h ← h.replaceOwner a.block.pointer a.previous a.next other
  let h ← h.replaceOwner b.block.pointer b.previous b.next this
  let h ← h.modifyString this fun _ => b
  h.modifyString other fun _ => a

/-! ## Texts and new blocks -/

/-- A pointer to characters: into an array that is no block's text, given by the characters from
the pointer to the array's end, or `offset` characters into the text of a block. -/
inductive CharPtr where
  | outside (bytes : List UInt8)
  | inside (block : UIntPtr) (offset : ℕ)
deriving DecidableEq, Repr

/-- The characters from `p` to the end of the array it points into. -/
def charsFrom (h : Heap) : CharPtr → Option (List UInt8)
  | .outside bytes => some bytes
  | .inside block offset => do
    let b ← h.blocks block
    if offset ≤ b.data.length then some (b.data.drop offset) else none

/-- The characters before the first zero. -/
def cText (chars : List UInt8) : List UInt8 := chars.takeWhile (· ≠ 0)

/-- `std::strlen`, with `none` for characters without a zero. -/
def strlen (chars : List UInt8) : Option SizeT :=
  if 0 ∈ chars then some (BitVec.ofNat 64 (cText chars).length) else none

/-- `size` characters from `value` on. A null pointer is only good for none. -/
def readChars (h : Heap) (value : Option CharPtr) (size : SizeT) : Option (List UInt8) :=
  if size = 0 then some []
  else do
    let chars ← h.charsFrom (← value)
    if size.toNat ≤ chars.length then some (chars.take size.toNat) else none

/-- `sizeof(Block)`. -/
def sizeofBlock : SizeT := 8

/-- The number of bytes that `make_block` asks `new` for. -/
def blockBytes (length : SizeT) : SizeT := sizeofBlock + length + 1

/-- A new block without owners at the address `block`. -/
def placeBlock (h : Heap) (block : UIntPtr) (data : List UInt8) : Heap :=
  { h with blocks := Function.update h.blocks block (some ⟨none, data⟩) }

/-- `String::make_block`, where `storage` is what `new char[bytes]` returns, or `none` when it
throws. An exception leaves with the heap as it is then (`.error`). -/
def makeBlock (h : Heap) (value : Option CharPtr) (length : SizeT) (storage : Option UIntPtr) :
    Option (Except Heap (UIntPtr × Heap)) :=
  match storage with
  | none => some (.error h)
  | some block => do
    let text ← h.readChars value length
    -- the text and its zero have to lie in the array that `new` returned
    if (blockBytes length).toNat < sizeofBlock.toNat + length.toNat + 1 then none
    else some (.ok (block, h.placeBlock block (text ++ [0])))

end Heap

end Doost.Strings
