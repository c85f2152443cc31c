import LaneHash.Compression.Md5
import LaneHash.Compression.Sha1
import LaneHash.Compression.Sha2
import LaneHash.Compression.Sm3

/-!
# Block hash algorithms

Five hash functions of one shape.  Each keeps a chaining state of machine
words, absorbs blocks of a fixed number of bytes, and writes the state of a
padded message out as the digest.  The order in which an algorithm reads words
is also the order in which it writes its digest and its length field.
-/

namespace LaneHash

inductive Algorithm where
  | sha1
  | sha256
  | sha512
  | md5
  | sm3
  deriving DecidableEq, Repr

namespace Algorithm

def name : Algorithm → String
  | sha1 => "sha1"
  | sha256 => "sha256"
  | sha512 => "sha512"
  | md5 => "md5"
  | sm3 => "sm3"

def blockLength : Algorithm → Nat
  | sha1 => 64
  | sha256 => 64
  | sha512 => 128
  | md5 => 64
  | sm3 => 64

def digestLength : Algorithm → Nat
  | sha1 => 20
  | sha256 => 32
  | sha512 => 64
  | md5 => 16
  | sm3 => 32

/-- The number of bytes at the end of a padded message that hold its length. -/
def lengthFieldLength : Algorithm → Nat
  | sha1 => 8
  | sha256 => 8
  | sha512 => 16
  | md5 => 8
  | sm3 => 8

def byteOrder : Algorithm → ByteOrder
  | sha1 => .big
  | sha256 => .big
  | sha512 => .big
  | md5 => .little
  | sm3 => .big

def wordCount : Algorithm → Nat
  | sha1 => 5
  | sha256 => 8
  | sha512 => 8
  | md5 => 4
  | sm3 => 8

def StateWord : Algorithm → Type
  | sha1 => UInt32
  | sha256 => UInt32
  | sha512 => UInt64
  | md5 => UInt32
  | sm3 => UInt32

instance : (algorithm : Algorithm) → Word algorithm.StateWord
  | sha1 => inferInstanceAs (Word UInt32)
  | sha256 => inferInstanceAs (Word UInt32)
  | sha512 => inferInstanceAs (Word UInt64)
  | md5 => inferInstanceAs (Word UInt32)
  | sm3 => inferInstanceAs (Word UInt32)

instance : (algorithm : Algorithm) → LawfulWord algorithm.StateWord
  | sha1 => inferInstanceAs (LawfulWord UInt32)
  | sha256 => inferInstanceAs (LawfulWord UInt32)
  | sha512 => inferInstanceAs (LawfulWord UInt64)
  | md5 => inferInstanceAs (LawfulWord UInt32)
  | sm3 => inferInstanceAs (LawfulWord UInt32)

instance : (algorithm : Algorithm) → DecidableEq algorithm.StateWord
  | sha1 => inferInstanceAs (DecidableEq UInt32)
  | sha256 => inferInstanceAs (DecidableEq UInt32)
  | sha512 => inferInstanceAs (DecidableEq UInt64)
  | md5 => inferInstanceAs (DecidableEq UInt32)
  | sm3 => inferInstanceAs (DecidableEq UInt32)

abbrev State (algorithm : Algorithm) : Type :=
  Vector algorithm.StateWord algorithm.wordCount

def initialState : (algorithm : Algorithm) → algorithm.State
  | sha1 => Sha1.initialState
  | sha256 => Sha256.initialState
  | sha512 => Sha512.initialState
  | md5 => Md5.initialState
  | sm3 => Sm3.initialState

def compress : (algorithm : Algorithm) → algorithm.State → List UInt8 → algorithm.State
  | sha1 => Sha1.compress
  | sha256 => Sha256.compress
  | sha512 => Sha512.compress
  | md5 => Md5.compress
  | sm3 => Sm3.compress

variable (algorithm : Algorithm)

def output (state : algorithm.State) : List UInt8 :=
  state.toList.flatMap (Word.toBytes algorithm.byteOrder)

/-- The whole blocks of a row of bytes; a partial block at its end is left
out. -/
def blocks (bytes : List UInt8) : List (List UInt8) :=
  pieces algorithm.blockLength (bytes.length / algorithm.blockLength) bytes

/-- Absorb the whole blocks of a row of bytes in order. -/
def absorb (state : algorithm.State) (bytes : List UInt8) : algorithm.State :=
  (algorithm.blocks bytes).foldl algorithm.compress state

def statesAlong : algorithm.State → List (List UInt8) → List algorithm.State
  | _, [] => []
  | state, block :: rest =>
      let next := algorithm.compress state block
      next :: statesAlong next rest

/-- The states after each block of a row of bytes that consists of whole
blocks.  A row that ends in a partial block has no such states. -/
def statesAlong? (state : algorithm.State) (bytes : List UInt8) :
    Option (List algorithm.State) :=
  if bytes.length % algorithm.blockLength = 0 then
    some (algorithm.statesAlong state (algorithm.blocks bytes))
  else
    none

theorem blockLength_pos : 0 < algorithm.blockLength := by
  cases algorithm <;> decide

end Algorithm

end LaneHash
