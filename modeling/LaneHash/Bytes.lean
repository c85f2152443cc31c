/-!
# Numbers as bytes

Hash functions read words from bytes, write words to bytes, and close a message
with its length.  All three are one conversion between a number and a fixed
count of bytes, in one of two orders.  Decoding what was encoded gives the
number back when it fits, and otherwise the number cut to the field.
-/

namespace LaneHash

/-- The order in which the bytes of a number are written, by the end that comes first. -/
inductive ByteOrder where
  | big
  | little
  deriving DecidableEq, Repr

def littleEndianValue : List UInt8 → Nat
  | [] => 0
  | byte :: rest => byte.toNat + 256 * littleEndianValue rest

/-- The lowest `count` bytes of a number, least significant first. -/
def littleEndianBytes : (count value : Nat) → List UInt8
  | 0, _ => []
  | count + 1, value => UInt8.ofNat value :: littleEndianBytes count (value / 256)

/-- How many numbers fit in `count` bytes. -/
def byteRange : (count : Nat) → Nat
  | 0 => 1
  | count + 1 => 256 * byteRange count

@[simp]
theorem length_littleEndianBytes (count value : Nat) :
    (littleEndianBytes count value).length = count := by
  induction count generalizing value with
  | zero => rfl
  | succ count ih => simp [littleEndianBytes, ih]

theorem littleEndianValue_littleEndianBytes (count value : Nat) :
    littleEndianValue (littleEndianBytes count value) = value % byteRange count := by
  induction count generalizing value with
  | zero => simp [littleEndianBytes, littleEndianValue, byteRange, Nat.mod_one]
  | succ count ih =>
      have split : value % byteRange (count + 1) =
          value % 256 + 256 * (value / 256 % byteRange count) := by
        rw [byteRange, Nat.mod_mul]
      simp [littleEndianBytes, littleEndianValue, ih, split]

theorem littleEndianBytes_littleEndianValue (bytes : List UInt8) :
    littleEndianBytes bytes.length (littleEndianValue bytes) = bytes := by
  induction bytes with
  | nil => rfl
  | cons byte rest ih =>
      have byteBound := byte.toNat_lt
      have head : UInt8.ofNat (byte.toNat + 256 * littleEndianValue rest) = byte := by
        apply UInt8.toNat_inj.mp
        simp only [UInt8.toNat_ofNat']
        omega
      have tail : (byte.toNat + 256 * littleEndianValue rest) / 256 =
          littleEndianValue rest := by
        omega
      simp only [List.length_cons, littleEndianBytes, littleEndianValue, head, tail, ih]

namespace ByteOrder

def encode : ByteOrder → (count value : Nat) → List UInt8
  | big, count, value => (littleEndianBytes count value).reverse
  | little, count, value => littleEndianBytes count value

def decode : ByteOrder → List UInt8 → Nat
  | big, bytes => littleEndianValue bytes.reverse
  | little, bytes => littleEndianValue bytes

@[simp]
theorem length_encode (order : ByteOrder) (count value : Nat) :
    (order.encode count value).length = count := by
  cases order <;> simp [encode]

theorem decode_encode (order : ByteOrder) (count value : Nat) :
    order.decode (order.encode count value) = value % byteRange count := by
  cases order <;> simp [encode, decode, littleEndianValue_littleEndianBytes]

theorem encode_decode (order : ByteOrder) (bytes : List UInt8) :
    order.encode bytes.length (order.decode bytes) = bytes := by
  cases order with
  | big =>
      have reversed := littleEndianBytes_littleEndianValue bytes.reverse
      rw [List.length_reverse] at reversed
      simp [encode, decode, reversed]
  | little => exact littleEndianBytes_littleEndianValue bytes

end ByteOrder

/-- Write bytes over a row of bytes from a position on, keeping what lies
before and behind them. -/
def overwrite (row : List UInt8) (position : Nat) (bytes : List UInt8) : List UInt8 :=
  row.take position ++ bytes ++ row.drop (position + bytes.length)

theorem length_overwrite {row bytes : List UInt8} {position : Nat}
    (within : position + bytes.length ≤ row.length) :
    (overwrite row position bytes).length = row.length := by
  simp only [overwrite, List.length_append, List.length_take, List.length_drop]
  omega

/-- The first `count` pieces of `size` bytes each. -/
def pieces (size : Nat) : (count : Nat) → List UInt8 → List (List UInt8)
  | 0, _ => []
  | count + 1, bytes => bytes.take size :: pieces size count (bytes.drop size)

@[simp]
theorem length_pieces (size count : Nat) (bytes : List UInt8) :
    (pieces size count bytes).length = count := by
  induction count generalizing bytes with
  | zero => rfl
  | succ count ih => simp [pieces, ih]

end LaneHash
