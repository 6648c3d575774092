import MiniLevelDb.Util.Coding

/-!
# The hash of a byte string
-/

namespace MiniLevelDb

/-- The last byte that `Hash` adds, and the mixing after it. -/
def hashByte (h : BitVec 32) (byte0 : Byte) : BitVec 32 :=
  let h := (h + byte0.setWidth 32) * 0xc6a4a793
  h ^^^ (h >>> 24)

/-- The switch at the end of `Hash`, over the bytes that do not fill a word. -/
def hashRest (h : BitVec 32) : Slice → BitVec 32
  | [] => h
  | [byte0] => hashByte h byte0
  | [byte0, byte1] => hashByte (h + (byte1.setWidth 32 <<< 8)) byte0
  | byte0 :: byte1 :: byte2 :: _ =>
      hashByte (h + (byte2.setWidth 32 <<< 16) + (byte1.setWidth 32 <<< 8)) byte0

/-- The loop of `Hash`, four bytes at a time. -/
def hashLoop (h : BitVec 32) : Slice → BitVec 32
  | byte0 :: byte1 :: byte2 :: byte3 :: rest =>
      let h := (h + decodeFixed32 [byte0, byte1, byte2, byte3]) * 0xc6a4a793
      hashLoop (h ^^^ (h >>> 16)) rest
  | data => hashRest h data

/-- `Hash`. -/
def hash (data : Slice) (seed : BitVec 32) : BitVec 32 :=
  hashLoop (seed ^^^ (BitVec.ofNat 32 data.length * 0xc6a4a793)) data

end MiniLevelDb
