import SmartQ.Lib.Bytes

/-!
# Checksums of boot images

The CRC-32 of zlib and the big-endian words of an image header, as Qi and U-Boot
both read them.
-/

namespace SmartQ.Lib

/-- The four bytes at `o`, most significant first. -/
def be32At (bs : List Byte) (o : ℕ) : ℕ :=
  word32 (byteAt bs (o + 3)) (byteAt bs (o + 2)) (byteAt bs (o + 1)) (byteAt bs o)

/-- One `DO1` of `crc32`: the table entry of a byte is eight steps of the shift
    register. -/
def crcByte (crc : ℕ) (b : Byte) : ℕ :=
  (List.range 8).foldl (fun c _ => if c % 2 = 1 then (c / 2) ^^^ 0xedb88320 else c / 2)
    (crc ^^^ b.toNat)

/-- `crc32(0, buf, len)`: the register starts with all bits set, and they are flipped at the
    end. -/
def crc32 (buf : List Byte) : ℕ := buf.foldl crcByte 0xffffffff ^^^ 0xffffffff

end SmartQ.Lib
