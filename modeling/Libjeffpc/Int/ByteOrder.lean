import Libjeffpc.Lib.ByteOrder

/-!
# Byte swapping and unaligned loads (`int.h`)

The conversions between the processor's byte order and big endian. They are generated by macros for
the four widths; on a big-endian processor they are the identity.
-/

namespace Libjeffpc.Int

open Lib

def bswap64 (x : UInt64) : UInt64 :=
  ((x &&& 0xff00000000000000) >>> 56) |||
  ((x &&& 0x00ff000000000000) >>> 40) |||
  ((x &&& 0x0000ff0000000000) >>> 24) |||
  ((x &&& 0x000000ff00000000) >>> 8) |||
  ((x &&& 0x00000000ff000000) <<< 8) |||
  ((x &&& 0x0000000000ff0000) <<< 24) |||
  ((x &&& 0x000000000000ff00) <<< 40) |||
  ((x &&& 0x00000000000000ff) <<< 56)

def bswap32 (x : UInt32) : UInt32 :=
  ((x &&& 0xff000000) >>> 24) |||
  ((x &&& 0x00ff0000) >>> 8) |||
  ((x &&& 0x0000ff00) <<< 8) |||
  ((x &&& 0x000000ff) <<< 24)

def bswap16 (x : UInt16) : UInt16 :=
  ((x &&& 0xff00) >>> 8) |||
  ((x &&& 0x00ff) <<< 8)

def bswap8 (x : UInt8) : UInt8 := x &&& 0xff

/-- `cpu64_to_be`. -/
def cpu64ToBe : Endian → UInt64 → UInt64
  | .big, x => x
  | .little, x => bswap64 x

/-- `cpu32_to_be`. -/
def cpu32ToBe : Endian → UInt32 → UInt32
  | .big, x => x
  | .little, x => bswap32 x

/-- `cpu16_to_be`. -/
def cpu16ToBe : Endian → UInt16 → UInt16
  | .big, x => x
  | .little, x => bswap16 x

/-- `cpu8_to_be`. -/
def cpu8ToBe : Endian → UInt8 → UInt8
  | .big, x => x
  | .little, x => bswap8 x

/-- `be64_to_cpu_unaligned` of the bytes at a pointer. -/
def be64ToCpuUnaligned (p : Fin 8 → UInt8) : UInt64 :=
  ((p 0).toUInt64 <<< 56) ||| ((p 1).toUInt64 <<< 48) ||| ((p 2).toUInt64 <<< 40) |||
  ((p 3).toUInt64 <<< 32) ||| ((p 4).toUInt64 <<< 24) ||| ((p 5).toUInt64 <<< 16) |||
  ((p 6).toUInt64 <<< 8) ||| (p 7).toUInt64

/-- `be32_to_cpu_unaligned`. -/
def be32ToCpuUnaligned (p : Fin 4 → UInt8) : UInt32 :=
  ((p 0).toUInt32 <<< 24) ||| ((p 1).toUInt32 <<< 16) ||| ((p 2).toUInt32 <<< 8) ||| (p 3).toUInt32

/-- `be16_to_cpu_unaligned`. -/
def be16ToCpuUnaligned (p : Fin 2 → UInt8) : UInt16 := ((p 0).toUInt16 <<< 8) ||| (p 1).toUInt16

/-- `be8_to_cpu_unaligned`. -/
def be8ToCpuUnaligned (p : Fin 1 → UInt8) : UInt8 := p 0

end Libjeffpc.Int
