import LSystem.Raster.Canvas

/-! # Bitmap files

Uncompressed bitmaps with three bytes for each pixel: a file header of 14 bytes, a picture header of
40, and the rows from the bottom to the top, blue before green before red, each row filled up with
zeros to a multiple of four bytes. Numbers are written with the low byte first.
-/

namespace LSystem.Bitmap

def littleEndian : Nat → Nat → List UInt8
  | 0, _ => []
  | n + 1, x => UInt8.ofNat x :: littleEndian n (x / 256)

def padding (width : Nat) : Nat := (4 - 3 * width % 4) % 4

def rowLength (width : Nat) : Nat := 3 * width + padding width

def rowBytes (c : Canvas) : Nat := rowLength c.width * c.height

def headerSize : Nat := 54

/-- Whether the sizes in the headers have 32 bits. -/
def fits (c : Canvas) : Bool :=
  rowLength c.width ≤ 0xffffffff && headerSize + rowBytes c ≤ 0xffffffff

def header (c : Canvas) : List UInt8 :=
  'B'.toUInt8 :: 'M'.toUInt8 ::
    [littleEndian 4 (headerSize + rowBytes c), littleEndian 4 0, littleEndian 4 headerSize,
      littleEndian 4 40, littleEndian 4 c.width, littleEndian 4 c.height, littleEndian 2 1,
      littleEndian 2 24, littleEndian 4 0, littleEndian 4 (rowBytes c),
      List.replicate 16 0].flatten

def pushColor (out : ByteArray) (c : Color) : ByteArray :=
  ((out.push c.blue).push c.green).push c.red

def pushRow (c : Canvas) (out : ByteArray) (i : Nat) : ByteArray :=
  (padding c.width).repeat (·.push 0) (c.pixels.foldl pushColor out i (i + c.width))

/-- Appends the last `n` of the rows that are above row `n`, from the bottom to the top. -/
def pushRows (c : Canvas) : Nat → ByteArray → ByteArray
  | 0, out => out
  | n + 1, out => pushRows c n (pushRow c out (n * c.width))

def encode (c : Canvas) : ByteArray := pushRows c c.height (header c).toByteArray

end LSystem.Bitmap
