import LSystem.Raster.Canvas

/-! # Any-map files

A header in text lines, then the rows from the top to the bottom with three bytes for each pixel.
-/

namespace LSystem.Anymap

def header (c : Canvas) : String :=
  "P7\nWIDTH " ++ toString c.width ++ "\nHEIGHT " ++ toString c.height ++
    "\nDEPTH 3\nMAXVAL 255\nTUPLTYPE RGB\nENDHDR\n"

def pushColor (out : ByteArray) (c : Color) : ByteArray :=
  ((out.push c.red).push c.green).push c.blue

def encode (c : Canvas) : ByteArray := c.pixels.foldl pushColor (header c).toUTF8

end LSystem.Anymap
