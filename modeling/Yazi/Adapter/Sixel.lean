import Yazi.Base.Sixel
import Yazi.Shared.Numeral

/-!
# Images as sixels

The encoder writes a line for every row of the image, a band of six rows at a time: in each line
the runs of one colour, painted with the one bit of the row. A transparent pixel has the register
0, and the registers of the palette are shifted by one in an image that may have such pixels.
The quantizer is a parameter.
-/
namespace Yazi.Adapter
open Yazi.Base Yazi.Shared

/-- A colour without and with alpha. -/
structure Srgb where
  red : UInt8
  green : UInt8
  blue : UInt8
deriving DecidableEq, Repr

structure Rgba where
  color : Srgb
  alpha : UInt8
deriving DecidableEq, Repr

/-- `DynamicImage`. An image without alpha gives every pixel the full one. -/
structure DynamicImage where
  width : Nat
  height : Nat
  hasAlpha : Bool
  getPixel : Nat → Nat → Rgba
  solid : hasAlpha = false → ∀ x y, (getPixel x y).alpha = 255

structure QuantizeOutput where
  indices : List UInt8
  palette : List Srgb
deriving DecidableEq, Repr

namespace Sixel

inductive Error where
  /-- `image is empty` -/
  | empty
  | quantizer
  /-- An index out of range, or a sum that is no `u8`. -/
  | panic
deriving DecidableEq, Repr

/-- `WuU8x3` and its colour map: the colours and how many the palette may have. -/
abbrev Quantizer := List Srgb → Nat → Except Error QuantizeOutput

variable (wu : Quantizer)

/-- `Sixel::quantify`, of the pixels line by line. -/
def quantify (img : DynamicImage) : Except Error QuantizeOutput :=
  let colors := (List.range img.height).flatMap fun y =>
    (List.range img.width).map fun x => (img.getPixel x y).color
  wu colors (256 - img.hasAlpha.toNat)

/-- The register of a pixel. -/
def index (img : DynamicImage) (qo : QuantizeOutput) (y x : Nat) : Except Error UInt8 :=
  if (img.getPixel x y).alpha = 0 then .ok 0
  else
    match qo.indices[y * img.width + x]? with
    | none => .error .panic
    | some i =>
      if i.toNat + img.hasAlpha.toNat < 256 then .ok (i + UInt8.ofNat img.hasAlpha.toNat)
      else .error .panic

/-- `#{last}!{repeat}{c}`, or `#{last}{c}` -/
def run (last : UInt8) (repeated : Nat) (c : UInt8) : Bytes :=
  if 1 < repeated then
    text "#" ++ Decimal.write last.toNat ++ text "!" ++ Decimal.write repeated ++ [c]
  else text "#" ++ Decimal.write last.toNat ++ [c]

/-- The loop over a line, and the run it ends with. -/
def line (index : Nat → Except Error UInt8) (c : UInt8) :
    List Nat → UInt8 → Nat → Bytes → Except Error Bytes
  | [], last, repeated, buf => .ok (buf ++ run last repeated c)
  | x :: xs, last, repeated, buf =>
    match index x with
    | .error e => .error e
    | .ok idx =>
      if idx = last ∨ repeated = 0 then line index c xs idx (repeated + 1) buf
      else line index c xs idx 1 (buf ++ run last repeated c)

/-- `b'?' + (1 << (y % 6))` -/
def sixel (y : Nat) : UInt8 := (0x3f : UInt8) + UInt8.ofNat (1 <<< (y % 6))

/-- The loop over the lines. -/
def lines (img : DynamicImage) (qo : QuantizeOutput) : List Nat → Bytes → Except Error Bytes
  | [], buf => .ok buf
  | y :: ys, buf =>
    match line (index img qo y) (sixel y) (List.range img.width) 0 0 buf with
    | .error e => .error e
    | .ok buf =>
      let buf := buf ++ text "$"
      lines img qo ys (if y % 6 = 5 then buf ++ text "-" else buf)

/-- `c as u16 * 100 / 255` -/
def percent (c : UInt8) : Nat := c.toNat * 100 / 255

/-- `#{i};2;{red};{green};{blue}` -/
def define (i : Nat) (c : Srgb) : Bytes :=
  text "#" ++ Decimal.write i ++ text ";2;" ++ Decimal.write (percent c.red) ++ text ";" ++
    Decimal.write (percent c.green) ++ text ";" ++ Decimal.write (percent c.blue)

/-- The loop over the palette. -/
def definitions (shift : Nat) (palette : List Srgb) : Bytes :=
  palette.zipIdx.flatMap fun (c, i) => define (i + shift) c

/-- What stands between the introducer of the control string and its terminator. -/
def data (img : DynamicImage) (qo : QuantizeOutput) : Except Error Bytes :=
  let raster := text "\"1;1;" ++ Decimal.write img.width ++ text ";" ++ Decimal.write img.height
  lines img qo (List.range img.height) (raster ++ definitions img.hasAlpha.toNat qo.palette)

/-- How a control string is wrapped for the terminal, or for a multiplexer in between. -/
structure Wrapping where
  start : Bytes
  escape : Bytes
  close : Bytes

def Wrapping.wrap (w : Wrapping) (data : Bytes) : Bytes :=
  w.start ++ text "P9;1q" ++ data ++ w.escape ++ text "\\" ++ w.close

/-- `Sixel::encode` -/
def encode (w : Wrapping) (img : DynamicImage) : Except Error Bytes :=
  if img.width = 0 ∨ img.height = 0 then .error .empty
  else
    match quantify wu img with
    | .error e => .error e
    | .ok qo =>
      match data img qo with
      | .error e => .error e
      | .ok data => .ok (w.wrap data)

end Sixel
end Yazi.Adapter
