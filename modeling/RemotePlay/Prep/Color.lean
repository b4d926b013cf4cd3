import RemotePlay.Lossless.CopyEncode
import Mathlib.Data.Fin.VecNotation

/-! # Colours

A pixel is expanded to eight bits a channel and converted with tables of fixed-point products. -/

namespace RemotePlay.Prep

open RemotePlay.Lossless

/-- The fraction bits of the products. -/
def SCALEBITS : ℕ := 16
/-- The middle of the range of chroma. -/
def CBCR_OFFSET : ℤ := 128 <<< SCALEBITS
/-- What a product is rounded with. -/
def ONE_HALF : ℕ := 1 <<< (SCALEBITS - 1)

/-- `fix`, of a fraction: half is added to its product with the scale, and the rest cut off. -/
def fix (num den : ℕ) : ℕ := (2 * (num <<< SCALEBITS) + den) / (2 * den)

/-! ### The tables -/

/-- Where the products of red for `Y` are. -/
def R_Y_OFF : ℕ := 0
/-- Where those of green for `Y` are. -/
def G_Y_OFF : ℕ := 1 * 256
/-- Where those of blue for `Y` are. -/
def B_Y_OFF : ℕ := 2 * 256
/-- Where those of red for `Cb` are. -/
def R_CB_OFF : ℕ := 3 * 256
/-- Where those of green for `Cb` are. -/
def G_CB_OFF : ℕ := 4 * 256
/-- Where those of blue for `Cb` are. -/
def B_CB_OFF : ℕ := 5 * 256
/-- One table serves both. -/
def R_CR_OFF : ℕ := B_CB_OFF
/-- Where those of green for `Cr` are. -/
def G_CR_OFF : ℕ := 6 * 256
/-- Where those of blue for `Cr` are. -/
def B_CR_OFF : ℕ := 7 * 256

/-- `rgb_ycc_tab`. -/
def rgbYccTab (k : ℕ) : ℤ :=
  let i : ℤ := (k % 256 : ℕ)
  match k / 256 with
  | 0 => fix 29900 100000 * i
  | 1 => fix 58700 100000 * i
  | 2 => fix 11400 100000 * i + ONE_HALF
  | 3 => -fix 16874 100000 * i
  | 4 => -fix 33126 100000 * i
  | 5 => fix 50000 100000 * i + CBCR_OFFSET + ONE_HALF - 1
  | 6 => -fix 41869 100000 * i
  | _ => -fix 8131 100000 * i

/-- `rb_5_tab`, `g_6_tab` and `rgb_4_tab`, of so many bits. -/
def expandTab (bits i : ℕ) : UInt8 :=
  UInt8.ofNat ((fix (2 ^ 8 - 1) (2 ^ bits - 1) * i + ONE_HALF) >>> SCALEBITS)

/-! ### A pixel -/

/-- Red, green and blue. -/
structure Rgb where
  r : UInt8
  g : UInt8
  b : UInt8
  deriving DecidableEq, Repr

/-- `rgb565_comps`. -/
def rgb565Comps (input : UInt16) : Rgb where
  r := expandTab 5 ((input >>> 11) &&& 0x1f).toNat
  g := expandTab 6 ((input >>> 5) &&& 0x3f).toNat
  b := expandTab 5 (input &&& 0x1f).toNat

/-- `rgb5a1_comps`. -/
def rgb5a1Comps (input : UInt16) : Rgb where
  r := expandTab 5 ((input >>> 11) &&& 0x1f).toNat
  g := expandTab 5 ((input >>> 6) &&& 0x1f).toNat
  b := expandTab 5 ((input >>> 1) &&& 0x1f).toNat

/-- `rgba4_comps`. -/
def rgba4Comps (input : UInt16) : Rgb where
  r := expandTab 4 ((input >>> 12) &&& 0xf).toNat
  g := expandTab 4 ((input >>> 8) &&& 0xf).toNat
  b := expandTab 4 ((input >>> 4) &&& 0xf).toNat

/-- `get_bpp_for_format`. -/
def getBppForFormat : ColorSpace → ℕ
  | .rgba8 => 4
  | .rgb8 => 3
  | _ => 2

/-- What `cconvert` and `cconvert2` take from the bytes of a pixel. -/
def pixelComps (color_space : ColorSpace) (input : ℕ → UInt8) : Rgb :=
  match color_space with
  | .rgba8 => ⟨input 3, input 2, input 1⟩
  | .rgb8 => ⟨input 2, input 1, input 0⟩
  | .rgb565 => rgb565Comps (readU16 input)
  | .rgb5a1 => rgb5a1Comps (readU16 input)
  | .rgb4 => rgba4Comps (readU16 input)

/-- A cast to `u8`. -/
def asU8 (x : ℤ) : UInt8 := UInt8.ofNat (x % 256).toNat

/-- `pconvert`. -/
def pconvert (p : Rgb) : Fin 3 → UInt8 :=
  let ctab (c : UInt8) (off : ℕ) := rgbYccTab (c.toNat + off)
  ![asU8 ((ctab p.r R_Y_OFF + ctab p.g G_Y_OFF + ctab p.b B_Y_OFF) >>> SCALEBITS),
    asU8 ((ctab p.r R_CB_OFF + ctab p.g G_CB_OFF + ctab p.b B_CB_OFF) >>> SCALEBITS),
    asU8 ((ctab p.r R_CR_OFF + ctab p.g G_CR_OFF + ctab p.b B_CR_OFF) >>> SCALEBITS)]

end RemotePlay.Prep
