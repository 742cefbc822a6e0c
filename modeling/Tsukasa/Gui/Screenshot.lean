import Tsukasa.Gui.Wm
import Tsukasa.Lib.Bytes
import Tsukasa.Lib.Rows

/-!
# Screenshots

`save_screenshot_bmp` of `gfx/desktop.c` and `bmp_decode` of `gfx/bmp.c`. The framebuffer is a byte memory from `fb_info.addr` on, a file is the list of its bytes, and every write and every allocation succeeds.
-/

namespace Tsukasa

/-! ### Words in a buffer -/

def writeU16le (buf : List UInt8) (off v : Nat) : List UInt8 := (buf.set off (UInt8.ofNat (v &&& 0xFF))).set (off + 1) (UInt8.ofNat ((v >>> 8) &&& 0xFF))

def writeU32le (buf : List UInt8) (off v : Nat) : List UInt8 :=
  (((buf.set off (UInt8.ofNat (v &&& 0xFF))).set (off + 1) (UInt8.ofNat ((v >>> 8) &&& 0xFF))).set (off + 2)
    (UInt8.ofNat ((v >>> 16) &&& 0xFF))).set (off + 3) (UInt8.ofNat ((v >>> 24) &&& 0xFF))

def byteAt (data : List UInt8) (off : Nat) : Nat := (data.getD off 0).toNat

def u16le (data : List UInt8) (off : Nat) : Nat := byteAt data off ||| byteAt data (off + 1) <<< 8

def u32le (data : List UInt8) (off : Nat) : Nat :=
  byteAt data off ||| byteAt data (off + 1) <<< 8 ||| byteAt data (off + 2) <<< 16 ||| byteAt data (off + 3) <<< 24

/-! ### Saving -/

def bmpHeader (w h fileBytes imageBytes : Nat) : List UInt8 :=
  let hdr := List.replicate 54 0
  let hdr := (hdr.set 0 66).set 1 77
  let hdr := writeU32le hdr 2 fileBytes
  let hdr := writeU32le hdr 10 54
  let hdr := writeU32le hdr 14 40
  let hdr := writeU32le hdr 18 w
  let hdr := writeU32le hdr 22 h
  let hdr := writeU16le hdr 26 1
  let hdr := writeU16le hdr 28 32
  writeU32le hdr 34 imageBytes

/-- The bytes that `save_screenshot_bmp` writes. -/
def saveScreenshotBmp (fb : FbInfo) (pixels : Lib.Memory) : Option (List UInt8) :=
  let rowBytes := wrap32 (fb.width * 4)
  let imageBytes := wrap32 (rowBytes * fb.height)
  let fileBytes := wrap32 (54 + imageBytes)
  if fb.addr = 0 ∨ fb.bpp ≠ 32 then none
  else
    let rows := (Lib.downFrom (toInt32 fb.height).toNat).flatMap fun y =>
      (List.range rowBytes).map fun i => pixels (wrap32 (y * fb.pitch) + i)
    some (bmpHeader fb.width fb.height fileBytes imageBytes ++ rows)

/-! ### Decoding -/

/-- What `bmp_decode` returns: `*out_w`, `*out_h` and the pixels, a row after another from the top. -/
structure BmpImage where
  w : Int
  h : Int
  pixels : List Nat

/-- The loops of `bmp_decode`. -/
def decodePixels (data : List UInt8) (pixelOffset rowStride bytesPerPx imgW imgH : Nat) (bpp : Nat) (bottomUp : Bool) : List Nat :=
  (List.range imgH).flatMap fun row =>
    let bmpRow := if bottomUp then imgH - 1 - row else row
    let src := pixelOffset + bmpRow * rowStride
    (List.range imgW).map fun col =>
      let p := src + col * bytesPerPx
      let a := if bpp = 32 then byteAt data (p + 3) else 0xFF
      a <<< 24 ||| byteAt data (p + 2) <<< 16 ||| byteAt data (p + 1) <<< 8 ||| byteAt data p

def bmpDecode (data : List UInt8) : Option BmpImage :=
  let size := data.length
  if size < 18 then none
  else if byteAt data 0 ≠ 66 ∨ byteAt data 1 ≠ 77 then none
  else
    let pixelOffset := u32le data 10
    if size ≤ pixelOffset then none
    else
      let bihSize := u32le data 14
      if size < wrap32 (14 + bihSize) then none
      else
        let bmpW := toInt32 (u32le data 18)
        let bmpH := toInt32 (u32le data 22)
        let bpp := u16le data 28
        let compr := if 20 ≤ bihSize then u32le data 30 else 0
        if bmpW ≤ 0 ∨ 4096 < bmpW ∨ bmpH = 0 ∨ bmpH < -4096 then none
        else if bpp ≠ 24 ∧ bpp ≠ 32 then none
        else if compr ≠ 0 ∧ compr ≠ 3 then none
        else
          let bottomUp := decide (0 < bmpH)
          let imgW := bmpW.toNat
          let imgH := bmpH.natAbs
          let bytesPerPx := bpp / 8
          let rowStride := (imgW * bytesPerPx + 3) / 4 * 4
          if size < pixelOffset + rowStride * imgH then none
          else some ⟨bmpW, bmpH.natAbs, decodePixels data pixelOffset rowStride bytesPerPx imgW imgH bpp bottomUp⟩

/-! ### Words -/

theorem byte_of (v k : Nat) : (UInt8.ofNat ((v >>> k) &&& 0xFF)).toNat = v / 2 ^ k % 256 := by
  rw [UInt8.toNat_ofNat', Nat.shiftRight_eq_div_pow, show 0xFF = 2 ^ 8 - 1 from rfl, Nat.and_two_pow_sub_one_eq_mod]
  omega

theorem byte_low (v : Nat) : (UInt8.ofNat (v &&& 0xFF)).toNat = v % 256 := by
  rw [UInt8.toNat_ofNat', show 0xFF = 2 ^ 8 - 1 from rfl, Nat.and_two_pow_sub_one_eq_mod]
  omega

theorem byteAt_lt (data : List UInt8) (off : Nat) : byteAt data off < 256 := (data.getD off 0).toNat_lt

/-- Four bytes put together, whichever comes first. -/
theorem or_bytes {b0 b1 b2 b3 : Nat} (h0 : b0 < 256) (h1 : b1 < 256) (h2 : b2 < 256) :
    b0 ||| b1 <<< 8 ||| b2 <<< 16 ||| b3 <<< 24 = b0 + 256 * (b1 + 256 * (b2 + 256 * b3)) := by
  have hshift1 : b1 <<< 8 = b1 * 256 := Nat.shiftLeft_eq b1 8
  have hshift2 : b2 <<< 16 = b2 * 65536 := Nat.shiftLeft_eq b2 16
  have hshift3 : b3 <<< 24 = b3 * 16777216 := Nat.shiftLeft_eq b3 24
  have hor1 : b0 ||| b1 <<< 8 = b1 <<< 8 + b0 := by rw [Nat.or_comm, Nat.shiftLeft_add_eq_or_of_lt h0]
  have hor2 : (b1 <<< 8 + b0) ||| b2 <<< 16 = b2 <<< 16 + (b1 <<< 8 + b0) := by
    rw [Nat.or_comm, Nat.shiftLeft_add_eq_or_of_lt (show b1 <<< 8 + b0 < 2 ^ 16 by omega)]
  have hor3 : (b2 <<< 16 + (b1 <<< 8 + b0)) ||| b3 <<< 24 = b3 <<< 24 + (b2 <<< 16 + (b1 <<< 8 + b0)) := by
    rw [Nat.or_comm, Nat.shiftLeft_add_eq_or_of_lt (show b2 <<< 16 + (b1 <<< 8 + b0) < 2 ^ 24 by omega)]
  rw [hor1, hor2, hor3]
  omega

theorem u32le_eq (data : List UInt8) (off : Nat) :
    u32le data off = byteAt data off + 256 * (byteAt data (off + 1) + 256 * (byteAt data (off + 2) + 256 * byteAt data (off + 3))) :=
  or_bytes (byteAt_lt _ _) (byteAt_lt _ _) (byteAt_lt _ _)

theorem byteAt_set (data : List UInt8) (i j : Nat) (b : UInt8) :
    byteAt (data.set i b) j = if i = j ∧ i < data.length then b.toNat else byteAt data j := by
  rw [byteAt, List.getD_eq_getElem?_getD, List.getElem?_set, byteAt, List.getD_eq_getElem?_getD]
  by_cases hij : i = j
  · subst hij
    by_cases hlen : i < data.length
    · simp [hlen]
    · simp [hlen]
  · simp [hij]

theorem byteAt_append {data : List UInt8} {off : Nat} (h : off < data.length) (rest : List UInt8) : byteAt (data ++ rest) off = byteAt data off := by
  rw [byteAt, byteAt, List.getD_eq_getElem?_getD, List.getD_eq_getElem?_getD, List.getElem?_append_left h]

section words

variable {buf : List UInt8} {off off' v : Nat}

@[simp] theorem writeU32le_length : (writeU32le buf off v).length = buf.length := by simp [writeU32le]

@[simp] theorem writeU16le_length : (writeU16le buf off v).length = buf.length := by simp [writeU16le]

theorem byteAt_writeU32le (h : off' < off ∨ off + 4 ≤ off') : byteAt (writeU32le buf off v) off' = byteAt buf off' := by
  simp only [writeU32le, byteAt_set]
  rw [if_neg (by omega), if_neg (by omega), if_neg (by omega), if_neg (by omega)]

theorem byteAt_writeU16le (h : off' < off ∨ off + 2 ≤ off') : byteAt (writeU16le buf off v) off' = byteAt buf off' := by
  simp only [writeU16le, byteAt_set]
  rw [if_neg (by omega), if_neg (by omega)]

/-- A word that was written is read again. -/
theorem u32le_writeU32le (hroom : off + 4 ≤ buf.length) (hv : v < 2 ^ 32) : u32le (writeU32le buf off v) off = v := by
  have h0 : byteAt (writeU32le buf off v) off = v % 256 := by
    rw [writeU32le, byteAt_set, if_neg (by omega), byteAt_set, if_neg (by omega), byteAt_set, if_neg (by omega), byteAt_set,
      if_pos ⟨rfl, by omega⟩, byte_low]
  have h1 : byteAt (writeU32le buf off v) (off + 1) = v / 2 ^ 8 % 256 := by
    rw [writeU32le, byteAt_set, if_neg (by omega), byteAt_set, if_neg (by omega), byteAt_set, List.length_set, if_pos ⟨rfl, by omega⟩, byte_of]
  have h2 : byteAt (writeU32le buf off v) (off + 2) = v / 2 ^ 16 % 256 := by
    rw [writeU32le, byteAt_set, if_neg (by omega), byteAt_set, List.length_set, List.length_set, if_pos ⟨rfl, by omega⟩, byte_of]
  have h3 : byteAt (writeU32le buf off v) (off + 3) = v / 2 ^ 24 % 256 := by
    rw [writeU32le, byteAt_set, List.length_set, List.length_set, List.length_set, if_pos ⟨rfl, by omega⟩, byte_of]
  rw [u32le_eq, h0, h1, h2, h3]
  omega

theorem u32le_writeU32le_of_disjoint (h : off' + 4 ≤ off ∨ off + 4 ≤ off') : u32le (writeU32le buf off v) off' = u32le buf off' := by
  rw [u32le, u32le, byteAt_writeU32le (by omega), byteAt_writeU32le (by omega), byteAt_writeU32le (by omega), byteAt_writeU32le (by omega)]

theorem u32le_writeU16le_of_disjoint (h : off' + 4 ≤ off ∨ off + 2 ≤ off') : u32le (writeU16le buf off v) off' = u32le buf off' := by
  rw [u32le, u32le, byteAt_writeU16le (by omega), byteAt_writeU16le (by omega), byteAt_writeU16le (by omega), byteAt_writeU16le (by omega)]

theorem u32le_append (h : off + 4 ≤ buf.length) (rest : List UInt8) : u32le (buf ++ rest) off = u32le buf off := by
  rw [u32le, u32le, byteAt_append (by omega), byteAt_append (by omega), byteAt_append (by omega), byteAt_append (by omega)]

end words

/-! ### The header -/

section header

variable (w h fileBytes imageBytes : Nat) (rest : List UInt8)

theorem bmpHeader_length : (bmpHeader w h fileBytes imageBytes).length = 54 := by simp [bmpHeader]

theorem bmpHeader_magic : byteAt (bmpHeader w h fileBytes imageBytes ++ rest) 0 = 66 ∧ byteAt (bmpHeader w h fileBytes imageBytes ++ rest) 1 = 77 := by
  have hlen := bmpHeader_length w h fileBytes imageBytes
  rw [byteAt_append (by omega), byteAt_append (by omega), bmpHeader]
  constructor
  all_goals
    simp (disch := decide) only [byteAt_writeU32le, byteAt_writeU16le]
    rfl

theorem bmpHeader_words (hw : w < 2 ^ 32) (hh : h < 2 ^ 32) : u32le (bmpHeader w h fileBytes imageBytes ++ rest) 10 = 54 ∧
    u32le (bmpHeader w h fileBytes imageBytes ++ rest) 14 = 40 ∧ u32le (bmpHeader w h fileBytes imageBytes ++ rest) 18 = w ∧
      u32le (bmpHeader w h fileBytes imageBytes ++ rest) 22 = h ∧ u32le (bmpHeader w h fileBytes imageBytes ++ rest) 30 = 0 := by
  have hlen := bmpHeader_length w h fileBytes imageBytes
  rw [u32le_append (by omega), u32le_append (by omega), u32le_append (by omega), u32le_append (by omega), u32le_append (by omega), bmpHeader]
  refine ⟨?_, ?_, ?_, ?_, ?_⟩
  · simp (disch := omega) only [u32le_writeU32le_of_disjoint, u32le_writeU16le_of_disjoint]
    exact u32le_writeU32le (by simp) (by decide)
  · simp (disch := omega) only [u32le_writeU32le_of_disjoint, u32le_writeU16le_of_disjoint]
    exact u32le_writeU32le (by simp) (by decide)
  · simp (disch := omega) only [u32le_writeU32le_of_disjoint, u32le_writeU16le_of_disjoint]
    exact u32le_writeU32le (by simp) hw
  · simp (disch := omega) only [u32le_writeU32le_of_disjoint, u32le_writeU16le_of_disjoint]
    exact u32le_writeU32le (by simp) hh
  · simp (disch := omega) only [u32le_writeU32le_of_disjoint, u32le_writeU16le_of_disjoint]
    rfl

theorem bmpHeader_bpp : u16le (bmpHeader w h fileBytes imageBytes ++ rest) 28 = 32 := by
  have hlen := bmpHeader_length w h fileBytes imageBytes
  rw [u16le, byteAt_append (by omega), byteAt_append (by omega), bmpHeader, byteAt_writeU32le (by omega), byteAt_writeU32le (by omega), writeU16le]
  simp [byteAt_set]

end header

/-! ### Round trip -/

/-- The 32-bit pixel of the framebuffer, little-endian. -/
def fbPixel (fb : FbInfo) (pixels : Lib.Memory) (x y : Nat) : Nat := pixels.load (y * fb.pitch + 4 * x) 4

def bmpRows (fb : FbInfo) (pixels : Lib.Memory) : List UInt8 :=
  (Lib.downFrom fb.height).flatMap fun y => (List.range (fb.width * 4)).map fun i => pixels (wrap32 (y * fb.pitch) + i)

variable {fb : FbInfo} {pixels : Lib.Memory}

theorem bmpRows_length : (bmpRows fb pixels).length = fb.height * (fb.width * 4) := by
  rw [bmpRows, Lib.length_flatMap_rows (n := fb.width * 4) fun y _ => by simp, Lib.length_downFrom]

/-- Where byte `i` of row `y` is in the file. -/
theorem bmpRows_byte {hdr : List UInt8} (hhdr : hdr.length = 54) {y i : Nat} (hy : y < fb.height) (hi : i < fb.width * 4)
    (hoffset : y * fb.pitch < 2 ^ 32) :
    byteAt (hdr ++ bmpRows fb pixels) (54 + (fb.height - 1 - y) * (fb.width * 4) + i) = (pixels (y * fb.pitch + i)).toNat := by
  have hrow : (bmpRows fb pixels)[(fb.height - 1 - y) * (fb.width * 4) + i]? = some (pixels (y * fb.pitch + i)) := by
    rw [bmpRows, Lib.getElem?_flatMap_rows (fun y _ => by simp) _ hi, Lib.getElem?_downFrom (by omega), Option.bind_some,
      show fb.height - 1 - (fb.height - 1 - y) = y by omega, wrap32_of_lt hoffset]
    simp [hi]
  rw [byteAt, List.getD_eq_getElem?_getD, Nat.add_assoc, ← hhdr, List.getElem?_append_right (by omega), Nat.add_sub_cancel_left, hrow, Option.getD_some]

theorem saveScreenshotBmp_eq (haddr : fb.addr ≠ 0) (hbpp : fb.bpp = 32) (hheight : fb.height < 2 ^ 31) (hwidth : fb.width ≤ 4096) : ∃ fileBytes imageBytes,
      saveScreenshotBmp fb pixels = some (bmpHeader fb.width fb.height fileBytes imageBytes ++ bmpRows fb pixels) := by
  have hrow : wrap32 (fb.width * 4) = fb.width * 4 := wrap32_of_lt (by omega)
  refine ⟨wrap32 (54 + wrap32 (fb.width * 4 * fb.height)), wrap32 (fb.width * 4 * fb.height), ?_⟩
  rw [saveScreenshotBmp, if_neg (by simp [haddr, hbpp]), hrow, toInt32_eq_self.mpr hheight]
  rfl

theorem decodePixels_pixel {data : List UInt8} {offset w h : Nat} {x y : Nat} (hx : x < w) (hy : y < h) :
    (decodePixels data offset (w * 4) 4 w h 32 true)[y * w + x]? =
      some (byteAt data (offset + (h - 1 - y) * (w * 4) + x * 4 + 3) <<< 24 ||| byteAt data (offset + (h - 1 - y) * (w * 4) + x * 4 + 2) <<< 16 |||
        byteAt data (offset + (h - 1 - y) * (w * 4) + x * 4 + 1) <<< 8 ||| byteAt data (offset + (h - 1 - y) * (w * 4) + x * 4)) := by
  rw [decodePixels, Lib.getElem?_flatMap_rows (fun row _ => by simp) _ hx, List.getElem?_range hy, Option.bind_some]
  simp [hx]

/-- The decoder accepts the file of a picture: a header, and as many rows as the header says. -/
theorem bmpDecode_file {w h fileBytes imageBytes : Nat} {rows : List UInt8} (hw : 1 ≤ w ∧ w ≤ 4096) (hh : 1 ≤ h ∧ h < 2 ^ 31)
    (hrows : rows.length = h * (w * 4)) : bmpDecode (bmpHeader w h fileBytes imageBytes ++ rows) =
      some ⟨w, h, decodePixels (bmpHeader w h fileBytes imageBytes ++ rows) 54 (w * 4) 4 w h 32 true⟩ := by
  obtain ⟨hoffset, hsize, hwidth, hheight, hcompr⟩ := bmpHeader_words w h fileBytes imageBytes rows (by omega) (by omega)
  obtain ⟨hb, hm⟩ := bmpHeader_magic w h fileBytes imageBytes rows
  have hbpp := bmpHeader_bpp w h fileBytes imageBytes rows
  have hlen : (bmpHeader w h fileBytes imageBytes ++ rows).length = 54 + h * (w * 4) := by rw [List.length_append, bmpHeader_length, hrows]
  have hpos : 0 < h * (w * 4) := Nat.mul_pos (by omega) (by omega)
  have hstride : (w * (32 / 8) + 3) / 4 * 4 = w * 4 := by omega
  simp only [bmpDecode, hlen, hb, hm, hoffset, hsize, hwidth, hheight, hcompr, hbpp, toInt32_eq_self.mpr (show w < 2 ^ 31 by omega),
    toInt32_eq_self.mpr hh.2, Int.toNat_natCast, Int.natAbs_natCast, hstride]
  have hbih : wrap32 (14 + 40) = 54 := rfl
  have htop : decide (0 < (h : Int)) = true := by
    rw [decide_eq_true_eq]
    omega
  rw [if_neg (by omega), if_neg (by simp), if_neg (by omega), hbih, if_neg (by omega), if_neg (by omega), if_neg (by decide), if_neg (by decide),
    Nat.mul_comm (w * 4) h, if_neg (by omega), htop]

/-- The four channels of a pixel, as the decoder puts them together. -/
theorem channels_eq_load (m : Lib.Memory) (a : Nat) :
    (m (a + 3)).toNat <<< 24 ||| (m (a + 2)).toNat <<< 16 ||| (m (a + 1)).toNat <<< 8 ||| (m a).toNat = m.load a 4 := by
  have h0 := (m a).toNat_lt
  have h1 := (m (a + 1)).toNat_lt
  have h2 := (m (a + 2)).toNat_lt
  have hload : m.load a 4 = (m a).toNat + 256 * ((m (a + 1)).toNat + 256 * ((m (a + 2)).toNat + 256 * (m (a + 3)).toNat)) := by
    simp only [Lib.Memory.load, Nat.add_assoc, Nat.mul_zero, Nat.add_zero, Nat.reduceAdd]
  rw [hload, ← or_bytes h0 h1 h2]
  generalize (m (a + 3)).toNat <<< 24 = b3
  generalize (m (a + 2)).toNat <<< 16 = b2
  generalize (m (a + 1)).toNat <<< 8 = b1
  rw [Nat.or_comm _ (m a).toNat, Nat.or_comm b3 b2, Nat.or_comm _ b1, ← Nat.or_assoc, ← Nat.or_assoc]

/-- The pixel at a place of the picture is the one of the framebuffer. -/
theorem decodePixels_rows {hdr : List UInt8} (hhdr : hdr.length = 54) {x y : Nat} (hx : x < fb.width) (hy : y < fb.height)
    (hoffset : y * fb.pitch < 2 ^ 32) :
    (decodePixels (hdr ++ bmpRows fb pixels) 54 (fb.width * 4) 4 fb.width fb.height 32 true)[y * fb.width + x]? = some (fbPixel fb pixels x y) := by
  have hbyte : ∀ i < 4, byteAt (hdr ++ bmpRows fb pixels) (54 + (fb.height - 1 - y) * (fb.width * 4) + x * 4 + i) =
      (pixels (y * fb.pitch + 4 * x + i)).toNat := by
    intro i hi
    rw [Nat.add_assoc _ (x * 4) i, bmpRows_byte hhdr hy (by omega) hoffset, Nat.add_assoc _ (4 * x) i, Nat.mul_comm 4 x]
  have hfirst := hbyte 0 (by decide)
  rw [Nat.add_zero, Nat.add_zero] at hfirst
  rw [decodePixels_pixel hx hy, hbyte 3 (by decide), hbyte 2 (by decide), hbyte 1 (by decide), hfirst, channels_eq_load, fbPixel]

theorem screenshot_round_trip (fb : FbInfo) (pixels : Lib.Memory) (haddr : fb.addr ≠ 0) (hbpp : fb.bpp = 32) (hwidth : 1 ≤ fb.width ∧ fb.width ≤ 4096)
    (hheight : 1 ≤ fb.height) (hfile : 4 * fb.width * fb.height + 54 < 2 ^ 32)
    (hmemory : fb.height * fb.pitch < 2 ^ 32) :
    ∃ file image, saveScreenshotBmp fb pixels = some file ∧ bmpDecode file = some image ∧ image.w = fb.width ∧ image.h = fb.height ∧
      image.pixels.length = fb.width * fb.height ∧ ∀ x < fb.width, ∀ y < fb.height, image.pixels[y * fb.width + x]? = some (fbPixel fb pixels x y) := by
  have hh : fb.height < 2 ^ 30 := by
    have hle : 4 * fb.height ≤ 4 * fb.width * fb.height := by
      rw [Nat.mul_assoc]
      exact Nat.mul_le_mul_left 4 (Nat.le_mul_of_pos_left _ hwidth.1)
    omega
  obtain ⟨fileBytes, imageBytes, hsave⟩ := @saveScreenshotBmp_eq fb pixels haddr hbpp (by omega) hwidth.2
  have hdecode := @bmpDecode_file fb.width fb.height fileBytes imageBytes (bmpRows fb pixels) hwidth ⟨hheight, by omega⟩ bmpRows_length
  refine ⟨_, _, hsave, hdecode, rfl, rfl, ?_, ?_⟩
  · rw [decodePixels, Lib.length_flatMap_rows (n := fb.width) fun row _ => by simp, List.length_range, Nat.mul_comm]
  · intro x hx y hy
    have hoffset : y * fb.pitch < 2 ^ 32 := Nat.lt_of_le_of_lt (Nat.mul_le_mul_right _ hy.le) hmemory
    exact decodePixels_rows (bmpHeader_length _ _ _ _) hx hy hoffset

/-- Two rows of two pixels, with four bytes between the rows. -/
theorem screenshot_round_trip_small :
    ∃ file image, saveScreenshotBmp ⟨0xE0000000, 12, 2, 2, 32⟩ UInt8.ofNat = some file ∧ bmpDecode file = some image ∧ image.w = (2 : Nat) ∧
      image.h = (2 : Nat) ∧ image.pixels.length = 2 * 2 ∧
        ∀ x < 2, ∀ y < 2, image.pixels[y * 2 + x]? = some (fbPixel ⟨0xE0000000, 12, 2, 2, 32⟩ UInt8.ofNat x y) :=
  screenshot_round_trip ⟨0xE0000000, 12, 2, 2, 32⟩ UInt8.ofNat (by decide) rfl (by decide) (by decide) (by decide) (by decide)

end Tsukasa
