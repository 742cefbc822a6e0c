import Tsukasa.Gui.Screenshot
import Tsukasa.Lib.Grid
import Tsukasa.Lib.Traced

/-!
# What decoding a bitmap touches

`bmp_decode` of `gfx/bmp.c`, with a log of the bytes it reads and the pixels it stores. The memory goes on behind the file, and what is read there counts like the bytes of the file. The checks keep the rows inside the file, but not the header: a length of 18 and a small `bih_size` let it be read up to byte 33. The pixels are numbered in an `int`.
-/

namespace Tsukasa

namespace Bmp

open Lib (Traced gridNumber gridNumber_nonneg gridNumber_lt)

inductive Access where
  | read (index : Nat)
  /-- A pixel, in an array of `room` bytes. -/
  | store (room : Nat) (index : Int) (pixel : Nat)

def load (data : Nat → UInt8) (i : Nat) : Traced Access Nat := ⟨[.read i], some (data i).toNat⟩

def loadU16le (data : Nat → UInt8) (i : Nat) : Traced Access Nat := do
  let b0 ← load data i
  let b1 ← load data (i + 1)
  pure (b0 ||| b1 <<< 8)

def loadU32le (data : Nat → UInt8) (i : Nat) : Traced Access Nat := do
  let b0 ← load data i
  let b1 ← load data (i + 1)
  let b2 ← load data (i + 2)
  let b3 ← load data (i + 3)
  pure (b0 ||| b1 <<< 8 ||| b2 <<< 16 ||| b3 <<< 24)

/-- The size that `kmalloc` is asked for. -/
def arraySize (imgW imgH : Int) : Nat := wrap64 ((int32 (imgW * imgH) % 2 ^ 64).toNat * 4)

def pixelValue (data : Nat → UInt8) (bpp p : Nat) : Nat :=
  let a := if bpp = 32 then (data (p + 3)).toNat else 0xFF
  a <<< 24 ||| (data (p + 2)).toNat <<< 16 ||| (data (p + 1)).toNat <<< 8 ||| (data p).toNat

/-- Where a pixel of the image is in the file. -/
def pixelSource (pixelOffset rowStride bytesPerPx imgH row col : Nat) (bottomUp : Bool) : Nat :=
  pixelOffset + (if bottomUp then imgH - 1 - row else row) * rowStride + col * bytesPerPx

/-- What a round of the inner loop touches. -/
def pixelLog (data : Nat → UInt8) (bpp room imgW row col p : Nat) : List Access :=
  [.read p, .read (p + 1), .read (p + 2)] ++ (if bpp = 32 then [.read (p + 3)] else []) ++
    [.store room (int32 (int32 (row * imgW) + col)) (pixelValue data bpp p)]

/-- The loops of `bmp_decode`. -/
def decodeRows (data : Nat → UInt8) (room pixelOffset rowStride bytesPerPx imgW imgH bpp : Nat) (bottomUp : Bool) : Traced Access (List Nat) := do
  let src := fun row col => pixelSource pixelOffset rowStride bytesPerPx imgH row col bottomUp
  Traced.touch ((List.range imgH).flatMap fun row => (List.range imgW).flatMap fun col => pixelLog data bpp room imgW row col (src row col))
  pure ((List.range imgH).flatMap fun row => (List.range imgW).map fun col => pixelValue data bpp (src row col))

/-- `bmp_decode` from its checks on the info header on. `kmalloc` grants an array of a size or does not. -/
def decodeImage (data : Nat → UInt8) (size : Nat) (kmalloc : Nat → Bool) (pixelOffset : Nat) (bmpW bmpH : Int) (bpp compr : Nat) :
    Traced Access (Option BmpImage) :=
  if bmpW ≤ 0 ∨ 4096 < bmpW ∨ bmpH = 0 ∨ bmpH < -4096 then pure none
  else if bpp ≠ 24 ∧ bpp ≠ 32 then pure none
  else if compr ≠ 0 ∧ compr ≠ 3 then pure none
  else
    let bottomUp := decide (0 < bmpH)
    let imgW := bmpW.toNat
    let imgH := bmpH.natAbs
    let bytesPerPx := bpp / 8
    let rowStride := (imgW * bytesPerPx + 3) / 4 * 4
    if size < pixelOffset + rowStride * imgH then pure none
    else if kmalloc (arraySize imgW imgH) = false then pure none
    else do
      let pixels ← decodeRows data (arraySize imgW imgH) pixelOffset rowStride bytesPerPx imgW imgH bpp bottomUp
      pure (some ⟨bmpW, imgH, pixels⟩)

def loadCompr (data : Nat → UInt8) (bihSize : Nat) : Traced Access Nat := if 20 ≤ bihSize then loadU32le data 30 else pure 0

/-- `bmp_decode` of the `size` bytes at `data`. -/
def decode (data : Nat → UInt8) (size : Nat) (kmalloc : Nat → Bool) : Traced Access (Option BmpImage) :=
  if size < 18 then pure none
  else do
    let b ← load data 0
    if b ≠ 66 then pure none
    else do
      let m ← load data 1
      if m ≠ 77 then pure none
      else do
        let pixelOffset ← loadU32le data 10
        if size ≤ pixelOffset then pure none
        else do
          let bihSize ← loadU32le data 14
          if size < wrap32 (14 + bihSize) then pure none
          else do
            let width ← loadU32le data 18
            let height ← loadU32le data 22
            let bpp ← loadU16le data 28
            let compr ← loadCompr data bihSize
            decodeImage data size kmalloc pixelOffset (toInt32 width) (toInt32 height) bpp compr

/-! ### The fields of a file -/

def u16At (data : Nat → UInt8) (i : Nat) : Nat := (data i).toNat ||| (data (i + 1)).toNat <<< 8

def u32At (data : Nat → UInt8) (i : Nat) : Nat :=
  (data i).toNat ||| (data (i + 1)).toNat <<< 8 ||| (data (i + 2)).toNat <<< 16 ||| (data (i + 3)).toNat <<< 24

def pixelOffset (data : Nat → UInt8) : Nat := u32At data 10

def bihSize (data : Nat → UInt8) : Nat := u32At data 14

def bmpW (data : Nat → UInt8) : Int := toInt32 (u32At data 18)

def bmpH (data : Nat → UInt8) : Int := toInt32 (u32At data 22)

def bpp (data : Nat → UInt8) : Nat := u16At data 28

def compr (data : Nat → UInt8) : Nat := if 20 ≤ bihSize data then u32At data 30 else 0

def rowStride (data : Nat → UInt8) : Nat := ((bmpW data).toNat * (bpp data / 8) + 3) / 4 * 4

/-- The file passes the checks that come before the info header. -/
structure Opened (data : Nat → UInt8) (size : Nat) : Prop where
  start : 18 ≤ size
  magic : data 0 = 66 ∧ data 1 = 77
  pixels : pixelOffset data < size
  header : wrap32 (14 + bihSize data) ≤ size

/-- It passes those on the info header too. -/
structure Described (data : Nat → UInt8) (size : Nat) : Prop extends Opened data size where
  width : 0 < bmpW data ∧ bmpW data ≤ 4096
  height : bmpH data ≠ 0 ∧ -4096 ≤ bmpH data
  bits : bpp data = 24 ∨ bpp data = 32
  method : compr data = 0 ∨ compr data = 3
  rows : pixelOffset data + rowStride data * (bmpH data).natAbs ≤ size

section
variable {data : Nat → UInt8} {i : Nat}

theorem loadU16le_result : (loadU16le data i).result = some (u16At data i) := rfl

theorem loadU32le_result : (loadU32le data i).result = some (u32At data i) := rfl

theorem load_result : (load data i).result = some (data i).toNat := rfl

theorem loadCompr_result : (loadCompr data (u32At data 14)).result = some (compr data) := by
  change (if 20 ≤ bihSize data then loadU32le data 30 else pure 0).result = some (if 20 ≤ bihSize data then u32At data 30 else 0)
  split <;> rfl

/-- The file is read as the plain decoder reads it. -/
theorem decode_result (data : List UInt8) :
    (decode (fun i => data.getD i 0) data.length fun _ => true).result = some (bmpDecode data) := by
  rw [decode, bmpDecode]
  apply Traced.result_check
  intro _
  rw [Traced.bind_result_of load_result]
  change _ = some (if (data.getD 0 0).toNat ≠ 66 ∨ (data.getD 1 0).toNat ≠ 77 then none else _)
  by_cases hb : (data.getD 0 0).toNat ≠ 66
  · rw [if_pos hb, if_pos (.inl hb)]
    rfl
  rw [if_neg hb, Traced.bind_result_of load_result]
  by_cases hm : (data.getD 1 0).toNat ≠ 77
  · rw [if_pos hm, if_pos (.inr hm)]
    rfl
  rw [if_neg hm, if_neg (not_or.mpr ⟨hb, hm⟩)]
  rw [Traced.bind_result_of loadU32le_result]
  apply Traced.result_check
  intro _
  rw [Traced.bind_result_of loadU32le_result]
  apply Traced.result_check
  intro _
  rw [Traced.bind_result_of loadU32le_result, Traced.bind_result_of loadU32le_result, Traced.bind_result_of loadU16le_result,
    Traced.bind_result_of loadCompr_result, decodeImage]
  apply Traced.result_check
  intro _
  apply Traced.result_check
  intro _
  apply Traced.result_check
  intro _
  apply Traced.result_check
  intro _
  rw [if_neg (by decide)]
  rfl

/-! ### Inside the file -/

variable {size bits room w h row col p offset stride : Nat}

/-- A read of the file, or a store to the array. -/
def Access.Inside (size : Nat) : Access → Prop
  | .read i => i < size
  | .store room i _ => 0 ≤ i ∧ 4 * i + 4 ≤ room

theorem load_inside : (load data i).All (Access.Inside size) ↔ i < size := List.forall_mem_singleton

theorem loadU16le_inside : (loadU16le data i).All (Access.Inside size) ↔ i + 2 ≤ size := by
  rw [loadU16le, Traced.all_bind_iff load_result, Traced.all_bind_iff load_result, load_inside, load_inside]
  constructor
  · intro h
    have hlast := h.2.1
    omega
  · intro h
    exact ⟨by omega, by omega, Traced.all_pure _⟩

theorem loadU32le_inside : (loadU32le data i).All (Access.Inside size) ↔ i + 4 ≤ size := by
  rw [loadU32le, Traced.all_bind_iff load_result, Traced.all_bind_iff load_result, Traced.all_bind_iff load_result, Traced.all_bind_iff load_result,
    load_inside, load_inside, load_inside, load_inside]
  constructor
  · intro h
    have hlast := h.2.2.2.1
    omega
  · intro h
    exact ⟨by omega, by omega, by omega, by omega, Traced.all_pure _⟩

theorem loadCompr_inside : (loadCompr data (u32At data 14)).All (Access.Inside size) ↔ (20 ≤ bihSize data → 34 ≤ size) := by
  rw [loadCompr, ← bihSize]
  split
  · rename_i h
    rw [loadU32le_inside]
    exact ⟨fun hsize _ => hsize, fun hsize => hsize h⟩
  · rename_i h
    exact ⟨fun _ h' => absurd h' h, fun _ => Traced.all_pure _⟩

/-- A round reads the bytes of its pixel. -/
theorem pixelLog_inside (hbits : bits = 24 ∨ bits = 32) : (∀ a ∈ pixelLog data bits room w row col p, a.Inside size) ↔
    p + bits / 8 ≤ size ∧ Access.Inside size (.store room (int32 (int32 (row * w) + col)) (pixelValue data bits p)) := by
  rw [pixelLog, List.forall_mem_append, List.forall_mem_append, List.forall_mem_singleton]
  apply and_congr_left
  intro _
  rcases hbits with rfl | rfl
  · rw [if_neg (by decide)]
    simp only [List.forall_mem_cons, Access.Inside]
    constructor
    · intro h
      have hlast := h.1.2.2.1
      omega
    · intro h
      exact ⟨⟨by omega, by omega, by omega, nofun⟩, nofun⟩
  · rw [if_pos rfl]
    simp only [List.forall_mem_cons, Access.Inside]
    constructor
    · intro h
      have hlast := h.2.1
      omega
    · intro h
      exact ⟨⟨by omega, by omega, by omega, nofun⟩, by omega, nofun⟩

/-- A row of the file holds its pixels, so they end with the rows at the latest. -/
theorem pixelSource_le {bytes : Nat} (hrow : row < h) (hcol : col < w) (hstride : w * bytes ≤ stride) (hsize : offset + stride * h ≤ size)
    (bottomUp : Bool) : pixelSource offset stride bytes h row col bottomUp + bytes ≤ size := by
  have hinner : col * bytes + bytes ≤ stride := by
    rw [← Nat.succ_mul]
    exact Nat.le_trans (Nat.mul_le_mul_right bytes hcol) hstride
  have houter : ∀ r, r < h → r * stride + stride ≤ stride * h := by
    intro r hr
    rw [← Nat.succ_mul, Nat.mul_comm stride h]
    exact Nat.mul_le_mul_right stride hr
  have hrow' : (if bottomUp then h - 1 - row else row) < h := by
    split <;> omega
  have hlast := houter _ hrow'
  rw [pixelSource]
  omega

/-! ### Inside the array -/

theorem le_arraySize (hfits : w * h ≤ 2 ^ 31) : 4 * (w * h) ≤ arraySize w h := by
  rw [arraySize, ← Int.natCast_mul, wrap64]
  generalize w * h = n at hfits ⊢
  rcases Nat.lt_or_ge n (2 ^ 31) with hlt | hge
  · rw [int32_eq_self (by omega) (by exact_mod_cast hlt)]
    omega
  · rw [show n = 2 ^ 31 by omega]
    decide

/-- The numbers of the pixels stay inside the array as long as the last one is an `int`. -/
theorem stores_inside_iff (hw : 0 < w) : (∀ row < h, ∀ col < w, ∀ pixel, Access.Inside size (.store (arraySize w h) (int32 (int32 (row * w) + col)) pixel)) ↔
    w * h ≤ 2 ^ 31 := by
  constructor
  · intro hinside
    rcases Nat.lt_or_ge (2 ^ 31) (w * h) with hlarge | hfits
    · -- the pixel of the number 2 ^ 31
      have hrow : 2 ^ 31 / w < h := by
        rw [Nat.div_lt_iff_lt_mul hw, Nat.mul_comm]
        exact hlarge
      have hstore := (hinside _ hrow _ (Nat.mod_lt (2 ^ 31) hw) 0).1
      rw [int32_int32_add, ← Int.natCast_mul, ← Int.natCast_add, Nat.div_add_mod'] at hstore
      exact absurd hstore (by decide)
    · exact hfits
  · intro hfits row hrow col hcol pixel
    have hlow := gridNumber_nonneg (w := w) (r := row) (c := col) (by omega) (by omega) (by omega)
    have hhigh := gridNumber_lt (w := w) (r := row) (c := col) (n := h) (by omega) (by omega) (by omega)
    have hroom := le_arraySize hfits
    rw [Access.Inside, int32_int32_add, ← gridNumber, int32_eq_self (by omega) (by omega)]
    constructor
    · exact hlow
    · omega

theorem decodeRows_inside {bottomUp : Bool} (hw : 0 < w) (hbits : bits = 24 ∨ bits = 32) (hstride : w * (bits / 8) ≤ stride)
    (hsize : offset + stride * h ≤ size) :
    (decodeRows data (arraySize w h) offset stride (bits / 8) w h bits bottomUp).All (Access.Inside size) ↔ w * h ≤ 2 ^ 31 := by
  have hpixel : ∀ row < h, ∀ col < w,
      (∀ a ∈ pixelLog data bits (arraySize w h) w row col (pixelSource offset stride (bits / 8) h row col bottomUp), a.Inside size) ↔
        ∀ pixel, Access.Inside size (.store (arraySize w h) (int32 (int32 (row * w) + col)) pixel) := by
    intro row hrow col hcol
    rw [pixelLog_inside hbits]
    constructor
    · exact fun hstore pixel => hstore.2
    · exact fun hstore => ⟨pixelSource_le hrow hcol hstride hsize bottomUp, hstore _⟩
  rw [decodeRows, Traced.all_bind_iff (a := ()) rfl, ← @stores_inside_iff size w h hw]
  constructor
  · intro hlog row hrow col hcol
    rw [← hpixel row hrow col hcol]
    intro a ha
    exact hlog.1 a (List.mem_flatMap.mpr ⟨row, List.mem_range.mpr hrow, List.mem_flatMap.mpr ⟨col, List.mem_range.mpr hcol, ha⟩⟩)
  · intro hstores
    refine ⟨fun a ha => ?_, Traced.all_pure _⟩
    obtain ⟨row, hrow, ha⟩ := List.mem_flatMap.mp ha
    obtain ⟨col, hcol, ha⟩ := List.mem_flatMap.mp ha
    rw [List.mem_range] at hrow hcol
    exact (hpixel row hrow col hcol).mpr (hstores row hrow col hcol) a ha

/-! ### The whole -/

/-- The number of the pixels of the image. -/
def pixelCount (data : Nat → UInt8) : Nat := (bmpW data).toNat * (bmpH data).natAbs

/-- The header that is read is inside the file. -/
def HeaderFits (data : Nat → UInt8) (size : Nat) : Prop := 30 ≤ size ∧ (20 ≤ bihSize data → 34 ≤ size)

/-- The array that is asked for. -/
def arrayOf (data : Nat → UInt8) : Nat := arraySize (bmpW data).toNat (bmpH data).natAbs

theorem decodeImage_inside {kmalloc : Nat → Bool} (hopened : Opened data size) :
    (decodeImage data size kmalloc (pixelOffset data) (bmpW data) (bmpH data) (bpp data) (compr data)).All (Access.Inside size) ↔
      (Described data size → kmalloc (arrayOf data) = true → pixelCount data ≤ 2 ^ 31) := by
  rw [decodeImage, Traced.all_check, Traced.all_check, Traced.all_check]
  dsimp only
  rw [Traced.all_check, Traced.all_check]
  have hrows : Described data size →
      (Traced.All (Access.Inside size)
        (decodeRows data (arrayOf data) (pixelOffset data) (rowStride data) (bpp data / 8) (bmpW data).toNat (bmpH data).natAbs (bpp data)
          (decide (0 < bmpH data)) >>= fun pixels => pure (some (BmpImage.mk (bmpW data) (bmpH data).natAbs pixels))) ↔
        pixelCount data ≤ 2 ^ 31) := by
    intro h
    have hwidth := h.width.1
    rw [Traced.all_bind_iff rfl]
    exact (and_iff_left (Traced.all_pure _)).trans (decodeRows_inside (by omega) h.bits (by rw [rowStride]; omega) h.rows)
  constructor
  · intro hall h hgranted
    refine (hrows h).mp (hall ?_ ?_ ?_ ?_ ?_)
    · have hwidth := h.width
      have hheight := h.height
      omega
    · have hbits := h.bits
      omega
    · have hmethod := h.method
      omega
    · exact Nat.not_lt.mpr h.rows
    · rw [← arrayOf, hgranted]
      decide
  · intro hcount hdims hbits hmethod hsize hgranted
    have h : Described data size := ⟨hopened, by omega, by omega, by omega, by omega, Nat.not_lt.mp hsize⟩
    exact (hrows h).mpr (hcount h (Bool.not_eq_false _ ▸ hgranted))

/-- The loads of `decode` one after the other. -/
theorem decode_all_inside {kmalloc : Nat → Bool} : (decode data size kmalloc).All (Access.Inside size) ↔
    (¬ size < 18 → 0 < size ∧ (¬ (data 0).toNat ≠ 66 → 1 < size ∧ (¬ (data 1).toNat ≠ 77 → 10 + 4 ≤ size ∧ (¬ size ≤ pixelOffset data →
      14 + 4 ≤ size ∧ (¬ size < wrap32 (14 + bihSize data) → 18 + 4 ≤ size ∧ 22 + 4 ≤ size ∧ 28 + 2 ≤ size ∧ (20 ≤ bihSize data → 34 ≤ size) ∧
        (decodeImage data size kmalloc (pixelOffset data) (bmpW data) (bmpH data) (bpp data) (compr data)).All (Access.Inside size)))))) := by
  rw [decode, Traced.all_check, Traced.all_bind_iff load_result, load_inside, Traced.all_check, Traced.all_bind_iff load_result, load_inside,
    Traced.all_check, Traced.all_bind_iff loadU32le_result, loadU32le_inside, Traced.all_check, Traced.all_bind_iff loadU32le_result, loadU32le_inside,
    Traced.all_check, Traced.all_bind_iff loadU32le_result, Traced.all_bind_iff loadU32le_result, Traced.all_bind_iff loadU16le_result,
    Traced.all_bind_iff loadCompr_result, loadU32le_inside, loadU32le_inside, loadU16le_inside, loadCompr_inside]
  rfl

/-- A file that passes the first checks has its header read. -/
theorem decode_opened {kmalloc : Nat → Bool} (hopened : Opened data size) : (decode data size kmalloc).All (Access.Inside size) ↔
    HeaderFits data size ∧ (Described data size → kmalloc (arrayOf data) = true → pixelCount data ≤ 2 ^ 31) := by
  rw [decode_all_inside, ← decodeImage_inside hopened]
  constructor
  · intro hall
    obtain ⟨-, hmagic⟩ := hall (Nat.not_lt.mpr hopened.start)
    obtain ⟨-, hoffset⟩ := hmagic (by rw [hopened.magic.1]; decide)
    obtain ⟨-, hpixels⟩ := hoffset (by rw [hopened.magic.2]; decide)
    obtain ⟨-, hheader⟩ := hpixels (Nat.not_le.mpr hopened.pixels)
    obtain ⟨-, -, hbpp, hcompr, himage⟩ := hheader (Nat.not_lt.mpr hopened.header)
    exact ⟨⟨hbpp, hcompr⟩, himage⟩
  · intro h hstart
    obtain ⟨⟨hbpp, hcompr⟩, himage⟩ := h
    exact ⟨by omega, fun _ => ⟨by omega, fun _ => ⟨by omega, fun _ => ⟨by omega, fun _ => ⟨by omega, by omega, hbpp, hcompr, himage⟩⟩⟩⟩⟩

/-- Any other file is given up before. -/
theorem decode_not_opened {kmalloc : Nat → Bool} (hopened : ¬ Opened data size) : (decode data size kmalloc).All (Access.Inside size) := by
  rw [decode_all_inside]
  intro hstart
  refine ⟨by omega, fun hb => ⟨by omega, fun hm => ⟨by omega, fun hpixels => ⟨by omega, fun hheader => absurd ?_ hopened⟩⟩⟩⟩
  exact ⟨Nat.not_lt.mp hstart, ⟨UInt8.toNat_inj.mp (Decidable.not_not.mp hb), UInt8.toNat_inj.mp (Decidable.not_not.mp hm)⟩, Nat.not_le.mp hpixels,
    Nat.not_lt.mp hheader⟩

/-- What the decoder reads is inside the file, and what it stores inside its array, just when the header it reads is there and, where it decodes the rows, the number of the last pixel is an `int`. -/
theorem decode_inside_iff (data : Nat → UInt8) (size : Nat) (kmalloc : Nat → Bool) :
    (decode data size kmalloc).All (Access.Inside size) ↔
      (Opened data size → HeaderFits data size) ∧ (Described data size → kmalloc (arrayOf data) = true → pixelCount data ≤ 2 ^ 31) := by
  by_cases hopened : Opened data size
  · rw [decode_opened hopened]
    exact and_congr_left fun _ => ⟨fun h _ => h, fun h => h hopened⟩
  · exact ⟨fun _ => ⟨fun h => absurd h hopened, fun h => absurd h.toOpened hopened⟩, fun _ => decode_not_opened hopened⟩

/-- A file of 18 bytes with a `bih_size` of 4: the width is read behind its end. -/
def shortFile (i : Nat) : UInt8 := [66, 77, 18, 0, 0, 0, 0, 0, 0, 0, 0, 0, 0, 0, 4, 0, 0, 0].getD i 0

theorem decode_short : ¬ (decode shortFile 18 fun _ => true).All (Access.Inside 18) := by
  rw [decode_opened ⟨by decide, by decide, by decide, by decide⟩]
  exact fun h => absurd h.1.1 (by decide)

/-- Below 6 GiB the array is never the problem. -/
theorem decode_inside_of_size {kmalloc : Nat → Bool} (hsize : size ≤ 3 * 2 ^ 31) (hheader : Opened data size → HeaderFits data size) :
    (decode data size kmalloc).All (Access.Inside size) := by
  by_cases hopened : Opened data size
  · rw [decode_opened hopened]
    refine ⟨hheader hopened, fun h _ => ?_⟩
    have hrows := h.rows
    have hpixel : (bmpW data).toNat * 3 ≤ rowStride data := by
      have hbytes : (bmpW data).toNat * 3 ≤ (bmpW data).toNat * (bpp data / 8) := Nat.mul_le_mul_left _ (by have := h.bits; omega)
      rw [rowStride]
      omega
    have hcount : pixelCount data * 3 ≤ rowStride data * (bmpH data).natAbs := by
      rw [pixelCount, Nat.mul_right_comm]
      exact Nat.mul_le_mul_right _ hpixel
    omega
  · exact decode_not_opened hopened
end

end Bmp

end Tsukasa
