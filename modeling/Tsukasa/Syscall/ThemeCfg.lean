import Tsukasa.Syscall.Ksprintf
import Mathlib.Data.List.DropRight

/-!
# The theme configuration file

The theme state of `syscall/syscall.c`, its checks, and the text file that it is kept in. A path is the list of its bytes before the terminator; a file is its bytes, and reading it yields them all.
-/

namespace Tsukasa

def themeCfgVersion : Nat := 1
def themeCfgMax : Nat := 1024
def themeBgGradient : Nat := 0
def themeBgSolid : Nat := 1
def themeBgWallpaper : Nat := 2
def themeWpScaleFill : Nat := 0
def themeWpCenter : Nat := 1
def themeAccentDefault : Nat := 0xFF4FC3F7
def themeBgBot : Nat := 0xFF1B2838
def themePathMax : Nat := 128

/-- `struct tsukasa_theme_state` -/
structure ThemeState where
  accentColor : Nat
  backgroundMode : Nat
  solidColor : Nat
  wallpaperStyle : Nat
  /-- `TSUKASA_THEME_FLAG_EPHEMERAL` -/
  ephemeral : Bool
  wallpaperPath : List UInt8
deriving DecidableEq

/-! ### Text -/

def isSpaceChar (c : UInt8) : Bool := c = 32 || c = 9 || c = 10 || c = 13

def trimWs (s : List UInt8) : List UInt8 := (s.dropWhile isSpaceChar).rdropWhile isSpaceChar

/-- `copy_small_string` into a buffer of `cap` bytes. -/
def copySmallString (cap : Nat) (src : List UInt8) : List UInt8 := src.take (cap - 1)

def hexValue (c : UInt8) : Option Nat :=
  if 48 ≤ c ∧ c ≤ 57 then some (c.toNat - 48)
  else if 97 ≤ c ∧ c ≤ 102 then some (10 + (c.toNat - 97))
  else if 65 ≤ c ∧ c ≤ 70 then some (10 + (c.toNat - 65))
  else none

/-- The loop of `parse_hex_u32`. -/
def parseHexLoop : List UInt8 → Nat → Nat → Option (Nat × Nat)
  | [], v, digits => some (v, digits)
  | c :: p, v, digits =>
      match hexValue c with
      | none => none
      | some d => if 8 < digits + 1 then none else parseHexLoop p (wrap32 (v <<< 4) ||| d) (digits + 1)

def parseHexU32 (s : List UInt8) : Option Nat :=
  let p := if s.head? = some 48 ∧ (s[1]? = some 120 ∨ s[1]? = some 88) then s.drop 2 else s
  match parseHexLoop p 0 0 with
  | some (v, digits) => if digits = 0 then none else some v
  | none => none

/-- The loop of `parse_dec_u32`. -/
def parseDecLoop : List UInt8 → Nat → Nat → Option (Nat × Nat)
  | [], v, digits => some (v, digits)
  | c :: p, v, digits =>
      if c < 48 ∨ 57 < c then none
      else
        let d := c.toNat - 48
        if 429496729 < v ∨ v = 429496729 ∧ 5 < d then none else parseDecLoop p (v * 10 + d) (digits + 1)

def parseDecU32 (s : List UInt8) : Option Nat :=
  match parseDecLoop s 0 0 with
  | some (v, digits) => if digits = 0 then none else some v
  | none => none

/-! ### Checks -/

def validateThemeColor (argb : Nat) : Bool := (argb >>> 24) &&& 0xFF = 0xFF

def validateBgMode (mode : Nat) : Bool := mode = themeBgGradient || mode = themeBgSolid || mode = themeBgWallpaper

def validateWallpaperStyle (style : Nat) : Bool := style = themeWpScaleFill || style = themeWpCenter

/-- A component `..` starts at `i`. -/
def dotDotAt (path : List UInt8) (i : Nat) : Bool :=
  path[i]? = some 46 && path[i + 1]? = some 46 && (if 0 < i then path[i - 1]?.getD 0 else 47) = 47 && path[i + 2]?.getD 47 = 47

/-- `validate_wallpaper_path`; `none` is a null pointer. -/
def validateWallpaperPath (path : Option (List UInt8)) (allowEmpty : Bool) : Int :=
  match path with
  | none => if allowEmpty then 0 else -1
  | some path =>
      if path.length = 0 then if allowEmpty then 0 else -1
      else if themePathMax ≤ path.length then -1
      else if path.head? ≠ some 47 then -1
      else if path.any fun c => c < 32 || 126 < c || c = 92 then -1
      else if (List.range (path.length - 1)).any (dotDotAt path) then -1
      else 0

/-! ### Names -/

def bgModeToStr (mode : Nat) : List UInt8 :=
  if mode = themeBgGradient then ascii "gradient"
  else if mode = themeBgSolid then ascii "solid"
  else if mode = themeBgWallpaper then ascii "wallpaper"
  else ascii "gradient"

def parseBgMode (s : List UInt8) : Option Nat :=
  if s = ascii "gradient" then some themeBgGradient
  else if s = ascii "solid" then some themeBgSolid
  else if s = ascii "wallpaper" then some themeBgWallpaper
  else none

def wallpaperStyleToStr (style : Nat) : List UInt8 := if style = themeWpCenter then ascii "center" else ascii "scale-fill"

def parseWallpaperStyle (s : List UInt8) : Option Nat :=
  if s = ascii "scale-fill" then some themeWpScaleFill
  else if s = ascii "center" then some themeWpCenter
  else none

/-! ### The file -/

def themeSetDefaults : ThemeState where
  accentColor := themeAccentDefault
  backgroundMode := themeBgGradient
  solidColor := themeBgBot
  wallpaperStyle := themeWpScaleFill
  ephemeral := false
  wallpaperPath := []

def themeCfgFormat : List UInt8 :=
  ascii "version=%u\naccent_color=0x%08X\nbackground_mode=%s\nsolid_color=0x%08X\nwallpaper_path=%s\nwallpaper_style=%s\n"

/-- The bytes that `theme_write_cfg_to` writes. -/
def themeWriteCfg (st : ThemeState) : Option (List UInt8) :=
  let (len, cfg) := ksprintf 512 themeCfgFormat
    [.num themeCfgVersion, .num st.accentColor, .str (bgModeToStr st.backgroundMode), .num st.solidColor, .str st.wallpaperPath,
      .str (wallpaperStyleToStr st.wallpaperStyle)]
  if len = 0 ∨ 512 ≤ len then none else some (cfg.take len)

/-- What `theme_read_cfg_from` knows between two lines. -/
structure CfgParse where
  st : ThemeState
  ver : Nat
  hasVersion : Bool
  hasAccent : Bool
  hasBg : Bool
  hasSolid : Bool
  hasWall : Bool

def isEol (c : UInt8) : Bool := c = 10 || c = 13

/-- The first line of a text, and the text behind it. -/
def nextLine (scan : List UInt8) : List UInt8 × List UInt8 :=
  let rest := (scan.dropWhile fun c => !isEol c).tail
  (scan.takeWhile fun c => !isEol c, if rest.head?.any isEol then rest.tail else rest)

/-- The branches of `theme_read_cfg_from` on the key; `none` is the failure. -/
def cfgKey (p : CfgParse) (key val : List UInt8) : Option CfgParse :=
  if key = ascii "version" then (parseDecU32 val).map fun v => { p with ver := v, hasVersion := true }
  else if key = ascii "accent_color" then
    (parseHexU32 val).bind fun v => if validateThemeColor v then some { p with st.accentColor := v, hasAccent := true } else none
  else if key = ascii "background_mode" then (parseBgMode val).map fun v => { p with st.backgroundMode := v, hasBg := true }
  else if key = ascii "solid_color" then
    (parseHexU32 val).bind fun v => if validateThemeColor v then some { p with st.solidColor := v, hasSolid := true } else none
  else if key = ascii "wallpaper_path" then
    if validateWallpaperPath (some val) true = 0 then some { p with st.wallpaperPath := copySmallString themePathMax val, hasWall := true } else none
  else if key = ascii "wallpaper_style" then (parseWallpaperStyle val).map fun v => { p with st.wallpaperStyle := v }
  else some p

def cfgLine (p : CfgParse) (line : List UInt8) : Option CfgParse :=
  let line := trimWs line
  if line = [] ∨ line.head? = some 35 then some p
  else if 61 ∈ line then cfgKey p (trimWs (line.takeWhile (· ≠ 61))) (trimWs (line.dropWhile (· ≠ 61)).tail)
  else some p

/-- The loop over the lines; each takes a character at least. -/
def cfgLoop : Nat → List UInt8 → CfgParse → Option CfgParse
  | 0, _, p => some p
  | fuel + 1, scan, p => if scan = [] then some p else (cfgLine p (nextLine scan).1).bind (cfgLoop fuel (nextLine scan).2)

/-- `theme_read_cfg_from` on the bytes of the file. -/
def themeReadCfg (file : List UInt8) : Option ThemeState :=
  if file.length = 0 ∨ themeCfgMax < file.length then none
  else
    let buf := file.takeWhile (· ≠ 0)
    (cfgLoop buf.length buf ⟨themeSetDefaults, 0, false, false, false, false, false⟩).bind fun p =>
      if !p.hasVersion || !p.hasAccent || !p.hasBg || !p.hasSolid || !p.hasWall then none
      else if p.ver ≠ themeCfgVersion then none
      else if p.st.backgroundMode = themeBgWallpaper ∧ p.st.wallpaperPath = [] then none
      else some p.st

/-! ### Lines and words -/

theorem dropWhile_append_cons {α : Type*} {f : α → Bool} (l r : List α) {x : α} (hx : f x = false) :
    (l ++ x :: r).dropWhile f = l.dropWhile f ++ x :: r := by
  induction l with
  | nil => simp [hx]
  | cons y l ih =>
      rw [List.cons_append, List.dropWhile_cons, List.dropWhile_cons]
      split
      · exact ih
      · rfl

theorem rdropWhile_append_cons {α : Type*} {f : α → Bool} (l r : List α) {x : α} (hx : f x = false) :
    (l ++ x :: r).rdropWhile f = l ++ x :: r.rdropWhile f := by
  rw [List.rdropWhile, List.reverse_append, List.reverse_cons, List.append_assoc, List.singleton_append, dropWhile_append_cons _ _ hx,
    List.reverse_append, List.reverse_cons, List.reverse_reverse, List.append_assoc, List.singleton_append]
  rfl

/-- A key of the file. -/
def PlainKey (key : List UInt8) : Prop := key ≠ [] ∧ ∀ c ∈ key, isSpaceChar c = false ∧ c ≠ 61 ∧ c ≠ 35

instance (key : List UInt8) : Decidable (PlainKey key) := inferInstanceAs (Decidable (key ≠ [] ∧ ∀ c ∈ key, isSpaceChar c = false ∧ c ≠ 61 ∧ c ≠ 35))

/-- A value that a line holds; it may end in spaces. -/
def PlainVal (val : List UInt8) : Prop := (∀ c ∈ val, isEol c = false ∧ c ≠ 0) ∧ val.head?.any isSpaceChar = false

instance (val : List UInt8) : Decidable (PlainVal val) :=
  inferInstanceAs (Decidable ((∀ c ∈ val, isEol c = false ∧ c ≠ 0) ∧ val.head?.any isSpaceChar = false))

theorem isEol_of_not_space {c : UInt8} (h : isSpaceChar c = false) : isEol c = false := by
  simp only [isSpaceChar, isEol, Bool.or_eq_false_iff] at h ⊢
  exact ⟨h.1.2, h.2⟩

theorem nextLine_append {line rest : List UInt8} (hline : ∀ c ∈ line, isEol c = false) (hrest : rest.head?.any isEol = false) :
    nextLine (line ++ 10 :: rest) = (line, rest) := by
  have hnot : ∀ c ∈ line, (!isEol c) = true := fun c hc => by rw [hline c hc]; rfl
  have hdrop : (line ++ 10 :: rest).dropWhile (fun c => !isEol c) = 10 :: rest := by
    rw [List.dropWhile_append_of_pos hnot]
    rfl
  have htake : (line ++ 10 :: rest).takeWhile (fun c => !isEol c) = line := by
    rw [List.takeWhile_append_of_pos hnot]
    simp [isEol]
  simp [nextLine, hdrop, htake, hrest]

theorem trimWs_plain {val : List UInt8} (hval : val.head?.any isSpaceChar = false) : trimWs val = val.rdropWhile isSpaceChar := by
  cases val with
  | nil => rfl
  | cons c val => rw [trimWs, List.dropWhile_cons_of_neg (by simpa using hval)]

theorem trimWs_rdropWhile {val : List UInt8} (hval : val.head?.any isSpaceChar = false) :
    trimWs (val.rdropWhile isSpaceChar) = val.rdropWhile isSpaceChar := by
  rw [trimWs_plain, List.rdropWhile_idempotent]
  cases val with
  | nil => rfl
  | cons c val =>
      have hc : isSpaceChar c = false := by simpa using hval
      have heq := rdropWhile_append_cons [] val hc
      rw [List.nil_append, List.nil_append] at heq
      rw [heq]
      simpa using hc

theorem trimWs_key {key : List UInt8} (hkey : PlainKey key) : trimWs key = key := by
  have hhead : key.head?.any isSpaceChar = false := by
    cases key with
    | nil => rfl
    | cons c key => simpa using (hkey.2 c List.mem_cons_self).1
  rw [trimWs_plain hhead, List.rdropWhile_eq_self_iff]
  intro hne
  rw [(hkey.2 _ (List.getLast_mem hne)).1]
  exact Bool.false_ne_true

theorem cfgLine_append (p : CfgParse) {key val : List UInt8} (hkey : PlainKey key) (hval : val.head?.any isSpaceChar = false) :
    cfgLine p (key ++ 61 :: val) = cfgKey p key (val.rdropWhile isSpaceChar) := by
  have hne : ∀ c ∈ key, decide (c ≠ 61) = true := fun c hc => decide_eq_true (hkey.2 c hc).2.1
  have htrim : trimWs (key ++ 61 :: val) = key ++ 61 :: val.rdropWhile isSpaceChar := by
    rw [trimWs_plain, rdropWhile_append_cons _ _ rfl]
    cases key with
    | nil => rfl
    | cons c key => simpa using (hkey.2 c List.mem_cons_self).1
  have hhead : (key ++ 61 :: val.rdropWhile isSpaceChar).head? ≠ some 35 := by
    cases key with
    | nil => exact absurd rfl hkey.1
    | cons c key => simpa using (hkey.2 c List.mem_cons_self).2.2
  have htake : (key ++ 61 :: val.rdropWhile isSpaceChar).takeWhile (fun c => decide (c ≠ 61)) = key := by
    rw [List.takeWhile_append_of_pos hne]
    simp
  have hdrop : (key ++ 61 :: val.rdropWhile isSpaceChar).dropWhile (fun c => decide (c ≠ 61)) = 61 :: val.rdropWhile isSpaceChar := by
    rw [List.dropWhile_append_of_pos hne]
    simp
  simp only [cfgLine, htrim]
  rw [if_neg (not_or_intro (by simp) hhead), if_pos (by simp), htake, hdrop, List.tail_cons, trimWs_key hkey, trimWs_rdropWhile hval]

/-! ### The text of some lines -/

def cfgText (lines : List (List UInt8 × List UInt8)) : List UInt8 := lines.flatMap fun l => l.1 ++ 61 :: l.2 ++ [10]

theorem cfgText_cons (key val : List UInt8) (lines : List (List UInt8 × List UInt8)) :
    cfgText ((key, val) :: lines) = (key ++ 61 :: val) ++ 10 :: cfgText lines := by
  simp [cfgText]

theorem cfgText_head {lines : List (List UInt8 × List UInt8)} (hkeys : ∀ l ∈ lines, PlainKey l.1) : (cfgText lines).head?.any isEol = false := by
  cases lines with
  | nil => rfl
  | cons l lines =>
      obtain ⟨key, val⟩ := l
      obtain ⟨hne, hkey⟩ := hkeys _ List.mem_cons_self
      rw [cfgText_cons]
      cases key with
      | nil => exact absurd rfl hne
      | cons c key => simpa using isEol_of_not_space (hkey c List.mem_cons_self).1

theorem cfgText_eq_nil {lines : List (List UInt8 × List UInt8)} : cfgText lines = [] ↔ lines = [] := by
  cases lines <;> simp [cfgText]

theorem cfgText_zero {lines : List (List UInt8 × List UInt8)} (hvals : ∀ l ∈ lines, PlainVal l.2) (hkeys : ∀ l ∈ lines, 0 ∉ l.1) :
    0 ∉ cfgText lines := by
  simp only [cfgText, List.mem_flatMap, List.mem_append, List.mem_cons, List.not_mem_nil, or_false, not_exists, not_and, not_or]
  intro l hl
  refine ⟨⟨hkeys l hl, by decide, fun hmem => ((hvals l hl).1 0 hmem).2 rfl⟩, by decide⟩

theorem cfgLoop_text (lines : List (List UInt8 × List UInt8)) (hlines : ∀ l ∈ lines, PlainKey l.1 ∧ PlainVal l.2) {fuel : Nat}
    (hfuel : lines.length ≤ fuel) (p : CfgParse) :
    cfgLoop fuel (cfgText lines) p = lines.foldlM (fun p l => cfgKey p l.1 (l.2.rdropWhile isSpaceChar)) p := by
  induction lines generalizing fuel p with
  | nil => cases fuel <;> rfl
  | cons l lines ih =>
      obtain ⟨key, val⟩ := l
      obtain ⟨hkey, hval⟩ := hlines _ List.mem_cons_self
      have hrest : ∀ l ∈ lines, PlainKey l.1 ∧ PlainVal l.2 := fun l hl => hlines l (List.mem_cons_of_mem _ hl)
      obtain ⟨fuel, rfl⟩ := Nat.exists_eq_succ_of_ne_zero (Nat.ne_of_gt (Nat.lt_of_lt_of_le (Nat.succ_pos _) hfuel))
      have hline : ∀ c ∈ key ++ 61 :: val, isEol c = false := by
        intro c hc
        rcases List.mem_append.mp hc with hc | hc
        · exact isEol_of_not_space (hkey.2 c hc).1
        · rcases List.mem_cons.mp hc with rfl | hc
          · rfl
          · exact (hval.1 c hc).1
      have hne : cfgText ((key, val) :: lines) ≠ [] := by simp [cfgText_eq_nil]
      rw [cfgLoop, if_neg hne, cfgText_cons, nextLine_append hline (cfgText_head fun l hl => (hrest l hl).1), cfgLine_append p hkey hval.2,
        List.foldlM_cons]
      congr 1
      funext p'
      exact ih hrest (by simpa using hfuel) p'

/-! ### Colours -/

theorem hexValue_hexUpper {d : Nat} (hd : d < 16) : hexValue (hexUpper.getD d 0) = some d := by
  have hall : ∀ d : Fin 16, hexValue (hexUpper.getD d 0) = some d.val := by decide
  exact hall ⟨d, hd⟩

/-- A digit more: the value that was read is shifted by it. -/
theorem wrap32_shiftLeft_or {v d : Nat} (hd : d < 16) (hv : v * 16 + d < 2 ^ 32) : wrap32 (v <<< 4) ||| d = v * 16 + d := by
  have hshift : v <<< 4 = v * 16 := by rw [Nat.shiftLeft_eq]
  have hwrap : wrap32 (v <<< 4) = v <<< 4 := wrap32_of_lt (by omega)
  rw [hwrap, ← Nat.shiftLeft_add_eq_or_of_lt hd, hshift]

theorem parseHexLoop_hexDigits (n val v digits : Nat) (rest : List UInt8) (hval : val < 16 ^ n) (hdigits : digits + n ≤ 8)
    (hv : v * 16 ^ n + val < 2 ^ 32) :
    parseHexLoop (hexDigits n val ++ rest) v digits = parseHexLoop rest (v * 16 ^ n + val) (digits + n) := by
  induction n generalizing val rest with
  | zero =>
      have hzero : val = 0 := by omega
      subst hzero
      simp [hexDigits]
  | succ n ih =>
      have hsplit : v * 16 ^ (n + 1) + val = (v * 16 ^ n + val / 16) * 16 + val % 16 := by
        rw [Nat.pow_succ, ← Nat.mul_assoc, Nat.add_mul]
        omega
      have hdiv : val / 16 < 16 ^ n := by
        rw [Nat.pow_succ] at hval
        exact Nat.div_lt_of_lt_mul (by omega)
      have hmod : val % 16 < 16 := Nat.mod_lt _ (by decide)
      rw [hsplit] at hv
      rw [hexDigits, List.append_assoc, List.singleton_append, ih (val / 16) _ hdiv (by omega) (by omega), parseHexLoop, hexValue_hexUpper hmod, hsplit]
      simp only
      rw [if_neg (by omega), wrap32_shiftLeft_or hmod hv]
      rfl

theorem parseHexU32_hexDigits {val : Nat} (hval : val < 2 ^ 32) : parseHexU32 (48 :: 120 :: hexDigits 8 val) = some val := by
  have hloop := parseHexLoop_hexDigits 8 val 0 0 [] (by omega) le_rfl (by omega)
  rw [List.append_nil, parseHexLoop, Nat.zero_mul, Nat.zero_add] at hloop
  simp [parseHexU32, hloop]

theorem isSpaceChar_hexUpper {d : Nat} (hd : d < 16) : isSpaceChar (hexUpper.getD d 0) = false ∧ hexUpper.getD d 0 ≠ 0 := by
  have hall : ∀ d : Fin 16, isSpaceChar (hexUpper.getD d 0) = false ∧ hexUpper.getD d 0 ≠ 0 := by decide
  exact hall ⟨d, hd⟩

theorem hexDigits_plain (n val : Nat) : ∀ c ∈ hexDigits n val, isSpaceChar c = false ∧ c ≠ 0 := by
  induction n generalizing val with
  | zero => exact fun c hc => absurd hc List.not_mem_nil
  | succ n ih =>
      intro c hc
      rcases List.mem_append.mp hc with hc | hc
      · exact ih _ c hc
      · rw [List.mem_singleton.mp hc]
        exact isSpaceChar_hexUpper (Nat.mod_lt _ (by decide))

/-- The text of a colour. -/
def hexText (val : Nat) : List UInt8 := 48 :: 120 :: hexDigits 8 val

theorem hexText_plain (val : Nat) : ∀ c ∈ hexText val, isSpaceChar c = false ∧ c ≠ 0 := by
  intro c hc
  rcases List.mem_cons.mp hc with rfl | hc
  · decide
  rcases List.mem_cons.mp hc with rfl | hc
  · decide
  exact hexDigits_plain 8 val c hc

/-- A text without white space is a value, and nothing of it is trimmed. -/
theorem plainVal_of_noSpace {val : List UInt8} (h : ∀ c ∈ val, isSpaceChar c = false ∧ c ≠ 0) :
    PlainVal val ∧ val.rdropWhile isSpaceChar = val := by
  refine ⟨⟨fun c hc => ⟨isEol_of_not_space (h c hc).1, (h c hc).2⟩, ?_⟩, ?_⟩
  · cases val with
    | nil => rfl
    | cons c val => simpa using (h c List.mem_cons_self).1
  · rw [List.rdropWhile_eq_self_iff]
    intro hne
    rw [(h _ (List.getLast_mem hne)).1]
    exact Bool.false_ne_true

/-! ### Round trip -/

/-- Each setting passes its check. -/
structure ThemeState.Checked (st : ThemeState) : Prop where
  accent : validateThemeColor st.accentColor = true ∧ st.accentColor < 2 ^ 32
  mode : validateBgMode st.backgroundMode = true
  solid : validateThemeColor st.solidColor = true ∧ st.solidColor < 2 ^ 32
  style : validateWallpaperStyle st.wallpaperStyle = true
  path : validateWallpaperPath (some st.wallpaperPath) true = 0

/-- A wallpaper that is shown has a path as well. -/
structure ThemeState.Valid (st : ThemeState) : Prop extends st.Checked where
  wallpaper : st.backgroundMode = themeBgWallpaper → st.wallpaperPath ≠ []

/-- What the path check promises. -/
theorem validateWallpaperPath_spec {path : List UInt8} {allowEmpty : Bool} (h : validateWallpaperPath (some path) allowEmpty = 0) :
    path.length < themePathMax ∧ (path = [] ∨ path.head? = some 47) ∧ ∀ c ∈ path, 32 ≤ c ∧ c ≤ 126 := by
  simp only [validateWallpaperPath] at h
  split at h
  · rename_i hnil
    have hpath : path = [] := List.eq_nil_of_length_eq_zero hnil
    subst hpath
    exact ⟨by decide, Or.inl rfl, fun c hc => absurd hc List.not_mem_nil⟩
  split at h
  · exact absurd h (by decide)
  rename_i hlen
  split at h
  · exact absurd h (by decide)
  rename_i hhead
  split at h
  · exact absurd h (by decide)
  rename_i hchars
  refine ⟨by omega, Or.inr (not_not.mp hhead), fun c hc => ?_⟩
  simp only [List.any_eq_true, not_exists, not_and, Bool.or_eq_true, decide_eq_true_eq, not_or, UInt8.not_lt] at hchars
  exact ⟨(hchars c hc).1.1, (hchars c hc).1.2⟩

def themeLines (st : ThemeState) : List (List UInt8 × List UInt8) :=
  [(ascii "version", ascii "1"), (ascii "accent_color", hexText st.accentColor), (ascii "background_mode", bgModeToStr st.backgroundMode),
    (ascii "solid_color", hexText st.solidColor), (ascii "wallpaper_path", st.wallpaperPath),
    (ascii "wallpaper_style", wallpaperStyleToStr st.wallpaperStyle)]

theorem doFmt_text {text : List UInt8} (htext : 37 ∉ text) (fmt : List UInt8) (args : List FmtArg) :
    doFmt .text (text ++ fmt) args = text ++ doFmt .text fmt args := by
  induction text with
  | nil => rfl
  | cons c text ih =>
      rw [List.mem_cons, not_or] at htext
      rw [List.cons_append, doFmt, if_neg (Ne.symm htext.1), ih htext.2, List.cons_append]

theorem fmtPad_zero (pad : UInt8) (text : List UInt8) : fmtPad pad 0 text = text := by simp [fmtPad]

/-- A line of the format with `%s`. -/
theorem doFmt_str {key : List UInt8} (hkey : 37 ∉ key) (val fmt : List UInt8) (args : List FmtArg) :
    doFmt .text (key ++ 61 :: 37 :: 115 :: 10 :: fmt) (.str val :: args) = (key ++ 61 :: val) ++ 10 :: doFmt .text fmt args := by
  have hspec : doFmt .text (61 :: 37 :: 115 :: 10 :: fmt) (.str val :: args) = 61 :: (fmtPad 32 0 val ++ 10 :: doFmt .text fmt args) := rfl
  rw [doFmt_text hkey, hspec, fmtPad_zero, List.append_assoc, List.cons_append]

/-- A line with `0x%08X`. -/
theorem doFmt_hex {key : List UInt8} (hkey : 37 ∉ key) {val : Nat} (hval : val < 2 ^ 32) (fmt : List UInt8) (args : List FmtArg) :
    doFmt .text (key ++ 61 :: 48 :: 120 :: 37 :: 48 :: 56 :: 88 :: 10 :: fmt) (.num val :: args) =
      (key ++ 61 :: hexText val) ++ 10 :: doFmt .text fmt args := by
  have hspec : doFmt .text (61 :: 48 :: 120 :: 37 :: 48 :: 56 :: 88 :: 10 :: fmt) (.num val :: args) =
      61 :: 48 :: 120 :: (fmtPad 48 8 (uintToBuf (wrap32 val) 16 hexUpper) ++ 10 :: doFmt .text fmt args) := rfl
  rw [doFmt_text hkey, hspec, fmtPad_hex, wrap32_of_lt hval, List.append_assoc]
  rfl

theorem themeCfgFormat_eq : themeCfgFormat =
    ascii "version" ++ 61 :: 37 :: 117 :: 10 :: (ascii "accent_color" ++ 61 :: 48 :: 120 :: 37 :: 48 :: 56 :: 88 :: 10 ::
      (ascii "background_mode" ++ 61 :: 37 :: 115 :: 10 :: (ascii "solid_color" ++ 61 :: 48 :: 120 :: 37 :: 48 :: 56 :: 88 :: 10 ::
        (ascii "wallpaper_path" ++ 61 :: 37 :: 115 :: 10 :: (ascii "wallpaper_style" ++ 61 :: 37 :: 115 :: 10 :: []))))) := by
  decide +kernel

theorem doFmt_theme {accent solid : Nat} (haccent : accent < 2 ^ 32) (hsolid : solid < 2 ^ 32) (mode path style : List UInt8) :
    doFmt .text themeCfgFormat [.num themeCfgVersion, .num accent, .str mode, .num solid, .str path, .str style] =
      cfgText [(ascii "version", ascii "1"), (ascii "accent_color", hexText accent), (ascii "background_mode", mode),
        (ascii "solid_color", hexText solid), (ascii "wallpaper_path", path), (ascii "wallpaper_style", style)] := by
  have hversion : ∀ (fmt : List UInt8) (args : List FmtArg), doFmt .text (61 :: 37 :: 117 :: 10 :: fmt) (.num themeCfgVersion :: args) =
      61 :: (ascii "1" ++ 10 :: doFmt .text fmt args) := fun _ _ => rfl
  rw [themeCfgFormat_eq, doFmt_text (by decide), hversion, doFmt_hex (by decide) haccent, doFmt_str (by decide), doFmt_hex (by decide) hsolid,
    doFmt_str (by decide), doFmt_str (by decide)]
  simp only [cfgText_cons, List.append_assoc, List.cons_append]
  rfl

theorem nameText_length (st : ThemeState) : (bgModeToStr st.backgroundMode).length ≤ 9 ∧ (wallpaperStyleToStr st.wallpaperStyle).length ≤ 10 := by
  constructor
  · rw [bgModeToStr]
    split
    · decide
    split
    · decide
    split <;> decide
  · rw [wallpaperStyleToStr]
    split <;> decide

theorem cfgText_length (st : ThemeState) :
    (cfgText (themeLines st)).length = 107 + (bgModeToStr st.backgroundMode).length + st.wallpaperPath.length +
      (wallpaperStyleToStr st.wallpaperStyle).length := by
  simp only [cfgText, themeLines, List.flatMap_cons, List.flatMap_nil, List.length_append, List.length_cons, List.length_nil, hexText, hexDigits_length,
    ascii, List.length_map]
  have hlengths : "version".toList.length = 7 ∧ "1".toList.length = 1 ∧ "accent_color".toList.length = 12 ∧ "background_mode".toList.length = 15 ∧
      "solid_color".toList.length = 11 ∧ "wallpaper_path".toList.length = 14 ∧ "wallpaper_style".toList.length = 15 := by decide
  omega

theorem themeWriteCfg_eq {st : ThemeState} (hvalid : st.Valid) : themeWriteCfg st = some (cfgText (themeLines st)) := by
  have hout : doFmt .text themeCfgFormat [.num themeCfgVersion, .num st.accentColor, .str (bgModeToStr st.backgroundMode), .num st.solidColor,
      .str st.wallpaperPath, .str (wallpaperStyleToStr st.wallpaperStyle)] = cfgText (themeLines st) := by
    rw [doFmt_theme hvalid.accent.2 hvalid.solid.2, themeLines]
  have hlen := cfgText_length st
  have hnames := nameText_length st
  have hpath : st.wallpaperPath.length < 128 := (validateWallpaperPath_spec hvalid.path).1
  simp only [themeWriteCfg, ksprintf, hout]
  rw [if_neg (by omega), List.take_of_length_le, List.take_of_length_le]
  · omega
  · rw [List.take_of_length_le (by omega)]

theorem parseBgMode_str {mode : Nat} (hmode : validateBgMode mode = true) : parseBgMode (bgModeToStr mode) = some mode := by
  simp only [validateBgMode, Bool.or_eq_true, decide_eq_true_eq] at hmode
  rcases hmode with (rfl | rfl) | rfl <;> decide

theorem parseWallpaperStyle_str {style : Nat} (hstyle : validateWallpaperStyle style = true) :
    parseWallpaperStyle (wallpaperStyleToStr style) = some style := by
  simp only [validateWallpaperStyle, Bool.or_eq_true, decide_eq_true_eq] at hstyle
  rcases hstyle with rfl | rfl <;> decide

theorem nameText_plain (st : ThemeState) : (∀ c ∈ bgModeToStr st.backgroundMode, isSpaceChar c = false ∧ c ≠ 0) ∧
    ∀ c ∈ wallpaperStyleToStr st.wallpaperStyle, isSpaceChar c = false ∧ c ≠ 0 := by
  constructor
  · rw [bgModeToStr]
    split
    · decide +kernel
    split
    · decide +kernel
    split <;> decide +kernel
  · rw [wallpaperStyleToStr]
    split <;> decide +kernel

theorem path_plain {path : List UInt8} (hpath : validateWallpaperPath (some path) true = 0) : PlainVal path := by
  obtain ⟨-, hhead, hchars⟩ := validateWallpaperPath_spec hpath
  refine ⟨fun c hc => ?_, ?_⟩
  · have hlow := (hchars c hc).1
    rw [UInt8.le_iff_toNat_le] at hlow
    refine ⟨?_, ?_⟩
    · simp only [isEol, Bool.or_eq_false_iff, decide_eq_false_iff_not]
      constructor
      · rintro rfl
        exact absurd hlow (by decide)
      · rintro rfl
        exact absurd hlow (by decide)
    · rintro rfl
      exact absurd hlow (by decide)
  · rcases hhead with rfl | hhead
    · rfl
    · rw [hhead]
      rfl

theorem themeLines_plain {st : ThemeState} (hvalid : st.Valid) : ∀ l ∈ themeLines st, PlainKey l.1 ∧ PlainVal l.2 := by
  simp only [themeLines, List.forall_mem_cons]
  have hnames := nameText_plain st
  refine ⟨⟨by decide +kernel, by decide +kernel⟩, ⟨by decide +kernel, (plainVal_of_noSpace (hexText_plain _)).1⟩, ⟨by decide +kernel, (plainVal_of_noSpace hnames.1).1⟩,
    ⟨by decide +kernel, (plainVal_of_noSpace (hexText_plain _)).1⟩, ⟨by decide +kernel, path_plain hvalid.path⟩,
    ⟨by decide +kernel, (plainVal_of_noSpace hnames.2).1⟩, fun l hl => absurd hl List.not_mem_nil⟩

section keys

variable {st : ThemeState} (p : CfgParse)

theorem cfgKey_version : cfgKey p (ascii "version") (ascii "1") = some { p with ver := 1, hasVersion := true } := rfl

theorem cfgKey_accent (hvalid : st.Valid) :
    cfgKey p (ascii "accent_color") (hexText st.accentColor) = some { p with st.accentColor := st.accentColor, hasAccent := true } := by
  rw [cfgKey, if_neg (by decide), if_pos rfl, hexText, parseHexU32_hexDigits hvalid.accent.2, Option.bind_some, if_pos hvalid.accent.1]

theorem cfgKey_mode (hvalid : st.Valid) : cfgKey p (ascii "background_mode") (bgModeToStr st.backgroundMode) =
    some { p with st.backgroundMode := st.backgroundMode, hasBg := true } := by
  rw [cfgKey, if_neg (by decide), if_neg (by decide), if_pos rfl, parseBgMode_str hvalid.mode]
  rfl

theorem cfgKey_solid (hvalid : st.Valid) :
    cfgKey p (ascii "solid_color") (hexText st.solidColor) = some { p with st.solidColor := st.solidColor, hasSolid := true } := by
  rw [cfgKey, if_neg (by decide), if_neg (by decide), if_neg (by decide), if_pos rfl, hexText, parseHexU32_hexDigits hvalid.solid.2, Option.bind_some,
    if_pos hvalid.solid.1]

theorem cfgKey_path (val : List UInt8) : cfgKey p (ascii "wallpaper_path") val =
    if validateWallpaperPath (some val) true = 0 then some { p with st.wallpaperPath := copySmallString themePathMax val, hasWall := true } else none := by
  rw [cfgKey, if_neg (by decide), if_neg (by decide), if_neg (by decide), if_neg (by decide), if_pos rfl]

theorem cfgKey_style (hvalid : st.Valid) : cfgKey p (ascii "wallpaper_style") (wallpaperStyleToStr st.wallpaperStyle) =
    some { p with st.wallpaperStyle := st.wallpaperStyle } := by
  rw [cfgKey, if_neg (by decide), if_neg (by decide), if_neg (by decide), if_neg (by decide), if_neg (by decide), if_pos rfl,
    parseWallpaperStyle_str hvalid.style]
  rfl

end keys

/-- The path as the reader gets it. -/
def trimmedPath (st : ThemeState) : List UInt8 := st.wallpaperPath.rdropWhile isSpaceChar

/-- The six lines, one after the other. -/
theorem cfgKey_lines {st : ThemeState} (hvalid : st.Valid) (p : CfgParse) :
    (themeLines st).foldlM (fun p l => cfgKey p l.1 (l.2.rdropWhile isSpaceChar)) p =
      if validateWallpaperPath (some (trimmedPath st)) true = 0 then
        some ⟨{ st with ephemeral := p.st.ephemeral, wallpaperPath := copySmallString themePathMax (trimmedPath st) }, 1, true, true, true, true, true⟩
      else none := by
  have hone : (ascii "1").rdropWhile isSpaceChar = ascii "1" := by decide
  have hnames := nameText_plain st
  simp only [themeLines, List.foldlM_cons, List.foldlM_nil, hone, (plainVal_of_noSpace (hexText_plain _)).2, (plainVal_of_noSpace hnames.1).2,
    (plainVal_of_noSpace hnames.2).2, cfgKey_version, cfgKey_accent _ hvalid, cfgKey_mode _ hvalid, cfgKey_solid _ hvalid, Option.bind_eq_bind,
    Option.bind_some, cfgKey_path, cfgKey_style _ hvalid]
  rw [← trimmedPath]
  by_cases hok : validateWallpaperPath (some (trimmedPath st)) true = 0
  · simp only [if_pos hok]
    rfl
  · simp only [if_neg hok]
    rfl

/-- What is read back of a valid state: everything, but for the spaces at the end of the path. -/
theorem themeReadCfg_lines {st : ThemeState} (hvalid : st.Valid) : themeReadCfg (cfgText (themeLines st)) =
    if validateWallpaperPath (some (trimmedPath st)) true = 0 ∧
        ¬(st.backgroundMode = themeBgWallpaper ∧ copySmallString themePathMax (trimmedPath st) = []) then
      some { st with ephemeral := false, wallpaperPath := copySmallString themePathMax (trimmedPath st) }
    else none := by
  have hlen := cfgText_length st
  have hnames := nameText_length st
  have hpath : st.wallpaperPath.length < 128 := (validateWallpaperPath_spec hvalid.path).1
  have hplain := themeLines_plain hvalid
  have hzero : 0 ∉ cfgText (themeLines st) := by
    refine cfgText_zero (fun l hl => (hplain l hl).2) ?_
    simp only [themeLines, List.forall_mem_cons]
    exact ⟨by decide, by decide, by decide, by decide, by decide, by decide, fun l hl => absurd hl List.not_mem_nil⟩
  have hbuf : (cfgText (themeLines st)).takeWhile (fun c => decide (c ≠ 0)) = cfgText (themeLines st) := by
    rw [List.takeWhile_eq_self_iff]
    intro c hc
    exact decide_eq_true fun heq => hzero (heq ▸ hc)
  have hsize : ¬((cfgText (themeLines st)).length = 0 ∨ themeCfgMax < (cfgText (themeLines st)).length) := by
    rw [themeCfgMax]
    omega
  have hfuel : (themeLines st).length ≤ (cfgText (themeLines st)).length := by
    rw [show (themeLines st).length = 6 from rfl]
    omega
  simp only [themeReadCfg, if_neg hsize, hbuf]
  rw [cfgLoop_text _ hplain hfuel, cfgKey_lines hvalid]
  by_cases hok : validateWallpaperPath (some (trimmedPath st)) true = 0
  · rw [if_pos hok, Option.bind_some]
    by_cases hempty : st.backgroundMode = themeBgWallpaper ∧ copySmallString themePathMax (trimmedPath st) = []
    · simp [hempty, themeCfgVersion]
    · have hboth := And.intro hok hempty
      simp [hboth, themeCfgVersion, themeSetDefaults]
  · rw [if_neg hok, if_neg fun h => hok h.1]
    rfl

/-- Writing a state and reading the file yields the same settings. -/
def ThemeState.RoundTrips (st : ThemeState) : Prop := ∃ file st', themeWriteCfg st = some file ∧ themeReadCfg file = some st' ∧
  st'.accentColor = st.accentColor ∧ st'.backgroundMode = st.backgroundMode ∧ st'.solidColor = st.solidColor ∧
    st'.wallpaperStyle = st.wallpaperStyle ∧ st'.wallpaperPath = st.wallpaperPath

theorem ThemeState.roundTrips_iff {st : ThemeState} (hvalid : st.Valid) : st.RoundTrips ↔ st.wallpaperPath.getLast? ≠ some 32 := by
  obtain ⟨hlen, -, hchars⟩ := validateWallpaperPath_spec hvalid.path
  constructor
  · rintro ⟨file, st', hwrite, hread, -, -, -, -, hpath⟩ hlast
    rw [themeWriteCfg_eq hvalid, Option.some.injEq] at hwrite
    rw [← hwrite, themeReadCfg_lines hvalid] at hread
    split at hread
    · cases hread
      -- the path that was read is shorter
      obtain ⟨path, hsplit⟩ := List.getLast?_eq_some_iff.mp hlast
      have htrim : trimmedPath st = path.rdropWhile isSpaceChar := by
        rw [trimmedPath, hsplit, List.rdropWhile_concat_pos _ _ _ rfl]
      have hshort : (trimmedPath st).length ≤ path.length := by
        rw [htrim]
        exact (List.rdropWhile_prefix _ _).length_le
      have hsame := congrArg List.length hpath
      simp only [copySmallString, List.length_take] at hsame
      rw [hsplit, List.length_append, List.length_singleton] at hsame
      omega
    · exact absurd hread.symm (Option.some_ne_none st')
  · intro hlast
    have htrim : trimmedPath st = st.wallpaperPath := by
      rw [trimmedPath, List.rdropWhile_eq_self_iff]
      intro hne hspace
      have hlow := (hchars _ (List.getLast_mem hne)).1
      rw [List.getLast?_eq_some_getLast hne] at hlast
      simp only [isSpaceChar, Bool.or_eq_true, decide_eq_true_eq] at hspace
      rcases hspace with ((heq | heq) | heq) | heq
      · exact hlast (congrArg some heq)
      all_goals
        rw [heq] at hlow
        exact absurd hlow (by decide)
    have hcopy : copySmallString themePathMax (trimmedPath st) = st.wallpaperPath := by
      rw [htrim, copySmallString, List.take_of_length_le (by omega)]
    refine ⟨_, { st with ephemeral := false }, themeWriteCfg_eq hvalid, ?_, rfl, rfl, rfl, rfl, rfl⟩
    rw [themeReadCfg_lines hvalid, hcopy, htrim, if_pos ⟨hvalid.path, fun h => hvalid.wallpaper h.1 h.2⟩]

/-! ### What is read passes the checks -/

theorem hexValue_lt {c : UInt8} {d : Nat} (h : hexValue c = some d) : d < 16 := by
  simp only [hexValue, UInt8.le_iff_toNat_le] at h
  split at h
  · rename_i hc
    cases h
    have hhigh : c.toNat ≤ 57 := hc.2
    omega
  split at h
  · rename_i hc
    cases h
    have hhigh : c.toNat ≤ 102 := hc.2
    omega
  split at h
  · rename_i hc
    cases h
    have hhigh : c.toNat ≤ 70 := hc.2
    omega
  · exact absurd h.symm (Option.some_ne_none d)

theorem parseHexLoop_lt {p : List UInt8} {v digits v' digits' : Nat} (h : parseHexLoop p v digits = some (v', digits')) (hv : v < 2 ^ 32) :
    v' < 2 ^ 32 := by
  induction p generalizing v digits with
  | nil =>
      cases h
      exact hv
  | cons c p ih =>
      rw [parseHexLoop] at h
      cases hc : hexValue c with
      | none => simp [hc] at h
      | some d =>
          simp only [hc] at h
          split at h
          · exact absurd h.symm (Option.some_ne_none _)
          · have hd := hexValue_lt hc
            exact ih h (Nat.or_lt_two_pow (wrap32_lt _) (by omega))

theorem parseHexU32_lt {s : List UInt8} {v : Nat} (h : parseHexU32 s = some v) : v < 2 ^ 32 := by
  simp only [parseHexU32] at h
  split at h
  · rename_i hloop
    split at h
    · exact absurd h.symm (Option.some_ne_none v)
    · cases h
      exact parseHexLoop_lt hloop (by decide)
  · exact absurd h.symm (Option.some_ne_none v)

theorem parseBgMode_valid {s : List UInt8} {mode : Nat} (h : parseBgMode s = some mode) : validateBgMode mode = true := by
  simp only [parseBgMode] at h
  split at h
  · cases h
    rfl
  split at h
  · cases h
    rfl
  split at h
  · cases h
    rfl
  · exact absurd h.symm (Option.some_ne_none mode)

theorem parseWallpaperStyle_valid {s : List UInt8} {style : Nat} (h : parseWallpaperStyle s = some style) : validateWallpaperStyle style = true := by
  simp only [parseWallpaperStyle] at h
  split at h
  · cases h
    rfl
  split at h
  · cases h
    rfl
  · exact absurd h.symm (Option.some_ne_none style)

theorem themeSetDefaults_checked : themeSetDefaults.Checked := by
  constructor <;> decide

theorem cfgKey_checked {p p' : CfgParse} {key val : List UInt8} (hp : p.st.Checked) (h : cfgKey p key val = some p') : p'.st.Checked := by
  simp only [cfgKey] at h
  split at h
  · obtain ⟨v, -, rfl⟩ := Option.map_eq_some_iff.mp h
    exact hp
  split at h
  · obtain ⟨v, hv, h⟩ := Option.bind_eq_some_iff.mp h
    split at h
    · rename_i hcolor
      cases h
      exact { hp with accent := ⟨hcolor, parseHexU32_lt hv⟩ }
    · exact absurd h.symm (Option.some_ne_none p')
  split at h
  · obtain ⟨v, hv, rfl⟩ := Option.map_eq_some_iff.mp h
    exact { hp with mode := parseBgMode_valid hv }
  split at h
  · obtain ⟨v, hv, h⟩ := Option.bind_eq_some_iff.mp h
    split at h
    · rename_i hcolor
      cases h
      exact { hp with solid := ⟨hcolor, parseHexU32_lt hv⟩ }
    · exact absurd h.symm (Option.some_ne_none p')
  split at h
  · split at h
    · rename_i hpath
      cases h
      have hlen := (validateWallpaperPath_spec hpath).1
      have hcopy : copySmallString themePathMax val = val := by rw [copySmallString, List.take_of_length_le (by omega)]
      exact { hp with path := by rw [hcopy]; exact hpath }
    · exact absurd h.symm (Option.some_ne_none p')
  split at h
  · obtain ⟨v, hv, rfl⟩ := Option.map_eq_some_iff.mp h
    exact { hp with style := parseWallpaperStyle_valid hv }
  · cases h
    exact hp

theorem cfgLoop_checked {fuel : Nat} {scan : List UInt8} {p p' : CfgParse} (hp : p.st.Checked) (h : cfgLoop fuel scan p = some p') : p'.st.Checked := by
  induction fuel generalizing scan p with
  | zero =>
      cases h
      exact hp
  | succ fuel ih =>
      rw [cfgLoop] at h
      split at h
      · cases h
        exact hp
      · obtain ⟨p₁, hline, h⟩ := Option.bind_eq_some_iff.mp h
        refine ih ?_ h
        simp only [cfgLine] at hline
        split at hline
        · cases hline
          exact hp
        split at hline
        · exact cfgKey_checked hp hline
        · cases hline
          exact hp

theorem themeReadCfg_valid {file : List UInt8} {st : ThemeState} (h : themeReadCfg file = some st) : st.Valid := by
  simp only [themeReadCfg] at h
  split at h
  · exact absurd h.symm (Option.some_ne_none st)
  obtain ⟨p, hloop, h⟩ := Option.bind_eq_some_iff.mp h
  have hp := cfgLoop_checked themeSetDefaults_checked hloop
  split at h
  · exact absurd h.symm (Option.some_ne_none st)
  split at h
  · exact absurd h.symm (Option.some_ne_none st)
  split at h
  · exact absurd h.symm (Option.some_ne_none st)
  · rename_i hwallpaper
    cases h
    exact ⟨hp, fun hmode hpath => hwallpaper ⟨hmode, hpath⟩⟩

example : themeReadCfg ((themeWriteCfg themeSetDefaults).getD []) = some themeSetDefaults := by decide +kernel

end Tsukasa
