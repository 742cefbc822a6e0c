import Tsukasa.Syscall.ThemeCfg
import Tsukasa.Lib.Run

/-!
# The theme calls

The `SYSTEM_CMD_THEME_SET_*` calls of `syscall/syscall.c` and what they do to the desktop of `gfx/desktop.c`. A file that is read or written, and a wallpaper that is built, succeeds or fails by what is given with the call: files come and go between calls.
-/

namespace Tsukasa

/-- `g_accent_color` and the wallpaper variables of the desktop. -/
structure DesktopTheme where
  accentColor : Nat
  bgMode : Nat
  solidColor : Nat
  wallpaperStyle : Nat
  wallpaperPath : List UInt8

/-- `desktop_set_wallpaper`, where `loads` says whether a wallpaper can be built. -/
def desktopSetWallpaper (loads : List UInt8 → Bool) (d : DesktopTheme) (path : List UInt8) : Int × DesktopTheme :=
  if path = [] then (0, { d with wallpaperPath := [] })
  else if 128 ≤ path.length then (-1, { d with wallpaperPath := [] })
  else if !loads path then (-1, { d with wallpaperPath := [] })
  else (0, { d with wallpaperPath := copySmallString 128 path })

def desktopApplyTheme (loads : List UInt8 → Bool) (d : DesktopTheme) (accent mode solid style : Nat) (path : List UInt8) : Int × DesktopTheme :=
  if (accent >>> 24) &&& 0xFF ≠ 0xFF then (-1, d)
  else if (solid >>> 24) &&& 0xFF ≠ 0xFF then (-1, d)
  else if 2 < mode then (-1, d)
  else if 1 < style then (-1, d)
  else
    let d := { d with accentColor := accent, solidColor := solid, wallpaperStyle := style, wallpaperPath := copySmallString 128 path }
    if mode = themeBgWallpaper then
      if path = [] then (-1, { d with bgMode := themeBgGradient, wallpaperPath := [] })
      else
        let (ret, d) := desktopSetWallpaper loads d path
        if ret ≠ 0 then (-1, { d with bgMode := themeBgGradient, wallpaperPath := [] })
        else (0, { d with bgMode := themeBgWallpaper })
    else (0, { d with bgMode := mode })

/-- `g_theme_state`, `g_theme_loaded` and the desktop. -/
structure ThemeSys where
  theme : ThemeState
  loaded : Bool
  desktop : DesktopTheme

/-- Whether a write of either configuration file succeeds. -/
structure CfgWrites where
  primary : Bool
  fallback : Bool

/-- What the file system does during a call: the two configuration files where they can be read, the wallpapers that can be built, first while the theme is loaded and then in the call, and the writes in the same order. -/
structure ThemeEnv where
  primary : Option (List UInt8)
  fallback : Option (List UInt8)
  loadsFirst : List UInt8 → Bool
  loads : List UInt8 → Bool
  writesFirst : CfgWrites
  writes : CfgWrites

def themeApplyState (loads : List UInt8 → Bool) (s : ThemeSys) : Int × ThemeSys :=
  let (ret, desktop) :=
    desktopApplyTheme loads s.desktop s.theme.accentColor s.theme.backgroundMode s.theme.solidColor s.theme.wallpaperStyle s.theme.wallpaperPath
  (ret, { s with desktop := desktop })

def themePersistState (writes : CfgWrites) (s : ThemeSys) : ThemeSys :=
  { s with theme.ephemeral := !((themeWriteCfg s.theme).isSome && writes.primary) }

/-- The gradient takes the place of a wallpaper that cannot be built. -/
def gradientFallback (loads : List UInt8 → Bool) (s : ThemeSys) : ThemeSys :=
  (themeApplyState loads { s with theme := { s.theme with backgroundMode := themeBgGradient, wallpaperPath := [] } }).2

/-- The theme that `theme_ensure_loaded` starts from. -/
def startTheme (env : ThemeEnv) : ThemeState :=
  match env.primary.bind themeReadCfg with
  | some st => { st with ephemeral := false }
  | none =>
      match env.fallback.bind themeReadCfg with
      | some st => { st with ephemeral := true }
      | none => themeSetDefaults

def themeEnsureLoaded (env : ThemeEnv) (s : ThemeSys) : ThemeSys :=
  if s.loaded then s
  else
    let (ret, s) := themeApplyState env.loadsFirst { s with theme := startTheme env }
    let s :=
      if ret ≠ 0 ∧ s.theme.backgroundMode = themeBgWallpaper then themePersistState env.writesFirst (gradientFallback env.loadsFirst s)
      else s
    { s with loaded := true }

/-! ### Calls -/

def themeSetAccent (env : ThemeEnv) (s : ThemeSys) (arg2 : Nat) : Int × ThemeSys :=
  let accent := wrap32 arg2
  let s := themeEnsureLoaded env s
  if !validateThemeColor accent then (-1, s)
  else
    let (ret, s) := themeApplyState env.loads { s with theme.accentColor := accent }
    if ret ≠ 0 then (-1, s) else (0, themePersistState env.writes s)

/-- The part of `SYSTEM_CMD_THEME_SET_BG_MODE` behind the checks of its arguments. -/
def setBgMode (env : ThemeEnv) (s : ThemeSys) (mode : Nat) : Int × ThemeSys :=
  if mode = themeBgWallpaper ∧ s.theme.wallpaperPath = [] then
    let (_, s) := themeApplyState env.loads { s with theme.backgroundMode := themeBgGradient }
    (-1, themePersistState env.writes s)
  else
    let (ret, s) := themeApplyState env.loads { s with theme.backgroundMode := mode }
    if ret ≠ 0 then
      let s := if mode = themeBgWallpaper then gradientFallback env.loads s else s
      (-1, themePersistState env.writes s)
    else (0, themePersistState env.writes s)

def themeSetBgMode (env : ThemeEnv) (s : ThemeSys) (arg2 arg3 arg4 : Nat) : Int × ThemeSys :=
  let mode := wrap32 arg2
  let aux := wrap32 arg3
  let s := themeEnsureLoaded env s
  if !validateBgMode mode then (-1, s)
  else if mode = themeBgSolid ∧ arg4 ≠ 0 then
    if !validateThemeColor aux then (-1, s) else setBgMode env { s with theme.solidColor := aux } mode
  else if mode = themeBgWallpaper ∧ arg4 ≠ 0 then
    if !validateWallpaperStyle aux then (-1, s) else setBgMode env { s with theme.wallpaperStyle := aux } mode
  else setBgMode env s mode

/-- The part of `SYSTEM_CMD_THEME_SET_WALLPAPER` behind the checks of its arguments. -/
def setWallpaper (env : ThemeEnv) (s : ThemeSys) (path : List UInt8) : Int × ThemeSys :=
  let theme := { s.theme with wallpaperPath := copySmallString themePathMax path, backgroundMode := themeBgWallpaper }
  let (ret, s) := themeApplyState env.loads { s with theme := theme }
  if ret ≠ 0 then (-1, themePersistState env.writes (gradientFallback env.loads s)) else (0, themePersistState env.writes s)

/-- `none` is a null pointer. -/
def themeSetWallpaper (env : ThemeEnv) (s : ThemeSys) (path : Option (List UInt8)) (arg3 arg4 : Nat) : Int × ThemeSys :=
  let s := themeEnsureLoaded env s
  if validateWallpaperPath path false ≠ 0 then (-1, s)
  else if arg4 ≠ 0 then
    let style := wrap32 arg3
    if !validateWallpaperStyle style then (-1, s) else setWallpaper env { s with theme.wallpaperStyle := style } (path.getD [])
  else setWallpaper env s (path.getD [])

/-! ### Applying a theme -/

/-- The desktop shows what the theme says. -/
structure ThemeSys.Agrees (s : ThemeSys) : Prop where
  mode : s.theme.backgroundMode = s.desktop.bgMode
  accent : s.theme.accentColor = s.desktop.accentColor
  path : s.theme.backgroundMode = themeBgWallpaper → s.theme.wallpaperPath = s.desktop.wallpaperPath

/-- The theme is valid, and the desktop shows it. -/
structure ThemeSys.Shown (s : ThemeSys) : Prop where
  valid : s.theme.Valid
  agrees : s.Agrees

variable {loads : List UInt8 → Bool} {s : ThemeSys} {env : ThemeEnv}

theorem gradient_ne_wallpaper : themeBgGradient ≠ themeBgWallpaper := by decide

theorem ThemeState.Checked.applies {st : ThemeState} (h : st.Checked) : (st.accentColor >>> 24) &&& 0xFF = 0xFF ∧ (st.solidColor >>> 24) &&& 0xFF = 0xFF ∧
    st.backgroundMode ≤ 2 ∧ st.wallpaperStyle ≤ 1 ∧ copySmallString 128 st.wallpaperPath = st.wallpaperPath ∧ st.wallpaperPath.length < 128 := by
  have hlen : st.wallpaperPath.length < 128 := (validateWallpaperPath_spec h.path).1
  have hmode := h.mode
  have hstyle := h.style
  simp only [validateBgMode, validateWallpaperStyle, Bool.or_eq_true, decide_eq_true_eq] at hmode hstyle
  simp only [themeBgGradient, themeBgSolid, themeBgWallpaper, themeWpScaleFill, themeWpCenter] at hmode hstyle
  refine ⟨of_decide_eq_true h.accent.1, of_decide_eq_true h.solid.1, by omega, by omega, ?_, hlen⟩
  rw [copySmallString, List.take_of_length_le (by omega)]

/-- A valid theme is applied as a whole, unless it is a wallpaper that cannot be built. -/
theorem themeApplyState_eq (loads : List UInt8 → Bool) (hvalid : s.theme.Valid) : themeApplyState loads s =
    if s.theme.backgroundMode = themeBgWallpaper ∧ loads s.theme.wallpaperPath = false then
      (-1, { s with desktop := ⟨s.theme.accentColor, themeBgGradient, s.theme.solidColor, s.theme.wallpaperStyle, []⟩ })
    else
      (0, { s with desktop :=
        ⟨s.theme.accentColor, s.theme.backgroundMode, s.theme.solidColor, s.theme.wallpaperStyle, s.theme.wallpaperPath⟩ }) := by
  obtain ⟨haccent, hsolid, hmode, hstyle, hcopy, hlen⟩ := hvalid.applies
  rw [themeApplyState, desktopApplyTheme, if_neg (not_not.mpr haccent), if_neg (not_not.mpr hsolid), if_neg (by omega), if_neg (by omega)]
  by_cases hwallpaper : s.theme.backgroundMode = themeBgWallpaper
  · have hne := hvalid.wallpaper hwallpaper
    rw [if_pos hwallpaper, if_neg hne, desktopSetWallpaper, if_neg hne, if_neg (by omega)]
    cases hloads : loads s.theme.wallpaperPath with
    | true => simp [hwallpaper, hcopy]
    | false => simp [hwallpaper]
  · simp [hwallpaper, hcopy]

/-- An apply that succeeds leaves the desktop with the theme. -/
theorem themeApplyState_shown (loads : List UInt8 → Bool) (hvalid : s.theme.Valid) (hloads : s.theme.backgroundMode = themeBgWallpaper → loads s.theme.wallpaperPath = true) :
    (themeApplyState loads s).1 = 0 ∧ (themeApplyState loads s).2.Shown ∧ (themeApplyState loads s).2.theme = s.theme ∧
      (themeApplyState loads s).2.loaded = s.loaded := by
  have hok : ¬(s.theme.backgroundMode = themeBgWallpaper ∧ loads s.theme.wallpaperPath = false) := by
    rintro ⟨hmode, hfails⟩
    rw [hloads hmode] at hfails
    exact absurd hfails (by decide)
  rw [themeApplyState_eq loads hvalid, if_neg hok]
  exact ⟨rfl, ⟨hvalid, rfl, rfl, fun _ => rfl⟩, rfl, rfl⟩

theorem themeApplyState_fails (hvalid : s.theme.Valid) (hmode : s.theme.backgroundMode = themeBgWallpaper)
    (hfails : loads s.theme.wallpaperPath = false) :
    themeApplyState loads s =
      (-1, { s with desktop := ⟨s.theme.accentColor, themeBgGradient, s.theme.solidColor, s.theme.wallpaperStyle, []⟩ }) := by
  rw [themeApplyState_eq loads hvalid, if_pos ⟨hmode, hfails⟩]

theorem ThemeState.Valid.gradient {st : ThemeState} (h : st.Valid) : ({ st with backgroundMode := themeBgGradient } : ThemeState).Valid :=
  ⟨⟨h.accent, rfl, h.solid, h.style, h.path⟩, fun hmode => absurd hmode gradient_ne_wallpaper⟩

theorem gradientFallback_shown (loads : List UInt8 → Bool) (hvalid : s.theme.Valid) :
    (gradientFallback loads s).Shown ∧ (gradientFallback loads s).loaded = s.loaded ∧
      (gradientFallback loads s).theme.backgroundMode = themeBgGradient := by
  have hgradient : ({ s.theme with backgroundMode := themeBgGradient, wallpaperPath := [] } : ThemeState).Valid :=
    ⟨⟨hvalid.accent, rfl, hvalid.solid, hvalid.style, rfl⟩, fun hmode => absurd hmode gradient_ne_wallpaper⟩
  obtain ⟨-, hshown, htheme, hloaded⟩ := themeApplyState_shown loads
    (s := { s with theme := { s.theme with backgroundMode := themeBgGradient, wallpaperPath := [] } }) hgradient fun hmode => absurd hmode gradient_ne_wallpaper
  exact ⟨hshown, hloaded, congrArg ThemeState.backgroundMode htheme⟩

theorem ThemeSys.Shown.persist (h : s.Shown) (writes : CfgWrites) : (themePersistState writes s).Shown :=
  ⟨⟨⟨h.valid.accent, h.valid.mode, h.valid.solid, h.valid.style, h.valid.path⟩, h.valid.wallpaper⟩, h.agrees.mode, h.agrees.accent, h.agrees.path⟩

/-! ### Loading -/

theorem startTheme_valid (env : ThemeEnv) : (startTheme env).Valid := by
  rw [startTheme]
  split
  · rename_i st hread
    obtain ⟨file, -, hst⟩ := Option.bind_eq_some_iff.mp hread
    have h := themeReadCfg_valid hst
    exact ⟨⟨h.accent, h.mode, h.solid, h.style, h.path⟩, h.wallpaper⟩
  split
  · rename_i st hread
    obtain ⟨file, -, hst⟩ := Option.bind_eq_some_iff.mp hread
    have h := themeReadCfg_valid hst
    exact ⟨⟨h.accent, h.mode, h.solid, h.style, h.path⟩, h.wallpaper⟩
  · exact ⟨themeSetDefaults_checked, fun hmode => absurd hmode gradient_ne_wallpaper⟩

/-- The wallpaper that is in force when a call begins, the theme loaded if need be. -/
def wallpaperInForce (env : ThemeEnv) (s : ThemeSys) : Option (List UInt8) :=
  if s.loaded then if s.theme.backgroundMode = themeBgWallpaper then some s.theme.wallpaperPath else none
  else if (startTheme env).backgroundMode = themeBgWallpaper ∧ env.loadsFirst (startTheme env).wallpaperPath = true then
    some (startTheme env).wallpaperPath
  else none

theorem themeEnsureLoaded_spec (env : ThemeEnv) (hvalid : s.loaded = true → s.theme.Valid) :
    (themeEnsureLoaded env s).theme.Valid ∧ (themeEnsureLoaded env s).loaded = true ∧
      ((s.loaded = true → s.Agrees) → (themeEnsureLoaded env s).Agrees) ∧ wallpaperInForce env s =
        if (themeEnsureLoaded env s).theme.backgroundMode = themeBgWallpaper then some (themeEnsureLoaded env s).theme.wallpaperPath else none := by
  rw [themeEnsureLoaded, wallpaperInForce]
  by_cases hloaded : s.loaded = true
  · rw [if_pos hloaded, if_pos hloaded]
    exact ⟨hvalid hloaded, hloaded, fun h => h hloaded, rfl⟩
  rw [if_neg hloaded, if_neg hloaded]
  have hstart := startTheme_valid env
  by_cases hfails : (startTheme env).backgroundMode = themeBgWallpaper ∧ env.loadsFirst (startTheme env).wallpaperPath = false
  · -- the wallpaper of the file cannot be built
    obtain ⟨hmode, hfalse⟩ := hfails
    obtain ⟨hshown, -, hgradient⟩ := gradientFallback_shown env.loadsFirst (s := { s with
      theme := startTheme env
      desktop := ⟨(startTheme env).accentColor, themeBgGradient, (startTheme env).solidColor, (startTheme env).wallpaperStyle, []⟩ }) hstart
    have hne := gradient_ne_wallpaper
    have hshown' := hshown.persist env.writesFirst
    rw [themeApplyState_fails hstart hmode hfalse]
    simp only [hmode, hfalse]
    refine ⟨hshown'.valid, trivial, fun _ => ⟨hshown'.agrees.mode, hshown'.agrees.accent, hshown'.agrees.path⟩, ?_⟩
    simp [themePersistState, hgradient, hne]
  · have hloads : (startTheme env).backgroundMode = themeBgWallpaper → env.loadsFirst (startTheme env).wallpaperPath = true := by
      intro hmode
      by_contra hfalse
      exact hfails ⟨hmode, by simpa using hfalse⟩
    obtain ⟨hret, hshown, htheme, -⟩ := themeApplyState_shown env.loadsFirst (s := { s with theme := startTheme env }) hstart hloads
    simp only [hret, ne_eq, not_true_eq_false, false_and, if_false]
    refine ⟨hshown.valid, trivial, fun _ => ⟨hshown.agrees.mode, hshown.agrees.accent, hshown.agrees.path⟩, ?_⟩
    rw [htheme]
    by_cases hmode : (startTheme env).backgroundMode = themeBgWallpaper
    · simp [hmode, hloads hmode]
    · simp [hmode]

/-! ### What the calls leave -/

theorem setBgMode_shown (env : ThemeEnv) (hvalid : s.theme.Valid) {mode : Nat} (hmode : validateBgMode mode = true) :
    (setBgMode env s mode).2.Shown ∧ (setBgMode env s mode).2.loaded = s.loaded := by
  rw [setBgMode]
  by_cases hnoPath : mode = themeBgWallpaper ∧ s.theme.wallpaperPath = []
  · rw [if_pos hnoPath]
    obtain ⟨-, hshown, -, hloaded⟩ := themeApplyState_shown env.loads (s := { s with theme.backgroundMode := themeBgGradient }) hvalid.gradient
      fun hwallpaper => absurd hwallpaper gradient_ne_wallpaper
    exact ⟨hshown.persist env.writes, hloaded⟩
  rw [if_neg hnoPath]
  have hset : ({ s.theme with backgroundMode := mode } : ThemeState).Valid :=
    ⟨⟨hvalid.accent, hmode, hvalid.solid, hvalid.style, hvalid.path⟩, fun hwallpaper hpath => hnoPath ⟨hwallpaper, hpath⟩⟩
  by_cases hfails : mode = themeBgWallpaper ∧ env.loads s.theme.wallpaperPath = false
  · rw [themeApplyState_fails (s := { s with theme.backgroundMode := mode }) hset hfails.1 hfails.2]
    obtain ⟨hshown, hloaded, -⟩ := gradientFallback_shown env.loads (s := { s with
      theme.backgroundMode := mode
      desktop := ⟨s.theme.accentColor, themeBgGradient, s.theme.solidColor, s.theme.wallpaperStyle, []⟩ }) hset
    simp only [hfails.1] at hshown hloaded ⊢
    exact ⟨hshown.persist env.writes, hloaded⟩
  · obtain ⟨hret, hshown, -, hloaded⟩ := themeApplyState_shown env.loads (s := { s with theme.backgroundMode := mode }) hset fun hwallpaper => by
      by_contra hfalse
      exact hfails ⟨hwallpaper, by simpa using hfalse⟩
    simp only [hret]
    exact ⟨hshown.persist env.writes, hloaded⟩

theorem setWallpaper_shown (env : ThemeEnv) (hvalid : s.theme.Valid) {path : List UInt8} (hpath : validateWallpaperPath (some path) false = 0) :
    (setWallpaper env s path).2.Shown ∧ (setWallpaper env s path).2.loaded = s.loaded := by
  have hlen := (validateWallpaperPath_spec hpath).1
  have hne : path ≠ [] := by
    rintro rfl
    exact absurd hpath (by decide)
  have hcopy : copySmallString themePathMax path = path := by rw [copySmallString, List.take_of_length_le (by omega)]
  have hempty : validateWallpaperPath (some path) true = 0 := by
    simp only [validateWallpaperPath, if_neg (mt List.eq_nil_of_length_eq_zero hne)] at hpath ⊢
    exact hpath
  have hset : ({ s.theme with wallpaperPath := path, backgroundMode := themeBgWallpaper } : ThemeState).Valid :=
    ⟨⟨hvalid.accent, rfl, hvalid.solid, hvalid.style, hempty⟩, fun _ => hne⟩
  simp only [setWallpaper, hcopy]
  cases hloads : env.loads path with
  | false =>
      rw [themeApplyState_fails (s := { s with theme := { s.theme with wallpaperPath := path, backgroundMode := themeBgWallpaper } }) hset rfl hloads]
      obtain ⟨hshown, hloaded, -⟩ := gradientFallback_shown env.loads (s := { s with
        theme := { s.theme with wallpaperPath := path, backgroundMode := themeBgWallpaper }
        desktop := ⟨s.theme.accentColor, themeBgGradient, s.theme.solidColor, s.theme.wallpaperStyle, []⟩ }) hset
      exact ⟨hshown.persist env.writes, hloaded⟩
  | true =>
      obtain ⟨hret, hshown, -, hloaded⟩ := themeApplyState_shown env.loads
        (s := { s with theme := { s.theme with wallpaperPath := path, backgroundMode := themeBgWallpaper } }) hset fun _ => hloads
      simp only [hret]
      exact ⟨hshown.persist env.writes, hloaded⟩

inductive ThemeCall where
  | setAccent (arg2 : Nat)
  | setBgMode (arg2 arg3 arg4 : Nat)
  | setWallpaper (path : Option (List UInt8)) (arg3 arg4 : Nat)

/-- A call, and what the file system does meanwhile. -/
def ThemeCall.step (s : ThemeSys) : ThemeCall × ThemeEnv → ThemeSys
  | (setAccent arg2, env) => (themeSetAccent env s arg2).2
  | (setBgMode arg2 arg3 arg4, env) => (themeSetBgMode env s arg2 arg3 arg4).2
  | (setWallpaper path arg3 arg4, env) => (themeSetWallpaper env s path arg3 arg4).2

/-- A wallpaper in force can be built again when the accent colour is set. -/
def ThemeCall.Rebuilds (s : ThemeSys) : ThemeCall × ThemeEnv → Prop
  | (setAccent arg2, env) => validateThemeColor (wrap32 arg2) = true → ∀ path, wallpaperInForce env s = some path → env.loads path = true
  | _ => True

/-- Every call leaves a valid theme, and one that the desktop shows unless the accent colour was set and the wallpaper not built again. -/
theorem ThemeCall.step_spec (a : ThemeCall × ThemeEnv) (hvalid : s.loaded = true → s.theme.Valid) :
    (step s a).theme.Valid ∧ (step s a).loaded = true ∧ ((s.loaded = true → s.Agrees) → ((step s a).Agrees ↔ Rebuilds s a)) := by
  obtain ⟨call, env⟩ := a
  obtain ⟨hvalid₁, hloaded₁, hagrees₁, hforce⟩ := themeEnsureLoaded_spec env hvalid
  cases call with
  | setAccent arg2 =>
      simp only [step, Rebuilds, themeSetAccent, hforce]
      generalize themeEnsureLoaded env s = s₁ at *
      by_cases hcolor : validateThemeColor (wrap32 arg2) = true
      · have hset : ({ s₁.theme with accentColor := wrap32 arg2 } : ThemeState).Valid :=
          ⟨⟨⟨hcolor, wrap32_lt _⟩, hvalid₁.mode, hvalid₁.solid, hvalid₁.style, hvalid₁.path⟩, hvalid₁.wallpaper⟩
        by_cases hfails : s₁.theme.backgroundMode = themeBgWallpaper ∧ env.loads s₁.theme.wallpaperPath = false
        · -- the theme stays with the wallpaper, and the desktop shows the gradient
          obtain ⟨hmode, hfalse⟩ := hfails
          rw [if_neg (by simp [hcolor]), themeApplyState_fails (s := { s₁ with theme.accentColor := wrap32 arg2 }) hset hmode hfalse]
          simp only
          rw [if_pos (by decide)]
          refine ⟨hset, hloaded₁, fun _ => ⟨fun h => ?_, fun h => ?_⟩⟩
          · exact absurd (h.mode.symm.trans hmode) gradient_ne_wallpaper
          · have hloads := h hcolor _ (if_pos hmode)
            rw [hfalse] at hloads
            exact absurd hloads (by decide)
        · have hloads : s₁.theme.backgroundMode = themeBgWallpaper → env.loads s₁.theme.wallpaperPath = true := by
            intro hmode
            by_contra hfalse
            exact hfails ⟨hmode, by simpa using hfalse⟩
          obtain ⟨hret, hshown, -, hloaded⟩ := themeApplyState_shown env.loads (s := { s₁ with theme.accentColor := wrap32 arg2 }) hset hloads
          have hshown' := hshown.persist env.writes
          rw [if_neg (by simp [hcolor])]
          simp only [hret]
          refine ⟨hshown'.valid, hloaded.trans hloaded₁, fun _ => ⟨fun _ _ path hpath => ?_, fun _ => hshown'.agrees⟩⟩
          split at hpath
          · rename_i hmode
            cases hpath
            exact hloads hmode
          · exact absurd hpath.symm (Option.some_ne_none path)
      · rw [if_pos (by simpa using hcolor)]
        exact ⟨hvalid₁, hloaded₁, fun h => ⟨fun _ htrue => absurd htrue hcolor, fun _ => hagrees₁ h⟩⟩
  | setBgMode arg2 arg3 arg4 =>
      simp only [step, Rebuilds, themeSetBgMode, iff_true]
      generalize themeEnsureLoaded env s = s₁ at *
      -- a checked mode goes through with any valid settings
      have hchecked : validateBgMode (wrap32 arg2) = true → ∀ s₂ : ThemeSys, s₂.theme.Valid → s₂.loaded = s₁.loaded →
          (Tsukasa.setBgMode env s₂ (wrap32 arg2)).2.theme.Valid ∧ (Tsukasa.setBgMode env s₂ (wrap32 arg2)).2.loaded = true ∧
            ((s.loaded = true → s.Agrees) → (Tsukasa.setBgMode env s₂ (wrap32 arg2)).2.Agrees) := by
        intro hmode s₂ hvalid₂ hloaded₂
        obtain ⟨hshown, hloaded⟩ := setBgMode_shown env hvalid₂ hmode
        exact ⟨hshown.valid, (hloaded.trans hloaded₂).trans hloaded₁, fun _ => hshown.agrees⟩
      by_cases hmode : validateBgMode (wrap32 arg2) = true
      · rw [if_neg (by simp [hmode])]
        split
        · split
          · exact ⟨hvalid₁, hloaded₁, hagrees₁⟩
          · rename_i hcolor
            refine hchecked hmode _ ?_ rfl
            exact ⟨⟨hvalid₁.accent, hvalid₁.mode, ⟨by simpa using hcolor, wrap32_lt _⟩, hvalid₁.style, hvalid₁.path⟩, hvalid₁.wallpaper⟩
        split
        · split
          · exact ⟨hvalid₁, hloaded₁, hagrees₁⟩
          · rename_i hstyle
            refine hchecked hmode _ ?_ rfl
            exact ⟨⟨hvalid₁.accent, hvalid₁.mode, hvalid₁.solid, by simpa using hstyle, hvalid₁.path⟩, hvalid₁.wallpaper⟩
        · exact hchecked hmode _ hvalid₁ rfl
      · rw [if_pos (by simpa using hmode)]
        exact ⟨hvalid₁, hloaded₁, hagrees₁⟩
  | setWallpaper path arg3 arg4 =>
      simp only [step, Rebuilds, themeSetWallpaper, iff_true]
      generalize themeEnsureLoaded env s = s₁ at *
      by_cases hpath : validateWallpaperPath path false = 0
      · obtain ⟨path, rfl⟩ : ∃ path', path = some path' := by
          cases path with
          | none => exact absurd hpath (by decide)
          | some path' => exact ⟨path', rfl⟩
        have hchecked : ∀ s₂ : ThemeSys, s₂.theme.Valid → s₂.loaded = s₁.loaded →
            (Tsukasa.setWallpaper env s₂ path).2.theme.Valid ∧ (Tsukasa.setWallpaper env s₂ path).2.loaded = true ∧
              ((s.loaded = true → s.Agrees) → (Tsukasa.setWallpaper env s₂ path).2.Agrees) := by
          intro s₂ hvalid₂ hloaded₂
          obtain ⟨hshown, hloaded⟩ := setWallpaper_shown env hvalid₂ hpath
          exact ⟨hshown.valid, (hloaded.trans hloaded₂).trans hloaded₁, fun _ => hshown.agrees⟩
        rw [if_neg (not_not.mpr hpath)]
        split
        · split
          · exact ⟨hvalid₁, hloaded₁, hagrees₁⟩
          · rename_i hstyle
            refine hchecked _ ?_ rfl
            exact ⟨⟨hvalid₁.accent, hvalid₁.mode, hvalid₁.solid, by simpa using hstyle, hvalid₁.path⟩, hvalid₁.wallpaper⟩
        · exact hchecked _ hvalid₁ rfl
      · rw [if_pos hpath]
        exact ⟨hvalid₁, hloaded₁, hagrees₁⟩

/-! ### Runs -/

/-- The system before the first call. -/
def ThemeSys.start (theme : ThemeState) (desktop : DesktopTheme) : ThemeSys := ⟨theme, false, desktop⟩

theorem theme_run_valid {calls : List (ThemeCall × ThemeEnv)} (hvalid : s.loaded = true → s.theme.Valid) :
    (Lib.run ThemeCall.step s calls).loaded = true → (Lib.run ThemeCall.step s calls).theme.Valid := by
  induction calls generalizing s with
  | nil => exact hvalid
  | cons a calls ih => exact ih fun _ => (ThemeCall.step_spec a hvalid).1

/-- A state that the calls leave survives the configuration file exactly if its path does not end in a space. -/
theorem theme_cfg_round_trip (theme : ThemeState) (desktop : DesktopTheme) (calls : List (ThemeCall × ThemeEnv)) (a : ThemeCall × ThemeEnv) :
    (Lib.run ThemeCall.step (ThemeSys.start theme desktop) (calls ++ [a])).theme.RoundTrips ↔
      (Lib.run ThemeCall.step (ThemeSys.start theme desktop) (calls ++ [a])).theme.wallpaperPath.getLast? ≠ some 32 := by
  rw [Lib.run_append]
  exact ThemeState.roundTrips_iff (ThemeCall.step_spec a (theme_run_valid fun hloaded => absurd hloaded Bool.false_ne_true)).1

/-- No configuration file, and wallpapers that can all be built or not. -/
def plainEnv (loads : Bool) : ThemeEnv where
  primary := none
  fallback := none
  loadsFirst _ := loads
  loads _ := loads
  writesFirst := ⟨true, true⟩
  writes := ⟨true, true⟩

def plainDesktop : DesktopTheme := ⟨themeAccentDefault, themeBgGradient, themeBgBot, themeWpScaleFill, []⟩

/-- A wallpaper whose path ends in a space. -/
def setSpacePath : ThemeCall × ThemeEnv := (.setWallpaper (some (ascii "/disk/a.bmp ")) 0 0, plainEnv true)

/-- The reader trims the space that a path may end in. -/
theorem theme_cfg_trailing_space :
    ¬∀ (theme : ThemeState) (desktop : DesktopTheme) (calls : List (ThemeCall × ThemeEnv)) (a : ThemeCall × ThemeEnv),
      (Lib.run ThemeCall.step (ThemeSys.start theme desktop) (calls ++ [a])).theme.RoundTrips := by
  intro hclaim
  have htrips := hclaim themeSetDefaults plainDesktop [] setSpacePath
  have hvalid := (ThemeCall.step_spec (s := ThemeSys.start themeSetDefaults plainDesktop) setSpacePath fun hloaded => absurd hloaded Bool.false_ne_true).1
  have hlast : (ThemeCall.step (ThemeSys.start themeSetDefaults plainDesktop) setSpacePath).theme.wallpaperPath.getLast? = some 32 := by
    decide +kernel
  exact (ThemeState.roundTrips_iff hvalid).mp htrips hlast

/-- After every call the desktop shows the theme exactly as long as a wallpaper in force can be built again whenever the accent colour is set. -/
theorem theme_desktop_agree (theme : ThemeState) (desktop : DesktopTheme) (calls : List (ThemeCall × ThemeEnv)) :
    Lib.Allowed (fun s a => (ThemeCall.step s a).Agrees) ThemeCall.step (ThemeSys.start theme desktop) calls ↔
      Lib.Allowed ThemeCall.Rebuilds ThemeCall.step (ThemeSys.start theme desktop) calls := by
  have hstep : ∀ (s : ThemeSys) (a : ThemeCall × ThemeEnv), (s.loaded = true → s.Shown) → ThemeCall.Rebuilds s a →
      (ThemeCall.step s a).loaded = true → (ThemeCall.step s a).Shown := by
    intro s a h hrebuilds _
    obtain ⟨hvalid, -, hagrees⟩ := ThemeCall.step_spec a fun hloaded => (h hloaded).valid
    exact ⟨hvalid, (hagrees fun hloaded => (h hloaded).agrees).mpr hrebuilds⟩
  refine Lib.allowed_iff_allowed hstep (fun s a h hrebuilds => ?_) (fun s a h hnot hagrees => ?_) (fun hloaded => absurd hloaded Bool.false_ne_true) calls
  · obtain ⟨-, -, hiff⟩ := ThemeCall.step_spec a fun hloaded => (h hloaded).valid
    exact (hiff fun hloaded => (h hloaded).agrees).mpr hrebuilds
  · obtain ⟨-, -, hiff⟩ := ThemeCall.step_spec a fun hloaded => (h hloaded).valid
    exact hnot ((hiff fun hloaded => (h hloaded).agrees).mp hagrees)

/-- The wallpaper is set, its file goes away, and the accent colour is set. -/
def accentOverLostWallpaper : List (ThemeCall × ThemeEnv) :=
  [(.setWallpaper (some (ascii "/disk/a.bmp")) 0 0, plainEnv true), (.setAccent 0xFF112233, plainEnv false)]

theorem theme_desktop_drift :
    ¬∀ (theme : ThemeState) (desktop : DesktopTheme) (calls : List (ThemeCall × ThemeEnv)),
      Lib.Allowed (fun s a => (ThemeCall.step s a).Agrees) ThemeCall.step (ThemeSys.start theme desktop) calls := by
  intro hclaim
  have hrun := hclaim themeSetDefaults plainDesktop accentOverLostWallpaper
  exact absurd hrun.2.1.mode (by decide +kernel)

end Tsukasa
