import Fynaos.Lib.Memory
import Fynaos.Types

/-!
# The framebuffer and its console

`drivers/framebuffer.c` and `drivers/fbcon.c`. A pixel is 32 bits of memory, whatever the depth of the
framebuffer is. All coordinates are `uint32_t`. The font is a parameter: `font ch row` is the byte at
`font8x8_basic[ch][row]`, in the table or behind it. A string is the list of its bytes in front of the NUL.

`Screen.pixels` and `Screen.glyphs` are ghosts: the addresses of all loads and stores of pixels, and the
indices of all reads of the font, the latest first.
-/

namespace Fynaos.Fbcon

/-- `ENOSYS` -/
abbrev eNosys : ℤ := 38

/-- The rows of `font8x8_basic`. -/
abbrev fontRows : ℕ := 128

/-- `struct multiboot2_tag_framebuffer` -/
structure FramebufferTag where
  addr : ℕ
  pitch : ℕ
  width : ℕ
  height : ℕ
  bpp : ℕ
  type : ℕ
  redPosition : ℕ
  greenPosition : ℕ
  bluePosition : ℕ
  deriving DecidableEq

/-- `framebuffer_info`, and the memory. -/
structure Screen where
  info : FramebufferTag
  bytes : Memory.Bytes
  pixels : List ℕ
  glyphs : List (ℕ × ℕ)

/-! ### The framebuffer -/

def framebufferInit (info : FramebufferTag) (s : Screen) : ℤ × Screen :=
  if info.type ≠ 1 then (-eNosys, s) else (0, { s with info := info })

def pixel (info : FramebufferTag) (x y : ℕ) : ℕ :=
  wrap (info.addr + wrap32 (y * info.pitch) + wrap32 (x * 4))

/-- `*pixel(x, y)` -/
def loadPixel (x y : ℕ) (s : Screen) : ℕ × Screen :=
  let address := pixel s.info x y
  (Memory.load s.bytes address 4, { s with pixels := address :: s.pixels })

/-- `*pixel(x, y) = v` -/
def storePixel (v x y : ℕ) (s : Screen) : Screen :=
  let address := pixel s.info x y
  { s with bytes := Memory.store s.bytes address 4 v, pixels := address :: s.pixels }

def framebufferWrite (color x y : ℕ) (s : Screen) : Screen :=
  let red := (color >>> 16) &&& 0xFF
  let green := (color >>> 8) &&& 0xFF
  let blue := color &&& 0xFF
  storePixel (wrap32 (red <<< s.info.redPosition ||| green <<< s.info.greenPosition |||
    blue <<< s.info.bluePosition)) x y s

/-- `FRAMEBUFFER_RGB` of three bytes -/
def framebufferRgb (red green blue : ℕ) : ℕ := red <<< 16 ||| green <<< 8 ||| blue

def framebufferRead (x y : ℕ) (s : Screen) : ℕ × Screen :=
  let (v, s) := loadPixel x y s
  let red := (v >>> s.info.redPosition) &&& 0xFF
  let (v, s) := loadPixel x y s
  let green := (v >>> s.info.greenPosition) &&& 0xFF
  let (v, s) := loadPixel x y s
  let blue := (v >>> s.info.bluePosition) &&& 0xFF
  (framebufferRgb red green blue, s)

/-- The body of the loops of `framebuffer_scroll_up`. -/
def scrollPixel (scale emptyFill y : ℕ) (s : Screen) (x : ℕ) : Screen :=
  if s.info.height ≤ wrap32 (y + scale) then framebufferWrite emptyFill x y s
  else
    let (v, s) := loadPixel x (wrap32 (y + scale)) s
    storePixel v x y s

def framebufferScrollUp (scale emptyFill : ℕ) (s : Screen) : Screen :=
  (List.range s.info.height).foldl (fun s y =>
    (List.range s.info.width).foldl (scrollPixel scale emptyFill y) s) s

/-! ### The console -/

/-- The variables of `fbcon.c`. -/
structure Console where
  screen : Screen
  x : ℕ
  y : ℕ
  cx : ℕ
  cy : ℕ
  textCx : ℕ
  textCy : ℕ
  foreground : ℕ
  background : ℕ

/-- The body of the loops of `fbcon_draw_ch`. -/
def drawPixel (font : ℕ → ℕ → ℕ) (foreground background uch x y row : ℕ) (s : Screen) (col : ℕ) :
    Screen :=
  let s := framebufferWrite background (wrap32 (x + col)) (wrap32 (y + row)) s
  let s := { s with glyphs := (uch, row) :: s.glyphs }
  if font uch row &&& (1 <<< col) ≠ 0 then
    framebufferWrite foreground (wrap32 (x + col)) (wrap32 (y + row)) s
  else s

def fbconDrawCh (font : ℕ → ℕ → ℕ) (foreground background : ℕ) (ch : UInt8) (x y : ℕ) (s : Screen) :
    Screen :=
  (List.range 8).foldl (fun s row =>
    (List.range 8).foldl (drawPixel font foreground background ch.toNat x y row) s) s

def fbconScrollUp (c : Console) : Console :=
  { c with screen := framebufferScrollUp c.textCy c.background c.screen }

/-- The two checks at the end of the loop of `fbcon_write`. -/
def wrapCursor (c : Console) : Console :=
  let c := if c.cx ≤ c.x then { c with x := 0, y := wrap32 (c.y + 1) } else c
  if c.cy ≤ c.y then
    let c := fbconScrollUp c
    { c with y := wrap32 (c.y + 2 ^ 32 - 1) }
  else c

/-- The default branch of `fbcon_write`. -/
def drawAtCursor (font : ℕ → ℕ → ℕ) (ch : UInt8) (c : Console) : Console :=
  { c with
    screen := fbconDrawCh font c.foreground c.background ch (wrap32 (c.x * c.textCx))
      (wrap32 (c.y * c.textCy)) c.screen
    x := wrap32 (c.x + 1) }

/-- The body of the loop of `fbcon_write`, given what the recursive call does. -/
def putChar (font : ℕ → ℕ → ℕ) (write : List UInt8 → Console → Console) (c : Console) (ch : UInt8) :
    Console :=
  wrapCursor
    (if ch = '\n'.toUInt8 then { c with x := 0, y := wrap32 (c.y + 1) }
    else if ch = '\t'.toUInt8 then write (List.replicate 4 ' '.toUInt8) c
    else drawAtCursor font ch c)

/-- `fbcon_write` with a bound for the depth of the recursion. -/
def fbconWriteDepth (font : ℕ → ℕ → ℕ) : ℕ → List UInt8 → Console → Console
  | 0, _, c => c
  | depth + 1, s, c => s.foldl (putChar font (fbconWriteDepth font depth)) c

/-- `fbcon_write`. The spaces of a tab do not call it again. -/
def fbconWrite (font : ℕ → ℕ → ℕ) : List UInt8 → Console → Console := fbconWriteDepth font 2

def fbconInit (fb : FramebufferTag) (c : Console) : ℤ × Console :=
  if fb.type ≠ 1 then (-eNosys, c)
  else (0, { c with
    x := 0, y := 0, textCx := 8, textCy := 8, cx := fb.width / 8, cy := fb.height / 8 })

/-! ### Runs -/

/-- The variables before anything was called. -/
def powerOn (bytes : Memory.Bytes) : Console :=
  ⟨⟨⟨0, 0, 0, 0, 0, 0, 0, 0, 0⟩, bytes, [], []⟩, 0, 0, 0, 0, 8, 8, 0xFFFFFF, 0⟩

/-- `framebuffer_init` and `fbcon_init`, as `kmain` calls them. -/
def start (fb : FramebufferTag) (bytes : Memory.Bytes) : Console :=
  let c := powerOn bytes
  let c := { c with screen := (framebufferInit fb c.screen).2 }
  (fbconInit fb c).2

def writes (font : ℕ → ℕ → ℕ) (strings : List (List UInt8)) (c : Console) : Console :=
  strings.foldl (fun c s => fbconWrite font s c) c

end Fynaos.Fbcon
