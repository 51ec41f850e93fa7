import Fynaos.Fbcon.Image
import Fynaos.Fbcon.Terminal

/-!
# The screen is a text terminal

`Shows font fb c t`: the cursor of the console is that of the terminal, and every cell of the grid is
drawn on its eight by eight pixels. One character keeps the relation (`putChar_shows`), so whatever is
written to a blank screen, the screen is the drawing of the terminal (`console_refines_terminal`).

The rows of pixels below the last full line hold the background, because scrolling copies them into
that line. Nothing is needed of the columns beside the grid.
-/

namespace Fynaos.Fbcon

def pixelAt (s : Screen) (x y : ℕ) : ℕ := Memory.load s.bytes (pixel s.info x y) 4

def cellPixel (font : ℕ → ℕ → ℕ) (foreground background : ℕ) (cell : Option UInt8) (row col : ℕ) : ℕ :=
  cell.elim background fun ch => glyphPixel font foreground background ch.toNat row col

/-- `picture` is the drawing of the cells, with background below them. -/
structure Drawing (font : ℕ → ℕ → ℕ) (fb : FramebufferTag) (foreground background : ℕ)
    (cells : Fin (fb.height / 8) → Fin (fb.width / 8) → Option UInt8) (picture : ℕ → ℕ → ℕ) :
    Prop where
  cell : ∀ i j, ∀ row < 8, ∀ col < 8, picture (j.val * 8 + col) (i.val * 8 + row) =
    cellPixel font foreground background (cells i j) row col
  below : ∀ x < fb.width, ∀ y < fb.height, fb.height / 8 * 8 ≤ y → picture x y = background

/-- The screen of the console is the drawing of the cells. -/
structure DrawnOn (font : ℕ → ℕ → ℕ) (fb : FramebufferTag) (c : Console)
    (cells : Fin (fb.height / 8) → Fin (fb.width / 8) → Option UInt8) : Prop extends Ready fb c where
  drawing : Drawing font fb (colorValue fb c.foreground) (colorValue fb c.background) cells
    (pixelAt c.screen)

/-- The console shows the terminal. -/
structure Shows (font : ℕ → ℕ → ℕ) (fb : FramebufferTag) (c : Console)
    (t : Terminal (fb.height / 8) (fb.width / 8)) : Prop extends DrawnOn font fb c t.cells where
  x : c.x = t.column
  y : c.y = t.line

section drawing
variable {font : ℕ → ℕ → ℕ} {fb : FramebufferTag} {foreground background : ℕ} {s : Screen}
  {cells : Fin (fb.height / 8) → Fin (fb.width / 8) → Option UInt8} {picture picture' : ℕ → ℕ → ℕ}

/-! ### Drawings -/

theorem Displays.self (h : s.info = fb) : Displays fb s (pixelAt s) where
  info := h
  pixels x _ y _ := by rw [pixelAt, h]

theorem Drawing.congr (h : Drawing font fb foreground background cells picture)
    (heq : ∀ x < fb.width, ∀ y < fb.height, picture' x y = picture x y) :
    Drawing font fb foreground background cells picture' where
  cell i j row hrow col hcol := by
    have hi := i.isLt
    have hj := j.isLt
    rw [heq _ (by omega) _ (by omega)]
    exact h.cell i j row hrow col hcol
  below x hx y hy hbelow := (heq x hx y hy).trans (h.below x hx y hy hbelow)

theorem Displays.drawing (h : Displays fb s picture)
    (hdrawing : Drawing font fb foreground background cells picture) :
    Drawing font fb foreground background cells (pixelAt s) := by
  apply hdrawing.congr
  intro x hx y hy
  rw [pixelAt, h.info]
  exact h.pixels x hx y hy

theorem Drawing.draw {t : Terminal (fb.height / 8) (fb.width / 8)}
    (h : Drawing font fb foreground background t.cells picture) (ch : UInt8) :
    Drawing font fb foreground background (t.marked ch)
      (drawn font foreground background ch.toNat (t.column * 8) (t.line * 8) picture) where
  cell i j row hrow col hcol := by
    unfold drawn Terminal.marked
    by_cases hcell : i = t.line ∧ j = t.column
    · obtain ⟨rfl, rfl⟩ := hcell
      rw [if_pos (by omega), if_pos ⟨rfl, rfl⟩, Nat.add_sub_cancel_left, Nat.add_sub_cancel_left]
      rfl
    · rw [if_neg fun hin => hcell ⟨Fin.ext (by omega), Fin.ext (by omega)⟩, if_neg hcell]
      exact h.cell i j row hrow col hcol
  below x hx y hy hbelow := by
    have hline := t.line.isLt
    rw [drawn, if_neg (by omega)]
    exact h.below x hx y hy hbelow

/-- Moving the picture up by eight rows moves the lines up by one; the rows below the last line are
background, before and after. -/
theorem Drawing.scroll (h : Drawing font fb foreground background cells picture) :
    Drawing font fb foreground background (Terminal.moveUp cells)
      (scrolled fb.height 8 background picture) where
  cell i j row hrow col hcol := by
    have hi := i.isLt
    have hj := j.isLt
    unfold scrolled Terminal.moveUp
    by_cases hnext : i.val + 1 < fb.height / 8
    · have hnextRow : i.val * 8 + row + 8 = (i.val + 1) * 8 + row := by omega
      have hinside : i.val * 8 + row + 8 < fb.height := by omega
      rw [dif_pos hnext, if_pos hinside, hnextRow]
      exact h.cell ⟨i + 1, hnext⟩ j row hrow col hcol
    · rw [dif_neg hnext]
      split_ifs with hlast
      · exact h.below _ (by omega) _ hlast (by omega)
      · rfl
  below x hx y hy hbelow := if_neg (by omega)

theorem Drawing.blank (h : ∀ x < fb.width, ∀ y < fb.height, picture x y = background) :
    Drawing font fb foreground background (fun _ _ => none) picture where
  cell i j row hrow col hcol := by
    have hi := i.isLt
    have hj := j.isLt
    exact h _ (by omega) _ (by omega)
  below x hx y hy _ := h x hx y hy

end drawing

section console
variable {font : ℕ → ℕ → ℕ} {fb : FramebufferTag} {c : Console}
  {t : Terminal (fb.height / 8) (fb.width / 8)}
  {cells : Fin (fb.height / 8) → Fin (fb.width / 8) → Option UInt8}

/-! ### One character -/

theorem height_lt (hfb : Accepted fb) (hroom : Roomy fb) : fb.height + 8 ≤ 2 ^ 32 := by
  have hsize := hfb.size
  have hpitch := hroom.pitch
  have hwidth := hroom.width
  have hmul : 32 * fb.height ≤ fb.pitch * fb.height := Nat.mul_le_mul_right _ (by omega)
  have hheight := hroom.height
  omega

theorem DrawnOn.scroll (hfb : Accepted fb) (hroom : Roomy fb) (h : DrawnOn font fb c cells) :
    DrawnOn font fb (fbconScrollUp c) (Terminal.moveUp cells) where
  toReady := fbconScrollUp_ready h.toReady
  drawing := by
    have hscroll := (Displays.self h.info).scroll hfb hroom (show 0 < 8 by norm_num)
      (height_lt hfb hroom) c.background
    unfold fbconScrollUp
    rw [h.textCy]
    exact hscroll.drawing h.drawing.scroll

theorem DrawnOn.moved (h : DrawnOn font fb c cells) (x y : ℕ) :
    DrawnOn font fb { c with x := x, y := y } cells :=
  ⟨h.toReady.moved x y, h.drawing⟩

theorem endScreen_shows (hfb : Accepted fb) (hroom : Roomy fb) (h : DrawnOn font fb c t.cells)
    (hx : c.x = 0) (hy : c.y = t.line + 1) : Shows font fb (endScreen c) t.nextLine := by
  have hline := t.line.isLt
  have hheight := hfb.height
  unfold endScreen Terminal.nextLine
  rw [h.cy]
  by_cases hnext : t.line.val + 1 < fb.height / 8
  · rw [dif_pos hnext, if_neg (by omega)]
    exact ⟨h, hx, hy⟩
  · rw [dif_neg hnext, if_pos (by omega)]
    have hwrap : wrap32 (c.y + 2 ^ 32 - 1) = t.line := by
      unfold wrap32
      omega
    rw [hwrap]
    have hscroll := (h.scroll hfb hroom).moved c.x t.line
    exact ⟨hscroll, hx, rfl⟩

theorem wrapCursor_advance (hfb : Accepted fb) (hroom : Roomy fb) (h : DrawnOn font fb c t.cells)
    (hx : c.x = t.column + 1) (hy : c.y = t.line) : Shows font fb (wrapCursor c) t.advance := by
  have hline := t.line.isLt
  have hheight := hfb.height
  have hcx := h.cx
  have hcy := h.cy
  rw [wrapCursor_eq]
  unfold endLine Terminal.advance
  by_cases hnext : t.column.val + 1 < fb.width / 8
  · rw [dif_pos hnext, if_neg (by omega)]
    unfold endScreen
    rw [if_neg (by omega)]
    exact ⟨h, hx, hy⟩
  · rw [dif_neg hnext, if_pos (by omega), hy, wrap32_of_lt (by omega)]
    exact endScreen_shows hfb hroom (h.moved 0 _) rfl rfl

theorem Shows.wrapCursor (h : Shows font fb c t) : Shows font fb (wrapCursor c) t := by
  have hline := t.line.isLt
  have hcolumn := t.column.isLt
  have hx := h.x
  have hy := h.y
  rw [wrapCursor_eq]
  unfold endLine
  rw [h.cx, if_neg (by omega)]
  unfold endScreen
  rw [h.cy, if_neg (by omega)]
  exact h

theorem drawAtCursor_drawnOn (hfb : Accepted fb) (hroom : Roomy fb) (h : Shows font fb c t)
    (ch : UInt8) : DrawnOn font fb (drawAtCursor font ch c) (t.marked ch) where
  toReady := drawAtCursor_ready h.toReady font ch
  drawing := by
    have hline := t.line.isLt
    have hcolumn := t.column.isLt
    have hwidth := hfb.width
    have hheight := hfb.height
    have hx : t.column.val * 8 + 8 ≤ fb.width := by omega
    have hy : t.line.val * 8 + 8 ≤ fb.height := by omega
    have hdraw : Displays fb (fbconDrawCh font c.foreground c.background ch (t.column * 8)
        (t.line * 8) c.screen) _ := (Displays.self h.info).draw hfb hroom hx hy ch
    unfold drawAtCursor
    rw [h.textCx, h.textCy, h.x, h.y, wrap32_of_lt (by omega), wrap32_of_lt (by omega)]
    exact hdraw.drawing (h.drawing.draw ch)

theorem putChar_put (hfb : Accepted fb) (hroom : Roomy fb) (h : Shows font fb c t)
    (write : List UInt8 → Console → Console) {ch : UInt8} (hnewline : ch ≠ '\n'.toUInt8)
    (htab : ch ≠ '\t'.toUInt8) : Shows font fb (putChar font write c ch) (t.put ch) := by
  have hcolumn := t.column.isLt
  have hwidth := hfb.width
  have hx : wrap32 (c.x + 1) = t.column + 1 := by
    rw [h.x]
    exact wrap32_of_lt (by omega)
  unfold putChar
  rw [if_neg hnewline, if_neg htab]
  apply wrapCursor_advance (t := { t with cells := t.marked ch }) hfb hroom
  · exact drawAtCursor_drawnOn hfb hroom h ch
  · exact hx
  · exact h.y

theorem foldl_putChar_put (hfb : Accepted fb) (hroom : Roomy fb)
    (write : List UInt8 → Console → Console) (l : List UInt8)
    (hl : ∀ ch ∈ l, ch ≠ '\n'.toUInt8 ∧ ch ≠ '\t'.toUInt8) (h : Shows font fb c t) :
    Shows font fb (l.foldl (putChar font write) c) (l.foldl Terminal.put t) := by
  induction l generalizing c t with
  | nil => exact h
  | cons ch l ih =>
    obtain ⟨⟨hnewline, htab⟩, hl⟩ := List.forall_mem_cons.mp hl
    exact ih hl (putChar_put hfb hroom h write hnewline htab)

/-- A character of a string. The spaces of a tab are written by the inner call. -/
theorem putChar_shows (hfb : Accepted fb) (hroom : Roomy fb) (h : Shows font fb c t) (ch : UInt8) :
    Shows font fb (putChar font (fbconWriteDepth font 1) c ch) (t.write ch) := by
  have hcolumn := t.column.isLt
  have hline := t.line.isLt
  have hheight := hfb.height
  unfold Terminal.write
  by_cases hnewline : ch = '\n'.toUInt8
  · have hcols : ¬ c.cx ≤ 0 := by
      rw [h.cx]
      omega
    have hy : wrap32 (c.y + 1) = t.line + 1 := by
      rw [h.y]
      exact wrap32_of_lt (by omega)
    unfold putChar
    rw [if_pos hnewline, if_pos hnewline, wrapCursor_eq]
    unfold endLine
    dsimp only
    rw [if_neg hcols]
    exact endScreen_shows hfb hroom (h.toDrawnOn.moved 0 _) rfl hy
  · rw [if_neg hnewline]
    by_cases htab : ch = '\t'.toUInt8
    · have hspaces : ∀ ch ∈ List.replicate 4 ' '.toUInt8,
          ch ≠ '\n'.toUInt8 ∧ ch ≠ '\t'.toUInt8 := by
        intro ch hch
        rw [(List.mem_replicate.mp hch).2]
        decide
      unfold putChar
      rw [if_neg hnewline, if_pos htab, if_pos htab]
      exact (foldl_putChar_put hfb hroom _ _ hspaces h).wrapCursor
    · rw [if_neg htab]
      exact putChar_put hfb hroom h _ hnewline htab

/-! ### Strings -/

theorem fbconWrite_shows (hfb : Accepted fb) (hroom : Roomy fb) (s : List UInt8)
    (h : Shows font fb c t) : Shows font fb (fbconWrite font s c) (s.foldl Terminal.write t) := by
  unfold fbconWrite fbconWriteDepth
  induction s generalizing c t with
  | nil => exact h
  | cons ch s ih => exact ih (putChar_shows hfb hroom h ch)

theorem writes_shows (hfb : Accepted fb) (hroom : Roomy fb) (strings : List (List UInt8))
    (h : Shows font fb c t) : Shows font fb (writes font strings c) (t.print strings) := by
  unfold writes Terminal.print
  induction strings generalizing c t with
  | nil => exact h
  | cons s strings ih => exact ih (fbconWrite_shows hfb hroom s h)

theorem Roomy.rows_pos (h : Roomy fb) : 0 < fb.height / 8 := Nat.div_pos h.height (by norm_num)

theorem Roomy.cols_pos (h : Roomy fb) : 0 < fb.width / 8 := Nat.div_pos h.width (by norm_num)

theorem fbconInit_shows (hfb : Accepted fb) (hroom : Roomy fb) (hinfo : c.screen.info = fb)
    (hblank : ∀ x < fb.width, ∀ y < fb.height,
      pixelAt c.screen x y = colorValue fb c.background) :
    Shows font fb (fbconInit fb c).2 (Terminal.blank hroom.rows_pos hroom.cols_pos) := by
  have hinit : (fbconInit fb c).2 = { c with x := 0, y := 0, textCx := 8, textCy := 8,
                                             cx := fb.width / 8, cy := fb.height / 8 } := by
    unfold fbconInit
    rw [if_neg (not_not.mpr hfb.type)]
  rw [hinit]
  exact ⟨⟨⟨hinfo, rfl, rfl, rfl, rfl⟩, Drawing.blank hblank⟩, rfl, rfl⟩

/-- After `fbcon_init` on a screen in the background color, the screen is the drawing of a terminal
that got the same strings. -/
theorem console_refines_terminal (hfb : Accepted fb) (hroom : Roomy fb) (font : ℕ → ℕ → ℕ)
    (hinfo : c.screen.info = fb)
    (hblank : ∀ x < fb.width, ∀ y < fb.height,
      pixelAt c.screen x y = colorValue fb c.background) (strings : List (List UInt8)) :
    Shows font fb (writes font strings (fbconInit fb c).2)
      ((Terminal.blank hroom.rows_pos hroom.cols_pos).print strings) :=
  writes_shows hfb hroom strings (fbconInit_shows hfb hroom hinfo hblank)

/-- 800 by 600 pixels on zeroed memory. -/
theorem console_refines_terminal_svga : ∃ hrows hcols,
    Shows (fun _ _ => 0x55) ⟨0xFD000000, 3200, 800, 600, 32, 1, 16, 8, 0⟩
      (writes (fun _ _ => 0x55) [[0x09, 0x41, 0x0A], [0x42]]
        (start ⟨0xFD000000, 3200, 800, 600, 32, 1, 16, 8, 0⟩ fun _ => 0))
      ((Terminal.blank hrows hcols).print [[0x09, 0x41, 0x0A], [0x42]]) := by
  have hfb : Accepted ⟨0xFD000000, 3200, 800, 600, 32, 1, 16, 8, 0⟩ := by constructor <;> decide
  have hroom : Roomy ⟨0xFD000000, 3200, 800, 600, 32, 1, 16, 8, 0⟩ := by constructor <;> decide
  refine ⟨hroom.rows_pos, hroom.cols_pos, ?_⟩
  refine console_refines_terminal (c := { powerOn fun _ => 0 with screen := (framebufferInit
    ⟨0xFD000000, 3200, 800, 600, 32, 1, 16, 8, 0⟩ (powerOn fun _ => 0).screen).2 })
    hfb hroom _ rfl ?_ _
  intro x _ y _
  exact Memory.load_eq_zero fun _ _ _ => rfl

end console

end Fynaos.Fbcon
