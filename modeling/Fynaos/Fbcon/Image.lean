import Fynaos.Fbcon.Inside

/-!
# The picture on the screen

`Displays fb s picture`: the pixels of the resolution have the values of `picture`. In a frame whose
rows have room for four bytes a pixel, different pixels are different memory (`pixel_apart`), so a store
paints one pixel and the loops of the drivers are functions on pictures: `drawn` for a character and
`scrolled` for `framebuffer_scroll_up`, which copies rows upwards in the memory it reads from.
-/

namespace Fynaos.Fbcon

/-- The geometry is `fb`, and its pixels have the values of `picture`. -/
structure Displays (fb : FramebufferTag) (s : Screen) (picture : ℕ → ℕ → ℕ) : Prop where
  info : s.info = fb
  pixels : ∀ x < fb.width, ∀ y < fb.height, Memory.load s.bytes (pixel fb x y) 4 = picture x y

/-- What `framebuffer_write` stores for a color. -/
def colorValue (info : FramebufferTag) (color : ℕ) : ℕ :=
  wrap32 (((color >>> 16) &&& 0xFF) <<< info.redPosition |||
    ((color >>> 8) &&& 0xFF) <<< info.greenPosition ||| (color &&& 0xFF) <<< info.bluePosition)

def paint (picture : ℕ → ℕ → ℕ) (x y v : ℕ) : ℕ → ℕ → ℕ :=
  fun x' y' => if x' = x ∧ y' = y then v else picture x' y'

/-- A picture moved up by `scale` rows in a frame of `height` rows, and `fill` below it. -/
def scrolled (height scale fill : ℕ) (picture : ℕ → ℕ → ℕ) : ℕ → ℕ → ℕ :=
  fun x y => if y + scale < height then picture x (y + scale) else fill

def glyphPixel (font : ℕ → ℕ → ℕ) (foreground background uch row col : ℕ) : ℕ :=
  if font uch row &&& (1 <<< col) ≠ 0 then foreground else background

/-- A picture with a glyph in the eight by eight pixels from `x₀`, `y₀` on. -/
def drawn (font : ℕ → ℕ → ℕ) (foreground background uch x₀ y₀ : ℕ) (picture : ℕ → ℕ → ℕ) :
    ℕ → ℕ → ℕ :=
  fun x y =>
    if (x₀ ≤ x ∧ x < x₀ + 8) ∧ y₀ ≤ y ∧ y < y₀ + 8 then
      glyphPixel font foreground background uch (y - y₀) (x - x₀)
    else picture x y

section displays
variable {fb : FramebufferTag} {s : Screen} {picture picture' : ℕ → ℕ → ℕ} {x y x' y' v : ℕ}

/-! ### One pixel -/

/-- Different pixels have no byte in common, also where the addresses wrap around. -/
theorem pixel_apart (hfb : Accepted fb) (hroom : Roomy fb) (hx : x < fb.width) (hy : y < fb.height)
    (hx' : x' < fb.width) (hy' : y' < fb.height) (hne : ¬ (x' = x ∧ y' = y)) :
    pixel fb x' y' + 4 ≤ pixel fb x y ∨ pixel fb x y + 4 ≤ pixel fb x' y' := by
  have hsize := hfb.size
  have hpitch := hroom.pitch
  have hrow : ∀ i < fb.height, i * fb.pitch + fb.pitch ≤ fb.pitch * fb.height := by
    intro i hi
    rw [Nat.mul_comm fb.pitch, ← Nat.add_one_mul]
    exact Nat.mul_le_mul_right _ hi
  have hbelow : ∀ i j, i < j → i * fb.pitch + fb.pitch ≤ j * fb.pitch := by
    intro i j hij
    rw [← Nat.add_one_mul]
    exact Nat.mul_le_mul_right _ hij
  have h1 := hrow y hy
  have h2 := hrow y' hy'
  have hoffset : y' * fb.pitch + x' * 4 + 4 ≤ y * fb.pitch + x * 4 ∨
      y * fb.pitch + x * 4 + 4 ≤ y' * fb.pitch + x' * 4 := by
    rcases Nat.lt_trichotomy y y' with hlt | heq | hlt
    · have := hbelow y y' hlt
      omega
    · subst heq
      omega
    · have := hbelow y' y hlt
      omega
  unfold pixel
  rw [wrap32_of_lt (by omega : y * fb.pitch < 2 ^ 32), wrap32_of_lt (by omega : x * 4 < 2 ^ 32),
    wrap32_of_lt (by omega : y' * fb.pitch < 2 ^ 32), wrap32_of_lt (by omega : x' * 4 < 2 ^ 32)]
  generalize y * fb.pitch = a at *
  generalize y' * fb.pitch = b at *
  unfold wrap
  omega

theorem colorValue_lt (info : FramebufferTag) (color : ℕ) : colorValue info color < 2 ^ 32 :=
  Nat.mod_lt _ (by norm_num)

theorem Displays.congr (h : Displays fb s picture)
    (heq : ∀ x < fb.width, ∀ y < fb.height, picture x y = picture' x y) :
    Displays fb s picture' where
  info := h.info
  pixels x hx y hy := (h.pixels x hx y hy).trans (heq x hx y hy)

theorem Displays.value_lt (h : Displays fb s picture) (hx : x < fb.width) (hy : y < fb.height) :
    picture x y < 2 ^ 32 := by
  rw [← h.pixels x hx y hy]
  exact Memory.load_lt _ _ _

theorem Displays.store (hfb : Accepted fb) (hroom : Roomy fb) (h : Displays fb s picture)
    (hx : x < fb.width) (hy : y < fb.height) (hv : v < 2 ^ 32) :
    Displays fb (storePixel v x y s) (paint picture x y v) where
  info := h.info
  pixels x' hx' y' hy' := by
    simp only [storePixel, h.info, paint]
    split_ifs with heq
    · obtain ⟨rfl, rfl⟩ := heq
      exact Memory.load_store_self hv
    · rw [Memory.load_store_of_disjoint (pixel_apart hfb hroom hx hy hx' hy' heq)]
      exact h.pixels x' hx' y' hy'

theorem Displays.write (hfb : Accepted fb) (hroom : Roomy fb) (h : Displays fb s picture)
    (hx : x < fb.width) (hy : y < fb.height) (color : ℕ) :
    Displays fb (framebufferWrite color x y s) (paint picture x y (colorValue fb color)) := by
  have hstore := h.store hfb hroom hx hy (colorValue_lt fb color)
  rw [← h.info] at hstore ⊢
  exact hstore

theorem Displays.load (h : Displays fb s picture) (hx : x < fb.width) (hy : y < fb.height) :
    (loadPixel x y s).1 = picture x y ∧ Displays fb (loadPixel x y s).2 picture := by
  constructor
  · simp only [loadPixel, h.info]
    exact h.pixels x hx y hy
  · exact ⟨h.info, h.pixels⟩

/-! ### Loops -/

/-- A loop over a range, with what holds after `k` rounds. -/
theorem foldl_range_induct {α : Type} {f : α → ℕ → α} {P : ℕ → α → Prop} {a : α} {n : ℕ}
    (hstart : P 0 a) (hstep : ∀ k < n, ∀ b, P k b → P (k + 1) (f b k)) :
    P n ((List.range n).foldl f a) := by
  induction n with
  | zero => exact hstart
  | succ n ih =>
    rw [List.range_succ, List.foldl_append, List.foldl_cons, List.foldl_nil]
    apply hstep n (Nat.lt_succ_self n)
    exact ih fun k hk => hstep k (Nat.lt_succ_of_lt hk)

/-- One round of `framebuffer_scroll_up` in a state where the rows from `y` on are still those of
`picture`. -/
theorem Displays.scrollPixel {scale emptyFill : ℕ} (hfb : Accepted fb) (hroom : Roomy fb)
    (hwrap : fb.height + scale ≤ 2 ^ 32) (h : Displays fb s picture') (hx : x < fb.width)
    (hy : y < fb.height) (hbelow : picture' x (y + scale) = picture x (y + scale)) :
    Displays fb (scrollPixel scale emptyFill y s x)
      (paint picture' x y (scrolled fb.height scale (colorValue fb emptyFill) picture x y)) := by
  unfold Fbcon.scrollPixel scrolled
  rw [h.info, wrap32_of_lt (by omega)]
  by_cases hlast : fb.height ≤ y + scale
  · rw [if_pos hlast, if_neg (Nat.not_lt.mpr hlast)]
    exact h.write hfb hroom hx hy emptyFill
  · have hlt : y + scale < fb.height := Nat.lt_of_not_le hlast
    obtain ⟨hvalue, hload⟩ := h.load hx hlt
    rw [if_neg hlast, if_pos hlt]
    dsimp only
    rw [hvalue, ← hbelow]
    exact hload.store hfb hroom hx hy (h.value_lt hx hlt)

/-- The picture while row `y` is scrolled: its first `n` pixels are done. -/
def scrolledRow (height scale fill y n : ℕ) (picture : ℕ → ℕ → ℕ) : ℕ → ℕ → ℕ :=
  fun x' y' =>
    if y' < y ∨ y' = y ∧ x' < n then scrolled height scale fill picture x' y' else picture x' y'

theorem Displays.scrollRow {scale emptyFill : ℕ} (hfb : Accepted fb) (hroom : Roomy fb)
    (hscale : 0 < scale) (hwrap : fb.height + scale ≤ 2 ^ 32) (hy : y < fb.height)
    (h : Displays fb s (scrolledRow fb.height scale (colorValue fb emptyFill) y 0 picture)) :
    Displays fb ((List.range fb.width).foldl (Fbcon.scrollPixel scale emptyFill y) s)
      (scrolledRow fb.height scale (colorValue fb emptyFill) y fb.width picture) := by
  refine foldl_range_induct (P := fun n t => Displays fb t
    (scrolledRow fb.height scale (colorValue fb emptyFill) y n picture)) h fun k hk t ht => ?_
  -- the row that is read lies below the row that is written
  have hbelow : scrolledRow fb.height scale (colorValue fb emptyFill) y k picture k (y + scale) =
      picture k (y + scale) := if_neg (by omega)
  apply (ht.scrollPixel hfb hroom hwrap hk hy hbelow).congr
  intro x' hx' y' hy'
  unfold paint scrolledRow
  by_cases heq : x' = k ∧ y' = y
  · obtain ⟨rfl, rfl⟩ := heq
    rw [if_pos ⟨rfl, rfl⟩, if_pos (by omega)]
  · rw [if_neg heq]
    exact if_congr (by omega) rfl rfl

theorem Displays.scroll {scale : ℕ} (hfb : Accepted fb) (hroom : Roomy fb) (hscale : 0 < scale)
    (hwrap : fb.height + scale ≤ 2 ^ 32) (h : Displays fb s picture) (emptyFill : ℕ) :
    Displays fb (framebufferScrollUp scale emptyFill s)
      (scrolled fb.height scale (colorValue fb emptyFill) picture) := by
  have hrows : Displays fb (framebufferScrollUp scale emptyFill s)
      (scrolledRow fb.height scale (colorValue fb emptyFill) fb.height 0 picture) := by
    unfold framebufferScrollUp
    rw [h.info]
    refine foldl_range_induct (P := fun n t => Displays fb t
      (scrolledRow fb.height scale (colorValue fb emptyFill) n 0 picture)) ?_ fun k hk t ht => ?_
    · apply h.congr
      intro x hx y hy
      exact (if_neg (by omega)).symm
    · rw [ht.info]
      apply (ht.scrollRow hfb hroom hscale hwrap hk).congr
      intro x hx y hy
      unfold scrolledRow
      exact if_congr (by omega) rfl rfl
  apply hrows.congr
  intro x hx y hy
  exact if_pos (Or.inl hy)

/-! ### A character -/

section draw
variable {font : ℕ → ℕ → ℕ} {foreground background uch row col : ℕ}

theorem Displays.drawPixel (hfb : Accepted fb) (hroom : Roomy fb) (h : Displays fb s picture)
    (hx : x + col < fb.width) (hy : y + row < fb.height) :
    Displays fb (drawPixel font foreground background uch x y row s col)
      (paint picture (x + col) (y + row)
        (glyphPixel font (colorValue fb foreground) (colorValue fb background) uch row col)) := by
  have hwidth := hfb.width
  have hheight := hfb.height
  have hback := h.write hfb hroom hx hy background
  have hlook : Displays fb { framebufferWrite background (x + col) (y + row) s with
      glyphs := (uch, row) :: (framebufferWrite background (x + col) (y + row) s).glyphs }
      (paint picture (x + col) (y + row) (colorValue fb background)) := ⟨hback.info, hback.pixels⟩
  unfold Fbcon.drawPixel glyphPixel
  rw [wrap32_of_lt (by omega), wrap32_of_lt (by omega)]
  dsimp only
  by_cases hbit : font uch row &&& (1 <<< col) ≠ 0
  · rw [if_pos hbit, if_pos hbit]
    -- the foreground replaces the background
    apply (hlook.write hfb hroom hx hy foreground).congr
    intro x' _ y' _
    unfold paint
    split_ifs <;> rfl
  · rw [if_neg hbit, if_neg hbit]
    exact hlook

/-- The picture while a glyph is drawn: `row` rows are done, and `col` pixels of the next one. -/
def drawnPart (font : ℕ → ℕ → ℕ) (foreground background uch x₀ y₀ row col : ℕ)
    (picture : ℕ → ℕ → ℕ) : ℕ → ℕ → ℕ :=
  fun x y =>
    if (x₀ ≤ x ∧ x < x₀ + 8 ∧ y₀ ≤ y ∧ y < y₀ + row) ∨ (x₀ ≤ x ∧ x < x₀ + col ∧ y = y₀ + row) then
      glyphPixel font foreground background uch (y - y₀) (x - x₀)
    else picture x y

theorem Displays.drawRow (hfb : Accepted fb) (hroom : Roomy fb) (hx : x + 8 ≤ fb.width)
    (hy : y + row < fb.height)
    (h : Displays fb s (drawnPart font (colorValue fb foreground) (colorValue fb background) uch
      x y row 0 picture)) :
    Displays fb ((List.range 8).foldl (Fbcon.drawPixel font foreground background uch x y row) s)
      (drawnPart font (colorValue fb foreground) (colorValue fb background) uch x y row 8
        picture) := by
  refine foldl_range_induct (P := fun n t => Displays fb t (drawnPart font
    (colorValue fb foreground) (colorValue fb background) uch x y row n picture)) h
    fun k hk t ht => ?_
  apply (ht.drawPixel hfb hroom (show x + k < fb.width by omega) hy).congr
  intro x' _ y' _
  unfold paint drawnPart
  by_cases heq : x' = x + k ∧ y' = y + row
  · obtain ⟨rfl, rfl⟩ := heq
    rw [if_pos ⟨rfl, rfl⟩, if_pos (by omega), Nat.add_sub_cancel_left, Nat.add_sub_cancel_left]
  · rw [if_neg heq]
    exact if_congr (by omega) rfl rfl

theorem Displays.draw (hfb : Accepted fb) (hroom : Roomy fb) (h : Displays fb s picture)
    (hx : x + 8 ≤ fb.width) (hy : y + 8 ≤ fb.height) (ch : UInt8) :
    Displays fb (fbconDrawCh font foreground background ch x y s)
      (drawn font (colorValue fb foreground) (colorValue fb background) ch.toNat x y picture) := by
  have hrows : Displays fb (fbconDrawCh font foreground background ch x y s)
      (drawnPart font (colorValue fb foreground) (colorValue fb background) ch.toNat x y 8 0
        picture) := by
    refine foldl_range_induct (P := fun n t => Displays fb t (drawnPart font
      (colorValue fb foreground) (colorValue fb background) ch.toNat x y n 0 picture)) ?_
      fun k hk t ht => ?_
    · apply h.congr
      intro x' _ y' _
      exact (if_neg (by omega)).symm
    · apply (ht.drawRow hfb hroom hx (show y + k < fb.height by omega)).congr
      intro x' _ y' _
      unfold drawnPart
      exact if_congr (by omega) rfl rfl
  apply hrows.congr
  intro x' _ y' _
  unfold drawnPart drawn
  exact if_congr (by omega) rfl rfl

end draw

end displays

end Fynaos.Fbcon
