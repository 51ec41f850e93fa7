import Fynaos.Fbcon.Accesses

/-!
# The cursor and the frame

Every character leaves the cursor inside the grid of cells, and a cell of the grid is eight rows of eight
pixels of the screen. So strings are drawn inside the framebuffer as long as the grid has a cell and a
pixel has its four bytes in the row.
-/

namespace Fynaos.Fbcon

/-- A framebuffer that both drivers accept, with rows and a size as the boot loader gives them. -/
structure Accepted (fb : FramebufferTag) : Prop where
  type : fb.type = 1
  width : fb.width < 2 ^ 32
  height : fb.height < 2 ^ 32
  pitch : fb.pitch < 2 ^ 32
  rows : fb.width * fb.bpp ≤ fb.pitch * 8
  size : fb.pitch * fb.height < 2 ^ 32

/-- The 32 bits at `a` are inside `[addr, addr + pitch * height)`. -/
def OnScreen (fb : FramebufferTag) (a : ℕ) : Prop :=
  ∃ offset, a = wrap (fb.addr + offset) ∧ offset + 4 ≤ fb.pitch * fb.height

/-- A row of a glyph of the font. -/
def InFont (g : ℕ × ℕ) : Prop := g.1 < fontRows ∧ g.2 < 8

/-- Every access so far was inside. -/
structure Inside (fb : FramebufferTag) (s : Screen) : Prop where
  pixels : ∀ a ∈ s.pixels, OnScreen fb a
  glyphs : ∀ g ∈ s.glyphs, InFont g

/-- All that the console does for `strings` is inside, whatever the font and the memory hold. -/
def DrawsInside (fb : FramebufferTag) (strings : List (List UInt8)) : Prop :=
  ∀ font bytes, Inside fb (writes font strings (start fb bytes)).screen

/-- The grid has a cell, and a row of pixels fits into the pitch. -/
structure Roomy (fb : FramebufferTag) : Prop where
  width : 8 ≤ fb.width
  height : 8 ≤ fb.height
  pitch : 4 * fb.width ≤ fb.pitch

variable {fb : FramebufferTag} {s s' : Screen} {P : ℕ → Prop} {G : ℕ × ℕ → Prop}

theorem Touches.inside (h : Touches s s' P G) (hs : Inside fb s) (hP : ∀ a, P a → OnScreen fb a)
    (hG : ∀ g, G g → InFont g) : Inside fb s' where
  pixels a ha := by
    cases (h.pixels a).mp ha with
    | inl hnew => exact hP a hnew
    | inr hold => exact hs.pixels a hold
  glyphs g hg := by
    cases (h.glyphs g).mp hg with
    | inl hnew => exact hG g hnew
    | inr hold => exact hs.glyphs g hold

/-! ### Pixels -/

theorem pixel_onScreen (hfb : Accepted fb) (hroom : Roomy fb) {x y : ℕ} (hx : x < fb.width)
    (hy : y < fb.height) : OnScreen fb (pixel fb x y) := by
  have hrow : (y + 1) * fb.pitch ≤ fb.height * fb.pitch := Nat.mul_le_mul_right _ hy
  have hbelow : y * fb.pitch + 4 * fb.width ≤ fb.pitch * fb.height := by
    have hpitch := hroom.pitch
    rw [Nat.mul_comm fb.pitch fb.height]
    rw [Nat.add_one_mul] at hrow
    omega
  have hsize := hfb.size
  refine ⟨y * fb.pitch + x * 4, ?_, by omega⟩
  unfold pixel
  rw [wrap32_of_lt (by omega), wrap32_of_lt (by omega), Nat.add_assoc]

theorem scrollAccess_onScreen (hfb : Accepted fb) (hroom : Roomy fb) {scale y x a : ℕ}
    (hx : x < fb.width) (hy : y < fb.height) (h : ScrollAccess fb scale y x a) : OnScreen fb a := by
  cases h with
  | inl hstore =>
    rw [hstore]
    exact pixel_onScreen hfb hroom hx hy
  | inr hload =>
    rw [hload.2]
    exact pixel_onScreen hfb hroom hx hload.1

theorem cellAccess_onScreen (hfb : Accepted fb) (hroom : Roomy fb) {x y a : ℕ}
    (hx : x < fb.width / 8) (hy : y < fb.height / 8)
    (h : CellAccess fb (wrap32 (x * 8)) (wrap32 (y * 8)) a) : OnScreen fb a := by
  obtain ⟨row, hrow, col, hcol, rfl⟩ := h
  have hwidth := hfb.width
  have hheight := hfb.height
  rw [wrap32_of_lt (by omega : x * 8 < 2 ^ 32), wrap32_of_lt (by omega : y * 8 < 2 ^ 32),
    wrap32_of_lt (by omega), wrap32_of_lt (by omega)]
  apply pixel_onScreen hfb hroom
  · omega
  · omega

/-! ### The cursor -/

/-- The variables that `fbcon_init` sets for good. -/
structure Ready (fb : FramebufferTag) (c : Console) : Prop where
  info : c.screen.info = fb
  textCx : c.textCx = 8
  textCy : c.textCy = 8
  cx : c.cx = fb.width / 8
  cy : c.cy = fb.height / 8

/-- Between two characters: the cursor is on a cell, and all accesses were inside. -/
structure Settled (fb : FramebufferTag) (c : Console) : Prop extends Ready fb c where
  x : c.x < fb.width / 8
  y : c.y < fb.height / 8
  inside : Inside fb c.screen

theorem Ready.moved {c : Console} (h : Ready fb c) (x y : ℕ) : Ready fb { c with x := x, y := y } :=
  ⟨h.info, h.textCx, h.textCy, h.cx, h.cy⟩

theorem start_ready (hfb : Accepted fb) (bytes : Memory.Bytes) : Ready fb (start fb bytes) := by
  have htype := hfb.type
  constructor <;> simp [start, fbconInit, framebufferInit, htype]

theorem start_settled (hfb : Accepted fb) (hroom : Roomy fb) (bytes : Memory.Bytes) :
    Settled fb (start fb bytes) where
  toReady := start_ready hfb bytes
  x := by
    have hwidth := hroom.width
    have hx : (start fb bytes).x = 0 := by simp [start, fbconInit, hfb.type]
    omega
  y := by
    have hheight := hroom.height
    have hy : (start fb bytes).y = 0 := by simp [start, fbconInit, hfb.type]
    omega
  inside := by
    have hpixels : (start fb bytes).screen.pixels = [] := by
      simp [start, fbconInit, framebufferInit, hfb.type, powerOn]
    have hglyphs : (start fb bytes).screen.glyphs = [] := by
      simp [start, fbconInit, framebufferInit, hfb.type, powerOn]
    constructor
    · simp [hpixels]
    · simp [hglyphs]

variable {c : Console}

theorem fbconScrollUp_inside (hfb : Accepted fb) (hroom : Roomy fb) (h : Ready fb c)
    (hin : Inside fb c.screen) : Inside fb (fbconScrollUp c).screen := by
  apply (framebufferScrollUp_touches h.info c.textCy c.background).inside hin
  · rintro a ⟨y, hy, x, hx, ha⟩
    exact scrollAccess_onScreen hfb hroom hx hy ha
  · exact fun _ h => h.elim

theorem fbconScrollUp_ready (h : Ready fb c) : Ready fb (fbconScrollUp c) where
  info := (framebufferScrollUp_touches rfl c.textCy c.background).info.trans h.info
  textCx := h.textCx
  textCy := h.textCy
  cx := h.cx
  cy := h.cy

/-- The first check of `wrapCursor`. -/
def endLine (c : Console) : Console :=
  if c.cx ≤ c.x then { c with x := 0, y := wrap32 (c.y + 1) } else c

/-- The second check of `wrapCursor`. -/
def endScreen (c : Console) : Console :=
  if c.cy ≤ c.y then { fbconScrollUp c with y := wrap32 (c.y + 2 ^ 32 - 1) } else c

theorem wrapCursor_eq (c : Console) : wrapCursor c = endScreen (endLine c) := (rfl)

theorem endLine_screen (c : Console) : (endLine c).screen = c.screen := by
  unfold endLine
  split <;> rfl

theorem endLine_ready (h : Ready fb c) : Ready fb (endLine c) := by
  unfold endLine
  split
  · exact h.moved _ _
  · exact h

theorem endScreen_ready (h : Ready fb c) : Ready fb (endScreen c) := by
  unfold endScreen
  split
  · exact (fbconScrollUp_ready h).moved c.x _
  · exact h

theorem endScreen_settled (hfb : Accepted fb) (hroom : Roomy fb) (h : Ready fb c)
    (hin : Inside fb c.screen) (hx : c.x < fb.width / 8) (hy : c.y ≤ fb.height / 8) :
    Settled fb (endScreen c) := by
  have hready := endScreen_ready h
  have hheight := hfb.height
  have hrows := hroom.height
  unfold endScreen at hready ⊢
  split
  · rename_i hbelow
    rw [if_pos hbelow] at hready
    rw [h.cy] at hbelow
    have hlast : wrap32 (c.y + 2 ^ 32 - 1) < fb.height / 8 := by
      unfold wrap32
      omega
    generalize wrap32 (c.y + 2 ^ 32 - 1) = y at hready hlast ⊢
    exact ⟨hready, hx, hlast, fbconScrollUp_inside hfb hroom h hin⟩
  · rename_i habove
    rw [h.cy] at habove
    exact ⟨h, hx, by omega, hin⟩

theorem wrapCursor_settled (hfb : Accepted fb) (hroom : Roomy fb) (h : Ready fb c)
    (hin : Inside fb c.screen)
    (hcursor : c.x ≤ fb.width / 8 ∧ c.y < fb.height / 8 ∨ c.x < fb.width / 8 ∧ c.y ≤ fb.height / 8) :
    Settled fb (wrapCursor c) := by
  have hwidth := hroom.width
  have hheight := hfb.height
  have hcursor' : (endLine c).x < fb.width / 8 ∧ (endLine c).y ≤ fb.height / 8 := by
    unfold endLine
    rw [h.cx]
    split
    · show 0 < fb.width / 8 ∧ wrap32 (c.y + 1) ≤ fb.height / 8
      rw [wrap32_of_lt (by omega)]
      omega
    · omega
  rw [wrapCursor_eq]
  rw [← endLine_screen c] at hin
  exact endScreen_settled hfb hroom (endLine_ready h) hin hcursor'.1 hcursor'.2

/-! ### Strings -/

theorem drawAtCursor_inside (hfb : Accepted fb) (hroom : Roomy fb) (h : Settled fb c)
    (font : ℕ → ℕ → ℕ) {ch : UInt8} (hch : ch.toNat < 128) :
    Inside fb (drawAtCursor font ch c).screen := by
  apply (fbconDrawCh_touches h.info font c.foreground c.background ch _ _).inside h.inside
  · intro a ha
    rw [h.textCx, h.textCy] at ha
    exact cellAccess_onScreen hfb hroom h.x h.y ha
  · rintro g ⟨row, hrow, rfl⟩
    exact ⟨hch, hrow⟩

theorem drawAtCursor_ready (h : Ready fb c) (font : ℕ → ℕ → ℕ) (ch : UInt8) :
    Ready fb (drawAtCursor font ch c) where
  info := (fbconDrawCh_touches rfl font c.foreground c.background ch _ _).info.trans h.info
  textCx := h.textCx
  textCy := h.textCy
  cx := h.cx
  cy := h.cy

/-- One character. `write` is what a tab calls. -/
theorem putChar_settled (hfb : Accepted fb) (hroom : Roomy fb) {font : ℕ → ℕ → ℕ}
    {write : List UInt8 → Console → Console}
    (hwrite : ∀ c, Settled fb c → Settled fb (write (List.replicate 4 ' '.toUInt8) c))
    (h : Settled fb c) {ch : UInt8} (hch : ch.toNat < 128) : Settled fb (putChar font write c ch) := by
  have hwidth := hfb.width
  have hheight := hfb.height
  have hx := h.x
  have hy := h.y
  unfold putChar
  split
  · -- a newline may leave the grid at the bottom, in the first column
    apply wrapCursor_settled hfb hroom (h.toReady.moved 0 _) h.inside
    right
    show 0 < fb.width / 8 ∧ wrap32 (c.y + 1) ≤ fb.height / 8
    rw [wrap32_of_lt (by omega)]
    omega
  · split
    · have hspaces := hwrite c h
      exact wrapCursor_settled hfb hroom hspaces.toReady hspaces.inside (Or.inr ⟨hspaces.x, hspaces.y.le⟩)
    · -- any other character may leave it at the right
      apply wrapCursor_settled hfb hroom (drawAtCursor_ready h.toReady font ch)
        (drawAtCursor_inside hfb hroom h font hch)
      left
      show wrap32 (c.x + 1) ≤ fb.width / 8 ∧ c.y < fb.height / 8
      rw [wrap32_of_lt (by omega)]
      omega

/-- Induction on the depth; the spaces of a tab are characters of the font. -/
theorem fbconWriteDepth_settled (hfb : Accepted fb) (hroom : Roomy fb) (font : ℕ → ℕ → ℕ) (depth : ℕ) :
    ∀ (s : List UInt8) (c : Console), (∀ ch ∈ s, ch.toNat < 128) → Settled fb c →
      Settled fb (fbconWriteDepth font depth s c) := by
  induction depth with
  | zero =>
    intro s c _ h
    exact h
  | succ depth ih =>
    intro s
    unfold fbconWriteDepth
    induction s with
    | nil =>
      intro c _ h
      exact h
    | cons ch s ihs =>
      intro c hs h
      have hspaces : ∀ c, Settled fb c →
          Settled fb (fbconWriteDepth font depth (List.replicate 4 ' '.toUInt8) c) := by
        intro c h
        apply ih _ c _ h
        intro ch hch
        rw [(List.mem_replicate.mp hch).2]
        decide
      apply ihs _ (fun ch hch => hs ch (List.mem_cons_of_mem _ hch))
      exact putChar_settled hfb hroom hspaces h (hs ch List.mem_cons_self)

theorem writes_settled (hfb : Accepted fb) (hroom : Roomy fb) (font : ℕ → ℕ → ℕ) :
    ∀ (strings : List (List UInt8)) (c : Console), (∀ s ∈ strings, ∀ ch ∈ s, ch.toNat < 128) →
      Settled fb c → Settled fb (writes font strings c) := by
  intro strings
  unfold writes
  induction strings with
  | nil =>
    intro c _ h
    exact h
  | cons s strings ih =>
    intro c hs h
    apply ih _ (fun s hmem => hs s (List.mem_cons_of_mem _ hmem))
    exact fbconWriteDepth_settled hfb hroom font 2 s c (hs s List.mem_cons_self) h

theorem drawsInside_of_ascii (hfb : Accepted fb) (hroom : Roomy fb) {strings : List (List UInt8)}
    (h : ∀ s ∈ strings, ∀ ch ∈ s, ch.toNat < 128) : DrawsInside fb strings := by
  intro font bytes
  exact (writes_settled hfb hroom font strings _ h (start_settled hfb hroom bytes)).inside

end Fynaos.Fbcon
