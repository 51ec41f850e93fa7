import Fynaos.Fbcon.Model

/-!
# What the drawing code touches

Which pixels and which rows of glyphs each function of the two drivers reads and writes, as a set that
depends on the geometry alone. What is stored there depends on the font and on the colours; where does not.
-/

namespace Fynaos.Fbcon

/-- From `s` to `s'` the geometry stays, and the accesses that are added are those of `P` and `G`. -/
structure Touches (s s' : Screen) (P : ℕ → Prop) (G : ℕ × ℕ → Prop) : Prop where
  info : s'.info = s.info
  pixels : ∀ a, a ∈ s'.pixels ↔ P a ∨ a ∈ s.pixels
  glyphs : ∀ g, g ∈ s'.glyphs ↔ G g ∨ g ∈ s.glyphs

namespace Touches

variable {s s' s'' : Screen} {P Q : ℕ → Prop} {G H : ℕ × ℕ → Prop}

theorem trans (h : Touches s s' P G) (h' : Touches s' s'' Q H) :
    Touches s s'' (fun a => P a ∨ Q a) (fun g => G g ∨ H g) where
  info := h'.info.trans h.info
  pixels a := by
    rw [h'.pixels, h.pixels]
    tauto
  glyphs g := by
    rw [h'.glyphs, h.glyphs]
    tauto

theorem congr (h : Touches s s' P G) (hP : ∀ a, P a ↔ Q a) (hG : ∀ g, G g ↔ H g) :
    Touches s s' Q H where
  info := h.info
  pixels a := by rw [h.pixels, hP]
  glyphs g := by rw [h.glyphs, hG]

theorem foldl {α : Type} {info : FramebufferTag} {f : Screen → α → Screen} {P : α → ℕ → Prop}
    {G : α → ℕ × ℕ → Prop} (step : ∀ s x, s.info = info → Touches s (f s x) (P x) (G x)) (l : List α) :
    ∀ s : Screen, s.info = info →
      Touches s (l.foldl f s) (fun a => ∃ x ∈ l, P x a) (fun g => ∃ x ∈ l, G x g) := by
  induction l with
  | nil =>
    intro s _
    exact ⟨rfl, fun a => by simp, fun g => by simp⟩
  | cons x l ih =>
    intro s hs
    have hx := step s x hs
    have hl := ih (f s x) (hx.info.trans hs)
    exact (hx.trans hl).congr (fun a => by simp) (fun g => by simp)

end Touches

variable {s : Screen} {info : FramebufferTag}

/-! ### The framebuffer -/

theorem storePixel_touches (h : s.info = info) (v x y : ℕ) :
    Touches s (storePixel v x y s) (· = pixel info x y) (fun _ => False) where
  info := rfl
  pixels a := by simp [storePixel, h]
  glyphs g := by simp [storePixel]

theorem framebufferWrite_touches (h : s.info = info) (color x y : ℕ) :
    Touches s (framebufferWrite color x y s) (· = pixel info x y) (fun _ => False) :=
  storePixel_touches h _ x y

theorem loadPixel_touches (h : s.info = info) (x y : ℕ) :
    Touches s (loadPixel x y s).2 (· = pixel info x y) (fun _ => False) where
  info := rfl
  pixels a := by simp [loadPixel, h]
  glyphs g := by simp [loadPixel]

/-- The accesses of one round of `framebuffer_scroll_up`. -/
def ScrollAccess (info : FramebufferTag) (scale y x a : ℕ) : Prop :=
  a = pixel info x y ∨ wrap32 (y + scale) < info.height ∧ a = pixel info x (wrap32 (y + scale))

theorem scrollPixel_touches (h : s.info = info) (scale emptyFill y x : ℕ) :
    Touches s (scrollPixel scale emptyFill y s x) (ScrollAccess info scale y x) (fun _ => False) := by
  unfold scrollPixel
  rw [h]
  split
  · rename_i hlast
    apply (framebufferWrite_touches h emptyFill x y).congr
    · intro a
      simp [ScrollAccess, Nat.not_lt.mpr hlast]
    · simp
  · rename_i hlast
    have hload := loadPixel_touches h x (wrap32 (y + scale))
    apply (hload.trans (storePixel_touches (hload.info.trans h) _ x y)).congr
    · intro a
      simp only [ScrollAccess, Nat.lt_of_not_le hlast, true_and]
      exact or_comm
    · simp

theorem framebufferScrollUp_touches (h : s.info = info) (scale emptyFill : ℕ) :
    Touches s (framebufferScrollUp scale emptyFill s)
      (fun a => ∃ y < info.height, ∃ x < info.width, ScrollAccess info scale y x a) (fun _ => False) := by
  have hrow : ∀ s y, s.info = info →
      Touches s ((List.range s.info.width).foldl (scrollPixel scale emptyFill y) s)
        (fun a => ∃ x ∈ List.range info.width, ScrollAccess info scale y x a)
        (fun _ => ∃ x ∈ List.range info.width, False) := by
    intro s y hs
    rw [hs]
    exact Touches.foldl (fun s x hs => scrollPixel_touches hs scale emptyFill y x) _ s hs
  have hall := Touches.foldl hrow (List.range info.height) s h
  unfold framebufferScrollUp
  rw [h]
  apply hall.congr
  · intro a
    simp only [List.mem_range]
  · simp

/-! ### A character -/

theorem lookup_touches (s : Screen) (uch row : ℕ) :
    Touches s { s with glyphs := (uch, row) :: s.glyphs } (fun _ => False) (· = (uch, row)) where
  info := rfl
  pixels a := by simp
  glyphs g := by simp

theorem drawPixel_touches (h : s.info = info) (font : ℕ → ℕ → ℕ)
    (foreground background uch x y row col : ℕ) :
    Touches s (drawPixel font foreground background uch x y row s col)
      (· = pixel info (wrap32 (x + col)) (wrap32 (y + row))) (· = (uch, row)) := by
  have hback := framebufferWrite_touches h background (wrap32 (x + col)) (wrap32 (y + row))
  have hlook := hback.trans (lookup_touches _ uch row)
  unfold drawPixel
  dsimp only
  split
  · -- the foreground goes to the pixel that the background went to
    apply (hlook.trans (framebufferWrite_touches (hlook.info.trans h) foreground _ _)).congr
    · simp
    · simp
  · apply hlook.congr
    · simp
    · simp

/-- The accesses of `fbcon_draw_ch`. -/
def CellAccess (info : FramebufferTag) (x y a : ℕ) : Prop :=
  ∃ row < 8, ∃ col < 8, a = pixel info (wrap32 (x + col)) (wrap32 (y + row))

theorem fbconDrawCh_touches (h : s.info = info) (font : ℕ → ℕ → ℕ) (foreground background : ℕ)
    (ch : UInt8) (x y : ℕ) :
    Touches s (fbconDrawCh font foreground background ch x y s) (CellAccess info x y)
      (fun g => ∃ row < 8, g = (ch.toNat, row)) := by
  have hrow : ∀ s row, s.info = info →
      Touches s ((List.range 8).foldl (drawPixel font foreground background ch.toNat x y row) s)
        (fun a => ∃ col ∈ List.range 8, a = pixel info (wrap32 (x + col)) (wrap32 (y + row)))
        (fun g => ∃ col ∈ List.range 8, g = (ch.toNat, row)) := by
    intro s row hs
    exact Touches.foldl
      (fun s col hs => drawPixel_touches hs font foreground background ch.toNat x y row col) _ s hs
  apply (Touches.foldl hrow (List.range 8) s h).congr
  · intro a
    simp only [CellAccess, List.mem_range]
  · intro g
    constructor
    · rintro ⟨row, hrow, -, -, hg⟩
      exact ⟨row, List.mem_range.mp hrow, hg⟩
    · rintro ⟨row, hrow, hg⟩
      exact ⟨row, List.mem_range.mpr hrow, 0, by simp, hg⟩

end Fynaos.Fbcon
