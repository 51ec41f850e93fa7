import Fynaos.Fbcon.Inside

/-!
# Where the console leaves the framebuffer

Nothing compares a byte with the 128 rows of the font, nothing asks for a cell in the grid, and a pixel
has four bytes whatever the depth is. Each of the three shows: a byte of 128 or more reads a row behind
the font, without a cell newlines bring the cursor below the last line, and with rows shorter than four
bytes a pixel scrolling stores behind the last row. So the accesses stay inside, for exactly the strings
of the font's characters, exactly when the grid has a cell and the pitch has room (`drawsInside_iff`).
-/

namespace Fynaos.Fbcon

/-! ### The accesses are never taken back -/

/-- `s'` has the accesses of `s`, and maybe more. -/
def Grows (s s' : Screen) : Prop := s.pixels ⊆ s'.pixels ∧ s.glyphs ⊆ s'.glyphs

theorem Grows.refl (s : Screen) : Grows s s := ⟨fun _ h => h, fun _ h => h⟩

theorem Grows.trans {s s' s'' : Screen} (h : Grows s s') (h' : Grows s' s'') : Grows s s'' :=
  ⟨List.Subset.trans h.1 h'.1, List.Subset.trans h.2 h'.2⟩

theorem Touches.grows {s s' : Screen} {P : ℕ → Prop} {G : ℕ × ℕ → Prop} (h : Touches s s' P G) :
    Grows s s' :=
  ⟨fun a ha => (h.pixels a).mpr (Or.inr ha), fun g hg => (h.glyphs g).mpr (Or.inr hg)⟩

theorem foldl_reaches {α β : Type} {f : β → α → β} {Q : β → Prop} {a : α} {l : List α}
    (keeps : ∀ b a, Q b → Q (f b a)) (reaches : ∀ b, Q (f b a)) (h : a ∈ l) :
    ∀ b, Q (l.foldl f b) := by
  have hkeeps : ∀ (l : List α) b, Q b → Q (l.foldl f b) := by
    intro l
    induction l with
    | nil => exact fun b hb => hb
    | cons a l ih => exact fun b hb => ih _ (keeps b a hb)
  obtain ⟨l₁, l₂, rfl⟩ := List.append_of_mem h
  intro b
  rw [List.foldl_append, List.foldl_cons]
  exact hkeeps l₂ _ (reaches _)

variable {fb : FramebufferTag} {c : Console} {font : ℕ → ℕ → ℕ}

theorem fbconScrollUp_grows (c : Console) : Grows c.screen (fbconScrollUp c).screen :=
  (framebufferScrollUp_touches rfl c.textCy c.background).grows

theorem wrapCursor_grows (c : Console) : Grows c.screen (wrapCursor c).screen := by
  rw [wrapCursor_eq, ← endLine_screen c]
  unfold endScreen
  split
  · exact fbconScrollUp_grows (endLine c)
  · exact Grows.refl _

theorem drawAtCursor_grows (font : ℕ → ℕ → ℕ) (ch : UInt8) (c : Console) :
    Grows c.screen (drawAtCursor font ch c).screen :=
  (fbconDrawCh_touches rfl font c.foreground c.background ch _ _).grows

theorem putChar_grows {write : List UInt8 → Console → Console}
    (hwrite : ∀ s c, Grows c.screen (write s c).screen) (c : Console) (ch : UInt8) :
    Grows c.screen (putChar font write c ch).screen := by
  unfold putChar
  refine Grows.trans ?_ (wrapCursor_grows _)
  split
  · exact Grows.refl _
  · split
    · exact hwrite _ c
    · exact drawAtCursor_grows font ch c

theorem fbconWriteDepth_grows (depth : ℕ) :
    ∀ (s : List UInt8) (c : Console), Grows c.screen (fbconWriteDepth font depth s c).screen := by
  induction depth with
  | zero => exact fun s c => Grows.refl _
  | succ depth ih =>
    intro s
    unfold fbconWriteDepth
    induction s with
    | nil => exact fun c => Grows.refl _
    | cons ch s ihs => exact fun c => (putChar_grows ih c ch).trans (ihs _)

/-! ### Bytes behind the font -/

theorem putChar_glyph {write : List UInt8 → Console → Console} (c : Console) {ch : UInt8}
    (hch : 128 ≤ ch.toNat) : (ch.toNat, 0) ∈ (putChar font write c ch).screen.glyphs := by
  have hnewline : ch ≠ '\n'.toUInt8 := by
    rintro rfl
    exact absurd hch (by decide)
  have htab : ch ≠ '\t'.toUInt8 := by
    rintro rfl
    exact absurd hch (by decide)
  unfold putChar
  rw [if_neg hnewline, if_neg htab]
  apply (wrapCursor_grows _).2
  exact ((fbconDrawCh_touches rfl font c.foreground c.background ch _ _).glyphs _).mpr
    (Or.inl ⟨0, by norm_num, rfl⟩)

theorem ascii_of_drawsInside {strings : List (List UInt8)} (h : DrawsInside fb strings) :
    ∀ s ∈ strings, ∀ ch ∈ s, ch.toNat < 128 := by
  intro s hs ch hch
  by_contra hhigh
  have hglyph : (ch.toNat, 0) ∈
      (writes (fun _ _ => 0) strings (start fb (fun _ => 0))).screen.glyphs := by
    apply foldl_reaches (Q := fun c : Console => (ch.toNat, 0) ∈ c.screen.glyphs) _ _ hs
    · exact fun c s hc => (fbconWriteDepth_grows 2 s c).2 hc
    · apply foldl_reaches (Q := fun c : Console => (ch.toNat, 0) ∈ c.screen.glyphs) _ _ hch
      · exact fun c ch hc => (putChar_grows (fbconWriteDepth_grows 1) c ch).2 hc
      · exact fun c => putChar_glyph c (Nat.le_of_not_lt hhigh)
  have hin := (h (fun _ _ => 0) (fun _ => 0)).glyphs _ hglyph
  exact hhigh hin.1

/-! ### Pixels behind the last row -/

/-- A pixel that starts too late is outside: nothing wraps around into the framebuffer. -/
theorem pixel_not_onScreen (hfb : Accepted fb) {x y : ℕ} (hx : x * 4 < 2 ^ 32)
    (hy : y * fb.pitch < 2 ^ 32) (h : fb.pitch * fb.height < y * fb.pitch + x * 4 + 4) :
    ¬ OnScreen fb (pixel fb x y) := by
  rintro ⟨offset, heq, hin⟩
  have hsize := hfb.size
  unfold pixel at heq
  rw [wrap32_of_lt hx, wrap32_of_lt hy] at heq
  unfold wrap at heq
  omega

/-- Drawing in the line below the grid touches the row below the screen. -/
theorem drawAtCursor_outside (hfb : Accepted fb) (h : Ready fb c) (hx : c.x = 0)
    (hy : c.y = fb.height / 8) (font : ℕ → ℕ → ℕ) (ch : UInt8) :
    pixel fb 0 fb.height ∈ (drawAtCursor font ch c).screen.pixels := by
  have hheight := hfb.height
  apply ((fbconDrawCh_touches h.info font c.foreground c.background ch _ _).pixels _).mpr
  refine Or.inl ⟨fb.height % 8, by omega, 0, by norm_num, ?_⟩
  rw [h.textCx, h.textCy, hx, hy]
  congr 1
  rw [wrap32_of_lt (by omega : fb.height / 8 * 8 < 2 ^ 32), wrap32_of_lt (by omega)]
  omega

theorem fbconScrollUp_outside (h : Ready fb c) {x y : ℕ} (hx : x < fb.width) (hy : y < fb.height) :
    pixel fb x y ∈ (fbconScrollUp c).screen.pixels :=
  ((framebufferScrollUp_touches h.info c.textCy c.background).pixels _).mpr
    (Or.inl ⟨y, hy, x, hx, Or.inl rfl⟩)

/-! ### Newlines -/

def newlines (font : ℕ → ℕ → ℕ) (n : ℕ) (c : Console) : Console :=
  (List.replicate n '\n'.toUInt8).foldl (putChar font (fbconWriteDepth font 1)) c

theorem putChar_newline (write : List UInt8 → Console → Console) (c : Console) :
    putChar font write c '\n'.toUInt8 = endScreen (endLine { c with x := 0, y := wrap32 (c.y + 1) }) := by
  unfold putChar
  rw [if_pos rfl, wrapCursor_eq]

theorem endScreen_x (c : Console) : (endScreen c).x = c.x := by
  unfold endScreen
  split <;> rfl

theorem endScreen_y (h : Ready fb c) :
    (endScreen c).y = if fb.height / 8 ≤ c.y then wrap32 (c.y + 2 ^ 32 - 1) else c.y := by
  unfold endScreen
  rw [h.cy]
  split <;> rfl

/-- Without columns a newline goes down two lines, and up again at the bottom. -/
theorem newline_noColumns (hfb : Accepted fb) (font : ℕ → ℕ → ℕ) (h : Ready fb c)
    (hcols : fb.width / 8 = 0) (hy : c.y < fb.height / 8) {c' : Console}
    (heq : putChar font (fbconWriteDepth font 1) c '\n'.toUInt8 = c') :
    Ready fb c' ∧ c'.x = 0 ∧ c.y < c'.y ∧ c'.y ≤ fb.height / 8 := by
  have hheight := hfb.height
  have hline : endLine { c with x := 0, y := wrap32 (c.y + 1) } = { c with x := 0, y := c.y + 2 } := by
    unfold endLine
    rw [if_pos (by rw [h.cx, hcols])]
    dsimp only
    rw [wrap32_of_lt (by omega : c.y + 1 < 2 ^ 32), wrap32_of_lt (by omega)]
  rw [putChar_newline, hline] at heq
  have hready := h.moved 0 (c.y + 2)
  have hc'y := endScreen_y hready
  rw [heq] at hc'y
  refine ⟨heq ▸ endScreen_ready hready, heq ▸ endScreen_x _, ?_⟩
  rw [hc'y]
  unfold wrap32
  dsimp only
  split <;> omega

theorem newlines_below (hfb : Accepted fb) (font : ℕ → ℕ → ℕ) (hcols : fb.width / 8 = 0) (n : ℕ) :
    ∀ c, Ready fb c → c.x = 0 → c.y ≤ fb.height / 8 → fb.height / 8 ≤ c.y + n →
      ∃ k, Ready fb (newlines font k c) ∧ (newlines font k c).x = 0 ∧
        (newlines font k c).y = fb.height / 8 := by
  induction n with
  | zero =>
    intro c h hx hy hn
    exact ⟨0, h, hx, le_antisymm hy hn⟩
  | succ n ih =>
    intro c h hx hy hn
    by_cases hlast : c.y = fb.height / 8
    · exact ⟨0, h, hx, hlast⟩
    · obtain ⟨hready, hx', hdown, hy'⟩ := newline_noColumns hfb font h hcols (by omega) rfl
      obtain ⟨k, hk⟩ := ih _ hready hx' hy' (by omega)
      exact ⟨k + 1, hk⟩

theorem newline_columns (hfb : Accepted fb) (font : ℕ → ℕ → ℕ) (h : Ready fb c)
    (hcols : 0 < fb.width / 8) (hy : c.y < fb.height / 8) {c' : Console}
    (heq : putChar font (fbconWriteDepth font 1) c '\n'.toUInt8 = c') :
    (Ready fb c' ∧ c'.y = c.y + 1 ∧ c'.y < fb.height / 8) ∨
      ∀ x < fb.width, ∀ y < fb.height, pixel fb x y ∈ c'.screen.pixels := by
  have hheight := hfb.height
  have hline : endLine { c with x := 0, y := wrap32 (c.y + 1) } = { c with x := 0, y := c.y + 1 } := by
    unfold endLine
    rw [if_neg (by rw [h.cx]; exact Nat.not_le.mpr hcols), wrap32_of_lt (by omega)]
  rw [putChar_newline, hline] at heq
  have hready := h.moved 0 (c.y + 1)
  by_cases hscroll : fb.height / 8 ≤ c.y + 1
  · right
    intro x hx y hy
    rw [← heq]
    unfold endScreen
    rw [if_pos (by rw [h.cy]; exact hscroll)]
    exact fbconScrollUp_outside hready hx hy
  · left
    have hc'y : c'.y = c.y + 1 := by
      rw [← heq, endScreen_y hready]
      exact if_neg hscroll
    exact ⟨heq ▸ endScreen_ready hready, hc'y, by omega⟩

theorem newlines_scroll (hfb : Accepted fb) (font : ℕ → ℕ → ℕ) (hcols : 0 < fb.width / 8) (n : ℕ) :
    ∀ c, Ready fb c → c.y < fb.height / 8 → fb.height / 8 ≤ c.y + n →
      ∃ k, ∀ x < fb.width, ∀ y < fb.height, pixel fb x y ∈ (newlines font k c).screen.pixels := by
  induction n with
  | zero =>
    intro c h hy hn
    omega
  | succ n ih =>
    intro c h hy hn
    cases newline_columns hfb font h hcols hy rfl with
    | inl hdown =>
      obtain ⟨hready, hy', hlt⟩ := hdown
      obtain ⟨k, hk⟩ := ih _ hready hlt (by omega)
      exact ⟨k + 1, hk⟩
    | inr hscroll => exact ⟨1, hscroll⟩

/-! ### The frame that is needed -/

/-- Without a cell, a character after enough newlines is drawn below the screen. -/
theorem not_drawsInside_noCell (hfb : Accepted fb) (h : fb.width / 8 = 0 ∨ fb.height / 8 = 0) :
    ∃ k, ¬ DrawsInside fb [List.replicate k '\n'.toUInt8 ++ ['a'.toUInt8]] := by
  have hstart := start_ready hfb (fun _ => 0)
  have hcursor : (start fb (fun _ => 0)).x = 0 ∧ (start fb (fun _ => 0)).y = 0 := by
    simp [start, fbconInit, hfb.type]
  obtain ⟨k, hready, hx, hy⟩ : ∃ k, Ready fb (newlines (fun _ _ => 0) k (start fb (fun _ => 0))) ∧
      (newlines (fun _ _ => 0) k (start fb (fun _ => 0))).x = 0 ∧
      (newlines (fun _ _ => 0) k (start fb (fun _ => 0))).y = fb.height / 8 := by
    cases h with
    | inl hcols =>
      exact newlines_below hfb _ hcols (fb.height / 8) _ hstart hcursor.1 (by omega) (by omega)
    | inr hrows => exact ⟨0, hstart, hcursor.1, hcursor.2.trans hrows.symm⟩
  refine ⟨k, fun hstays => ?_⟩
  have hrun : writes (fun _ _ => 0) [List.replicate k '\n'.toUInt8 ++ ['a'.toUInt8]]
      (start fb (fun _ => 0)) = wrapCursor (drawAtCursor (fun _ _ => 0) 'a'.toUInt8
        (newlines (fun _ _ => 0) k (start fb (fun _ => 0)))) :=
    List.foldl_append
  have hdraw := drawAtCursor_outside hfb hready hx hy (fun _ _ => 0) 'a'.toUInt8
  have hin := (hstays (fun _ _ => 0) (fun _ => 0)).pixels (pixel fb 0 fb.height) (by
    rw [hrun]
    exact (wrapCursor_grows _).1 hdraw)
  have hsize := hfb.size
  refine pixel_not_onScreen hfb (by norm_num) ?_ ?_ hin
  · rw [Nat.mul_comm]
    exact hsize
  · rw [Nat.mul_comm]
    omega

theorem not_drawsInside_shortRows (hfb : Accepted fb) (hcols : 0 < fb.width / 8)
    (hrows : 0 < fb.height / 8) (h : fb.pitch < 4 * fb.width) :
    ∃ k, ¬ DrawsInside fb [List.replicate k '\n'.toUInt8] := by
  have hstart := start_ready hfb (fun _ => 0)
  have hy : (start fb (fun _ => 0)).y = 0 := by simp [start, fbconInit, hfb.type]
  obtain ⟨k, hk⟩ := newlines_scroll hfb (fun _ _ => 0) hcols (fb.height / 8) _ hstart
    (by omega) (by omega)
  refine ⟨k, fun hstays => ?_⟩
  have hin := (hstays (fun _ _ => 0) (fun _ => 0)).pixels _
    (hk (fb.pitch / 4) (by omega) (fb.height - 1) (by omega))
  have hsize := hfb.size
  have hpitch := hfb.pitch
  have hrow : (fb.height - 1) * fb.pitch + fb.pitch = fb.pitch * fb.height := by
    rw [← Nat.add_one_mul, Nat.sub_add_cancel (by omega), Nat.mul_comm]
  exact pixel_not_onScreen hfb (by omega) (by omega) (by omega) hin

/-- The console stays inside for the strings of the font's characters, and no others, exactly on a frame
with a cell and four bytes for each pixel of a row. -/
theorem drawsInside_iff (hfb : Accepted fb) :
    (∀ strings, DrawsInside fb strings ↔ ∀ s ∈ strings, ∀ ch ∈ s, ch.toNat < fontRows) ↔ Roomy fb := by
  constructor
  · intro h
    have hcell : ¬ (fb.width / 8 = 0 ∨ fb.height / 8 = 0) := by
      intro hnone
      obtain ⟨k, hk⟩ := not_drawsInside_noCell hfb hnone
      apply hk
      apply (h _).mpr
      intro s hs ch hch
      rw [List.mem_singleton.mp hs, List.mem_append, List.mem_replicate, List.mem_singleton] at hch
      obtain ⟨-, rfl⟩ | rfl := hch <;> decide
    have hpitch : ¬ fb.pitch < 4 * fb.width := by
      intro hshort
      obtain ⟨k, hk⟩ := not_drawsInside_shortRows hfb (by omega) (by omega) hshort
      apply hk
      apply (h _).mpr
      intro s hs ch hch
      rw [List.mem_singleton.mp hs, List.mem_replicate] at hch
      rw [hch.2]
      decide
    exact ⟨by omega, by omega, by omega⟩
  · intro hroom strings
    exact ⟨ascii_of_drawsInside, drawsInside_of_ascii hfb hroom⟩

/-- 800 by 600 pixels of 32 bits. -/
theorem drawsInside_iff_svga :
    DrawsInside ⟨0xFD000000, 3200, 800, 600, 32, 1, 16, 8, 0⟩ [[0x09, 0x41, 0x0A], [0x42]] := by
  have hroom : Roomy ⟨0xFD000000, 3200, 800, 600, 32, 1, 16, 8, 0⟩ := by constructor <;> decide
  refine ((drawsInside_iff (by constructor <;> decide)).mpr hroom _).mpr ?_
  simp only [List.forall_mem_cons, List.not_mem_nil, false_implies, implies_true, and_true]
  refine ⟨⟨?_, ?_, ?_⟩, ?_⟩ <;> decide

/-- The first byte of a letter outside ASCII. -/
theorem high_byte_behind_font :
    Accepted ⟨0xFD000000, 3200, 800, 600, 32, 1, 16, 8, 0⟩ ∧
      ¬ DrawsInside ⟨0xFD000000, 3200, 800, 600, 32, 1, 16, 8, 0⟩ [[0xC3]] := by
  constructor
  · constructor <;> decide
  · intro h
    have hascii := ascii_of_drawsInside h [0xC3] (List.mem_singleton.mpr rfl) 0xC3
      (List.mem_singleton.mpr rfl)
    exact absurd hascii (by decide)

end Fynaos.Fbcon
