import Fynaos.Fbcon.Image
import Fynaos.Lib.Fields

/-!
# The framebuffer is a canvas

What the framebuffer is for: a color for each pixel that was written (`Op.paint`), which scrolling moves up. Reading a
pixel gives the color of the canvas in every run of the functions of `framebuffer.c`, just when the three fields of a
color do not overlap and fit into 32 bits (`reads_canvas_iff`).
-/

namespace Fynaos.Fbcon

open Fields

/-- The calls of the functions of `framebuffer.c`. -/
inductive Op where
  | write (color x y : ℕ)
  | scrollUp (scale emptyFill : ℕ)
  | read (x y : ℕ)

def Op.run (s : Screen) : Op → Screen
  | .write color x y => framebufferWrite color x y s
  | .scrollUp scale emptyFill => framebufferScrollUp scale emptyFill s
  | .read x y => (framebufferRead x y s).2

abbrev Canvas := ℕ → ℕ → Option ℕ

def Op.paint (height : ℕ) (k : Canvas) : Op → Canvas
  | .write color x y => fun x' y' => if x' = x ∧ y' = y then some color else k x' y'
  | .scrollUp scale emptyFill => fun x y => if y + scale < height then k x (y + scale) else some emptyFill
  | .read _ _ => k

def canvas (height : ℕ) (ops : List Op) : Canvas := ops.foldl (fun k op => op.paint height k) fun _ _ => none

/-- Colors have 24 bits, and pixels are in the frame. -/
def Op.Valid (fb : FramebufferTag) : Op → Prop
  | .write color x y => color < 2 ^ 24 ∧ x < fb.width ∧ y < fb.height
  | .scrollUp scale emptyFill => emptyFill < 2 ^ 24 ∧ 0 < scale ∧ fb.height + scale ≤ 2 ^ 32
  | .read _ _ => True

def colorParts (fb : FramebufferTag) (color : ℕ) : List Part :=
  [⟨fb.redPosition, 8, field color 16 8⟩, ⟨fb.greenPosition, 8, field color 8 8⟩,
    ⟨fb.bluePosition, 8, field color 0 8⟩]

/-- The fields are in a pixel, and apart from each other. -/
structure FieldsApart (fb : FramebufferTag) : Prop where
  red : fb.redPosition + 8 ≤ 32
  green : fb.greenPosition + 8 ≤ 32
  blue : fb.bluePosition + 8 ≤ 32
  redGreen : fb.redPosition + 8 ≤ fb.greenPosition ∨ fb.greenPosition + 8 ≤ fb.redPosition
  redBlue : fb.redPosition + 8 ≤ fb.bluePosition ∨ fb.bluePosition + 8 ≤ fb.redPosition
  greenBlue : fb.greenPosition + 8 ≤ fb.bluePosition ∨ fb.bluePosition + 8 ≤ fb.greenPosition

/-- What `framebuffer_read` makes of the value of a pixel. -/
def valueColor (fb : FramebufferTag) (v : ℕ) : ℕ :=
  framebufferRgb (field v fb.redPosition 8) (field v fb.greenPosition 8) (field v fb.bluePosition 8)

variable {fb : FramebufferTag} {s : Screen} {picture : ℕ → ℕ → ℕ} {k : Canvas} {color x y v i p q : ℕ}

/-! ### Colors -/

theorem land_byte (n lo : ℕ) : (n >>> lo) &&& 0xFF = field n lo 8 := Nat.and_two_pow_sub_one_eq_mod _ 8

theorem land_byte_zero (n : ℕ) : n &&& 0xFF = field n 0 8 := land_byte n 0

theorem field_byte_mod (n lo : ℕ) : field n lo 8 % 2 ^ 8 = field n lo 8 := Nat.mod_eq_of_lt (field_lt n lo 8)

theorem colorValue_eq (fb : FramebufferTag) (color : ℕ) :
    colorValue fb color = pack (colorParts fb color) % 2 ^ 32 := by
  rw [colorValue, land_byte color 16, land_byte color 8, land_byte_zero, wrap32]
  simp only [colorParts, pack, field_byte_mod, Nat.or_zero, Nat.or_assoc]

theorem framebufferRgb_eq {red green blue : ℕ} (hred : red < 2 ^ 8) (hgreen : green < 2 ^ 8) (hblue : blue < 2 ^ 8) :
    framebufferRgb red green blue = pack [⟨16, 8, red⟩, ⟨8, 8, green⟩, ⟨0, 8, blue⟩] := by
  simp only [framebufferRgb, pack, Nat.mod_eq_of_lt hred, Nat.mod_eq_of_lt hgreen, Nat.mod_eq_of_lt hblue,
    Nat.shiftLeft_zero, Nat.or_zero, Nat.or_assoc]

theorem framebufferRgb_fields (h : color < 2 ^ 24) :
    framebufferRgb (field color 16 8) (field color 8 8) (field color 0 8) = color := by
  rw [framebufferRgb_eq (field_lt _ _ _) (field_lt _ _ _) (field_lt _ _ _)]
  apply pack_fields
  · simp
  · intro i hi
    have hlt : i < 24 := by
      by_contra hge
      have hpow := Nat.pow_le_pow_right (n := 2) (by norm_num) (Nat.not_lt.mp hge)
      rw [Nat.testBit_lt_two_pow (Nat.lt_of_lt_of_le h hpow)] at hi
      cases hi
    simp only [List.mem_cons, List.not_mem_nil, or_false, exists_eq_or_imp, exists_eq_left]
    omega

theorem field_pack_bytes {r g b red green blue : ℕ} (hred : red < 2 ^ 8) (hgreen : green < 2 ^ 8)
    (hblue : blue < 2 ^ 8) (hparts : [(⟨r, 8, red⟩ : Part), ⟨g, 8, green⟩, ⟨b, 8, blue⟩].Pairwise Part.Apart) :
    field (pack [⟨r, 8, red⟩, ⟨g, 8, green⟩, ⟨b, 8, blue⟩]) r 8 = red ∧
      field (pack [⟨r, 8, red⟩, ⟨g, 8, green⟩, ⟨b, 8, blue⟩]) g 8 = green ∧
      field (pack [⟨r, 8, red⟩, ⟨g, 8, green⟩, ⟨b, 8, blue⟩]) b 8 = blue := by
  have h1 := field_pack hparts (p := ⟨r, 8, red⟩) (by simp)
  have h2 := field_pack hparts (p := ⟨g, 8, green⟩) (by simp)
  have h3 := field_pack hparts (p := ⟨b, 8, blue⟩) (by simp)
  exact ⟨h1.trans (Nat.mod_eq_of_lt hred), h2.trans (Nat.mod_eq_of_lt hgreen), h3.trans (Nat.mod_eq_of_lt hblue)⟩

theorem valueColor_fields (fb : FramebufferTag) (v : ℕ) : field (valueColor fb v) 16 8 = field v fb.redPosition 8 ∧
    field (valueColor fb v) 8 8 = field v fb.greenPosition 8 ∧
    field (valueColor fb v) 0 8 = field v fb.bluePosition 8 := by
  rw [valueColor, framebufferRgb_eq (field_lt _ _ _) (field_lt _ _ _) (field_lt _ _ _)]
  exact field_pack_bytes (field_lt _ _ _) (field_lt _ _ _) (field_lt _ _ _) (by simp [Part.Apart])

theorem valueColor_colorValue (h : FieldsApart fb) (hcolor : color < 2 ^ 24) :
    valueColor fb (colorValue fb color) = color := by
  have hparts : (colorParts fb color).Pairwise Part.Apart := by
    simpa [colorParts, Part.Apart] using ⟨⟨h.redGreen, h.redBlue⟩, h.greenBlue⟩
  have hlt : pack (colorParts fb color) < 2 ^ 32 := by
    apply pack_lt
    simp only [colorParts, List.forall_mem_cons, List.not_mem_nil, false_imp_iff, implies_true, and_true]
    exact ⟨h.red, h.green, h.blue⟩
  obtain ⟨hred, hgreen, hblue⟩ := field_pack_bytes (field_lt _ _ _) (field_lt _ _ _) (field_lt _ _ _) hparts
  rw [valueColor, colorValue_eq, Nat.mod_eq_of_lt hlt, colorParts, hred, hgreen, hblue, framebufferRgb_fields hcolor]

/-! ### Fields that overlap -/

theorem ones_fit (hones : field (0xFF <<< p % 2 ^ 32) p 8 = 0xFF) : p + 8 ≤ 32 := by
  have hbit : (field (0xFF <<< p % 2 ^ 32) p 8).testBit 7 = true := by
    rw [hones]
    decide
  rw [testBit_field, Nat.testBit_mod_two_pow] at hbit
  simp at hbit
  omega

theorem ones_apart (hq : q < 32) (hones : field (0xFF <<< p % 2 ^ 32) p 8 = 0xFF)
    (hzeros : field (0xFF <<< p % 2 ^ 32) q 8 = 0) : p + 8 ≤ q ∨ q + 8 ≤ p := by
  have hfit := ones_fit hones
  by_contra hoverlap
  -- the first bit that both have
  have hbit : (field (0xFF <<< p % 2 ^ 32) q 8).testBit (max p q - q) = true := by
    have hlow : max p q - q < 8 := by omega
    have hsame : q + (max p q - q) = max p q := by omega
    have hword : max p q < 32 := by omega
    have hin : max p q - p < 8 := by omega
    rw [testBit_field, hsame, Nat.testBit_mod_two_pow, Nat.testBit_shiftLeft, show 0xFF = 2 ^ 8 - 1 from rfl,
      Nat.testBit_two_pow_sub_one]
    simp [hlow, hword, hin]
  rw [hzeros, Nat.zero_testBit] at hbit
  cases hbit

/-- The three plain colors come back only when the fields are apart. -/
theorem fieldsApart_of_colors (hgreen : fb.greenPosition < 32) (hblue : fb.bluePosition < 32)
    (h : ∀ color < 2 ^ 24, valueColor fb (colorValue fb color) = color) : FieldsApart fb := by
  have hback : ∀ color < 2 ^ 24, field (colorValue fb color) fb.redPosition 8 = field color 16 8 ∧
      field (colorValue fb color) fb.greenPosition 8 = field color 8 8 ∧
      field (colorValue fb color) fb.bluePosition 8 = field color 0 8 := by
    intro color hcolor
    obtain ⟨h1, h2, h3⟩ := valueColor_fields fb (colorValue fb color)
    rw [h color hcolor] at h1 h2 h3
    exact ⟨h1.symm, h2.symm, h3.symm⟩
  have hr : colorValue fb 0xFF0000 = 0xFF <<< fb.redPosition % 2 ^ 32 := by simp [colorValue, wrap32]
  have hg : colorValue fb 0x00FF00 = 0xFF <<< fb.greenPosition % 2 ^ 32 := by simp [colorValue, wrap32]
  have hb : colorValue fb 0x0000FF = 0xFF <<< fb.bluePosition % 2 ^ 32 := by simp [colorValue, wrap32]
  obtain ⟨hrr, hrg, hrb⟩ := hback 0xFF0000 (by norm_num)
  obtain ⟨-, hgg, hgb⟩ := hback 0x00FF00 (by norm_num)
  obtain ⟨-, -, hbb⟩ := hback 0x0000FF (by norm_num)
  rw [hr] at hrr hrg hrb
  rw [hg] at hgg hgb
  rw [hb] at hbb
  exact ⟨ones_fit hrr, ones_fit hgg, ones_fit hbb, ones_apart hgreen hrr hrg, ones_apart hblue hrr hrb,
    ones_apart hblue hgg hgb⟩

/-! ### Runs -/

/-- Where the canvas has a color, the pixel has its value. -/
structure Painted (fb : FramebufferTag) (s : Screen) (k : Canvas) : Prop where
  info : s.info = fb
  pixels : ∀ x < fb.width, ∀ y < fb.height, ∀ color, k x y = some color →
    color < 2 ^ 24 ∧ Memory.load s.bytes (pixel fb x y) 4 = colorValue fb color

theorem displays_bytes (h : s.info = fb) :
    Displays fb s fun x y => Memory.load s.bytes (pixel fb x y) 4 := ⟨h, fun _ _ _ _ => rfl⟩

theorem framebufferRead_eq (h : s.info = fb) (x y : ℕ) :
    framebufferRead x y s = (valueColor fb (Memory.load s.bytes (pixel fb x y) 4), (framebufferRead x y s).2) ∧
      (framebufferRead x y s).2.info = fb ∧ (framebufferRead x y s).2.bytes = s.bytes := by
  subst h
  constructor
  · simp only [framebufferRead, loadPixel, valueColor, land_byte]
  · exact ⟨rfl, rfl⟩

theorem Painted.run (hfb : Accepted fb) (hroom : Roomy fb) {op : Op} (hvalid : op.Valid fb) (h : Painted fb s k) :
    Painted fb (op.run s) (op.paint fb.height k) := by
  have hdisplays := displays_bytes h.info
  cases op with
  | write color x y =>
    obtain ⟨hcolor, hx, hy⟩ := hvalid
    have hwrite := hdisplays.write hfb hroom hx hy color
    refine ⟨hwrite.info, fun x' hx' y' hy' c hc => ?_⟩
    have hpixel := hwrite.pixels x' hx' y' hy'
    simp only [Op.paint, Op.run] at hc ⊢
    rw [hpixel, Fbcon.paint]
    split_ifs at hc ⊢ with heq
    · cases hc
      exact ⟨hcolor, rfl⟩
    · exact h.pixels x' hx' y' hy' c hc
  | scrollUp scale emptyFill =>
    obtain ⟨hcolor, hscale, hwrap⟩ := hvalid
    have hscroll := hdisplays.scroll hfb hroom hscale hwrap emptyFill
    refine ⟨hscroll.info, fun x hx y hy c hc => ?_⟩
    have hpixel := hscroll.pixels x hx y hy
    simp only [Op.paint, Op.run] at hc ⊢
    rw [hpixel, scrolled]
    split_ifs at hc ⊢ with hbelow
    · exact h.pixels x hx _ hbelow c hc
    · cases hc
      exact ⟨hcolor, rfl⟩
  | read x y =>
    obtain ⟨-, hinfo, hbytes⟩ := framebufferRead_eq h.info x y
    refine ⟨hinfo, fun x' hx' y' hy' c hc => ?_⟩
    rw [Op.run, hbytes]
    exact h.pixels x' hx' y' hy' c hc

theorem Painted.runs (hfb : Accepted fb) (hroom : Roomy fb) {ops : List Op} (hvalid : ∀ op ∈ ops, op.Valid fb)
    (h : Painted fb s k) :
    Painted fb (ops.foldl Op.run s) (ops.foldl (fun k op => op.paint fb.height k) k) := by
  induction ops generalizing s k with
  | nil => exact h
  | cons op ops ih =>
    obtain ⟨hop, hops⟩ := List.forall_mem_cons.mp hvalid
    exact ih hops (h.run hfb hroom hop)

/-- In every run what is read is what the canvas says, just when the fields of a color are apart. A shift by 32 or
more has no meaning in C. -/
theorem reads_canvas_iff (hfb : Accepted fb) (hroom : Roomy fb)
    (hshifts : ∀ position ∈ [fb.redPosition, fb.greenPosition, fb.bluePosition], position < 32) :
    (∀ s, s.info = fb → ∀ ops, (∀ op ∈ ops, Op.Valid fb op) → ∀ x < fb.width, ∀ y < fb.height, ∀ color,
      canvas fb.height ops x y = some color → (framebufferRead x y (ops.foldl Op.run s)).1 = color) ↔
      FieldsApart fb := by
  constructor
  · intro hall
    apply fieldsApart_of_colors (hshifts _ (by simp)) (hshifts _ (by simp))
    intro color hcolor
    have hx : 0 < fb.width := Nat.lt_of_lt_of_le (by norm_num) hroom.width
    have hy : 0 < fb.height := Nat.lt_of_lt_of_le (by norm_num) hroom.height
    have hvalid : Op.Valid fb (.write color 0 0) := ⟨hcolor, hx, hy⟩
    let s : Screen := ⟨fb, fun _ => 0, [], []⟩
    have hcanvas : canvas fb.height [.write color 0 0] 0 0 = some color := by simp [canvas, Op.paint]
    have hread := hall s rfl [.write color 0 0] (by simpa using hvalid) 0 hx 0 hy color hcanvas
    have hwrite := (displays_bytes (s := s) rfl).write hfb hroom hx hy color
    obtain ⟨hvalue, -⟩ := framebufferRead_eq hwrite.info 0 0
    rw [List.foldl_cons, List.foldl_nil, Op.run, hvalue, hwrite.pixels 0 hx 0 hy, Fbcon.paint,
      if_pos ⟨rfl, rfl⟩] at hread
    exact hread
  · intro hapart s hs ops hvalid x hx y hy color hcolor
    have hstart : Painted fb s fun _ _ => none := ⟨hs, fun _ _ _ _ _ hc => by cases hc⟩
    have hpainted := hstart.runs hfb hroom hvalid
    obtain ⟨hlt, hpixel⟩ := hpainted.pixels x hx y hy color hcolor
    obtain ⟨hvalue, -⟩ := framebufferRead_eq hpainted.info x y
    rw [hvalue, hpixel]
    exact valueColor_colorValue hapart hlt

/-- 800 by 600 pixels with the usual fields. -/
theorem reads_canvas_iff_svga : (∀ s, s.info = ⟨0xFD000000, 3200, 800, 600, 32, 1, 16, 8, 0⟩ → ∀ ops,
      (∀ op ∈ ops, Op.Valid ⟨0xFD000000, 3200, 800, 600, 32, 1, 16, 8, 0⟩ op) → ∀ x < 800, ∀ y < 600, ∀ color,
      canvas 600 ops x y = some color → (framebufferRead x y (ops.foldl Op.run s)).1 = color) ↔
      FieldsApart ⟨0xFD000000, 3200, 800, 600, 32, 1, 16, 8, 0⟩ := by
  have hfb : Accepted ⟨0xFD000000, 3200, 800, 600, 32, 1, 16, 8, 0⟩ := by constructor <;> decide
  have hroom : Roomy ⟨0xFD000000, 3200, 800, 600, 32, 1, 16, 8, 0⟩ := by constructor <;> decide
  exact reads_canvas_iff hfb hroom (by decide)

end Fynaos.Fbcon
