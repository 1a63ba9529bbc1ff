/-
# The status bar

`StatusBar` of `src/ui/status_bar.cpp` and the font it draws with
(`src/ui/font.cpp`): an overlay over the bottom rows of the display that saves
the pixels under it when it is first shown and writes them back when it is
hidden.

Everything the bar draws stays in its rows (`draws_changesOnly`), so as
long as `OverlayInv d₀` holds, hiding the bar gives back the display `d₀` it was
first shown on (`OverlayInv.hideStatus`). Hiding needs the saved pixels: a bar
of no width saves none and stays active for good.
-/
import Launchpad.Display

namespace Launchpad

/-- Addition of `uint32_t`. -/
def add32 (a b : ℕ) : ℕ := (a + b) % 4294967296

/-! ### The font -/

/-- The font, by the bytes of its glyph table `default_font`. -/
structure FontRenderer where
  defaultFont : ℕ → UInt8

namespace FontRenderer

def glyphWidth : ℕ := 12
def glyphHeight : ℕ := 22
def bytesPerRow : ℕ := 6
def bytesPerGlyph : ℕ := glyphHeight * bytesPerRow

variable {δ : Type*} [IDisplay δ] (font : FontRenderer)

/-- The two pixels of a byte of a glyph row. -/
def renderByte (x y : ℕ) (rowData : ℕ → UInt8) (d : δ) (byteIdx : ℕ) : δ :=
  let byteVal := rowData byteIdx
  let leftNibble := (byteVal >>> 4) &&& 0x0F
  let rightNibble := byteVal &&& 0x0F
  let d := if leftNibble > 0 then setPixel d (add32 x (byteIdx * 2), y) 0x00 else d
  if rightNibble > 0 then setPixel d (add32 x (byteIdx * 2 + 1), y) 0x00 else d

def renderGlyphRow (d : δ) (x y : ℕ) (rowData : ℕ → UInt8) : δ :=
  (List.range bytesPerRow).foldl (renderByte x y rowData) d

def drawChar (d : δ) (x y : ℕ) (c : Char) : δ :=
  let glyphData := fun i => font.defaultFont (c.toNat % 256 * bytesPerGlyph + i)
  (List.range glyphHeight).foldl
    (fun d row => renderGlyphRow d x (y + row) fun i => glyphData (row * bytesPerRow + i)) d

/-- One round of `draw_string`, with the current column. -/
def drawNext (y : ℕ) (s : δ × ℕ) (c : Char) : δ × ℕ :=
  (font.drawChar s.1 s.2 y c, add32 s.2 glyphWidth)

def drawString (d : δ) (x y : ℕ) (text : Str) : δ :=
  (text.foldl (font.drawNext y) (d, x)).1

end FontRenderer

/-! ### The bar -/

structure StatusBar (δ : Type*) where
  display : δ
  font : FontRenderer
  active : Bool := false
  savedPixels : List UInt8 := []

namespace StatusBar

/-- `STATUS_BAR_HEIGHT`. -/
def statusBarHeight : ℕ := 24

/-- `get_bar_region`, from the bounds of the display. -/
def barRegion (bounds : DisplayBounds) : UpdateRegion where
  x := 0
  y := if bounds.height > statusBarHeight then bounds.height - statusBarHeight else 0
  width := bounds.width
  height := statusBarHeight

/-- The pixels of a region, row by row, as the loops over it visit them. -/
def regionPixels (region : UpdateRegion) : List (ℕ × ℕ) :=
  (List.range' region.y region.height).flatMap fun y => (List.range region.width).map fun x => (x, y)

variable {δ : Type*} [IDisplay δ]

def getBarRegion (b : StatusBar δ) : UpdateRegion := barRegion (bounds b.display)

def captureBackground (b : StatusBar δ) : StatusBar δ :=
  { b with savedPixels := (regionPixels b.getBarRegion).map (getPixel b.display), active := true }

/-- The saved pixels are written back in the order they were saved. -/
def restoreBackground (b : StatusBar δ) : StatusBar δ :=
  if b.active = false ∨ b.savedPixels = [] then b
  else
    let region := b.getBarRegion
    let d := ((regionPixels region).zip b.savedPixels).foldl (fun d p => setPixel d p.1 p.2) b.display
    { b with display := update d region, savedPixels := [], active := false }

def drawBarText (b : StatusBar δ) (text : Str) : StatusBar δ :=
  let region := b.getBarRegion
  let d := (regionPixels region).foldl (fun d p => setPixel d p 0xFF) b.display
  { b with display := update (b.font.drawString d 30 (region.y + 1) text) region }

def showStatus (b : StatusBar δ) (message : Str) : StatusBar δ :=
  (if b.active = false then b.captureBackground else b).drawBarText message

def showResult (b : StatusBar δ) (success : Bool) : StatusBar δ :=
  if success then b.drawBarText "Success!".toList else b.drawBarText "Failure.".toList

def hideStatus (b : StatusBar δ) : StatusBar δ := b.restoreBackground

/-! ### Drawing

What is drawn is drawn by `setPixel` in the rows of the bar. `Draws R rows` says
that a relation between the display before and after is kept by that; it is
used for the bounds and for the pixels outside the bar. -/

/-- A preorder on displays that setting a pixel of one of the rows stays in. -/
structure Draws (R : δ → δ → Prop) (rows : ℕ → Prop) : Prop where
  refl : ∀ d, R d d
  trans : ∀ {d d' d''}, R d d' → R d' d'' → R d d''
  set : ∀ d x y level, rows y → R d (setPixel d (x, y) level)

variable {R : δ → δ → Prop} {rows : ℕ → Prop} {font : FontRenderer}

theorem Draws.renderGlyphRow (h : Draws R rows) (d : δ) (x y : ℕ) (rowData : ℕ → UInt8)
    (hy : rows y) : R d (FontRenderer.renderGlyphRow d x y rowData) := by
  refine Cells.foldl_rel h.refl h.trans _ d fun i _ d => ?_
  have hset : ∀ (c : Prop) [Decidable c] (d : δ) (x : ℕ) (level : UInt8),
      R d (if c then setPixel d (x, y) level else d) := by
    intro c _ d x level
    split_ifs
    · exact h.set d x y level hy
    · exact h.refl d
  exact h.trans (hset _ d _ _) (hset _ _ _ _)

theorem Draws.drawChar (h : Draws R rows) (d : δ) (x y : ℕ) (c : Char)
    (hy : ∀ row < FontRenderer.glyphHeight, rows (y + row)) : R d (font.drawChar d x y c) := by
  refine Cells.foldl_rel h.refl h.trans _ d fun row hrow d => ?_
  exact h.renderGlyphRow d x (y + row) _ (hy row (List.mem_range.mp hrow))

theorem Draws.drawString (h : Draws R rows) (d : δ) (x y : ℕ) (text : Str)
    (hy : ∀ row < FontRenderer.glyphHeight, rows (y + row)) : R d (font.drawString d x y text) := by
  have hnext : ∀ c ∈ text, ∀ s : δ × ℕ, R s.1 (font.drawNext y s c).1 := fun c _ s =>
    h.drawChar s.1 s.2 y c hy
  exact Cells.foldl_rel (R := fun s s' : δ × ℕ => R s.1 s'.1) (fun s => h.refl s.1) h.trans text (d, x)
    hnext

/-- The rows of the bar. -/
def BarRow (bounds : DisplayBounds) (y : ℕ) : Prop :=
  (barRegion bounds).y ≤ y ∧ y < (barRegion bounds).y + statusBarHeight

theorem mem_regionPixels {region : UpdateRegion} {p : ℕ × ℕ} : p ∈ regionPixels region ↔
    (region.y ≤ p.2 ∧ p.2 < region.y + region.height) ∧ p.1 < region.width := by
  obtain ⟨x, y⟩ := p
  simp [regionPixels, List.mem_flatMap]

theorem regionPixels_ne_nil {bounds : DisplayBounds} (hw : 0 < bounds.width) :
    regionPixels (barRegion bounds) ≠ [] := by
  have hmem : (0, (barRegion bounds).y) ∈ regionPixels (barRegion bounds) := by
    refine mem_regionPixels.mpr ⟨⟨le_rfl, ?_⟩, hw⟩
    simp only [barRegion, statusBarHeight]
    omega
  exact List.ne_nil_of_mem hmem

/-- The bar draws in its own rows. -/
theorem drawBarText_rel {b : StatusBar δ} (h : Draws R (BarRow (bounds b.display)))
    (hupdate : ∀ d region, R d (update d region)) (text : Str) :
    R b.display (b.drawBarText text).display := by
  have hfill : R b.display
      ((regionPixels b.getBarRegion).foldl (fun d p => setPixel d p 0xFF) b.display) := by
    refine Cells.foldl_rel h.refl h.trans _ _ fun p hp d => ?_
    exact h.set d p.1 p.2 0xFF (mem_regionPixels.mp hp).1
  refine h.trans hfill (h.trans (h.drawString _ 30 _ text fun row hrow => ?_) (hupdate _ _))
  simp only [BarRow, getBarRegion, statusBarHeight, FontRenderer.glyphHeight] at hrow ⊢
  omega

theorem draws_bounds (rows : ℕ → Prop) :
    Draws (fun d d' : δ => bounds d' = bounds d) rows where
  refl _ := rfl
  trans h h' := h'.trans h
  set d x y level _ := IDisplay.bounds_setPixel d (x, y) level

theorem draws_changesOnly [LawfulDisplay δ] (rows : ℕ → Prop) :
    Draws (Cells.ChangesOnly (getPixel : δ → ℕ × ℕ → UInt8) fun p => rows p.2) rows where
  refl := Cells.ChangesOnly.refl
  trans := Cells.ChangesOnly.trans
  set d x y level hy q hq := by
    apply getPixel_setPixel_ne d (x, y) q level
    rintro rfl
    exact hq hy

/-! ### The overlay over a run of calls

`OverlayInv d₀` is kept by the calls that are made on a bar, with one proviso: a
result may be shown only on a bar that is active. -/

@[simp] theorem drawBarText_active (b : StatusBar δ) (text : Str) :
    (b.drawBarText text).active = b.active := rfl

@[simp] theorem drawBarText_savedPixels (b : StatusBar δ) (text : Str) :
    (b.drawBarText text).savedPixels = b.savedPixels := rfl

@[simp] theorem bounds_drawBarText (b : StatusBar δ) (text : Str) :
    bounds (b.drawBarText text).display = bounds b.display :=
  drawBarText_rel (draws_bounds _) IDisplay.bounds_update text

/-- An active bar has something to write back. -/
def Saved (b : StatusBar δ) : Prop := b.active = true → b.savedPixels ≠ []

theorem bounds_showStatus (b : StatusBar δ) (message : Str) :
    bounds (b.showStatus message).display = bounds b.display := by
  rw [showStatus, bounds_drawBarText]
  split_ifs <;> rfl

theorem bounds_showResult (b : StatusBar δ) (success : Bool) :
    bounds (b.showResult success).display = bounds b.display := by
  unfold showResult
  split_ifs <;> rw [bounds_drawBarText]

theorem bounds_hideStatus (b : StatusBar δ) : bounds b.hideStatus.display = bounds b.display := by
  unfold hideStatus restoreBackground
  split_ifs
  · rfl
  · apply (IDisplay.bounds_update _ _).trans
    exact Cells.foldl_rel (R := fun d d' : δ => bounds d' = bounds d) (fun _ => rfl)
      (fun h h' => h'.trans h) _ _ fun p _ d => IDisplay.bounds_setPixel d p.1 p.2

theorem showStatus_active (b : StatusBar δ) (message : Str) : (b.showStatus message).active = true := by
  rw [showStatus, drawBarText_active]
  split_ifs with h
  · rfl
  · simpa using h

theorem Saved.showStatus {b : StatusBar δ} (hw : 0 < (bounds b.display).width) (h : b.Saved)
    (message : Str) : (b.showStatus message).Saved := by
  intro _
  rw [StatusBar.showStatus, drawBarText_savedPixels]
  split_ifs with hactive
  · simp only [captureBackground, ne_eq, List.map_eq_nil_iff]
    exact regionPixels_ne_nil hw
  · exact h (by simpa using hactive)

theorem Saved.showResult {b : StatusBar δ} (h : b.Saved) (success : Bool) :
    (b.showResult success).Saved := by
  unfold StatusBar.showResult
  split_ifs <;> exact h

theorem hideStatus_active {b : StatusBar δ} (h : b.Saved) : b.hideStatus.active = false := by
  unfold hideStatus restoreBackground
  split_ifs with hnone
  · rcases hnone with hinactive | hnil
    · exact hinactive
    · by_contra hactive
      exact h (by simpa using hactive) hnil
  · rfl

theorem Saved.hideStatus {b : StatusBar δ} (h : b.Saved) : b.hideStatus.Saved := fun hactive =>
  absurd hactive (by rw [hideStatus_active h]; decide)

/-- The bar over `d₀`: only its rows differ from `d₀`; active, it has saved them
as they are in `d₀`, and inactive, they do not differ. -/
structure OverlayInv (d₀ : δ) (b : StatusBar δ) : Prop where
  bounds_eq : bounds b.display = bounds d₀
  outside : Cells.ChangesOnly getPixel (fun p => BarRow (bounds d₀) p.2) d₀ b.display
  saved : b.active = true →
    b.savedPixels = (regionPixels (barRegion (bounds d₀))).map (getPixel d₀)
  restored : b.active = false →
    ∀ p, p.1 < (bounds d₀).width → getPixel b.display p = getPixel d₀ p

variable [LawfulDisplay δ] {d₀ : δ} {b : StatusBar δ}

theorem OverlayInv.drawBarText (h : OverlayInv d₀ b) (hactive : b.active = true) (text : Str) :
    OverlayInv d₀ (b.drawBarText text) := by
  have hdraw : Cells.ChangesOnly getPixel (fun p => BarRow (bounds d₀) p.2) b.display
      (b.drawBarText text).display := by
    rw [← h.bounds_eq]
    exact drawBarText_rel (draws_changesOnly _) (fun d region p _ => getPixel_update d region p) text
  refine ⟨(bounds_drawBarText b text).trans h.bounds_eq, h.outside.trans hdraw, h.saved, fun hoff => ?_⟩
  rw [drawBarText_active, hactive] at hoff
  exact nomatch hoff

theorem OverlayInv.showStatus (h : OverlayInv d₀ b) (message : Str) :
    OverlayInv d₀ (b.showStatus message) := by
  unfold StatusBar.showStatus
  split_ifs with hoff
  · have hcapture : OverlayInv d₀ b.captureBackground := by
      refine ⟨h.bounds_eq, h.outside, fun _ => ?_, nofun⟩
      simp only [captureBackground, getBarRegion, h.bounds_eq]
      apply List.map_congr_left
      intro p hp
      exact h.restored hoff p (mem_regionPixels.mp hp).2
    exact hcapture.drawBarText rfl message
  · exact h.drawBarText (by simpa using hoff) message

theorem OverlayInv.showResult (h : OverlayInv d₀ b) (hactive : b.active = true) (success : Bool) :
    OverlayInv d₀ (b.showResult success) := by
  unfold StatusBar.showResult
  split_ifs
  · exact h.drawBarText hactive _
  · exact h.drawBarText hactive _

/-- Hiding the bar gives the display back. -/
theorem OverlayInv.hideStatus (h : OverlayInv d₀ b) : OverlayInv d₀ b.hideStatus := by
  unfold StatusBar.hideStatus restoreBackground
  split_ifs with hnone
  · exact h
  · rw [not_or] at hnone
    have hactive : b.active = true := by simpa using hnone.1
    have hbounds := (bounds_hideStatus b).trans h.bounds_eq
    unfold StatusBar.hideStatus restoreBackground at hbounds
    rw [if_neg (not_or.mpr hnone)] at hbounds
    -- the pixels of the region are those of `d₀`, the others those of `b`
    have hcopy := Cells.get_copy (C := fun d => bounds d = bounds d₀)
      (fun d a v hd => (IDisplay.bounds_setPixel d a v).trans hd)
      (fun d a c v => getPixel_setPixel_ne d a c v)
      (fun d a hd => getPixel_setPixel_back d₀ d a hd) (regionPixels b.getBarRegion) b.display
      h.bounds_eq
    have hregion : b.getBarRegion = barRegion (bounds d₀) := by rw [getBarRegion, h.bounds_eq]
    rw [hregion, ← h.saved hactive, ← hregion] at hcopy
    refine ⟨hbounds, fun p hp => ?_, nofun, fun _ p hp => ?_⟩
    · have hnot : p ∉ regionPixels b.getBarRegion := by
        rw [hregion]
        exact fun hmem => hp (mem_regionPixels.mp hmem).1
      rw [getPixel_update, (hcopy p).2 hnot]
      exact h.outside p hp
    · rw [getPixel_update]
      by_cases hmem : p ∈ regionPixels b.getBarRegion
      · exact (hcopy p).1 hmem
      · rw [(hcopy p).2 hmem]
        refine h.outside p fun hrow => hmem ?_
        rw [hregion]
        exact mem_regionPixels.mpr ⟨hrow, hp⟩

end StatusBar
end Launchpad
