/-
# A session of the overlay

A session is what is shown on a bar from the moment it is inactive until it is
hidden again. It is watched by running it on a display that remembers every
display it has been (`Watched`), which to the bar is the display itself
(`watched_session`). At every moment only the rows of the bar differ from the
display at the start, and after the session none does
(`session_nonDestructive`); on the device neither does a byte of its
framebuffer, the padding of its rows included.
-/
import Launchpad.Overlay
import Launchpad.KindleDisplay

namespace Launchpad

/-! ### Watching -/

/-- A display and what it has been after each pixel set and each update. -/
structure Watched (δ : Type*) where
  now : δ
  moments : List δ := []

namespace Watched

variable {δ : Type*} [IDisplay δ]

/-- The display is now `d`. -/
def become (w : Watched δ) (d : δ) : Watched δ := ⟨d, w.moments ++ [d]⟩

instance : IDisplay (Watched δ) where
  bounds w := bounds w.now
  setPixel w p level := w.become (setPixel w.now p level)
  getPixel w := getPixel w.now
  update w region := w.become (update w.now region)
  bounds_setPixel w := IDisplay.bounds_setPixel w.now
  bounds_update w := IDisplay.bounds_update w.now

instance [LawfulDisplay δ] : LawfulDisplay (Watched δ) where
  getPixel_setPixel_ne w := getPixel_setPixel_ne w.now
  getPixel_setPixel_back w w' := getPixel_setPixel_back w.now w'.now
  getPixel_update w := getPixel_update w.now

theorem now_setPixel (w : Watched δ) (p : ℕ × ℕ) (level : UInt8) :
    (setPixel w p level).now = setPixel w.now p level := rfl

theorem now_renderByte (x y : ℕ) (rowData : ℕ → UInt8) (w : Watched δ) (byteIdx : ℕ) :
    (FontRenderer.renderByte x y rowData w byteIdx).now =
      FontRenderer.renderByte x y rowData w.now byteIdx := by
  simp only [FontRenderer.renderByte, apply_ite Watched.now, now_setPixel]

theorem now_renderGlyphRow (w : Watched δ) (x y : ℕ) (rowData : ℕ → UInt8) :
    (FontRenderer.renderGlyphRow w x y rowData).now =
      FontRenderer.renderGlyphRow w.now x y rowData :=
  Eq.symm (List.foldl_hom now fun w i => (now_renderByte x y rowData w i).symm)

theorem now_drawChar (font : FontRenderer) (w : Watched δ) (x y : ℕ) (c : Char) :
    (font.drawChar w x y c).now = font.drawChar w.now x y c := by
  unfold FontRenderer.drawChar
  exact Eq.symm (List.foldl_hom now fun w row => (now_renderGlyphRow w x (y + row) _).symm)

theorem now_drawString (font : FontRenderer) (w : Watched δ) (x y : ℕ) (text : Str) :
    (font.drawString w x y text).now = font.drawString w.now x y text := by
  have hnext : ∀ (s : Watched δ × ℕ) (c : Char),
      font.drawNext y (s.1.now, s.2) c = ((font.drawNext y s c).1.now, (font.drawNext y s c).2) :=
    fun s c => Prod.ext (now_drawChar font s.1 s.2 y c).symm rfl
  exact congrArg Prod.fst (List.foldl_hom (fun s : Watched δ × ℕ => (s.1.now, s.2)) hnext).symm

end Watched

/-! ### Sessions -/

/-- A call that shows something on the bar. -/
inductive Shown
  | status (message : Str)
  | result (success : Bool)
  deriving DecidableEq

namespace StatusBar

variable {δ : Type*} [IDisplay δ]

def shown (b : StatusBar δ) : Shown → StatusBar δ
  | .status message => b.showStatus message
  | .result success => b.showResult success

/-- The bar after a message, what is shown after it, and hiding. -/
def session (b : StatusBar δ) (message : Str) (shows : List Shown) : StatusBar δ :=
  (Runs.run shown (b.showStatus message) shows).hideStatus

/-- The bar on a display that is watched. -/
def watched (b : StatusBar δ) : StatusBar (Watched δ) :=
  ⟨⟨b.display, []⟩, b.font, b.active, b.savedPixels⟩

def unwatched (b : StatusBar (Watched δ)) : StatusBar δ :=
  ⟨b.display.now, b.font, b.active, b.savedPixels⟩

/-- What the display is during a session. -/
def moments (b : StatusBar δ) (message : Str) (shows : List Shown) : List δ :=
  (b.watched.session message shows).display.moments

theorem unwatched_drawBarText (b : StatusBar (Watched δ)) (text : Str) :
    (b.drawBarText text).unwatched = b.unwatched.drawBarText text := by
  have hfill : ((regionPixels b.getBarRegion).foldl (fun d p => setPixel d p 0xFF) b.display).now =
      (regionPixels b.getBarRegion).foldl (fun d p => setPixel d p 0xFF) b.display.now :=
    (List.foldl_hom Watched.now fun _ _ => rfl).symm
  have hdraw := Watched.now_drawString b.font
    ((regionPixels b.getBarRegion).foldl (fun d p => setPixel d p 0xFF) b.display) 30
    (b.getBarRegion.y + 1) text
  rw [hfill] at hdraw
  exact congrArg (fun d => (⟨update d b.getBarRegion, b.font, b.active, b.savedPixels⟩ :
    StatusBar δ)) hdraw

theorem unwatched_showStatus (b : StatusBar (Watched δ)) (message : Str) :
    (b.showStatus message).unwatched = b.unwatched.showStatus message := by
  unfold showStatus
  rw [unwatched_drawBarText, apply_ite unwatched]
  rfl

theorem unwatched_shown (b : StatusBar (Watched δ)) (s : Shown) :
    (b.shown s).unwatched = b.unwatched.shown s := by
  cases s with
  | status message => exact unwatched_showStatus b message
  | result success =>
    simp only [shown, showResult]
    split_ifs
    · exact unwatched_drawBarText b _
    · exact unwatched_drawBarText b _

theorem unwatched_hideStatus (b : StatusBar (Watched δ)) :
    b.hideStatus.unwatched = b.unwatched.hideStatus := by
  unfold hideStatus restoreBackground
  rw [apply_ite unwatched]
  have hcopy : (((regionPixels b.getBarRegion).zip b.savedPixels).foldl
      (fun d p => setPixel d p.1 p.2) b.display).now =
      ((regionPixels b.getBarRegion).zip b.savedPixels).foldl (fun d p => setPixel d p.1 p.2)
        b.display.now := (List.foldl_hom Watched.now fun _ _ => rfl).symm
  have hrestored := congrArg (fun d => (⟨update d b.getBarRegion, b.font, false, []⟩ :
    StatusBar δ)) hcopy
  exact if_congr Iff.rfl rfl hrestored

/-- Watching changes nothing. -/
theorem watched_session (b : StatusBar δ) (message : Str) (shows : List Shown) :
    (b.watched.session message shows).unwatched = b.session message shows := by
  have hrun := Runs.run_rel (shown (δ := Watched δ)) (shown (δ := δ))
    (R := fun b b' => b.unwatched = b')
    (fun b b' s h => (unwatched_shown b s).trans (congrArg (fun b => shown b s) h))
    (b.watched.showStatus message) (b.showStatus message) shows (unwatched_showStatus b.watched message)
  rw [session, unwatched_hideStatus, hrun]
  rfl

/-! ### What a session keeps

A session sets pixels of the rows of the bar and updates the display, so it stays
in every relation that those two stay in. -/

theorem bounds_shown (b : StatusBar δ) (s : Shown) :
    bounds (b.shown s).display = bounds b.display := by
  cases s with
  | status message => exact bounds_showStatus b message
  | result success => exact bounds_showResult b success

section Rel

variable {R : δ → δ → Prop} {geometry : DisplayBounds}

theorem shown_rel (h : Draws R (BarRow geometry)) (hupdate : ∀ d region, R d (update d region))
    {b : StatusBar δ} (hb : bounds b.display = geometry) (s : Shown) :
    R b.display (b.shown s).display := by
  rw [← hb] at h
  cases s with
  | status message =>
    unfold shown showStatus
    split_ifs
    · exact drawBarText_rel (b := b.captureBackground) h hupdate message
    · exact drawBarText_rel h hupdate message
  | result success =>
    simp only [shown, showResult]
    split_ifs
    · exact drawBarText_rel h hupdate _
    · exact drawBarText_rel h hupdate _

theorem hideStatus_rel (h : Draws R (BarRow geometry)) (hupdate : ∀ d region, R d (update d region))
    {b : StatusBar δ} (hb : bounds b.display = geometry) : R b.display b.hideStatus.display := by
  unfold hideStatus restoreBackground
  split_ifs
  · exact h.refl b.display
  · refine h.trans (Cells.foldl_rel h.refl h.trans _ _ fun p hp d => ?_) (hupdate _ _)
    have hmem : p.1 ∈ regionPixels (barRegion geometry) := by
      rw [← hb]
      exact (List.of_mem_zip hp).1
    exact h.set d p.1.1 p.1.2 p.2 (mem_regionPixels.mp hmem).1

theorem session_rel (h : Draws R (BarRow geometry)) (hupdate : ∀ d region, R d (update d region))
    {b : StatusBar δ} (hb : bounds b.display = geometry) (message : Str) (shows : List Shown) :
    R b.display (b.session message shows).display := by
  have hrun := Runs.run_inv shown
    (I := fun b' => bounds b'.display = geometry ∧ R b.display b'.display)
    (fun b' s hb' => ⟨(bounds_shown b' s).trans hb'.1, h.trans hb'.2 (shown_rel h hupdate hb'.1 s)⟩)
    b (.status message :: shows) ⟨hb, h.refl b.display⟩
  exact h.trans hrun.2 (hideStatus_rel h hupdate hrun.1)

end Rel

variable [LawfulDisplay δ]

theorem OverlayInv.shown {d₀ : δ} {b : StatusBar δ} (h : OverlayInv d₀ b) (hactive : b.active = true)
    (s : Shown) : OverlayInv d₀ (b.shown s) ∧ (b.shown s).active = true := by
  cases s with
  | status message => exact ⟨h.showStatus message, showStatus_active b message⟩
  | result success =>
    exact ⟨h.showResult hactive success, (showResult_active b success).trans hactive⟩

/-- After a session every pixel is as before. -/
theorem getPixel_session {b : StatusBar δ} (hb : b.active = false) (message : Str)
    (shows : List Shown) {p : ℕ × ℕ} (hp : p.1 < (bounds b.display).width) :
    getPixel (b.session message shows).display p = getPixel b.display p := by
  have hstart : OverlayInv b.display b :=
    ⟨rfl, fun _ _ => rfl, fun hon => absurd (hb.symm.trans hon) Bool.false_ne_true, fun _ _ _ => rfl⟩
  have hrun := Runs.run_inv shown (I := fun b' => OverlayInv b.display b' ∧ b'.active = true)
    (fun b' s h => h.1.shown h.2 s)
    (b.showStatus message) shows ⟨hstart.showStatus message, showStatus_active b message⟩
  have hsaved : Saved (Runs.run shown (b.showStatus message) shows) := by
    intro hon
    rw [hrun.1.saved hon]
    simp only [ne_eq, List.map_eq_nil_iff]
    exact regionPixels_ne_nil (Nat.zero_lt_of_lt hp)
  exact hrun.1.hideStatus.restored (hideStatus_active hsaved) p hp

/-- The pixel at `p` is and has been `level`. -/
def Constant (p : ℕ × ℕ) (level : UInt8) (w : Watched δ) : Prop :=
  getPixel w.now p = level ∧ ∀ d ∈ w.moments, getPixel d p = level

omit [LawfulDisplay δ] in
theorem Constant.become {p : ℕ × ℕ} {level : UInt8} {w : Watched δ} (h : Constant p level w) {d : δ}
    (hd : getPixel d p = getPixel w.now p) : Constant p level (w.become d) := by
  refine ⟨hd.trans h.1, fun d' hd' => ?_⟩
  rcases List.mem_append.mp hd' with hold | hnew
  · exact h.2 d' hold
  · rw [List.mem_singleton.mp hnew]
    exact hd.trans h.1

theorem draws_constant {rows : ℕ → Prop} {p : ℕ × ℕ} (hp : ¬ rows p.2) (level : UInt8) :
    Draws (fun w w' : Watched δ => Constant p level w → Constant p level w') rows := by
  refine ⟨fun _ => id, fun h h' => h' ∘ h, fun w x y level hy h => h.become ?_⟩
  apply getPixel_setPixel_ne w.now (x, y) p level
  rintro rfl
  exact hp hy

/-- At every moment of a session only the rows of the bar differ. -/
theorem getPixel_moments (b : StatusBar δ) (message : Str) (shows : List Shown) {d : δ}
    (hd : d ∈ b.moments message shows) {p : ℕ × ℕ} (hp : ¬ BarRow (bounds b.display) p.2) :
    getPixel d p = getPixel b.display p := by
  have hsession := session_rel (draws_constant hp (getPixel b.display p))
    (fun w region h => h.become (getPixel_update w.now region p)) (b := b.watched) rfl message shows
  exact (hsession ⟨rfl, nofun⟩).2 d hd

/-! ### The framebuffer -/

/-- The nibbles that are no pixel's stay, and so do the bounds and the size. -/
structure KeepsPadding (d d' : KindleDisplay) : Prop where
  bounds_eq : d'.bounds = d.bounds
  size_eq : d'.memory.size = d.memory.size
  padding : ∀ j, (∀ p : ℕ × ℕ, p.1 < d.bounds.width → p.2 < d.bounds.height → j ≠ d.position p) →
    d'.nibbleAt j = d.nibbleAt j

theorem draws_keepsPadding (rows : ℕ → Prop) : Draws KeepsPadding rows where
  refl _ := ⟨rfl, rfl, fun _ _ => rfl⟩
  trans {d d' d''} h h' := by
    refine ⟨h'.bounds_eq.trans h.bounds_eq, h'.size_eq.trans h.size_eq, fun j hj => ?_⟩
    have hposition : ∀ p, d'.position p = d.position p := fun p => by
      rw [KindleDisplay.position, h.bounds_eq]
      rfl
    rw [← h.padding j hj]
    apply h'.padding j
    intro p hx hy
    rw [h.bounds_eq] at hx hy
    rw [hposition]
    exact hj p hx hy
  set d x y level _ := by
    refine ⟨KindleDisplay.bounds_setPixel d (x, y) level, KindleDisplay.size_setPixel d (x, y) level,
      fun j hj => ?_⟩
    show (d.setPixel (x, y) level).nibbleAt j = d.nibbleAt j
    by_cases h : x ≥ d.bounds.width ∨ y ≥ d.bounds.height
    · rw [KindleDisplay.setPixel_outside h]
    · have hx : x < d.bounds.width := by omega
      have hy : y < d.bounds.height := by omega
      rw [KindleDisplay.nibbleAt_setPixel hx hy, if_neg (hj (x, y) hx hy)]

/-- A session leaves every byte of the framebuffer. -/
theorem memory_session {b : StatusBar KindleDisplay} (hb : b.active = false) (message : Str)
    (shows : List Shown) : (b.session message shows).display.memory = b.display.memory := by
  have hkeeps : KeepsPadding b.display (b.session message shows).display :=
    session_rel (draws_keepsPadding _) (fun d _ => (draws_keepsPadding (fun _ => True)).refl d) rfl
      message shows
  refine KindleDisplay.memory_eq hkeeps.size_eq fun j => ?_
  by_cases hj : ∃ p : ℕ × ℕ, p.1 < b.display.bounds.width ∧ p.2 < b.display.bounds.height ∧
      j = b.display.position p
  · obtain ⟨p, hx, hy, rfl⟩ := hj
    have hposition : (b.session message shows).display.position p = b.display.position p := by
      rw [KindleDisplay.position, hkeeps.bounds_eq]
      rfl
    have hin : ¬ (p.1 ≥ b.display.bounds.width ∨ p.2 ≥ b.display.bounds.height) := by omega
    have hlevel : (b.session message shows).display.getPixel p = b.display.getPixel p :=
      getPixel_session hb message shows hx
    rw [KindleDisplay.getPixel_eq, KindleDisplay.getPixel_eq, hkeeps.bounds_eq, if_neg hin, if_neg hin,
      hposition] at hlevel
    -- a level tells its nibble
    rw [← quantise_levelOf (KindleDisplay.nibbleAt_lt _), hlevel,
      quantise_levelOf (KindleDisplay.nibbleAt_lt _)]
  · exact hkeeps.padding j fun p hx hy heq => hj ⟨p, hx, hy, heq⟩

/-! ### The overlay is not destructive -/

/-- At no moment of the session does a pixel above the bottom rows differ, and
none does after it. -/
def NonDestructive (b : StatusBar δ) (message : Str) (shows : List Shown) : Prop :=
  (∀ d ∈ b.moments message shows, ∀ p : ℕ × ℕ, p.2 < (bounds b.display).height - statusBarHeight →
    getPixel d p = getPixel b.display p) ∧
  ∀ p : ℕ × ℕ, p.1 < (bounds b.display).width → p.2 < (bounds b.display).height →
    getPixel (b.session message shows).display p = getPixel b.display p

theorem nonDestructive {b : StatusBar δ} (hb : b.active = false) (message : Str)
    (shows : List Shown) : b.NonDestructive message shows := by
  refine ⟨fun d hd p hp => getPixel_moments b message shows hd ?_, fun p hp _ =>
    getPixel_session hb message shows hp⟩
  rintro ⟨hlow, _⟩
  simp only [barRegion] at hlow
  split_ifs at hlow <;> omega

/-- **The overlay is not destructive.** On any display that behaves as an array
of pixels a session leaves the rows above the bar as they are at every moment and
the whole screen at the end; on the framebuffer of a Kindle, every byte. -/
theorem session_nonDestructive (b : StatusBar δ) (kindle : StatusBar KindleDisplay)
    (hb : b.active = false) (hkindle : kindle.active = false) (message : Str) (shows : List Shown) :
    b.NonDestructive message shows ∧ kindle.NonDestructive message shows ∧
      (kindle.session message shows).display.memory = kindle.display.memory :=
  ⟨nonDestructive hb message shows, nonDestructive hkindle message shows,
    memory_session hkindle message shows⟩

/-- A screen of odd width and less height than the bar. -/
def smallScreen : KindleDisplay where
  bounds := ⟨5, 2, 4⟩
  memory := #[0x01, 0x23, 0x45, 0x67, 0x89, 0xAB]
  size_lt := by decide
  fits := by decide

/-- A message wider than either screen and a result leave both as they were. -/
theorem session_nonDestructive_small :
    (⟨MockDisplay.new ⟨5, 2, 4⟩, ⟨fun _ => 0xFF⟩, false, []⟩ : StatusBar MockDisplay).NonDestructive
        "Reloaded".toList [.result true] ∧
      ((⟨smallScreen, ⟨fun _ => 0xFF⟩, false, []⟩ : StatusBar KindleDisplay).session "Reloaded".toList
        [.result true]).display.memory = #[0x01, 0x23, 0x45, 0x67, 0x89, 0xAB] := by
  obtain ⟨hmock, _, hmemory⟩ := session_nonDestructive
    (⟨MockDisplay.new ⟨5, 2, 4⟩, ⟨fun _ => 0xFF⟩, false, []⟩ : StatusBar MockDisplay)
    ⟨smallScreen, ⟨fun _ => 0xFF⟩, false, []⟩ rfl rfl "Reloaded".toList [.result true]
  exact ⟨hmock, hmemory⟩

end StatusBar
end Launchpad
