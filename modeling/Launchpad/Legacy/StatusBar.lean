/-
# The legacy status bar

`src/statusbar.c`, with the font (`font.c`) and what it uses of `screen.c`. The bar
is the bottom rows of the screen: they are saved when it is shown and blitted back
when it is hidden. Everything in between is drawn in these rows, by text of any
length and by flashes in any order of their steps (`BarInv`), so hiding the bar
gives back the screen. A flash that is not waited for is a thread that blits what it
saved again and again; one that saved the bar and is still at it when the bar is
hidden brings it back (`statusbar_restores`).

Updating the display (`ioctl`) and waiting leave the surface as it is and are left
out. Each filling or blit is one step.
-/
import Launchpad.Cells
import Launchpad.CStrings
import Launchpad.Runs
import Launchpad.Legacy.IniFile
import Launchpad.Legacy.Pixop

namespace Launchpad
namespace Legacy

open CStrings Pixmap

/-! ### The font -/

/-- `FNTWIDTH`. -/
def fntWidth : ℕ := 12

/-- `FNTHEIGHT`. -/
def fntHeight : ℕ := 22

def nbytesperchar : ℕ := fntHeight * ((fntWidth + 1) * 4 / 8)

/-- `code_first`. -/
def codeFirst : ℕ := 0

/-- `code_last`. -/
def codeLast : ℕ := 255

/-- The bytes of `default_font`. -/
abbrev Font : Type := Vector UInt8 ((codeLast - codeFirst + 1) * nbytesperchar)

/-- The code a character is drawn with. -/
def charCode (code : ℕ) : ℕ :=
  let code := code % 256
  if code < codeFirst ∨ code > codeLast then codeFirst else code

theorem glyph_index_lt (code : ℕ) (i : Fin (fntHeight * ((fntWidth + 1) / 2))) :
    (charCode code - codeFirst) * nbytesperchar + i < (codeLast - codeFirst + 1) * nbytesperchar := by
  have hi : (i : ℕ) < nbytesperchar := i.isLt
  have hcode : charCode code - codeFirst < codeLast - codeFirst + 1 := by
    unfold charCode codeFirst codeLast
    dsimp only
    split_ifs <;> omega
  have hrow := Nat.mul_le_mul_right nbytesperchar (Nat.succ_le_of_lt hcode)
  rw [Nat.succ_mul] at hrow
  omega

/-- `get_char_pixmap`. -/
def getCharPixmap (font : Font) (code : ℕ) : Pixmap :=
  ⟨fntWidth, fntHeight, .ofFn fun i => font.get ⟨_, glyph_index_lt code i⟩⟩

/-! ### The screen -/

/-- The loop of `screen_string_at`, one round and then `more`: the string is read up to
the character after the last that is drawn. -/
def drawChars (font : Font) (y0 : ℤ) : ℕ → Pixmap → ℤ → Pixmap → Str → Option Pixmap
  | 0, screen, x, glyph, p =>
    (pixBlt screen x y0 glyph).bind fun r => p.tail.head?.map fun _ => r.1
  | more + 1, screen, x, glyph, p =>
    (pixBlt screen x y0 glyph).bind fun r => p.tail.head?.bind fun c =>
      drawChars font y0 more r.1 (x + glyph.width) (getCharPixmap font c.toNat) p.tail

/-- `screen_string_at`, with the number of characters that fit. -/
def screenStringAt (font : Font) (screen : Pixmap) (x0 y0 : ℤ) (p : Str) : Option (Pixmap × ℤ) :=
  (p ++ [nul]).head?.bind fun c =>
    let glyph := getCharPixmap font c.toNat
    if y0 + glyph.height ≤ screen.height then
      if x0 + glyph.width ≤ screen.width then
        let n := (screen.width - x0) / (glyph.width - 2)
        let n := if n > p.length then (p.length : ℤ) else n
        (drawChars font y0 (n - 1).toNat screen x0 glyph (p ++ [nul])).map fun d => (d, n)
      else some (screen, 0)
    else some (screen, 0)

/-- `screen_rect_at`. -/
def screenRectAt (screen : Pixmap) (x0 y0 w h color : ℤ) : Option (Pixmap × ℤ) :=
  pixFill screen x0 y0 w h color

/-- `screen_get_pixmap`: the pixmap it fills. -/
def screenGetPixmap (screen : Pixmap) (x0 y0 : ℤ) (dst : Pixmap) : Option (Pixmap × ℤ) :=
  pixmapXtract dst x0 y0 screen

/-- `screen_put_pixmap`. -/
def screenPutPixmap (screen : Pixmap) (x0 y0 : ℤ) (src : Pixmap) : Option (Pixmap × ℤ) :=
  pixBlt screen x0 y0 src

/-- `struct flash_param`. -/
structure FlashParam where
  count : ℤ
  x0 : ℤ
  y0 : ℤ
  w : ℕ
  h : ℕ

/-- A call of `flash_thread`: it has not yet copied its parameters, or it has saved its
part of the screen. -/
inductive FlashThread where
  | created
  | saving (p : FlashParam) (psave : Pixmap)

/-- What `flash_thread` does next: save, or a round of its loop. -/
def flashStep (param : FlashParam) (screen : Pixmap) : FlashThread → Option (Pixmap × FlashThread)
  | .created =>
    (pixmapXtract (pixbufAlloc param.w param.h) param.x0 param.y0 screen).map fun r =>
      (screen, .saving param r.1)
  | .saving p psave =>
    if p.count > 0 then
      (pixBlt screen p.x0 p.y0 psave).map fun r => (r.1, .saving { p with count := p.count - 1 } psave)
    else some (screen, .saving p psave)

/-- So many steps of `flash_thread`. -/
def flashSteps (param : FlashParam) : ℕ → Pixmap × FlashThread → Option (Pixmap × FlashThread)
  | 0, s => some s
  | n + 1, s => (flashStep param s.1 s.2).bind (flashSteps param n)

/-- `flash_thread` to its end. -/
def flashThread (param : FlashParam) (screen : Pixmap) : Option Pixmap :=
  (flashSteps param (param.count.toNat + 1) (screen, .created)).map Prod.fst

/-! ### The bar -/

/-- `STATUSBAR_HEIGHT`. -/
def statusbarHeight : ℕ := 30

/-- The first row of the bar. -/
def barRow (screen : Pixmap) : ℤ := screen.height - statusbarHeight

/-- `statusbar_show`: the screen with the bar, and what it saved. -/
def statusbarShow (screen : Pixmap) : Option (Pixmap × Pixmap) :=
  let psav := pixbufAlloc screen.width statusbarHeight
  (screenGetPixmap screen 0 (barRow screen) psav).bind fun psav =>
    (screenRectAt screen 0 (barRow screen) screen.width statusbarHeight 0).map fun r => (r.1, psav.1)

/-- `statusbar_hide`. -/
def statusbarHide (screen psav : Pixmap) : Option Pixmap :=
  (screenPutPixmap screen 0 (barRow screen) psav).map Prod.fst

/-- `statusbar_text`. -/
def statusbarText (font : Font) (screen : Pixmap) (p : Str) : Option Pixmap :=
  (screenRectAt screen 0 (barRow screen) screen.width statusbarHeight 0).bind fun r =>
    (screenStringAt font r.1 30 (barRow r.1) p).map Prod.fst

/-- The screen, the static parameters of `screen_flash_area` and the threads it has
created. -/
structure BarState where
  screen : Pixmap
  param : FlashParam := ⟨0, 0, 0, 0, 0⟩
  threads : List FlashThread := []

/-- `screen_flash_area`. -/
def screenFlashArea (s : BarState) (param : FlashParam) (waitflag : Bool) : Option BarState :=
  if waitflag then
    (flashThread param s.screen).map fun screen => { s with screen := screen, param := param }
  else some { s with param := param, threads := s.threads ++ [.created] }

/-- `statusbar_flash`. -/
def statusbarFlash (s : BarState) (count : ℤ) (waitflag : Bool) : Option BarState :=
  screenFlashArea s ⟨count, 0, barRow s.screen, s.screen.width, statusbarHeight⟩ waitflag

/-- A call, or a step of one of the threads. -/
inductive BarEvent where
  | text (p : Str)
  | flash (count : ℤ) (waitflag : Bool)
  | thread (i : ℕ)

def barStep (font : Font) (s : BarState) : BarEvent → Option BarState
  | .text p => (statusbarText font s.screen p).map fun screen => { s with screen := screen }
  | .flash count waitflag => statusbarFlash s count waitflag
  | .thread i =>
    match s.threads[i]? with
    | none => some s
    | some t => (flashStep s.param s.screen t).map fun r =>
        { s with screen := r.1, threads := s.threads.set i r.2 }

/-- Calls and steps one after the other. -/
def barRun (font : Font) (s : BarState) (es : List BarEvent) : Option BarState :=
  es.foldlM (barStep font) s

/-- The screen after a bar was shown, the events, the bar hidden, and then steps of the
threads that are left. -/
def barSession (font : Font) (screen : Pixmap) (es : List BarEvent) (is : List ℕ) : Option Pixmap :=
  (statusbarShow screen).bind fun shown =>
    (barRun font { screen := shown.1 } es).bind fun s =>
      (statusbarHide s.screen shown.2).bind fun screen =>
        (barRun font { s with screen := screen } (is.map .thread)).map (·.screen)

/-! ### Drawing below a row -/

/-- `d'` is `d`, but for rows from `y` on. -/
structure Below (y : ℤ) (d d' : Pixmap) : Prop where
  width_eq : d'.width = d.width
  height_eq : d'.height = d.height
  changes : Cells.ChangesOnly (fun (p : Pixmap) (rc : ℤ × ℤ) => p.byteAt rc.1 rc.2) (fun rc => y ≤ rc.1) d d'

variable {font : Font} {y : ℤ} {d d' d'' screen psave src : Pixmap}

theorem Below.refl (y : ℤ) (d : Pixmap) : Below y d d := ⟨rfl, rfl, .refl d⟩

theorem Below.trans (h : Below y d d') (h' : Below y d' d'') : Below y d d'' :=
  ⟨h'.width_eq.trans h.width_eq, h'.height_eq.trans h.height_eq, h.changes.trans h'.changes⟩

theorem Below.barRow_eq (h : Below y d d') : barRow d' = barRow d := by
  rw [barRow, barRow, h.height_eq]

theorem below_of_pasted {row col n : ℤ} (h : Pasted d src row col d' n) (hy : y ≤ row) :
    Below y d d' := by
  refine ⟨h.width_eq, h.height_eq, fun rc hrc => ?_⟩
  have hout : src.byteAt (rc.1 - row) (rc.2 - col) = none := byteAt_eq_none (by omega)
  show d'.byteAt rc.1 rc.2 = d.byteAt rc.1 rc.2
  rw [h.byteAt_eq, hout]
  exact Option.map_id'

theorem exists_pixBlt_below (d src : Pixmap) (bx : ℤ) {by' : ℤ} (hy : y ≤ by') :
    ∃ d' n, pixBlt d bx by' src = some (d', n) ∧ Below y d d' := by
  obtain ⟨d', n, hblt, hpasted⟩ := exists_pixBlt d src bx by'
  exact ⟨d', n, hblt, below_of_pasted hpasted hy⟩

theorem exists_pixFill_below (d : Pixmap) (bx wd ht color : ℤ) {by' : ℤ} (hy : y ≤ by') :
    ∃ d' n, pixFill d bx by' wd ht color = some (d', n) ∧ Below y d d' := by
  obtain ⟨d', n, hfill, hw, hh, hbytes⟩ := exists_pixFill d bx by' wd ht color
  refine ⟨d', n, hfill, hw, hh, fun rc hrc => ?_⟩
  show d'.byteAt rc.1 rc.2 = d.byteAt rc.1 rc.2
  have hout : ¬ ((by' ≤ rc.1 ∧ rc.1 < by' + ht) ∧ bx / 2 ≤ rc.2 ∧ rc.2 < (even bx + wd + 1) / 2) := by
    omega
  rw [hbytes]
  simp only [if_neg hout]
  exact Option.map_id'

theorem exists_next {p : Str} (h : 2 ≤ p.length) : ∃ c, p.tail.head? = some c := by
  have htail : 0 < p.tail.length := by
    rw [List.length_tail]
    omega
  obtain ⟨c, rest, hcons⟩ := List.exists_cons_of_length_pos htail
  exact ⟨c, by rw [hcons]; rfl⟩

/-- Characters are drawn from their row on, if the string is long enough. -/
theorem drawChars_below (font : Font) {y0 : ℤ} (hy : y ≤ y0) : ∀ (more : ℕ) (d : Pixmap) (x : ℤ)
    (glyph : Pixmap) (p : Str), more + 2 ≤ p.length →
    ∃ d', drawChars font y0 more d x glyph p = some d' ∧ Below y d d'
  | 0, d, x, glyph, p, hlen => by
    obtain ⟨d', n, hblt, hbelow⟩ := exists_pixBlt_below d glyph x hy
    obtain ⟨c, hc⟩ := exists_next (p := p) (by omega)
    refine ⟨d', ?_, hbelow⟩
    rw [drawChars, hblt, Option.bind_some, hc]
    rfl
  | more + 1, d, x, glyph, p, hlen => by
    obtain ⟨d', n, hblt, hbelow⟩ := exists_pixBlt_below d glyph x hy
    obtain ⟨c, hc⟩ := exists_next (p := p) (by omega)
    have htail : more + 2 ≤ p.tail.length := by
      rw [List.length_tail]
      omega
    obtain ⟨d'', hrest, hbelow'⟩ := drawChars_below font hy more d' (x + glyph.width)
      (getCharPixmap font c.toNat) p.tail htail
    refine ⟨d'', ?_, hbelow.trans hbelow'⟩
    rw [drawChars, hblt, Option.bind_some, hc, Option.bind_some]
    exact hrest

theorem exists_screenStringAt (font : Font) (d : Pixmap) (x0 : ℤ) {y0 : ℤ} (hy : y ≤ y0) {p : Str}
    (hp : p ≠ []) : ∃ d' n, screenStringAt font d x0 y0 p = some (d', n) ∧ Below y d d' := by
  have hpos := List.length_pos_iff.mpr hp
  obtain ⟨c, hc⟩ : ∃ c, (p ++ [nul]).head? = some c := by
    rcases p with _ | ⟨c, p⟩ <;> simp
  rw [screenStringAt, hc, Option.bind_some]
  dsimp only
  obtain ⟨n, hn, hle⟩ : ∃ n : ℤ,
      (if (d.width - x0) / ((getCharPixmap font c.toNat).width - 2) > p.length then (p.length : ℤ)
        else (d.width - x0) / ((getCharPixmap font c.toNat).width - 2)) = n ∧ n ≤ p.length :=
    ⟨_, rfl, by split_ifs <;> omega⟩
  rw [hn]
  split_ifs
  · have hlen : (n - 1).toNat + 2 ≤ (p ++ [nul]).length := by
      rw [List.length_append, List.length_singleton]
      omega
    obtain ⟨d', hdraw, hbelow⟩ := drawChars_below font hy _ d x0 _ _ hlen
    rw [hdraw]
    exact ⟨d', n, rfl, hbelow⟩
  · exact ⟨d, 0, rfl, .refl y d⟩
  · exact ⟨d, 0, rfl, .refl y d⟩

theorem exists_statusbarText (font : Font) (screen : Pixmap) {p : Str} (hp : p ≠ []) :
    ∃ d', statusbarText font screen p = some d' ∧ Below (barRow screen) screen d' := by
  obtain ⟨d', n, hrect, hbelow⟩ := exists_pixFill_below screen 0 screen.width statusbarHeight 0
    (le_refl (barRow screen))
  have hrow : barRow screen ≤ barRow d' := hbelow.barRow_eq.ge
  obtain ⟨d'', m, hstring, hbelow'⟩ := exists_screenStringAt font d' 30 hrow hp
  refine ⟨d'', ?_, hbelow.trans hbelow'⟩
  rw [statusbarText, screenRectAt, hrect, Option.bind_some, hstring]
  rfl

/-! ### Flashes -/

/-- The parameters of a flash of the bar. -/
structure FlashParam.OnBar (d : Pixmap) (p : FlashParam) : Prop where
  x0_eq : p.x0 = 0
  y0_eq : p.y0 = barRow d

/-- The parameters of the thread, those it will copy at first, are for the bar. -/
def FlashThread.OnBar (d : Pixmap) (param : FlashParam) : FlashThread → Prop
  | .created => param.OnBar d
  | .saving p _ => p.OnBar d

/-- It has yet to save, or has nothing left to blit. -/
def FlashThread.Settled : FlashThread → Prop
  | .created => True
  | .saving p _ => p.count ≤ 0

/-- What it will blit is what is there. -/
def FlashThread.Restores (d : Pixmap) : FlashThread → Prop
  | .created => True
  | .saving p psave => p.count ≤ 0 ∨ ∃ block n, Pasted block d (-p.y0) (-(p.x0 / 2)) psave n

variable {param param' : FlashParam} {t : FlashThread}

theorem FlashThread.OnBar.of_param (h : t.OnBar d param) (hparam : param'.OnBar d) :
    t.OnBar d param' := by
  cases t with
  | created => exact hparam
  | saving p psave => exact h

theorem FlashThread.Settled.restores (h : t.Settled) (d : Pixmap) : t.Restores d := by
  cases t with
  | created => exact trivial
  | saving p psave => exact .inl h

/-- A step of a flash draws on the bar only. -/
theorem exists_flashStep (hrow : 0 ≤ barRow d) (ht : t.OnBar d param)
    (hbelow : Below (barRow d) d screen) :
    ∃ r, flashStep param screen t = some r ∧ Below (barRow d) d r.1 ∧ r.2.OnBar d param := by
  cases t with
  | created =>
    have hx : 0 ≤ param.x0 := ht.x0_eq.ge
    have hy : 0 ≤ param.y0 := ht.y0_eq ▸ hrow
    obtain ⟨psave, n, hxtract, -⟩ :=
      exists_pixmapXtract (pixbufAlloc param.w param.h) screen hx hy
    refine ⟨(screen, .saving param psave), ?_, hbelow, ht⟩
    rw [flashStep, hxtract]
    rfl
  | saving p psave =>
    rw [flashStep]
    split_ifs
    · obtain ⟨d', n, hblt, hbelow'⟩ := exists_pixBlt_below screen psave p.x0 ht.y0_eq.ge
      rw [hblt]
      exact ⟨_, rfl, hbelow.trans hbelow', ht.x0_eq, ht.y0_eq⟩
    · exact ⟨_, rfl, hbelow, ht⟩

/-- On the screen that it would restore, a step of a flash changes nothing. -/
theorem exists_flashStep_restores (hrow : 0 ≤ barRow d) (ht : t.OnBar d param) (hr : t.Restores d) :
    ∃ t', flashStep param d t = some (d, t') ∧ t'.OnBar d param ∧ t'.Restores d := by
  cases t with
  | created =>
    have hx : 0 ≤ param.x0 := ht.x0_eq.ge
    have hy : 0 ≤ param.y0 := ht.y0_eq ▸ hrow
    obtain ⟨psave, n, hxtract, hsaved⟩ := exists_pixmapXtract (pixbufAlloc param.w param.h) d hx hy
    refine ⟨.saving param psave, ?_, ht, .inr ⟨_, n, hsaved⟩⟩
    rw [flashStep, hxtract]
    rfl
  | saving p psave =>
    rw [flashStep]
    split_ifs with hcount
    · obtain ⟨block, n, hsaved⟩ := hr.resolve_left (not_le.mpr hcount)
      obtain ⟨d', m, hblt, hpasted⟩ := exists_pixBlt d psave p.x0 p.y0
      obtain rfl : d' = d := hsaved.back hpasted
      rw [hblt]
      exact ⟨_, rfl, ⟨ht.x0_eq, ht.y0_eq⟩, .inr ⟨block, n, hsaved⟩⟩
    · exact ⟨_, rfl, ht, hr⟩

theorem exists_flashSteps (hrow : 0 ≤ barRow d) : ∀ (n : ℕ) (s : Pixmap × FlashThread),
    s.2.OnBar d param → Below (barRow d) d s.1 →
    ∃ s', flashSteps param n s = some s' ∧ Below (barRow d) d s'.1
  | 0, s, _, hbelow => ⟨s, rfl, hbelow⟩
  | n + 1, s, ht, hbelow => by
    obtain ⟨r, hstep, hbelow', ht'⟩ := exists_flashStep hrow ht hbelow
    obtain ⟨s', hrest, hs'⟩ := exists_flashSteps hrow n r ht' hbelow'
    refine ⟨s', ?_, hs'⟩
    rw [flashSteps, hstep]
    exact hrest

/-! ### Between showing and hiding -/

/-- The screen is `d` above the bar, and the threads are for the bar. -/
structure BarInv (d : Pixmap) (s : BarState) : Prop where
  below : Below (barRow d) d s.screen
  threads : ∀ t ∈ s.threads, t.OnBar d s.param

/-- The screen is `d`, and the threads would restore it. -/
structure BarGone (d : Pixmap) (s : BarState) : Prop where
  screen_eq : s.screen = d
  threads : ∀ t ∈ s.threads, t.OnBar d s.param ∧ t.Restores d

/-- No thread that has saved has anything left to blit. -/
def BarState.Settled (s : BarState) : Prop := ∀ t ∈ s.threads, t.Settled

variable {s : BarState}

theorem BarInv.flash (h : BarInv d s) (hrow : 0 ≤ barRow d) (count : ℤ) (waitflag : Bool) :
    ∃ s', statusbarFlash s count waitflag = some s' ∧ BarInv d s' := by
  have hparam : FlashParam.OnBar d ⟨count, 0, barRow s.screen, s.screen.width, statusbarHeight⟩ :=
    ⟨rfl, h.below.barRow_eq⟩
  have hthreads := fun t ht => (h.threads t ht).of_param hparam
  rw [statusbarFlash, screenFlashArea]
  cases waitflag with
  | true =>
    obtain ⟨r, hflash, hbelow⟩ := exists_flashSteps hrow (count.toNat + 1) (s.screen, .created)
      (show FlashThread.OnBar d _ .created from hparam) h.below
    rw [if_pos rfl, flashThread, hflash]
    exact ⟨_, rfl, hbelow, hthreads⟩
  | false =>
    refine ⟨_, rfl, h.below, fun t ht => ?_⟩
    rcases List.mem_append.mp ht with ht | ht
    · exact hthreads t ht
    · obtain rfl := List.mem_singleton.mp ht
      exact hparam

theorem BarInv.step (h : BarInv d s) (hrow : 0 ≤ barRow d) (font : Font) {e : BarEvent}
    (he : ∀ p, e = .text p → p ≠ []) : ∃ s', barStep font s e = some s' ∧ BarInv d s' := by
  cases e with
  | text p =>
    obtain ⟨d', htext, hbelow⟩ := exists_statusbarText font s.screen (he p rfl)
    rw [h.below.barRow_eq] at hbelow
    rw [barStep, htext]
    exact ⟨_, rfl, h.below.trans hbelow, h.threads⟩
  | flash count waitflag => exact h.flash hrow count waitflag
  | thread i =>
    rw [barStep]
    cases hi : s.threads[i]? with
    | none => exact ⟨s, rfl, h⟩
    | some t =>
      obtain ⟨r, hstep, hbelow, hr⟩ :=
        exists_flashStep hrow (h.threads t (List.mem_of_getElem? hi)) h.below
      dsimp only
      rw [hstep]
      refine ⟨_, rfl, hbelow, fun t' ht' => ?_⟩
      rcases List.mem_or_eq_of_mem_set ht' with ht' | rfl
      · exact h.threads t' ht'
      · exact hr

theorem BarGone.step (h : BarGone d s) (hrow : 0 ≤ barRow d) (font : Font) (i : ℕ) :
    ∃ s', barStep font s (.thread i) = some s' ∧ BarGone d s' := by
  rw [barStep]
  cases hi : s.threads[i]? with
  | none => exact ⟨s, rfl, h⟩
  | some t =>
    obtain ⟨ht, hr⟩ := h.threads t (List.mem_of_getElem? hi)
    obtain ⟨t', hstep, ht'⟩ := exists_flashStep_restores hrow ht hr
    dsimp only
    rw [h.screen_eq, hstep]
    refine ⟨_, rfl, rfl, fun t'' ht'' => ?_⟩
    rcases List.mem_or_eq_of_mem_set ht'' with ht'' | rfl
    · exact h.threads t'' ht''
    · exact ht'

/-- Showing the bar saves what it covers. -/
theorem exists_statusbarShow (hrow : 0 ≤ barRow d) :
    ∃ bar psav n, statusbarShow d = some (bar, psav) ∧ Below (barRow d) d bar ∧
      Pasted (pixbufAlloc d.width statusbarHeight) d (-barRow d) 0 psav n := by
  obtain ⟨psav, n, hxtract, hsaved⟩ :=
    exists_pixmapXtract (pixbufAlloc d.width statusbarHeight) d (le_refl 0) hrow
  obtain ⟨bar, m, hrect, hbelow⟩ := exists_pixFill_below d 0 d.width statusbarHeight 0
    (le_refl (barRow d))
  refine ⟨bar, psav, n, ?_, hbelow, hsaved⟩
  rw [statusbarShow, screenGetPixmap, hxtract, Option.bind_some, screenRectAt, hrect]
  rfl

/-- Hiding it gives back what it covered, if nothing has been drawn above. -/
theorem statusbarHide_eq {psav : Pixmap} {n : ℤ} (hrow : 0 ≤ barRow d)
    (hbelow : Below (barRow d) d screen)
    (hsaved : Pasted (pixbufAlloc d.width statusbarHeight) d (-barRow d) 0 psav n) :
    statusbarHide screen psav = some d := by
  obtain ⟨d', m, hblt, hpasted⟩ := exists_pixBlt screen psav 0 (barRow screen)
  have heq : d' = d := by
    refine eq_of_byteAt (hpasted.width_eq.trans hbelow.width_eq)
      (hpasted.height_eq.trans hbelow.height_eq) fun r c => ?_
    rw [hpasted.byteAt_eq, hbelow.barRow_eq, hsaved.byteAt_eq, sub_neg_eq_add, sub_add_cancel]
    have hsize : (screen.byteAt r c).isSome = true ↔ (d.byteAt r c).isSome = true := by
      rw [byteAt_isSome, byteAt_isSome, hbelow.height_eq, stride, stride, hbelow.width_eq]
    have hblock : ((pixbufAlloc d.width statusbarHeight).byteAt (r - barRow d) (c - 0 / 2)).isSome =
        true ↔ barRow d ≤ r ∧ (d.byteAt r c).isSome = true := by
      rw [byteAt_isSome, byteAt_isSome]
      simp only [barRow, pixbufAlloc, stride] at hrow ⊢
      omega
    have hcol : c - 0 / 2 - 0 = c := by omega
    rw [hcol]
    cases hd : d.byteAt r c with
    | none =>
      rw [hd] at hsize
      rw [Option.not_isSome_iff_eq_none.mp (hsize.not.mpr nofun)]
      rfl
    | some byte =>
      rw [hd] at hsize hblock
      obtain ⟨shown, hshown⟩ := Option.isSome_iff_exists.mp (hsize.mpr rfl)
      rcases lt_or_ge r (barRow d) with hr | hr
      · have habove : screen.byteAt r c = d.byteAt r c := hbelow.changes (r, c) (not_le.mpr hr)
        rw [Option.not_isSome_iff_eq_none.mp (hblock.not.mpr fun h => not_le.mpr hr h.1), habove, hd]
        rfl
      · obtain ⟨old, hold⟩ := Option.isSome_iff_exists.mp (hblock.mpr ⟨hr, rfl⟩)
        rw [hold, hshown]
        rfl
  rw [statusbarHide, screenPutPixmap, hblt, heq]
  rfl

/-- **The status bar is not destructive.** Whatever is written and flashed between
showing and hiding it, nothing above it changes, and the screen is what it was when it
is hidden. It stays so as long as no flash that saved the bar has blits left then. -/
theorem statusbar_restores (font : Font) (d : Pixmap) (hh : statusbarHeight ≤ d.height)
    (es : List BarEvent) (hes : ∀ p, .text p ∈ es → p ≠ []) :
    ∃ bar psav, statusbarShow d = some (bar, psav) ∧
      (∀ pre, pre <+: es →
        ∃ s, barRun font { screen := bar } pre = some s ∧ Below (barRow d) d s.screen) ∧
      ∃ s, barRun font { screen := bar } es = some s ∧ statusbarHide s.screen psav = some d ∧
        ∀ is, ∃ d', barSession font d es is = some d' ∧ Below (barRow d) d d' ∧ (s.Settled → d' = d) := by
  have hrow : 0 ≤ barRow d := by
    rw [barRow]
    omega
  have hrun : ∀ es s, BarInv d s → (∀ p, .text p ∈ es → p ≠ []) →
      ∃ s', barRun font s es = some s' ∧ BarInv d s' := fun es s h hes =>
    Runs.exists_foldlM es s h fun e he s h => h.step hrow font fun p hp => hes p (hp ▸ he)
  obtain ⟨bar, psav, n, hshow, hbelow, hsaved⟩ := exists_statusbarShow hrow
  have hbar : BarInv d { screen := bar } := ⟨hbelow, List.forall_mem_nil _⟩
  refine ⟨bar, psav, hshow, fun pre hpre => ?_, ?_⟩
  · obtain ⟨s, hs, hinv⟩ := hrun pre _ hbar fun p hp => hes p (hpre.subset hp)
    exact ⟨s, hs, hinv.below⟩
  · obtain ⟨s, hs, hinv⟩ := hrun es _ hbar hes
    have hgone : BarInv d { s with screen := d } := ⟨.refl _ d, hinv.threads⟩
    have hhide := statusbarHide_eq hrow hinv.below hsaved
    refine ⟨s, hs, hhide, fun is => ?_⟩
    obtain ⟨s', hs', hinv'⟩ := hrun (is.map BarEvent.thread) _ hgone fun p hp => by simp at hp
    refine ⟨s'.screen, ?_, hinv'.below, fun hsettled => ?_⟩
    · rw [barSession, hshow, Option.bind_some, hs, Option.bind_some, hhide, Option.bind_some, hs']
      rfl
    have hquiet : BarGone d { s with screen := d } :=
      ⟨rfl, fun t ht => ⟨hinv.threads t ht, (hsettled t ht).restores d⟩⟩
    obtain ⟨s'', hs'', hgone''⟩ :=
      Runs.exists_foldlM (is.map BarEvent.thread) _ hquiet fun e he s h => by
        obtain ⟨i, -, rfl⟩ := List.mem_map.mp he
        exact h.step hrow font i
    obtain rfl : s'' = s' := Option.some.inj (hs''.symm.trans hs')
    exact hgone''.screen_eq

/-- A text and a flash that is waited for. -/
theorem statusbar_restores_success :
    ∃ bar psav s, statusbarShow (pixbufAlloc 600 800) = some (bar, psav) ∧
      barRun (.replicate _ 0) { screen := bar } [.text "Success!".toList, .flash 1 true] = some s ∧
      statusbarHide s.screen psav = some (pixbufAlloc 600 800) := by
  obtain ⟨bar, psav, hshow, -, s, hrun, hhide, -⟩ := statusbar_restores (.replicate _ 0)
    (pixbufAlloc 600 800) (by decide) [.text "Success!".toList, .flash 1 true] (by simp)
  exact ⟨bar, psav, s, hshow, hrun, hhide⟩

/-- A white screen of a byte a row. -/
def narrow : Pixmap := ⟨2, 30, .replicate _ 0xFF⟩

/-- A flash that is not waited for saves the bar, and blits it when it has been hidden. -/
theorem not_statusbar_restores_thread :
    ∃ d', barSession (.replicate _ 0) narrow [.text "Sync".toList, .flash 1 false, .thread 0] [0] =
      some d' ∧ d' ≠ narrow := by
  have hblack : (barSession (.replicate _ 0) narrow [.text "Sync".toList, .flash 1 false, .thread 0]
      [0]).map (·.surf.toList) = some (List.replicate 30 0) := by decide +kernel
  obtain ⟨d', hd', hbytes⟩ := Option.map_eq_some_iff.mp hblack
  refine ⟨d', hd', ?_⟩
  rintro rfl
  exact absurd hbytes (by decide +kernel)

end Legacy
end Launchpad
