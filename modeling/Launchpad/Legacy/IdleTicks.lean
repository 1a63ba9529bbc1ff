/-
# Captured keys and idle ticks

After a second without input the `select` loop sets the length of the capture
buffer to zero, whether or not a capture is under way. The capture goes on: what
is looked up at its end is the keys typed since the last idle tick, the end of
the list of all keys typed since it began (`captured_run`). The two are the same
exactly when no idle tick follows a key of the capture (`typed_eq_iff`), and a
stream has all its captures looked up whole exactly when that holds of each of
them (`lookedUpWhole_iff`).
-/
import Launchpad.Legacy.Refines
import Launchpad.Legacy.Replay

namespace Launchpad
namespace Legacy

variable (cfg : Config)

/-- The key typed by an input, if there is one; the trailer is not typed. -/
def Input.codes : Input → List ℤ
  | .event ev => if ev.type = evKey ∧ ev.value = 1 ∧ ev.code ≠ cfg.trailer then [ev.code] else []
  | _ => []

/-- What the daemon stores for a key. -/
def substituted (code : ℤ) : RawKeyCode := Int16.ofInt (getKeySubstituteCode code)

instance (p : Phase) : Decidable p.Capturing :=
  match h : p.mode with
  | .capturing n => .isTrue ⟨n, h⟩
  | .idle => .isFalse fun ⟨_, hn⟩ => nomatch h.symm.trans hn
  | .armed => .isFalse fun ⟨_, hn⟩ => nomatch h.symm.trans hn

/-- One more input, with the keys typed since the capture began: an idle tick
does not begin another one. -/
def Phase.record (pc : Phase × List ℤ) (i : Input) : Phase × List ℤ :=
  (pc.1.next cfg i, if pc.1.Capturing then pc.2 ++ i.codes cfg else [])

/-- The keys typed since the capture under way began. -/
def presses (is : List Input) : List ℤ := (Runs.run (Phase.record cfg) ({}, []) is).2

/-- No capture of the stream has more than `n` keys typed in it. -/
def PressesWithin (n : ℕ) (is : List Input) : Prop :=
  ∀ pre, pre <+: is → (presses cfg pre).length ≤ n

instance (n : ℕ) (is : List Input) : Decidable (PressesWithin cfg n is) :=
  inferInstanceAs (Decidable (∀ pre, pre <+: is → _))

/-- Every capture that ends is looked up with all its keys, in order; one with
no key is not looked up. -/
def LookedUpWhole (is : List Input) : Prop :=
  ∀ pre i, pre ++ [i] <+: is → i.completes cfg = true →
    ∃ s r, Runs.run? (Hotkeys.feed cfg) {} pre = some s ∧ s.feed cfg i = some r ∧
      (s.hotkeyMode = true →
        lookups r.2 =
          if presses cfg pre = [] then [] else [(presses cfg pre).map substituted])

/-- No idle tick falls between a key of a capture and the end of that capture. -/
def TicksSpare (is : List Input) : Prop :=
  ∀ pre mid i, pre ++ .idle :: (mid ++ [i]) <+: is → (Phase.after cfg pre).Capturing →
    (∀ j ∈ mid, j.completes cfg = false) → i.completes cfg = true → presses cfg pre = []

variable {cfg} {p : Phase} {s : Hotkeys} {i : Input} {is : List Input}

/-! ### The keys of a capture -/

theorem run_record (cfg : Config) (is : List Input) :
    Runs.run (Phase.record cfg) ({}, []) is = (Phase.after cfg is, presses cfg is) := by
  have hfst : (Runs.run (Phase.record cfg) ({}, []) is).1 = Phase.after cfg is := by
    induction is using List.reverseRecOn with
    | nil => rfl
    | append_singleton is i ih =>
      rw [Runs.run_append, Phase.after_concat, ← ih]
      rfl
  exact Prod.ext hfst rfl

theorem presses_concat (cfg : Config) (is : List Input) (i : Input) :
    presses cfg (is ++ [i]) =
      if (Phase.after cfg is).Capturing then presses cfg is ++ i.codes cfg else [] := by
  rw [presses, Runs.run_append, run_record]
  rfl

theorem Input.codes_of_typed (hi : i.typed cfg = true) : ∃ code, i.codes cfg = [code] := by
  obtain ⟨ev, rfl, hev⟩ := Input.exists_of_typed hi
  exact ⟨ev.code, if_pos hev⟩

theorem Input.codes_of_not_typed (hi : ¬ i.typed cfg = true) : i.codes cfg = [] := by
  cases i with
  | event ev =>
    have hev : ¬ (ev.type = evKey ∧ ev.value = 1 ∧ ev.code ≠ cfg.trailer) := by
      simpa [Input.typed] using hi
    exact if_neg hev
  | alarm timerRunning => rfl
  | idle => rfl

/-- The length of the buffer is set back by the end of a capture and by an idle
tick, and by nothing else. -/
theorem Input.ends_iff : i.ends cfg = true ↔ i.completes cfg = true ∨ i = .idle := by
  cases i <;> simp [Input.ends, Input.completes]

theorem Input.not_typed_of_completes (hi : i.completes cfg = true) : ¬ i.typed cfg = true := by
  cases i with
  | event ev => simp_all [Input.completes, Input.typed]
  | alarm timerRunning => simp [Input.typed]
  | idle => simp [Input.typed]

namespace Phase

/-- A capture goes on until it is completed. -/
theorem capturing_next_of_not_completes (hm : p.Capturing) (hi : i.completes cfg = false) :
    (p.next cfg i).Capturing := by
  by_cases hidle : i = .idle
  · obtain ⟨held, mode⟩ := p
    obtain ⟨n, rfl⟩ : ∃ n, mode = .capturing n := hm
    exact hidle ▸ ⟨0, rfl⟩
  · refine capturing_next hm ?_
    by_contra hends
    rcases Input.ends_iff.mp (by simpa using hends) with hc | hc
    · rw [hi] at hc
      cases hc
    · exact hidle hc

theorem not_capturing_of_completes (hm : p.Capturing) (hi : i.completes cfg = true) :
    ¬ (p.next cfg i).Capturing := by
  obtain ⟨held, mode⟩ := p
  obtain ⟨n, rfl⟩ : ∃ n, mode = .capturing n := hm
  cases i with
  | event ev =>
    obtain ⟨hk, h1, ht⟩ : ev.type = evKey ∧ ev.value = 1 ∧ ev.code = cfg.trailer := by
      simpa [Input.completes] using hi
    simp [next, pressed, Capturing, hk, h1, ht]
  | alarm timerRunning =>
    cases timerRunning with
    | true => cases hi
    | false => simp [next, Capturing]
  | idle => cases hi

/-- The count of the buffer is at most that of the capture. -/
theorem typed_le_length (cfg : Config) (is : List Input) :
    (after cfg is).typed ≤ (presses cfg is).length := by
  induction is using List.reverseRecOn with
  | nil => exact le_rfl
  | append_singleton is i ih =>
    rw [after_concat, presses_concat]
    by_cases hm : (after cfg is).Capturing
    · rw [if_pos hm, List.length_append]
      by_cases hi : i.typed cfg = true
      · obtain ⟨code, hcode⟩ := Input.codes_of_typed hi
        rw [typed_next_of_typed hm hi, hcode]
        exact Nat.succ_le_succ ih
      · rw [typed_next_of_not fun h => hi h.2]
        split_ifs <;> omega
    · rw [if_neg hm, typed_next_of_not fun h => hm h.1, typed_outside hm]
      split_ifs <;> exact le_rfl

/-- Until it is completed a capture goes on and only gains keys. -/
theorem capturing_append (hm : (after cfg is).Capturing) (mid : List Input)
    (hno : ∀ j ∈ mid, j.completes cfg = false) :
    (after cfg (is ++ mid)).Capturing ∧ presses cfg is <+: presses cfg (is ++ mid) := by
  induction mid using List.reverseRecOn with
  | nil => simpa using hm
  | append_singleton mid j ih =>
    obtain ⟨hcap, hpre⟩ := ih fun k hk => hno k (List.mem_append_left _ hk)
    have hj : j.completes cfg = false := hno j (by simp)
    rw [← List.append_assoc, after_concat, presses_concat, if_pos hcap]
    exact ⟨capturing_next_of_not_completes hcap hj, hpre.trans (List.prefix_append _ _)⟩

end Phase

/-! ### What an idle tick loses -/

/-- No idle tick of the capture under way follows a key of it. -/
def Spared (cfg : Config) (is : List Input) : Prop :=
  ∀ pre mid, is = pre ++ .idle :: mid → (Phase.after cfg pre).Capturing →
    (∀ j ∈ mid, j.completes cfg = false) → presses cfg pre = []

theorem spared_concat (hm : (Phase.after cfg is).Capturing) (hi : i.completes cfg = false) :
    Spared cfg (is ++ [i]) ↔ Spared cfg is ∧ (i = .idle → presses cfg is = []) := by
  refine ⟨fun h => ⟨fun pre mid his hcap hno => ?_, ?_⟩, fun ⟨h, hidle⟩ pre mid his hcap hno => ?_⟩
  · refine h pre (mid ++ [i]) (by rw [his]; simp) hcap ?_
    simpa [or_imp, forall_and] using ⟨hno, hi⟩
  · rintro rfl
    exact h is [] rfl hm nofun
  · induction mid using List.reverseRecOn with
    | nil =>
      obtain ⟨rfl, hij⟩ := List.append_inj' his rfl
      exact hidle (List.singleton_inj.mp hij)
    | append_singleton mid j _ =>
      obtain ⟨rfl, -⟩ := List.append_inj' (his.trans (List.append_assoc pre (.idle :: mid) [j]).symm) rfl
      exact h pre mid rfl hcap fun k hk => hno k (List.mem_append_left _ hk)

/-- A capture that has just begun has lost nothing. -/
theorem spared_of_begins (hm : ¬ (Phase.after cfg is).Capturing) : Spared cfg (is ++ [i]) := by
  intro pre mid his hcap hno
  induction mid using List.reverseRecOn with
  | nil =>
    obtain ⟨rfl, -⟩ := List.append_inj' his rfl
    exact absurd hcap hm
  | append_singleton mid j _ =>
    obtain ⟨rfl, -⟩ := List.append_inj' (his.trans (List.append_assoc pre (.idle :: mid) [j]).symm) rfl
    have hmid : ∀ k ∈ Input.idle :: mid, k.completes cfg = false := by
      intro k hk
      rcases List.mem_cons.mp hk with rfl | hk
      · rfl
      · exact hno k (List.mem_append_left _ hk)
    exact absurd (Phase.capturing_append hcap _ hmid).1 hm

/-- The buffer of a capture holds all its keys exactly when no idle tick follows
one of them. -/
theorem typed_eq_iff (hcap : (Phase.after cfg is).Capturing) :
    (Phase.after cfg is).typed = (presses cfg is).length ↔ Spared cfg is := by
  induction is using List.reverseRecOn with
  | nil =>
    obtain ⟨n, hn⟩ := hcap
    cases hn
  | append_singleton is i ih =>
    rw [Phase.after_concat] at hcap ⊢
    rw [presses_concat]
    by_cases hm : (Phase.after cfg is).Capturing
    · have hi : i.completes cfg = false := by
        by_contra hc
        exact Phase.not_capturing_of_completes hm (by simpa using hc) hcap
      rw [if_pos hm, spared_concat hm hi, List.length_append, ← ih hm]
      by_cases ht : i.typed cfg = true
      · obtain ⟨code, hcode⟩ := Input.codes_of_typed ht
        have hne : i ≠ .idle := by
          rintro rfl
          cases ht
        rw [Phase.typed_next_of_typed hm ht, hcode]
        simp [hne]
      · rw [Phase.typed_next_of_not fun h => ht h.2, Input.codes_of_not_typed ht]
        by_cases hidle : i = .idle
        · have hle := Phase.typed_le_length cfg is
          rw [if_pos (Input.ends_iff.mpr (.inr hidle)), ← List.length_eq_zero_iff]
          simp only [hidle, forall_const, List.length_nil]
          omega
        · have hends : ¬ i.ends cfg = true := fun h =>
            (Input.ends_iff.mp h).elim (fun hc => by simp [hi] at hc) hidle
          rw [if_neg hends]
          simp [hidle]
    · have ht : ¬ ((Phase.after cfg is).Capturing ∧ i.typed cfg = true) := fun h => hm h.1
      rw [if_neg hm, Phase.typed_next_of_not ht, Phase.typed_outside hm, ite_self]
      exact iff_of_true rfl (spared_of_begins hm)

/-! ### The contents of the buffer -/

namespace Hotkeys

theorem length_captured (h : s.hotSequenceLength ≤ maxSeq) :
    s.captured.length = s.hotSequenceLength := by
  rw [captured, List.length_take, Vector.length_toList]
  exact Nat.min_eq_left h

/-- A key typed in a capture is stored after the others. -/
theorem captured_feed_of_writes {r : Hotkeys × List Call} (hw : s.Writes cfg i)
    (hr : s.feed cfg i = some r) :
    r.1.captured = s.captured ++ (i.codes cfg).map substituted := by
  obtain ⟨hm, hi⟩ := hw
  obtain ⟨ev, rfl, hk, h1, ht⟩ := Input.exists_of_typed hi
  simp only [feed, processInputEvent, keyPressed, hk, h1, ht, hm, Bool.true_eq_false,
    ↓reduceIte] at hr
  split at hr
  · rename_i hroom
    cases hr
    have hcodes : (Input.event ev).codes cfg = [ev.code] := if_pos ⟨hk, h1, ht⟩
    rw [hcodes]
    exact take_set_succ s.hotSequence s.hotSequenceLength hroom (substituted ev.code)
  · cases hr

/-- Any other input leaves the array, and sets the length back or leaves it. -/
theorem captured_feed_of_not_writes {r : Hotkeys × List Call} (hw : ¬ s.Writes cfg i)
    (hr : s.feed cfg i = some r) : r.1.captured = [] ∨ r.1.captured = s.captured := by
  have hend : ∀ s : Hotkeys, (s.endCapture cfg).1.captured = [] := fun s => by
    rw [endCapture_fst]
    exact captured_eq_nil rfl
  cases i with
  | event ev =>
    simp only [feed, processInputEvent] at hr
    split at hr
    · rename_i hk
      split at hr
      · rename_i h1
        unfold keyPressed at hr
        by_cases hm : s.hotkeyMode = false
        · simp only [hm, ↓reduceIte] at hr
          split at hr <;> cases hr <;> exact .inr rfl
        · have ht : ev.code = cfg.trailer := by
            by_contra ht
            exact hw ⟨by simpa using hm, by simp [Input.typed, hk, h1, ht]⟩
          simp only [hm, ht, ↓reduceIte] at hr
          cases hr
          exact .inl (hend _)
      · split at hr
        · cases hr
          unfold keyReleased
          dsimp only
          split <;> exact .inr rfl
        · cases hr
          exact .inr rfl
    · cases hr
      exact .inr rfl
  | alarm timerRunning =>
    simp only [feed, Option.some.injEq] at hr
    subst hr
    unfold alarmHandler
    split
    · exact .inr rfl
    · split
      · exact .inl (hend s)
      · exact .inr rfl
  | idle =>
    simp only [feed, Option.some.injEq] at hr
    subst hr
    exact .inl (captured_eq_nil rfl)

end Hotkeys

/-- The buffer holds the last keys of the capture under way. -/
theorem captured_run (h : PressesWithin cfg maxSeq is) :
    ∃ s, Runs.run? (Hotkeys.feed cfg) {} is = some s ∧ (Phase.after cfg is).Tracks s ∧
      s.captured.length = (Phase.after cfg is).typed ∧
      s.captured <:+ (presses cfg is).map substituted := by
  have hroom : ∀ pre, pre <+: is → (Phase.after cfg pre).typed ≤ maxSeq := fun pre hpre =>
    (Phase.typed_le_length cfg pre).trans (h pre hpre)
  obtain ⟨-, s, hs, htr⟩ := tracks_run is hroom
  have hlen : s.captured.length = (Phase.after cfg is).typed := by
    rw [← htr.length]
    exact Hotkeys.length_captured (htr.length ▸ hroom is List.prefix_rfl)
  refine ⟨s, hs, htr, hlen, ?_⟩
  clear hlen
  induction is using List.reverseRecOn generalizing s with
  | nil =>
    obtain rfl := Option.some.inj hs
    exact List.nil_suffix
  | append_singleton is i ih =>
    have hpre : is <+: is ++ [i] := List.prefix_append _ _
    obtain ⟨-, s', hs', htr'⟩ := tracks_run is fun pre hp => hroom pre (hp.trans hpre)
    have ih := ih (fun pre hp => h pre (hp.trans hpre)) (fun pre hp => hroom pre (hp.trans hpre))
      s' hs' htr'
    rw [Runs.run?_concat _ hs'] at hs
    obtain ⟨r, hr, rfl⟩ := Option.map_eq_some_iff.mp hs
    rw [presses_concat]
    by_cases hm : (Phase.after cfg is).Capturing
    · rw [if_pos hm, List.map_append]
      by_cases ht : i.typed cfg = true
      · obtain ⟨t, ht'⟩ := ih
        rw [Hotkeys.captured_feed_of_writes ⟨htr'.mode.mpr hm, ht⟩ hr, ← ht']
        exact ⟨t, (List.append_assoc _ _ _).symm⟩
      · rw [Input.codes_of_not_typed ht, List.map_nil, List.append_nil]
        rcases Hotkeys.captured_feed_of_not_writes (fun hw => ht hw.2) hr with hnil | hsame
        · rw [hnil]
          exact List.nil_suffix
        · rwa [hsame]
    · have hnil : s'.captured = [] := by
        refine Hotkeys.captured_eq_nil ?_
        rw [htr'.length, Phase.typed_outside hm]
      rcases Hotkeys.captured_feed_of_not_writes (fun hw => hm (htr'.mode.mp hw.1)) hr with h0 | h0
      · rw [h0]
        exact List.nil_suffix
      · rw [h0, hnil]
        exact List.nil_suffix

/-! ### Whole streams -/

/-- A completed capture is looked up with all its keys exactly when the buffer
holds them all. -/
theorem lookups_eq_iff (h : PressesWithin cfg maxSeq is) (hi : i.completes cfg = true) :
    ∃ s r, Runs.run? (Hotkeys.feed cfg) {} is = some s ∧ s.feed cfg i = some r ∧
      (s.hotkeyMode = true ↔ (Phase.after cfg is).Capturing) ∧
      (s.hotkeyMode = true →
        ((lookups r.2 =
          if presses cfg is = [] then [] else [(presses cfg is).map substituted]) ↔
          (Phase.after cfg is).typed = (presses cfg is).length)) := by
  obtain ⟨s, hs, htr, hlen, hsuf⟩ := captured_run h
  have hdef : (s.feed cfg i).isSome := by
    rw [Hotkeys.feed_isSome_iff]
    exact fun hw => absurd hw.2 (Input.not_typed_of_completes hi)
  obtain ⟨r, hr⟩ := Option.isSome_iff_exists.mp hdef
  refine ⟨s, r, hs, hr, htr.mode, fun hm => ?_⟩
  obtain ⟨s', hs'⟩ := Hotkeys.feed_of_completes hm hi
  obtain rfl := Option.some.inj (hr.symm.trans hs')
  have hlook : lookups ([.engageHotkeyTimer 0, .releaseInput] ++ (s.endCapture cfg).2) =
      if s.captured = [] then [] else [s.captured] := Hotkeys.lookups_endCapture s
  rw [hlook, ← hlen]
  constructor
  · intro heq
    by_cases hnil : presses cfg is = []
    · rw [hnil] at hsuf ⊢
      exact congrArg List.length (List.suffix_nil.mp hsuf)
    · rw [if_neg hnil] at heq
      split at heq
      · cases heq
      · rw [List.singleton_inj.mp heq, List.length_map]
  · intro heq
    have hall : s.captured = (presses cfg is).map substituted :=
      hsuf.eq_of_length (by rw [heq, List.length_map])
    rw [hall]
    simp only [List.map_eq_nil_iff]

/-- **When captured keys survive the idle ticks.** On the streams whose captures
fit the buffer, every capture is looked up with all its keys exactly when no idle
tick falls between a key of a capture and its end. -/
theorem lookedUpWhole_iff (h : PressesWithin cfg maxSeq is) :
    LookedUpWhole cfg is ↔ TicksSpare cfg is := by
  have hwithin : ∀ pre i, pre ++ [i] <+: is → PressesWithin cfg maxSeq pre := fun pre i hpre q hq =>
    h q (hq.trans ((List.prefix_append _ _).trans hpre))
  constructor
  · intro hwhole pre mid i hpre hcap hno hi
    have hpre' : (pre ++ .idle :: mid) ++ [i] <+: is := by simpa using hpre
    have hmid : ∀ k ∈ Input.idle :: mid, k.completes cfg = false :=
      List.forall_mem_cons.mpr ⟨rfl, hno⟩
    have hcap' := (Phase.capturing_append hcap _ hmid).1
    obtain ⟨s, r, hs, hr, hlook⟩ := hwhole _ i hpre' hi
    obtain ⟨s', r', hs', hr', hmode, hiff⟩ := lookups_eq_iff (hwithin _ i hpre') hi
    obtain rfl := Option.some.inj (hs.symm.trans hs')
    obtain rfl := Option.some.inj (hr.symm.trans hr')
    have hm : s.hotkeyMode = true := hmode.mpr hcap'
    exact (typed_eq_iff hcap').mp ((hiff hm).mp (hlook hm)) pre mid rfl hcap hno
  · intro hspare pre i hpre hi
    obtain ⟨s, r, hs, hr, hmode, hiff⟩ := lookups_eq_iff (hwithin pre i hpre) hi
    refine ⟨s, r, hs, hr, fun hm => (hiff hm).mpr ((typed_eq_iff (hmode.mp hm)).mpr ?_)⟩
    rintro pre' mid rfl hcap hno
    exact hspare pre' mid i (by simpa using hpre) hcap hno hi

/-- Shift tapped, A typed and the trailer at once: A is looked up. -/
theorem lookedUpWhole_at_once :
    LookedUpWhole ⟨42, 28, 3000, []⟩ [keyDown 42, keyUp 42, keyDown 30, keyUp 30, keyDown 28] := by
  have hwithin : PressesWithin ⟨42, 28, 3000, []⟩ maxSeq
      [keyDown 42, keyUp 42, keyDown 30, keyUp 30, keyDown 28] := by decide
  refine (lookedUpWhole_iff hwithin).mpr fun pre mid i hpre => ?_
  have hidle : Input.idle ∈ [keyDown 42, keyUp 42, keyDown 30, keyUp 30, keyDown 28] :=
    hpre.subset (by simp)
  simp [keyDown, keyUp] at hidle

/-- Shift tapped, A typed, a second of rest within the hot interval, B typed and
the trailer: only B is looked up. -/
theorem not_lookedUpWhole_pause :
    PressesWithin ⟨42, 28, 3000, []⟩ maxSeq
        [keyDown 42, keyUp 42, keyDown 30, keyUp 30, .idle, keyDown 48, keyUp 48, keyDown 28] ∧
      ¬ LookedUpWhole ⟨42, 28, 3000, []⟩
        [keyDown 42, keyUp 42, keyDown 30, keyUp 30, .idle, keyDown 48, keyUp 48, keyDown 28] := by
  constructor
  · decide
  · intro h
    obtain ⟨s, r, hs, hr, hlook⟩ := h
      [keyDown 42, keyUp 42, keyDown 30, keyUp 30, .idle, keyDown 48, keyUp 48] (keyDown 28)
      List.prefix_rfl rfl
    obtain rfl := Option.some.inj hs
    obtain rfl := Option.some.inj hr
    exact absurd (hlook rfl) (by decide)

end Legacy
end Launchpad
