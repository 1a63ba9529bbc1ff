/-
# Remote commands in the legacy program

`src/rce.c`: a thread runs the datagrams it receives as commands while it is
enabled. Two strings switch it on and off, compared with a datagram up to its first
zero byte. An empty enable string is meant never to switch on, and `rce_start` does
not start the thread if nothing could; but a datagram that begins with a zero byte
equals it, so after the disable string such a datagram switches on again.
Commands run without authorisation exactly that way (`commands_authorised_iff`).
-/
import Launchpad.CStrings
import Launchpad.Runs
import Launchpad.Switches
import Launchpad.Legacy.IniFile

namespace Launchpad
namespace Legacy

open CStrings

/-- `MAXLEN`. -/
def maxLen : ℕ := 1024

/-- The static variables that a datagram is checked against. -/
structure RceSettings where
  autoenable : Bool
  enableString : Vector Char 64
  disableString : Vector Char 64

/-- What `recvfrom` returns with a positive number. -/
structure Datagram where
  bytes : Str
  received : 0 < bytes.length
  length_lt : bytes.length < maxLen

namespace RceSettings

/-- `set_rce_defaults`. -/
def defaults (s : RceSettings) : RceSettings where
  autoenable := false
  enableString := s.enableString.set 0 nul
  disableString := s.disableString.set 0 nul

/-- `set_rce_autoenable`. -/
def setAutoenable (s : RceSettings) (p : Str) : RceSettings :=
  { s with autoenable := strcasecmp p "true".toList || strcasecmp p "yes".toList || p = "1".toList }

/-- `set_rce_enable_string`. -/
def setEnableString (s : RceSettings) (p : Str) : RceSettings :=
  { s with enableString := strncpy s.enableString p 63 }

/-- `set_rce_disable_string`. -/
def setDisableString (s : RceSettings) (p : Str) : RceSettings :=
  { s with disableString := strncpy s.disableString p 63 }

/-- The test of `rce_start`. -/
def Starts (s : RceSettings) : Prop := s.autoenable = true ∨ text s.enableString ≠ []

end RceSettings

namespace Datagram

/-- What `strcmp` compares. -/
def text (m : Datagram) : Str := m.bytes.takeWhile (· ≠ nul)

/-- What `system` gets: the command, to be run in the background. -/
def command (m : Datagram) : Str :=
  (if m.bytes.getLast? ≠ some '&' then m.bytes ++ ['&'] else m.bytes).takeWhile (· ≠ nul)

end Datagram

namespace RceSettings

variable (s : RceSettings)

/-- A round of the loop of `rce_process`: `is_enabled` after the datagram, and the
command that is run. -/
def processDatagram (isEnabled : Bool) (m : Datagram) : Bool × Option Str :=
  if isEnabled then
    if m.text = text s.disableString then (false, none)
    else if m.text ≠ text s.enableString then (true, some m.command)
    else (true, none)
  else if m.text = text s.enableString then (true, none)
  else (false, none)

/-- `is_enabled` after the datagrams. -/
def enabledAfter (ms : List Datagram) : Bool := Runs.run (Runs.next s.processDatagram) s.autoenable ms

/-- The commands of `rce_process`, one at most for each datagram. -/
def rceProcess (ms : List Datagram) : List (Option Str) :=
  Runs.answers s.processDatagram s.autoenable ms

/-- The datagram is the enable string, which is not empty. -/
def Enables (m : Datagram) : Prop := text s.enableString ≠ [] ∧ m.text = text s.enableString

/-- The datagram is the disable string, which is not empty. -/
def Disables (m : Datagram) : Prop := text s.disableString ≠ [] ∧ m.text = text s.disableString

/-- Enabled at the start or by the enable string, and not disabled since. -/
def Authorised (ms : List Datagram) : Prop :=
  Switches.Live (s.autoenable = true) s.Enables s.Disables ms

/-- A datagram is run only if those before it authorise it. -/
def CommandsAuthorised (ms : List Datagram) : Prop :=
  ∀ pre m, pre ++ [m] <+: ms → (s.processDatagram (s.enabledAfter pre) m).2.isSome = true →
    s.Authorised pre

/-- Disabled, and an empty datagram since. -/
def Reenabled (ms : List Datagram) : Prop :=
  (∃ m ∈ ms, s.Disables m) ∧
    ∃ pre m post, ms = pre ++ m :: post ∧ m.text = [] ∧ ∀ x ∈ post, ¬ s.Disables x

/-- Nothing but empty datagrams and the disable string arrives where an empty
datagram has come since the last disable string. -/
def NothingReenabled (ms : List Datagram) : Prop :=
  ∀ pre m, pre ++ [m] <+: ms → s.Reenabled pre → m.text = [] ∨ s.Disables m

variable {s} {ms : List Datagram} {m : Datagram}

/-! ### The strings -/

/-- Both buffers end in a zero byte, so comparing stays inside them. -/
def Terminated (s : RceSettings) : Prop := s.enableString[63] = nul ∧ s.disableString[63] = nul

theorem strncpy_terminated {b : Vector Char 64} (h : b[63] = nul) (p : Str) :
    (strncpy b p 63)[63] = nul := by
  simp [strncpy, h]

theorem Terminated.defaults (h : s.Terminated) : s.defaults.Terminated := by
  simpa [Terminated, RceSettings.defaults] using h

theorem Terminated.setAutoenable (h : s.Terminated) (p : Str) : (s.setAutoenable p).Terminated := h

theorem Terminated.setEnableString (h : s.Terminated) (p : Str) :
    (s.setEnableString p).Terminated := by
  rw [Terminated, RceSettings.setEnableString]
  exact ⟨strncpy_terminated h.1 p, h.2⟩

theorem Terminated.setDisableString (h : s.Terminated) (p : Str) :
    (s.setDisableString p).Terminated := by
  rw [Terminated, RceSettings.setDisableString]
  exact ⟨h.1, strncpy_terminated h.2 p⟩

/-! ### One datagram -/

theorem enabledAfter_concat (ms : List Datagram) (m : Datagram) :
    s.enabledAfter (ms ++ [m]) = true ↔
      s.enabledAfter ms = true ∧ m.text ≠ text s.disableString ∨
        s.enabledAfter ms = false ∧ m.text = text s.enableString := by
  rw [enabledAfter, Runs.run_append]
  show (s.processDatagram (s.enabledAfter ms) m).1 = true ↔ _
  unfold processDatagram
  cases s.enabledAfter ms with
  | true => split_ifs <;> simp_all
  | false => split_ifs <;> simp_all

/-- A command is a datagram that is neither string, while enabled. -/
theorem processDatagram_isSome {isEnabled : Bool} :
    (s.processDatagram isEnabled m).2.isSome = true ↔
      isEnabled = true ∧ m.text ≠ text s.disableString ∧ m.text ≠ text s.enableString := by
  unfold processDatagram
  split_ifs <;> simp_all

/-! ### Histories -/

/-- With an enable string, being enabled is authorised. -/
theorem authorised_of_enabledAfter (hne : text s.enableString ≠ []) (ms : List Datagram) :
    s.enabledAfter ms = true → s.Authorised ms := by
  induction ms using List.reverseRecOn with
  | nil => exact Switches.live_nil.mpr
  | append_singleton ms m ih =>
    rw [enabledAfter_concat, Authorised, Switches.live_concat_iff]
    rintro (⟨hon, hm⟩ | ⟨-, hm⟩)
    · exact .inr ⟨ih hon, fun hoff => hm hoff.2⟩
    · exact .inl ⟨hne, hm⟩

/-- Without one, every empty datagram enables. -/
theorem enabledAfter_iff (hempty : text s.enableString = []) (hne : text s.disableString ≠ [])
    (ms : List Datagram) : s.enabledAfter ms = true ↔
      Switches.Live (s.autoenable = true) (fun m => m.text = []) s.Disables ms := by
  induction ms using List.reverseRecOn with
  | nil => exact Switches.live_nil.symm
  | append_singleton ms m ih =>
    rw [enabledAfter_concat, Switches.live_concat_iff, ← ih, hempty]
    have hoff : s.Disables m ↔ m.text = text s.disableString := and_iff_right hne
    rw [hoff]
    by_cases hm : m.text = []
    · have hdiff : m.text ≠ text s.disableString := fun heq => hne (heq ▸ hm)
      refine iff_of_true ?_ (.inl hm)
      cases s.enabledAfter ms with
      | true => exact .inl ⟨rfl, hdiff⟩
      | false => exact .inr ⟨rfl, hm⟩
    · simp [hm]

/-- **When remote commands need authorisation.** Whatever arrives, if there is an
enable string; without one, exactly when nothing but empty datagrams and the disable
string arrives after an empty datagram that came after the disable string. -/
theorem commands_authorised_iff (hstart : s.Starts) (ms : List Datagram) :
    s.CommandsAuthorised ms ↔ text s.enableString ≠ [] ∨ s.NothingReenabled ms := by
  by_cases hempty : text s.enableString = []
  · have hauto : s.autoenable = true := hstart.resolve_right (not_not.mpr hempty)
    have hnever : ∀ m, ¬ s.Enables m := fun m hm => hm.1 hempty
    rw [or_iff_right (not_not.mpr hempty)]
    constructor
    · intro hall pre m hpre hre
      obtain ⟨⟨d, hd, hoff⟩, hblank⟩ := hre
      by_contra hcommand
      rw [not_or] at hcommand
      have hon : s.enabledAfter pre = true :=
        (enabledAfter_iff hempty hoff.1 pre).mpr ((Switches.live_of_off ⟨d, hd, hoff⟩).mpr hblank)
      have hrun : (s.processDatagram (s.enabledAfter pre) m).2.isSome = true := by
        rw [processDatagram_isSome, hempty]
        exact ⟨hon, fun heq => hcommand.2 ⟨hoff.1, heq⟩, hcommand.1⟩
      have hauth := hall pre m hpre hrun
      exact ((Switches.live_of_never hnever).mp hauth).2 d hd hoff
    · intro hnone pre m hpre hrun
      obtain ⟨hon, hdisable, henable⟩ := processDatagram_isSome.mp hrun
      refine (Switches.live_of_never hnever).mpr ⟨hauto, fun d hd hoff => ?_⟩
      have hblank := (Switches.live_of_off ⟨d, hd, hoff⟩).mp ((enabledAfter_iff hempty hoff.1 pre).mp hon)
      rcases hnone pre m hpre ⟨⟨d, hd, hoff⟩, hblank⟩ with hm | hm
      · exact henable (hm.trans hempty.symm)
      · exact hdisable hm.2
  · refine iff_of_true (fun pre m _ hrun => ?_) (.inl hempty)
    exact authorised_of_enabledAfter hempty pre (processDatagram_isSome.mp hrun).1

/-- Enabled at the start, with a string to disable and none to enable. -/
def disableOnly : RceSettings :=
  (((⟨false, .replicate 64 nul, .replicate 64 nul⟩ : RceSettings).defaults.setAutoenable
    "yes".toList).setDisableString "LP_DISABLE".toList)

def sync : Datagram := ⟨"sync".toList, by decide, by decide⟩

def disable : Datagram := ⟨"LP_DISABLE".toList, by decide, by decide⟩

/-- Commands before the disable string. -/
theorem commands_authorised_sync : disableOnly.CommandsAuthorised [sync, sync, disable] := by
  have hempty : text disableOnly.enableString = [] := by decide +kernel
  refine (commands_authorised_iff (.inl (by decide +kernel)) _).mpr (.inr fun pre m hpre hre => ?_)
  obtain ⟨-, pre', z, post, rfl, hz, -⟩ := hre
  have hall : ∀ x ∈ [sync, sync, disable], x.text ≠ [] := by decide +kernel
  exact absurd hz (hall z (hpre.subset (by simp)))

/-- After the disable string a zero byte, and the next datagram is run. -/
theorem not_commands_authorised_zero :
    disableOnly.Starts ∧ ¬ disableOnly.CommandsAuthorised [disable, ⟨[nul], by decide, by decide⟩, sync] ∧
      disableOnly.rceProcess [disable, ⟨[nul], by decide, by decide⟩, sync] =
        [none, none, some "sync&".toList] := by
  have hrun : disableOnly.rceProcess [disable, ⟨[nul], by decide, by decide⟩, sync] =
      [none, none, some "sync&".toList] := by decide +kernel
  refine ⟨.inl (by decide +kernel), fun hall => ?_, hrun⟩
  have hauth := hall [disable, ⟨[nul], by decide, by decide⟩] sync List.prefix_rfl (by decide +kernel)
  have hnever : ∀ m, ¬ disableOnly.Enables m := fun m hm => hm.1 (by decide +kernel)
  have hnone := ((Switches.live_of_never hnever).mp hauth).2 disable List.mem_cons_self
  exact hnone ⟨by decide +kernel, by decide +kernel⟩

end RceSettings

end Legacy
end Launchpad
