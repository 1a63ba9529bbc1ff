/-
# Remote commands

`RceServer::process_message` of `src/system/rce_server.cpp`: a message of the
network switches the server on, switches it off, or is run as a command. The
flag is what remains of the messages before, so that it says when a command may
run is a fact about histories: `Authorised` reads it off the messages alone, and
the server is enabled only if it holds (`authorised_of_enabled`).
-/
import Launchpad.Runs
import Launchpad.Switches
import Launchpad.Units

namespace Launchpad

/-- `RceConfig`, without the address the socket is bound to. -/
structure RceConfig where
  autoEnable : Bool := false
  enableString : Str := []
  disableString : Str := []
  deriving DecidableEq

namespace RceServer

variable (config : RceConfig)

/-- `process_message`: the flag `is_enabled` after it, and the command run. -/
def processMessage (isEnabled : Bool) (message : Str) : Bool × Option Str :=
  if isEnabled = false then
    if config.enableString ≠ [] ∧ message = config.enableString then (true, none)
    else (false, none)
  else if config.disableString ≠ [] ∧ message = config.disableString then (false, none)
  else if message ≠ config.enableString then (true, some message)
  else (true, none)

/-- The flag of the worker loop after the messages. -/
def enabledAfter (messages : List Str) : Bool :=
  Runs.run (Runs.next (processMessage config)) config.autoEnable messages

/-- The message switches a server off. -/
def Disables (message : Str) : Prop :=
  config.disableString ≠ [] ∧ message = config.disableString

/-- No message has switched the server off since it was enabled, at the start or
by the enable string. -/
def Authorised (messages : List Str) : Prop :=
  (config.autoEnable = true ∧ ∀ x ∈ messages, ¬ Disables config x) ∨
    ∃ pre post, messages = pre ++ config.enableString :: post ∧ config.enableString ≠ [] ∧
      ∀ x ∈ post, ¬ Disables config x

variable {config} {messages : List Str} {message command : Str}

theorem authorised_iff_live : Authorised config messages ↔
    Switches.Live (config.autoEnable = true)
      (fun x => config.enableString ≠ [] ∧ x = config.enableString) (Disables config) messages := by
  refine or_congr_right ?_
  constructor
  · rintro ⟨pre, post, hsplit, hne, hnone⟩
    exact ⟨pre, _, post, hsplit, ⟨hne, rfl⟩, hnone⟩
  · rintro ⟨pre, x, post, hsplit, ⟨hne, rfl⟩, hnone⟩
    exact ⟨pre, post, hsplit, hne, hnone⟩

theorem authorised_concat_iff : Authorised config (messages ++ [message]) ↔
    (config.enableString ≠ [] ∧ message = config.enableString) ∨
      Authorised config messages ∧ ¬ Disables config message := by
  rw [authorised_iff_live, authorised_iff_live, Switches.live_concat_iff]

/-- An enabled server is authorised by the messages so far. -/
theorem authorised_of_enabled (h : enabledAfter config messages = true) :
    Authorised config messages := by
  revert h
  refine Runs.run_hist (Runs.next (processMessage config))
    (H := fun messages isEnabled => isEnabled = true → Authorised config messages)
    (fun hauto => Or.inl ⟨hauto, nofun⟩) (fun pre message ih => ?_) messages
  rw [Runs.next, processMessage, authorised_concat_iff]
  split_ifs with hoff hon hdisable hcommand
  · exact fun _ => Or.inl hon
  · intro hfalse
    exact hfalse.elim
  · intro hfalse
    exact hfalse.elim
  · exact fun _ => Or.inr ⟨ih (by simpa using hoff), hdisable⟩
  · exact fun _ => Or.inr ⟨ih (by simpa using hoff), hdisable⟩

/-- A server runs nothing but the message, when it is enabled and the message
is not one of its switches. -/
theorem processMessage_command {isEnabled : Bool}
    (h : (processMessage config isEnabled message).2 = some command) :
    command = message ∧ isEnabled = true ∧ message ≠ config.enableString ∧
      ¬ Disables config message := by
  unfold processMessage at h
  split_ifs at h with hoff hon hdisable hcommand
  refine ⟨(Option.some.inj h).symm, by simpa using hoff, hcommand, hdisable⟩

/-- **Remote commands need authorisation.** After every history `earlier`, a
message is run only if the server was enabled from the start and never switched
off, or enabled by an earlier message and not switched off since; it is neither
of the switches; and without an enable string nothing runs after the first
message that switches off. -/
theorem command_authorised (config : RceConfig) (earlier : List Str) (message command : Str)
    (hrun : (processMessage config (enabledAfter config earlier) message).2 = some command) :
    command = message ∧ Authorised config earlier ∧
      message ≠ config.enableString ∧ ¬ Disables config message ∧
      (config.enableString = [] → ∀ x ∈ earlier, ¬ Disables config x) := by
  obtain ⟨hcommand, henabled, hswitch, hdisable⟩ := processMessage_command hrun
  have hauth := authorised_of_enabled henabled
  refine ⟨hcommand, hauth, hswitch, hdisable, fun hempty => ?_⟩
  rcases hauth with ⟨_, hnone⟩ | ⟨_, _, _, hne, _⟩
  · exact hnone
  · exact absurd hempty hne

/-- The messages of the test: a command before the server is enabled, and one
after. -/
theorem command_authorised_echo :
    Authorised ⟨false, "LP_ENABLE".toList, "LP_DISABLE".toList⟩
      ["reboot".toList, "LP_ENABLE".toList] :=
  (command_authorised ⟨false, "LP_ENABLE".toList, "LP_DISABLE".toList⟩
    ["reboot".toList, "LP_ENABLE".toList] "echo hi".toList "echo hi".toList (by decide +kernel)).2.1

end RceServer
end Launchpad
