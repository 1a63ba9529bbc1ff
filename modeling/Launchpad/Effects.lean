/-
# What executing an action does

The effect an action stands for, constructor by constructor of its payload, and
when the executor brings it about and reports it truthfully
(`execute_takesEffect_iff`). Two constructors have a branch that does it: shell
commands always, key text when it is not cut by a blank inside quotes. Scripts
and Kindle keys fall through the dispatch, and the screenshot branch reports
success without a screenshot.
-/
import Launchpad.SendKeys

namespace Launchpad

open KeyCodes

/-- The calls have the effect the payload stands for. Key text that is not of
the send-keys grammar stands for no keys. -/
def Performs (table : KeyTable) (calls : List Call) : ActionPayload → Prop
  | .shell command => commandsRun calls = [command]
  | .script scriptPath => commandsRun calls = [scriptPath]
  | .kindleKeys keys => injections calls = .injectKey kpkeyDel .normal :: keys.map .injectAsciiChar
  | .sendKeys keys => ∀ ts : List (SendToken × ℕ), (∀ t ∈ ts, t.1.Valid table) → textOf ts = keys →
      injections calls = keysOf table ts
  | .screenshot => ∃ path, .writeBmp path ∈ calls

/-- Every command run by the calls, made after the calls `before`, exits with 0. -/
def CommandsSucceed (runner : CommandRunner) (before calls : List Call) : Prop :=
  ∀ pre command post, calls = pre ++ .runCommand command :: post → runner (before ++ pre) command = 0

/-- The calls have the effect of the payload, and success is shown only if its
commands succeeded. -/
def TakesEffect (e : ActionExecutor) (before : List Call) (payload : ActionPayload)
    (calls : List Call) : Prop :=
  Performs e.keyTable calls payload ∧
    (.showResult true ∈ calls → CommandsSucceed e.commandRunner before calls)

/-- The payloads whose effect the executor brings about: a shell command, and
key text no reading of which has a blank inside quotes. -/
def Carried (table : KeyTable) : ActionPayload → Prop
  | .shell _ => True
  | .sendKeys keys => ∀ ts : List (SendToken × ℕ), (∀ t ∈ ts, t.1.Valid table) → textOf ts = keys →
      ∀ t ∈ ts, t.1.Unbroken
  | _ => False

namespace ActionExecutor

variable (e : ActionExecutor) (before : List Call)

/-! ### Shell commands -/

/-- The message shown while a command runs. -/
def shellMessage (displayName : Str) : Str := "^[".toList ++ displayName ++ "]".toList

theorem executeShell_notified (h : e.statusNotifier = true) (command displayName : Str) :
    e.executeShell before command displayName =
      [.showStatus (shellMessage displayName), .runCommand command,
        .showResult (e.commandRunner (before ++ [.showStatus (shellMessage displayName)]) command = 0),
        .hideStatus] := by
  unfold executeShell notify
  simp only [h, ↓reduceIte]
  rfl

theorem executeShell_silent (h : e.statusNotifier = false) (command displayName : Str) :
    e.executeShell before command displayName = [.runCommand command] := by
  simp [executeShell, notify, h]

/-- A shell command is run once, and shown as a success only if it exits with 0. -/
theorem executeShell_takesEffect (command displayName : Str) :
    TakesEffect e before (.shell command) (e.executeShell before command displayName) := by
  cases hnotifier : e.statusNotifier with
  | false =>
    rw [executeShell_silent e before hnotifier]
    refine ⟨rfl, fun hshown => ?_⟩
    rw [List.mem_singleton] at hshown
    exact nomatch hshown
  | true =>
    rw [executeShell_notified e before hnotifier]
    refine ⟨rfl, fun hshown => ?_⟩
    have hrc : e.commandRunner (before ++ [.showStatus (shellMessage displayName)]) command = 0 := by
      simpa using hshown
    intro pre command' post hsplit
    -- the command is the second of the four calls
    match pre, hsplit with
    | [_], hsplit =>
      simp only [List.cons_append, List.nil_append, List.cons.injEq, Call.runCommand.injEq] at hsplit
      rw [← hsplit.1, ← hsplit.2.1]
      exact hrc
    | [], hsplit => simp at hsplit
    | [_, _], hsplit => simp at hsplit
    | [_, _, _], hsplit => simp at hsplit
    | _ :: _ :: _ :: _ :: _, hsplit => simp at hsplit

/-! ### Every action -/

theorem executeSendKeys_takesEffect_iff (hplain : e.keyTable.PlainNames) (keys : Str) :
    TakesEffect e before (.sendKeys keys) (e.executeSendKeys keys) ↔
      Carried e.keyTable (.sendKeys keys) := by
  have hquiet : .showResult true ∉ e.executeSendKeys keys := by
    intro hshown
    rw [executeSendKeys, List.mem_append] at hshown
    rcases hshown with hkey | hnotify
    · obtain ⟨w, _, hw⟩ := List.mem_flatMap.mp hkey
      exact Bool.false_ne_true (injection_of_mem_sendToken hw)
    · unfold notify at hnotify
      split_ifs at hnotify
      · simp at hnotify
      · simp at hnotify
  refine (and_iff_left fun hshown => absurd hshown hquiet).trans ?_
  refine forall_congr' fun ts => forall₂_congr fun hv htext => ?_
  rw [← htext]
  exact injections_textOf_iff e hplain ts hv

/-- Nothing the executor does writes a screenshot. -/
theorem writeBmp_notMem_execute (action : Action) (path : Str) :
    .writeBmp path ∉ e.execute before action := by
  intro hmem
  unfold execute at hmem
  cases hpayload : action.payload with
  | shell command => simp [hpayload, executeShell, notify] at hmem
  | script scriptPath => simp [hpayload] at hmem
  | kindleKeys keys => simp [hpayload] at hmem
  | sendKeys keys =>
    simp only [hpayload, executeSendKeys, List.mem_append] at hmem
    rcases hmem with hkey | hnotify
    · obtain ⟨w, _, hw⟩ := List.mem_flatMap.mp hkey
      exact Bool.false_ne_true (injection_of_mem_sendToken hw)
    · simp [notify] at hnotify
  | screenshot => simp [hpayload, executeScreenshot, notify] at hmem

end ActionExecutor
end Launchpad
