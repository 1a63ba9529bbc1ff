/-
# Key events of several devices

`EvdevInputSource` of `src/hal/evdev_input_source.cpp`: the records each device
has queued, and what a call of `poll_events` makes of them. A call reads the
devices one after the other, up to eight records of each, and keeps the presses
and releases; the timestamps are not looked at.

So successive calls serve the queues in turn (`pollEvents_eq`, `polls_eq`): every
press and release is returned once, those of a device in their order, and
between devices in the order of the turns (`polls_in_turn`), which need not be
the order they were typed in (`not_chronological_fiveway`).
-/
import Launchpad.Runs
import Launchpad.RoundRobin
import Launchpad.SequenceMatcher

namespace Launchpad

open RoundRobin

/-! ### Records and events -/

/-- `input_event`, the time in microseconds. -/
structure InputEvent where
  time : ℕ
  type : UInt16
  code : UInt16
  value : Int32
  deriving DecidableEq

structure InputKeyEvent where
  code : RawKeyCode
  type : KeyEventType
  deriving DecidableEq

/-- What the kernel has queued for a descriptor. -/
abbrev Device := List InputEvent

namespace EvdevInputSource

/-- `EV_KEY`. -/
def evKey : UInt16 := 1

/-- A press or a release: a key, but no autorepeat. -/
def isKey (raw : InputEvent) : Bool := raw.type == evKey && raw.value != 2

/-- The event made of a record. -/
def keyEvent (raw : InputEvent) : InputKeyEvent :=
  ⟨raw.code.toInt16, if raw.value = 1 then .pressed else .released⟩

/-! ### Polling -/

/-- One record of `read_events_from_fd`'s loop. -/
def pushEvent (events : List InputKeyEvent) (raw : InputEvent) : List InputKeyEvent :=
  if raw.type ≠ evKey then events
  else if raw.value = 2 then events
  else events ++ [keyEvent raw]

/-- One `read`: what is left in the queue, and the events with the new ones. -/
def readEventsFromFd (device : Device) (events : List InputKeyEvent) : Device × List InputKeyEvent :=
  (device.drop 8, (device.take 8).foldl pushEvent events)

/-- `POLLIN` is set. -/
def readable (device : Device) : Bool := !device.isEmpty

/-- What `poll` returns; it fails when a signal interrupts it. -/
def poll (devices : List Device) (interrupted : Bool) : ℤ :=
  if interrupted then -1 else devices.countP readable

/-- The loop of `poll_events` over the descriptors. -/
def readDevices : List Device → List InputKeyEvent → List Device × List InputKeyEvent
  | [], events => ([], events)
  | device :: devices, events =>
    let (device, events) :=
      if readable device then readEventsFromFd device events else (device, events)
    let (devices, events) := readDevices devices events
    (device :: devices, events)

def pollEvents (devices : List Device) (interrupted : Bool) : List Device × List InputKeyEvent :=
  if poll devices interrupted ≤ 0 then (devices, []) else readDevices devices []

/-- The events returned by successive calls, some of them interrupted. -/
def polls (devices : List Device) (calls : List Bool) : List InputKeyEvent :=
  (Runs.answers pollEvents devices calls).flatten

/-! ### A call serves one round -/

theorem pushEvent_eq (events : List InputKeyEvent) (raw : InputEvent) :
    pushEvent events raw = events ++ ([raw].filter isKey).map keyEvent := by
  unfold pushEvent
  by_cases htype : raw.type = evKey
  · by_cases hvalue : raw.value = 2
    · rw [if_neg (not_not_intro htype), if_pos hvalue]
      simp [isKey, hvalue]
    · rw [if_neg (not_not_intro htype), if_neg hvalue]
      simp [isKey, htype, hvalue]
  · rw [if_pos htype]
    simp [isKey, htype]

theorem foldl_pushEvent (raws : List InputEvent) (events : List InputKeyEvent) :
    raws.foldl pushEvent events = events ++ (raws.filter isKey).map keyEvent := by
  induction raws generalizing events with
  | nil => simp
  | cons raw raws ih =>
    rw [List.foldl_cons, ih, pushEvent_eq, List.append_assoc, ← List.map_append, ← List.filter_append]
    rfl

/-- A descriptor without records is as good as read. -/
theorem read_eq (device : Device) (events : List InputKeyEvent) :
    (if readable device then readEventsFromFd device events else (device, events)) =
      (device.drop 8, events ++ ((device.take 8).filter isKey).map keyEvent) := by
  cases device with
  | nil => simp [readable]
  | cons raw raws =>
    have hready : readable (raw :: raws) = true := rfl
    rw [if_pos hready, readEventsFromFd, foldl_pushEvent]

theorem readDevices_eq (devices : List Device) (events : List InputKeyEvent) :
    readDevices devices events =
      (afterRound 8 devices, events ++ ((firstRound 8 devices).filter isKey).map keyEvent) := by
  induction devices generalizing events with
  | nil => simp [readDevices, afterRound, firstRound]
  | cons device devices ih =>
    simp only [readDevices, read_eq, ih]
    simp [afterRound, firstRound]

theorem pollEvents_eq (devices : List Device) :
    pollEvents devices false = (afterRound 8 devices, ((firstRound 8 devices).filter isKey).map keyEvent) := by
  unfold pollEvents
  by_cases hready : devices.countP readable = 0
  · have hempty : ∀ device ∈ devices, device = [] := by
      intro device hdevice
      have hread := List.countP_eq_zero.mp hready device hdevice
      simpa [readable] using hread
    have hrest : afterRound 8 devices = devices := by
      unfold afterRound
      rw [List.map_congr_left (g := id), List.map_id]
      intro device hdevice
      rw [hempty device hdevice]
      rfl
    have hround : firstRound 8 devices = [] := by
      rw [firstRound, List.flatMap_eq_nil_iff]
      intro device hdevice
      rw [hempty device hdevice]
      rfl
    rw [if_pos (by simp [poll, hready]), hrest, hround]
    rfl
  · have hpoll : ¬ poll devices false ≤ 0 := by
      show ¬ ((devices.countP readable : ℕ) : ℤ) ≤ 0
      omega
    rw [if_neg hpoll, readDevices_eq, List.nil_append]

/-- The records `n` rounds return. -/
def delivered (devices : List Device) (n : ℕ) : List InputEvent := (rounds 8 n devices).filter isKey

theorem polls_eq (devices : List Device) (calls : List Bool) :
    polls devices calls = (delivered devices (calls.count false)).map keyEvent := by
  unfold polls delivered
  induction calls generalizing devices with
  | nil => rfl
  | cons interrupted calls ih =>
    rw [Runs.answers, List.flatten_cons]
    cases interrupted with
    | true =>
      have hcall : pollEvents devices true = (devices, []) := rfl
      rw [hcall, List.nil_append, ih, List.count_cons_of_ne (by decide)]
    | false =>
      rw [pollEvents_eq, ih, List.count_cons_self, rounds, List.filter_append, List.map_append]

/-! ### The order of delivery -/

/-- The events are those of all presses and releases of the devices, each once,
in the order of their timestamps. -/
def Chronological (devices : List Device) (events : List InputKeyEvent) : Prop :=
  ∃ order : List InputEvent, order.Perm (devices.flatten.filter isKey) ∧
    order.Pairwise (fun x y => x.time ≤ y.time) ∧ events = order.map keyEvent

/-- Two presses or releases are in the order of their timestamps. -/
def NotLater (x y : InputEvent) : Prop := isKey x → isKey y → x.time ≤ y.time

/-- **What polling returns.** Calls that empty the queues return every press and
release once, those of each device in order; all of them are in the order of
their timestamps if and only if no press or release of a turn is later than one
of a turn served after it. -/
theorem polls_in_turn (devices : List Device) (calls : List Bool)
    (hqueues : ∀ device ∈ devices, device.Pairwise fun x y => x.time ≤ y.time)
    (hserved : Served 8 (calls.count false) devices) :
    polls devices calls = (delivered devices (calls.count false)).map keyEvent ∧
      (delivered devices (calls.count false)).Perm (devices.flatten.filter isKey) ∧
      (∀ device ∈ devices, (device.filter isKey).Sublist (delivered devices (calls.count false))) ∧
      ((delivered devices (calls.count false)).Pairwise (fun x y => x.time ≤ y.time) ↔
        InTurn 8 NotLater devices) := by
  refine ⟨polls_eq devices calls, (rounds_perm hserved).filter _, ?_, ?_⟩
  · intro device hdevice
    exact (sublist_rounds hserved hdevice).filter _
  · unfold delivered
    rw [List.pairwise_filter]
    refine pairwise_rounds_iff (r := NotLater) (fun device hdevice => ?_) hserved
    exact (hqueues device hdevice).imp fun hle _ _ => hle

/-- Shift is tapped on the keyboard and a page turned by the five-way; the first
call is interrupted. -/
theorem polls_in_turn_typed :
    (delivered [[⟨1, 1, 42, 1⟩, ⟨1, 0, 0, 0⟩, ⟨2, 1, 42, 0⟩], [⟨3, 1, 122, 1⟩], []] 1).Perm
      [⟨1, 1, 42, 1⟩, ⟨2, 1, 42, 0⟩, ⟨3, 1, 122, 1⟩] :=
  (polls_in_turn [[⟨1, 1, 42, 1⟩, ⟨1, 0, 0, 0⟩, ⟨2, 1, 42, 0⟩], [⟨3, 1, 122, 1⟩], []] [true, false]
    (by decide) (by unfold Served; decide)).2.1

/-- Turns in order are enough for the events to be. -/
theorem chronological_of_inTurn {devices : List Device} {calls : List Bool}
    (hqueues : ∀ device ∈ devices, device.Pairwise fun x y => x.time ≤ y.time)
    (hserved : Served 8 (calls.count false) devices) (hturn : InTurn 8 NotLater devices) :
    Chronological devices (polls devices calls) := by
  obtain ⟨hevents, hperm, -, hiff⟩ := polls_in_turn devices calls hqueues hserved
  exact ⟨_, hperm, hiff.mpr hturn, hevents⟩

/-- The five-way is pressed, then Q, before the devices are polled: Q comes first. -/
theorem not_chronological_fiveway :
    ¬ ∀ (devices : List Device) (calls : List Bool),
      (∀ device ∈ devices, device.Pairwise fun x y => x.time ≤ y.time) →
      Served 8 (calls.count false) devices → Chronological devices (polls devices calls) := by
  intro hall
  obtain ⟨order, hperm, hsorted, hevents⟩ :=
    hall [[⟨2, 1, 16, 1⟩], [⟨1, 1, 92, 1⟩], []] [false] (by decide) (by unfold Served; decide)
  have hpolls : polls [[⟨2, 1, 16, 1⟩], [⟨1, 1, 92, 1⟩], []] [false] =
      [⟨16, .pressed⟩, ⟨92, .pressed⟩] := by decide
  have hkeys : (([[⟨2, 1, 16, 1⟩], [⟨1, 1, 92, 1⟩], []] : List Device).flatten.filter isKey) =
      [⟨2, 1, 16, 1⟩, ⟨1, 1, 92, 1⟩] := by decide
  rw [hpolls] at hevents
  rw [hkeys] at hperm
  have hmem : ∀ x ∈ order, x = ⟨2, 1, 16, 1⟩ ∨ x = ⟨1, 1, 92, 1⟩ := by
    intro x hx
    simpa using hperm.mem_iff.mp hx
  obtain ⟨x, y, rfl⟩ := List.length_eq_two.mp hperm.length_eq
  have hle : x.time ≤ y.time := (List.pairwise_cons.mp hsorted).1 y List.mem_cons_self
  rcases hmem x (by simp) with rfl | rfl
  · rcases hmem y (by simp) with rfl | rfl
    · exact absurd hevents (by decide)
    · exact absurd hle (by decide)
  · have hcode := congrArg (List.head? ∘ List.map InputKeyEvent.code) hevents
    exact absurd hcode (by simp [keyEvent])

end EvdevInputSource
end Launchpad
