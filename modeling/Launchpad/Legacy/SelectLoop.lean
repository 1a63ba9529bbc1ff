/-
# The select loop of the legacy daemon

The loop of `main` in `src/main.c`: a round waits for the event files, reads up to two
records of each that is ready, keyboard, five-way and volume keys in this order, and
processes those whose codes the file is meant to deliver; when a second goes by with nothing
to read, the counters are reset.

`read` answers a number of bytes or -1, which the loop compares with the unsigned size of a
record: -1 is not less, so after a failed read the two records of the buffer, left from
earlier reads, are processed again. `delivered_iff` says that this is all that can go wrong:
the records of a file are processed once each and in order, if and only if no failed read
finds a record in the buffer that the file delivers. A backlog is served in turns of two
records a file (`backlog_in_turn`).
-/
import Launchpad.RoundRobin
import Launchpad.Hardware
import Launchpad.Legacy.Hotkeys

namespace Launchpad
namespace Legacy

open KeyCodes

/-- The event files, in the order they are read. -/
inductive EventFile
  | kbd
  | fw
  | k3Vol
  deriving DecidableEq

namespace EventFile

def all : List EventFile := [.kbd, .fw, .k3Vol]

def fwCodes : List ℤ :=
  [kpkeyFwPress, kpkeyFwUp, kpkeyFwRight, kpkeyFwDown, kpkeyFwLeft, k3keyFwUp, k3keyFwDown,
    k3keyFwPress].map Int16.toInt

def volCodes : List ℤ := [k3keyVplus, k3keyVminus].map Int16.toInt

/-- The `switch` of the file. -/
def accepts (f : EventFile) (ev : InputEvent) : Bool :=
  match f with
  | .kbd => ev.code ∉ fwCodes
  | .fw => ev.code ∈ fwCodes
  | .k3Vol => ev.code ∈ volCodes

end EventFile

/-- An event file: whether it is open, what the kernel has queued for it, and the two records
of its buffer. -/
structure Channel where
  isOpen : Bool
  pending : List InputEvent := []
  fst : InputEvent
  snd : InputEvent

/-- `sizeof(struct input_event)`. -/
def sizeofInputEvent : ℤ := 16

/-- `numBytes < sizeof(struct input_event)`, a comparison of unsigned numbers. -/
def tooShort (numBytes : ℤ) : Bool := numBytes % 4294967296 < sizeofInputEvent

namespace Channel

/-- `read` of two records. There is nothing to read from an empty queue. -/
def read (c : Channel) (fails : Bool) : Channel × ℤ :=
  if fails then (c, -1)
  else match c.pending with
    | [] => (c, -1)
    | [ev] => ({ c with pending := [], fst := ev }, sizeofInputEvent)
    | ev :: ev' :: rest => ({ c with pending := rest, fst := ev, snd := ev' }, 2 * sizeofInputEvent)

/-- The loop over the records of the buffer. -/
def process (f : EventFile) : List InputEvent → ℤ → List InputEvent
  | [], _ => []
  | ev :: evs, numBytes =>
    if tooShort numBytes then []
    else (if f.accepts ev then [ev] else []) ++ process f evs (numBytes - sizeofInputEvent)

/-- What a round does with a file: `ready` is whether `select` says that it is, and then
whether `read` fails. -/
def serve (f : EventFile) (c : Channel) (ready : Option Bool) : Channel × List InputEvent :=
  if c.isOpen = false then (c, [])
  else match ready with
    | none => (c, [])
    | some fails =>
      let (c, numBytes) := c.read fails
      (c, process f [c.fst, c.snd] numBytes)

end Channel

/-- What `select` answers. -/
inductive Selected
  | ready (fails : EventFile → Option Bool)
  | timeout
  | interrupted

/-- A round: what the kernel queues before it, and what `select` answers. -/
structure SelectRound where
  arrivals : EventFile → List InputEvent := fun _ => []
  selected : Selected

/-- What the loop feeds to the machine. -/
inductive Fed
  | event (f : EventFile) (ev : InputEvent)
  | idle

/-- The event files. -/
abbrev SelectLoop := EventFile → Channel

namespace SelectLoop

def arrive (l : SelectLoop) (arrivals : EventFile → List InputEvent) : SelectLoop :=
  fun f => { l f with pending := (l f).pending ++ arrivals f }

/-- A round of the loop, and what it feeds. -/
def round (l : SelectLoop) (r : SelectRound) : SelectLoop × List Fed :=
  let l := l.arrive r.arrivals
  match r.selected with
  | .ready fails =>
    (fun f => ((l f).serve f (fails f)).1,
      EventFile.all.flatMap fun f => ((l f).serve f (fails f)).2.map (.event f))
  | .timeout => (l, [.idle])
  | .interrupted => (l, [])

/-- The loop after a run. -/
abbrev after (l : SelectLoop) (rounds : List SelectRound) : SelectLoop := Runs.run (Runs.next round) l rounds

/-- What a run feeds. -/
def fed (l : SelectLoop) (rounds : List SelectRound) : List Fed := (Runs.answers round l rounds).flatten

end SelectLoop

/-- The events of a file among what is fed. -/
def delivered (f : EventFile) (feds : List Fed) : List InputEvent :=
  feds.filterMap fun
    | .event f' ev => if f' = f then some ev else none
    | .idle => none

/-- The records that a run queues for a file. -/
def arrived (f : EventFile) (rounds : List SelectRound) : List InputEvent := rounds.flatMap (·.arrivals f)

theorem arrived_cons (f : EventFile) (r : SelectRound) (rounds : List SelectRound) :
    arrived f (r :: rounds) = r.arrivals f ++ arrived f rounds := rfl

/-! ### One file -/

namespace Channel

variable (f : EventFile) (c : Channel)

/-- What is processed again: the buffer, when a read fails. -/
def replayed (ready : Option Bool) : List InputEvent :=
  match ready with
  | some fails =>
    if c.isOpen = true ∧ (fails = true ∨ c.pending = []) then [c.fst, c.snd].filter f.accepts else []
  | none => []

theorem process_cons (ev : InputEvent) (evs : List InputEvent) {numBytes : ℤ}
    (h : tooShort numBytes = false) :
    process f (ev :: evs) numBytes =
      [ev].filter f.accepts ++ process f evs (numBytes - sizeofInputEvent) := by
  rw [process, if_neg (by rw [h]; exact Bool.false_ne_true), List.filter_cons]
  split_ifs <;> rfl

theorem process_short (evs : List InputEvent) {numBytes : ℤ} (h : tooShort numBytes = true) :
    process f evs numBytes = [] := by
  cases evs with
  | nil => rfl
  | cons ev evs => rw [process, if_pos h]

/-- A failed read is taken for two records. -/
theorem process_failed (ev ev' : InputEvent) :
    process f [ev, ev'] (-1) = [ev, ev'].filter f.accepts := by
  rw [process_cons f ev [ev'] (by decide), process_cons f ev' [] (by decide), process,
    List.append_nil, ← List.filter_append]
  rfl

theorem process_one (ev ev' : InputEvent) :
    process f [ev, ev'] sizeofInputEvent = [ev].filter f.accepts := by
  rw [process_cons f ev [ev'] (by decide), process_short f [ev'] (by decide), List.append_nil]

theorem process_two (ev ev' : InputEvent) :
    process f [ev, ev'] (2 * sizeofInputEvent) = [ev, ev'].filter f.accepts := by
  rw [process_cons f ev [ev'] (by decide), process_cons f ev' [] (by decide), process,
    List.append_nil, ← List.filter_append]
  rfl

/-- A read that does not fail takes two records off the queue and processes them. -/
theorem serve_read (hopen : c.isOpen = true) (hne : c.pending ≠ []) :
    (c.serve f (some false)).2 = (c.pending.take 2).filter f.accepts ∧
      (c.serve f (some false)).1.pending = c.pending.drop 2 ∧
      (c.serve f (some false)).1.isOpen = true := by
  unfold serve read
  rw [if_neg (by rw [hopen]; exact Bool.false_ne_true.symm)]
  rcases hpending : c.pending with - | ⟨ev, - | ⟨ev', rest⟩⟩
  · exact absurd hpending hne
  · exact ⟨process_one f ev c.snd, rfl, hopen⟩
  · exact ⟨process_two f ev ev', rfl, hopen⟩

/-- **What a round does with a file.** Either its buffer is processed again, and the queue
stays, or what it processes is what it takes off the queue. -/
theorem serve_cases (ready : Option Bool) :
    ((c.serve f ready).2 = c.replayed f ready ∧ (c.serve f ready).1.pending = c.pending) ∨
      (c.replayed f ready = [] ∧
        (c.serve f ready).2 ++ (c.serve f ready).1.pending.filter f.accepts =
          c.pending.filter f.accepts) := by
  cases ready with
  | none =>
    refine Or.inl ?_
    unfold serve
    split_ifs <;> exact ⟨rfl, rfl⟩
  | some fails =>
    by_cases hopen : c.isOpen = true
    · by_cases hfailed : fails = true ∨ c.pending = []
      · have hread : c.read fails = (c, -1) := by
          unfold read
          rcases hfailed with hfails | hempty
          · rw [if_pos hfails]
          · rw [hempty]
            split_ifs <;> rfl
        have hreplayed : c.replayed f (some fails) = [c.fst, c.snd].filter f.accepts :=
          if_pos ⟨hopen, hfailed⟩
        refine Or.inl ?_
        unfold serve
        rw [if_neg (by rw [hopen]; exact Bool.false_ne_true.symm), hreplayed]
        simp only [hread]
        exact ⟨process_failed f c.fst c.snd, trivial⟩
      · obtain ⟨hfails, hne⟩ := not_or.mp hfailed
        rw [Bool.not_eq_true] at hfails
        obtain ⟨hprocessed, hpending, -⟩ := serve_read f c hopen hne
        refine Or.inr ⟨if_neg fun hand => hfailed hand.2, ?_⟩
        · rw [hfails, hprocessed, hpending, ← List.filter_append, List.take_append_drop]
    · have hnone : c.replayed f (some fails) = [] := if_neg fun hand => hopen hand.1
      refine Or.inl ?_
      unfold serve
      rw [if_pos (by simpa using hopen), hnone]
      exact ⟨rfl, rfl⟩

end Channel

/-! ### Runs -/

theorem delivered_append (f : EventFile) (feds feds' : List Fed) :
    delivered f (feds ++ feds') = delivered f feds ++ delivered f feds' := List.filterMap_append

theorem delivered_events (f f' : EventFile) (evs : List InputEvent) :
    delivered f (evs.map (.event f')) = if f' = f then evs else [] := by
  unfold delivered
  rw [List.filterMap_map]
  split_ifs with h
  · simp [h]
  · simp [h]

namespace SelectLoop

variable (f : EventFile) (l : SelectLoop)

/-- What a round processes again of a file. -/
def replays (r : SelectRound) : List InputEvent :=
  match r.selected with
  | .ready fails => (l.arrive r.arrivals f).replayed f (fails f)
  | _ => []

/-- The records of a file that are yet to be processed. -/
def toCome : List InputEvent := (l f).pending.filter f.accepts

/-- A round delivers what it takes off the queue of a file, or replays its buffer. -/
theorem round_cases (r : SelectRound) :
    (delivered f (l.round r).2 = l.replays f r ∧
        (l.round r).1.toCome f = l.toCome f ++ (r.arrivals f).filter f.accepts) ∨
      (l.replays f r = [] ∧
        delivered f (l.round r).2 ++ (l.round r).1.toCome f =
          l.toCome f ++ (r.arrivals f).filter f.accepts) := by
  have harrive : (l.arrive r.arrivals f).pending.filter f.accepts =
      l.toCome f ++ (r.arrivals f).filter f.accepts := List.filter_append ..
  unfold round replays
  cases hselected : r.selected with
  | timeout => exact Or.inl ⟨rfl, harrive⟩
  | interrupted => exact Or.inl ⟨rfl, harrive⟩
  | ready fails =>
    have hdelivered : delivered f (EventFile.all.flatMap fun f =>
        (((l.arrive r.arrivals) f).serve f (fails f)).2.map (.event f)) =
          ((l.arrive r.arrivals f).serve f (fails f)).2 := by
      simp only [EventFile.all, List.flatMap_cons, List.flatMap_nil, delivered_append,
        delivered_events]
      cases f <;> simp [delivered]
    simp only [hdelivered, toCome]
    rcases Channel.serve_cases f (l.arrive r.arrivals f) (fails f) with ⟨hreplayed, hpending⟩ | hread
    · refine Or.inl ⟨hreplayed, ?_⟩
      rw [hpending]
      exact harrive
    · refine Or.inr ⟨hread.1, hread.2.trans harrive⟩

theorem fed_cons (r : SelectRound) (rounds : List SelectRound) :
    l.fed (r :: rounds) = (l.round r).2 ++ (l.round r).1.fed rounds := rfl

/-- No round of the run replays a record of the file. -/
def NeverReplays (rounds : List SelectRound) : Prop :=
  Runs.Each (Runs.next round) (fun l r => l.replays f r = []) l rounds

theorem delivered_of_neverReplays (rounds : List SelectRound) (h : l.NeverReplays f rounds) :
    delivered f (l.fed rounds) ++ (l.after rounds).toCome f =
      l.toCome f ++ (arrived f rounds).filter f.accepts := by
  induction rounds generalizing l with
  | nil => exact (List.append_nil _).symm
  | cons r rounds ih =>
    have hround : delivered f (l.round r).2 ++ (l.round r).1.toCome f =
        l.toCome f ++ (r.arrivals f).filter f.accepts := by
      rcases l.round_cases f r with ⟨hdelivered, hcome⟩ | ⟨-, hsplit⟩
      · rw [hdelivered, hcome, h.1, List.nil_append]
      · exact hsplit
    have hrest := ih (l.round r).1 h.2
    rw [fed_cons, delivered_append, List.append_assoc]
    show _ ++ (_ ++ ((l.round r).1.after rounds).toCome f) = _
    rw [hrest, ← List.append_assoc, hround, arrived_cons, List.filter_append, List.append_assoc]

/-- The records that a run replays. -/
def replayedIn : SelectLoop → List SelectRound → List InputEvent
  | _, [] => []
  | l, r :: rounds => l.replays f r ++ replayedIn (l.round r).1 rounds

theorem length_delivered (rounds : List SelectRound) :
    (delivered f (l.fed rounds)).length + ((l.after rounds).toCome f).length =
      (l.toCome f).length + ((arrived f rounds).filter f.accepts).length +
        (replayedIn f l rounds).length := by
  induction rounds generalizing l with
  | nil => exact (Nat.zero_add _)
  | cons r rounds ih =>
    have hrest := ih (l.round r).1
    have hround : (delivered f (l.round r).2).length + ((l.round r).1.toCome f).length =
        (l.toCome f).length + ((r.arrivals f).filter f.accepts).length + (l.replays f r).length := by
      rcases l.round_cases f r with ⟨hdelivered, hcome⟩ | ⟨hnone, hsplit⟩
      · rw [hdelivered, hcome, List.length_append]
        omega
      · have hlength := congrArg List.length hsplit
        rw [List.length_append, List.length_append] at hlength
        rw [hnone, List.length_nil]
        omega
    have hafter : l.after (r :: rounds) = (l.round r).1.after rounds := rfl
    rw [fed_cons, delivered_append, arrived_cons, List.filter_append, replayedIn, hafter]
    simp only [List.length_append]
    omega

theorem replayedIn_eq_nil (rounds : List SelectRound) :
    replayedIn f l rounds = [] ↔ l.NeverReplays f rounds := by
  induction rounds generalizing l with
  | nil => exact ⟨fun _ => trivial, fun _ => rfl⟩
  | cons r rounds ih =>
    rw [replayedIn, List.append_eq_nil_iff, ih]
    rfl

/-- **Each record once.** In every run, whatever arrives when and whichever reads fail, the
records of a file that it delivers are processed once each, in the order they were queued, if
and only if no failed read finds one in the buffer. -/
theorem delivered_iff (rounds : List SelectRound) :
    delivered f (l.fed rounds) ++ (l.after rounds).toCome f =
        l.toCome f ++ (arrived f rounds).filter f.accepts ↔
      l.NeverReplays f rounds := by
  constructor
  · intro heq
    have hlength := congrArg List.length heq
    rw [List.length_append, List.length_append, length_delivered] at hlength
    have hzero : (replayedIn f l rounds).length = 0 := by omega
    exact (l.replayedIn_eq_nil f rounds).mp (List.eq_nil_of_length_eq_zero hzero)
  · exact l.delivered_of_neverReplays f rounds

/-! ### A backlog -/

/-- What is queued for a file, if it is open. -/
def queue : List (EventFile × InputEvent) :=
  if (l f).isOpen then (l f).pending.map (Prod.mk f) else []

def queues : List (List (EventFile × InputEvent)) := EventFile.all.map fun f => l.queue f

/-- What `select` answers when no read fails. -/
def selects : Selected :=
  if ∃ f ∈ EventFile.all, l.queue f ≠ [] then
    .ready fun f => if l.queue f = [] then none else some false
  else .timeout

/-- A round in which nothing arrives and no read fails. -/
def quietRound : SelectRound := { selected := l.selects }

/-- `n` such rounds. -/
def quietRounds : SelectLoop → ℕ → List SelectRound
  | _, 0 => []
  | l, n + 1 => l.quietRound :: quietRounds (l.round l.quietRound).1 n

/-- The events that are fed, each with its file. -/
def events (feds : List Fed) : List (EventFile × InputEvent) :=
  feds.filterMap fun
    | .event f ev => some (f, ev)
    | .idle => none

/-- The file delivers the record. -/
def isDelivered (fed : EventFile × InputEvent) : Bool := fed.1.accepts fed.2

theorem events_append (feds feds' : List Fed) : events (feds ++ feds') = events feds ++ events feds' :=
  List.filterMap_append

theorem events_map (evs : List InputEvent) : events (evs.map (.event f)) = evs.map (Prod.mk f) := by
  simp [events]

theorem queue_of_open (h : (l f).isOpen = true) : l.queue f = (l f).pending.map (Prod.mk f) := if_pos h

theorem queue_of_closed (h : (l f).isOpen = false) : l.queue f = [] :=
  if_neg (by rw [h]; exact Bool.false_ne_true)

/-- A round of a file in a backlog. -/
theorem serve_queue (l' : SelectLoop)
    (h : l' f = ((l f).serve f (if l.queue f = [] then none else some false)).1) :
    ((l f).serve f (if l.queue f = [] then none else some false)).2.map (Prod.mk f) =
        ((l.queue f).take 2).filter isDelivered ∧
      l'.queue f = (l.queue f).drop 2 := by
  by_cases hempty : l.queue f = []
  · rw [if_pos hempty] at h ⊢
    have hsame : (l f).serve f none = (l f, []) := by
      unfold Channel.serve
      split_ifs <;> rfl
    rw [hsame] at h ⊢
    have hqueue : l'.queue f = l.queue f := by rw [queue, queue, h]
    rw [hqueue, hempty]
    exact ⟨rfl, rfl⟩
  · rw [if_neg hempty] at h ⊢
    have hopen : (l f).isOpen = true := by
      by_contra hclosed
      exact hempty (l.queue_of_closed f (by simpa using hclosed))
    rw [queue_of_open f l hopen, List.map_eq_nil_iff] at hempty
    obtain ⟨hprocessed, hpending, hstill⟩ := Channel.serve_read f (l f) hopen hempty
    have hopen' : (l' f).isOpen = true := by rw [h]; exact hstill
    constructor
    · rw [hprocessed, queue_of_open f l hopen, ← List.map_take, List.filter_map]
      rfl
    · rw [queue_of_open f l' hopen', queue_of_open f l hopen, h, hpending, List.map_drop]

/-- A quiet round takes the first round of the queues. -/
theorem round_quietRound :
    events (l.round l.quietRound).2 = (RoundRobin.firstRound 2 l.queues).filter isDelivered ∧
      (l.round l.quietRound).1.queues = RoundRobin.afterRound 2 l.queues := by
  have harrive : l.arrive l.quietRound.arrivals = l := by
    funext f
    simp only [arrive, quietRound, List.append_nil]
  have hselected : l.quietRound.selected = l.selects := rfl
  unfold selects at hselected
  unfold SelectLoop.round
  rw [harrive, hselected]
  by_cases hsome : ∃ f ∈ EventFile.all, l.queue f ≠ []
  · rw [if_pos hsome]
    have hserve := fun f => l.serve_queue f
      (fun f => ((l f).serve f (if l.queue f = [] then none else some false)).1) rfl
    constructor
    · simp only [EventFile.all, queues, RoundRobin.firstRound, List.map_cons, List.map_nil,
        List.flatMap_cons, List.flatMap_nil, List.filter_append, events_append, events_map,
        fun f => (hserve f).1]
      rfl
    · simp only [queues, RoundRobin.afterRound, List.map_map]
      exact List.map_congr_left fun f _ => (hserve f).2
  · rw [if_neg hsome]
    have hempty : ∀ q ∈ l.queues, q = [] := by
      intro q hq
      obtain ⟨f, hf, rfl⟩ := List.mem_map.mp hq
      by_contra hne
      exact hsome ⟨f, hf, hne⟩
    constructor
    · have hnone : RoundRobin.firstRound 2 l.queues = [] :=
        List.flatMap_eq_nil_iff.mpr fun q hq => by rw [hempty q hq]; rfl
      rw [hnone]
      rfl
    · refine (List.map_id _).symm.trans (List.map_congr_left fun q hq => ?_)
      rw [hempty q hq]
      rfl

/-- What is fed of a backlog. -/
theorem fed_quietRounds (n : ℕ) :
    events (l.fed (l.quietRounds n)) = (RoundRobin.rounds 2 n l.queues).filter isDelivered := by
  induction n generalizing l with
  | zero => rfl
  | succ n ih =>
    obtain ⟨hfirst, hafter⟩ := l.round_quietRound
    rw [quietRounds, fed_cons, events_append, ih, hfirst, hafter, ← List.filter_append]
    rfl

/-- **Files served in turn.** When every queue is in an order, what is processed of a backlog
is in it if and only if the records that the files deliver are in it from each turn of two to
the turns served after it. -/
theorem backlog_in_turn (earlier : EventFile × InputEvent → EventFile × InputEvent → Prop) (n : ℕ)
    (hserved : RoundRobin.Served 2 n l.queues) (hqueues : ∀ q ∈ l.queues, q.Pairwise earlier) :
    (events (l.fed (l.quietRounds n))).Pairwise earlier ↔
      RoundRobin.InTurn 2 (fun x y => isDelivered x → isDelivered y → earlier x y) l.queues := by
  rw [fed_quietRounds, List.pairwise_filter]
  refine RoundRobin.pairwise_rounds_iff (fun q hq => ?_) hserved
  exact (hqueues q hq).imp fun hearlier _ _ => hearlier

/-- Q is pressed, held and released before volume up is pressed. -/
def volumeTyped : SelectLoop
  | .kbd => ⟨true, [⟨1, 16, 1⟩, ⟨1, 16, 2⟩, ⟨1, 16, 0⟩], ⟨0, 0, 0⟩, ⟨0, 0, 0⟩⟩
  | .fw => ⟨false, [], ⟨0, 0, 0⟩, ⟨0, 0, 0⟩⟩
  | .k3Vol => ⟨true, [⟨1, 115, 1⟩], ⟨0, 0, 0⟩, ⟨0, 0, 0⟩⟩

theorem backlog_in_turn_volumeTyped :
    (events (volumeTyped.fed (volumeTyped.quietRounds 2))).Pairwise
        (fun x y => y.1 = .kbd → x.1 = .kbd) ↔
      RoundRobin.InTurn 2 (fun x y => isDelivered x → isDelivered y → y.1 = .kbd → x.1 = .kbd)
        volumeTyped.queues :=
  backlog_in_turn volumeTyped _ 2 (by unfold RoundRobin.Served; decide)
    (by simp [queues, queue, EventFile.all, volumeTyped])

end SelectLoop
end Legacy
end Launchpad
