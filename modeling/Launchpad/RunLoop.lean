/-
# The loop of `run` and its signals

`Application::run` of `src/system/application.cpp` under `SignalHandler`, statement by
statement: a signal may come before any of them, and sets a flag that the loop tests.
The log is what happens, in order; what the loop does to the application are its
`performed` inputs (`app_after`).

`reload_configuration` clears the flag before it reads the directory. So no SIGHUP is
lost: between one that comes before the test of the flag and the next poll the directory
is read (`reload_served`). The other flag is never cleared: after SIGINT or SIGTERM at most
one more poll is made, and `run` returns (`shutdown_served`).
-/
import Launchpad.Reload

namespace Launchpad

/-- The signals that are handled. -/
inductive Signal
  | hup
  | int
  | term
  deriving DecidableEq

namespace RunLoop

/-- What happens: a signal comes, the reload flag is tested, the directory is read, or the
input is polled. -/
inductive Entry
  | heard (signal : Signal)
  | tested
  | read (dir : Directory)
  | polled (poll : Poll)

def Entry.isTested : Entry → Bool
  | .tested => true
  | _ => false

def Entry.isRead : Entry → Bool
  | .read _ => true
  | _ => false

def Entry.isPolled : Entry → Bool
  | .polled _ => true
  | _ => false

/-- The statement that is next. -/
inductive Pc
  | construct
  | testShutdown
  | testReload
  | clearReload
  | load
  | step
  | returned
  deriving DecidableEq

/-- The process after `SignalHandler::install`. There is no application before it is
constructed. -/
structure Process (δ : Type*) where
  pc : Pc := .construct
  shutdownRequested : Bool := false
  reloadRequested : Bool := false
  app : Option (Application δ) := none
  log : List Entry := []

/-- What the next statement finds: the directory as it is, or the events of a poll. -/
structure World where
  dir : Directory
  poll : Poll

/-- The next statement is executed, or a signal comes before it. -/
inductive Event
  | run (w : World)
  | signal (s : Signal)

def Event.isRun : Event → Bool
  | .run _ => true
  | .signal _ => false

namespace Process

variable {δ : Type*} [IDisplay δ] (runner : CommandRunner) (display : δ) (font : FontRenderer)
  (configDirectory : Str)

omit [IDisplay δ] in
/-- `SignalHandler::handle_signal`. -/
def handleSignal (p : Process δ) (s : Signal) : Process δ :=
  match s with
  | .hup => { p with reloadRequested := true, log := p.log ++ [.heard s] }
  | .int | .term => { p with shutdownRequested := true, log := p.log ++ [.heard s] }

/-- The next statement of `main` and `run`. -/
def next (p : Process δ) (w : World) : Process δ :=
  match p.pc with
  | .construct =>
    { p with
      pc := .testShutdown
      app := some (.new display font configDirectory w.dir)
      log := p.log ++ [.read w.dir] }
  | .testShutdown => { p with pc := if p.shutdownRequested then .returned else .testReload }
  | .testReload =>
    { p with pc := if p.reloadRequested then .clearReload else .step, log := p.log ++ [.tested] }
  | .clearReload => { p with pc := .load, reloadRequested := false }
  | .load =>
    { p with
      pc := .step
      app := p.app.map (·.reloadConfiguration w.dir)
      log := p.log ++ [.read w.dir] }
  | .step =>
    { p with
      pc := .testShutdown
      app := p.app.map (·.step runner w.poll)
      log := p.log ++ [.polled w.poll] }
  | .returned => p

def feed (p : Process δ) : Event → Process δ
  | .run w => p.next runner display font configDirectory w
  | .signal s => p.handleSignal s

/-- The process after a run. -/
abbrev after (es : List Event) : Process δ := Runs.run (feed runner display font configDirectory) {} es

/-- What the next statement does, one constructor for each of its outcomes. -/
inductive Moves (p : Process δ) (w : World) : Process δ → Prop
  | construct (h : p.pc = .construct) :
      Moves p w { p with
        pc := .testShutdown
        app := some (.new display font configDirectory w.dir)
        log := p.log ++ [.read w.dir] }
  | shutdown (h : p.pc = .testShutdown) (hs : p.shutdownRequested = true) :
      Moves p w { p with pc := .returned }
  | goOn (h : p.pc = .testShutdown) (hs : p.shutdownRequested = false) :
      Moves p w { p with pc := .testReload }
  | reload (h : p.pc = .testReload) (hr : p.reloadRequested = true) :
      Moves p w { p with pc := .clearReload, log := p.log ++ [.tested] }
  | noReload (h : p.pc = .testReload) (hr : p.reloadRequested = false) :
      Moves p w { p with pc := .step, log := p.log ++ [.tested] }
  | clearReload (h : p.pc = .clearReload) : Moves p w { p with pc := .load, reloadRequested := false }
  | load (h : p.pc = .load) :
      Moves p w { p with
        pc := .step
        app := p.app.map (·.reloadConfiguration w.dir)
        log := p.log ++ [.read w.dir] }
  | step (h : p.pc = .step) :
      Moves p w { p with
        pc := .testShutdown
        app := p.app.map (·.step runner w.poll)
        log := p.log ++ [.polled w.poll] }
  | returned (h : p.pc = .returned) : Moves p w p

theorem next_moves (p : Process δ) (w : World) :
    Moves runner display font configDirectory p w (p.next runner display font configDirectory w) := by
  unfold next
  cases hpc : p.pc with
  | construct => exact .construct hpc
  | testShutdown =>
    simp only
    split_ifs with hs
    · exact .shutdown hpc hs
    · exact .goOn hpc (Bool.eq_false_iff.mpr hs)
  | testReload =>
    simp only
    split_ifs with hr
    · exact .reload hpc hr
    · exact .noReload hpc (Bool.eq_false_iff.mpr hr)
  | clearReload => exact .clearReload hpc
  | load => exact .load hpc
  | step => exact .step hpc
  | returned => exact .returned hpc

omit [IDisplay δ] in
theorem handleSignal_fields (p : Process δ) (s : Signal) :
    (p.handleSignal s).pc = p.pc ∧ (p.handleSignal s).app = p.app ∧
      (p.handleSignal s).log = p.log ++ [.heard s] := by
  cases s <;> exact ⟨rfl, rfl, rfl⟩

/-! ### What the loop does to the application -/

end Process

/-- The inputs of the application in a log. -/
def performed (log : List Entry) : List AppInput :=
  log.filterMap fun
    | .read dir => some (.reload dir)
    | .polled poll => some (.step poll)
    | _ => none

@[simp] theorem performed_append (log log' : List Entry) :
    performed (log ++ log') = performed log ++ performed log' := List.filterMap_append

namespace Process

variable {δ : Type*} [IDisplay δ] (runner : CommandRunner) (display : δ) (font : FontRenderer)
  (configDirectory : Str)

/-- The application after a log: constructed on the first directory read, and run on the
rest. -/
def appOf (log : List Entry) : Option (Application δ) :=
  match performed log with
  | .reload dir :: is => some ((Application.new display font configDirectory dir).after runner is)
  | _ => none

variable {runner display font configDirectory} {p : Process δ}

theorem appOf_concat {log : List Entry} {app : Application δ} {e : Entry} {i : AppInput}
    (h : appOf runner display font configDirectory log = some app) (he : performed [e] = [i]) :
    appOf runner display font configDirectory (log ++ [e]) = some (app.feed runner i) := by
  unfold appOf at h ⊢
  rw [performed_append, he]
  cases hlog : performed log with
  | nil =>
    rw [hlog] at h
    exact nomatch h
  | cons j is =>
    rw [hlog] at h
    cases j with
    | step poll => exact nomatch h
    | reload dir =>
      have happ := Option.some.inj h
      show some ((Application.new display font configDirectory dir).after runner (is ++ [i])) = _
      rw [← happ, Application.after, Runs.run_append]
      rfl

theorem appOf_skip {log : List Entry} {e : Entry} (he : performed [e] = []) :
    appOf runner display font configDirectory (log ++ [e]) =
      appOf runner display font configDirectory log := by
  unfold appOf
  rw [performed_append, he, List.append_nil]

variable (runner display font configDirectory)

/-- The log tells the application, once it is constructed. -/
def Logged (p : Process δ) : Prop :=
  if p.pc = .construct then p.app = none ∧ performed p.log = []
  else ∃ app, p.app = some app ∧ appOf runner display font configDirectory p.log = some app

variable {runner display font configDirectory} {p' : Process δ}

theorem Logged.handleSignal (h : Logged runner display font configDirectory p) (s : Signal) :
    Logged runner display font configDirectory (p.handleSignal s) := by
  obtain ⟨hpc, happ, hlog⟩ := handleSignal_fields p s
  unfold Logged at h ⊢
  rw [hpc, happ, hlog]
  split_ifs at h ⊢
  · refine ⟨h.1, ?_⟩
    rw [performed_append, h.2]
    rfl
  · rw [appOf_skip rfl]
    exact h

theorem Logged.moves (h : Logged runner display font configDirectory p) {w : World}
    (hm : Moves runner display font configDirectory p w p') :
    Logged runner display font configDirectory p' := by
  unfold Logged at h
  cases hm with
  | construct hpc =>
    rw [if_pos hpc] at h
    refine ⟨.new display font configDirectory w.dir, rfl, ?_⟩
    unfold appOf
    rw [performed_append, h.2]
    rfl
  | shutdown hpc _ =>
    rw [if_neg (by rw [hpc]; nofun)] at h
    exact h
  | goOn hpc _ =>
    rw [if_neg (by rw [hpc]; nofun)] at h
    exact h
  | reload hpc _ =>
    rw [if_neg (by rw [hpc]; nofun)] at h
    obtain ⟨app, happ, hlog⟩ := h
    exact ⟨app, happ, (appOf_skip rfl).trans hlog⟩
  | noReload hpc _ =>
    rw [if_neg (by rw [hpc]; nofun)] at h
    obtain ⟨app, happ, hlog⟩ := h
    exact ⟨app, happ, (appOf_skip rfl).trans hlog⟩
  | clearReload hpc =>
    rw [if_neg (by rw [hpc]; nofun)] at h
    exact h
  | load hpc =>
    rw [if_neg (by rw [hpc]; nofun)] at h
    obtain ⟨app, happ, hlog⟩ := h
    exact ⟨app.reloadConfiguration w.dir, congrArg (Option.map _) happ, appOf_concat (e := .read w.dir) (i := .reload w.dir) hlog rfl⟩
  | step hpc =>
    rw [if_neg (by rw [hpc]; nofun)] at h
    obtain ⟨app, happ, hlog⟩ := h
    exact ⟨app.step runner w.poll, congrArg (Option.map _) happ, appOf_concat (e := .polled w.poll) (i := .step w.poll) hlog rfl⟩
  | returned hpc => exact h

theorem logged_after (es : List Event) :
    Logged runner display font configDirectory (after runner display font configDirectory es) := by
  refine Runs.run_inv _ (I := Logged runner display font configDirectory) ?_ {} es ⟨rfl, rfl⟩
  intro p e h
  cases e with
  | run w => exact h.moves (next_moves runner display font configDirectory p w)
  | signal s => exact h.handleSignal s

/-- What is performed starts with the reading of the constructor. -/
theorem Logged.head (h : Logged runner display font configDirectory p) {is js : List AppInput}
    (hlog : performed p.log = is ++ js) (hne : is ≠ []) :
    ∃ dir is', is = .reload dir :: is' := by
  obtain ⟨i, is', rfl⟩ := List.exists_cons_of_ne_nil hne
  unfold Logged at h
  split_ifs at h
  · rw [h.2] at hlog
    exact nomatch hlog
  · obtain ⟨app, -, happ⟩ := h
    unfold appOf at happ
    rw [hlog] at happ
    cases i with
    | reload dir => exact ⟨dir, is', rfl⟩
    | step poll => exact nomatch happ

/-! ### What follows a signal in the log -/

end Process

/-- What is said of all that follows an `x` in a list. -/
def Following (x : Entry) (P : List Entry → Prop) (log : List Entry) : Prop :=
  ∀ a b, log = a ++ x :: b → P b

theorem Following.concat {x e : Entry} {P Q : List Entry → Prop} {log : List Entry}
    (h : Following x P log) (hstep : ∀ b, P b → Q (b ++ [e])) (hnew : e = x → Q []) :
    Following x Q (log ++ [e]) := by
  intro a b hsplit
  rcases List.eq_nil_or_concat b with rfl | ⟨b', e', rfl⟩
  · obtain ⟨-, hx⟩ := List.append_inj' hsplit rfl
    exact hnew (List.singleton_inj.mp hx)
  · rw [List.concat_eq_append, ← List.cons_append, ← List.append_assoc] at hsplit
    obtain ⟨hlog, he⟩ := List.append_inj' hsplit rfl
    rw [List.concat_eq_append, ← List.singleton_inj.mp he]
    exact hstep b' (h a b' hlog)

theorem Following.imp {x : Entry} {P Q : List Entry → Prop} {log : List Entry}
    (h : Following x P log) (hPQ : ∀ b, P b → Q b) : Following x Q log :=
  fun a b hsplit => hPQ b (h a b hsplit)

namespace Process

variable {δ : Type*} [IDisplay δ] {runner : CommandRunner} {display : δ} {font : FontRenderer}
  {configDirectory : Str} {p p' : Process δ}

/-! ### No SIGHUP is lost -/

/-- After a SIGHUP the directory has been read, or it is about to be, or the flag is set and
has not been tested. -/
def Owed (p : Process δ) (b : List Entry) : Prop :=
  (∃ e ∈ b, e.isRead = true) ∨ p.pc = .clearReload ∨ p.pc = .load ∨
    (p.reloadRequested = true ∧ ∀ e ∈ b, e.isTested = false)

/-- When input is polled, the directory has been read after every SIGHUP before the test of
the flag. -/
def Served (b : List Entry) : Prop :=
  ∀ b₁ poll b₂, b = b₁ ++ .polled poll :: b₂ → (∃ e ∈ b₁, e.isTested = true) →
    ∃ e ∈ b₁, e.isRead = true

omit [IDisplay δ] in
theorem Owed.same {b : List Entry} (h : p.Owed b) (hc : p.pc ≠ .clearReload) (hl : p.pc ≠ .load)
    (hreload : p'.reloadRequested = p.reloadRequested) : p'.Owed b := by
  rcases h with hread | hclear | hload | hflag
  · exact Or.inl hread
  · exact absurd hclear hc
  · exact absurd hload hl
  · rw [← hreload] at hflag
    exact Or.inr (Or.inr (Or.inr hflag))

omit [IDisplay δ] in
/-- An entry that is no test. -/
theorem Owed.concat {b : List Entry} (h : p.Owed b) {e : Entry} (he : e.isTested = false) :
    p.Owed (b ++ [e]) := by
  rcases h with ⟨e', he', hread⟩ | hclear | hload | ⟨hflag, htested⟩
  · exact Or.inl ⟨e', List.mem_append_left _ he', hread⟩
  · exact Or.inr (Or.inl hclear)
  · exact Or.inr (Or.inr (Or.inl hload))
  · refine Or.inr (Or.inr (Or.inr ⟨hflag, fun e' he' => ?_⟩))
    rcases List.mem_append.mp he' with hmem | hmem
    · exact htested e' hmem
    · rw [List.mem_singleton.mp hmem]
      exact he

omit [IDisplay δ] in
theorem owed_read (p : Process δ) (b : List Entry) (dir : Directory) : p.Owed (b ++ [.read dir]) :=
  Or.inl ⟨.read dir, List.mem_append_right _ (List.mem_singleton_self _), rfl⟩

theorem Served.concat {b : List Entry} (h : Served b) {e : Entry}
    (hnew : e.isPolled = true → (∃ e ∈ b, e.isTested = true) → ∃ e ∈ b, e.isRead = true) :
    Served (b ++ [e]) := by
  intro b₁ poll b₂ hsplit htested
  rcases List.eq_nil_or_concat b₂ with rfl | ⟨b', e', rfl⟩
  · obtain ⟨rfl, he⟩ := List.append_inj' hsplit rfl
    have hpolled : e = .polled poll := List.singleton_inj.mp he
    refine hnew ?_ htested
    rw [hpolled]
    rfl
  · rw [List.concat_eq_append, ← List.cons_append, ← List.append_assoc] at hsplit
    exact h b₁ poll b' (List.append_inj' hsplit rfl).1 htested

/-- Every SIGHUP of the log is owed a reading of the directory, and has been served at every
poll. -/
def Heard (p : Process δ) : Prop :=
  Following (.heard .hup) (fun b => p.Owed b ∧ Served b) p.log

omit [IDisplay δ] in
theorem Heard.handleSignal (h : p.Heard) (s : Signal) : (p.handleSignal s).Heard := by
  obtain ⟨hpc, -, hlog⟩ := handleSignal_fields p s
  unfold Heard
  rw [hlog]
  refine h.concat (fun b hb => ⟨?_, hb.2.concat nofun⟩) fun heq => ⟨?_, ?_⟩
  · have howed := hb.1.concat (e := .heard s) rfl
    unfold Owed at howed ⊢
    rw [hpc]
    refine howed.imp_right (Or.imp_right (Or.imp_right (And.imp_left fun hflag => ?_)))
    cases s with
    | hup => rfl
    | int => exact hflag
    | term => exact hflag
  · rw [Entry.heard.inj heq]
    exact Or.inr (Or.inr (Or.inr ⟨rfl, nofun⟩))
  · intro b₁ poll b₂ hsplit
    exact absurd hsplit (by simp)

theorem Heard.moves {w : World} (h : p.Heard)
    (hm : Moves runner display font configDirectory p w p') : p'.Heard := by
  cases hm with
  | construct hpc => exact h.concat (fun b hb => ⟨owed_read _ b w.dir, hb.2.concat nofun⟩) nofun
  | shutdown hpc _ =>
    exact h.imp fun b hb => ⟨hb.1.same (by rw [hpc]; nofun) (by rw [hpc]; nofun) rfl, hb.2⟩
  | goOn hpc _ =>
    exact h.imp fun b hb => ⟨hb.1.same (by rw [hpc]; nofun) (by rw [hpc]; nofun) rfl, hb.2⟩
  | reload hpc _ => exact h.concat (fun b hb => ⟨Or.inr (Or.inl rfl), hb.2.concat nofun⟩) nofun
  | noReload hpc hr =>
    -- the flag is clear, so no SIGHUP is left unserved
    refine h.concat (fun b hb => ⟨?_, hb.2.concat nofun⟩) nofun
    rcases hb.1 with ⟨e, he, hread⟩ | hclear | hload | hflag
    · exact Or.inl ⟨e, List.mem_append_left _ he, hread⟩
    · exact nomatch hpc.symm.trans hclear
    · exact nomatch hpc.symm.trans hload
    · exact nomatch hr.symm.trans hflag.1
  | clearReload hpc => exact h.imp fun b hb => ⟨Or.inr (Or.inr (Or.inl rfl)), hb.2⟩
  | load hpc => exact h.concat (fun b hb => ⟨owed_read _ b w.dir, hb.2.concat nofun⟩) nofun
  | step hpc =>
    refine h.concat (fun b hb => ⟨?_, hb.2.concat fun _ htested => ?_⟩) nofun
    · have howed : p.Owed (b ++ [.polled w.poll]) := hb.1.concat rfl
      exact howed.same (by rw [hpc]; nofun) (by rw [hpc]; nofun) rfl
    · obtain ⟨e, he, htest⟩ := htested
      rcases hb.1 with hread | hclear | hload | ⟨-, hnot⟩
      · exact hread
      · exact nomatch hpc.symm.trans hclear
      · exact nomatch hpc.symm.trans hload
      · exact nomatch htest.symm.trans (hnot e he)
  | returned hpc => exact h

theorem heard_after (es : List Event) :
    (after runner display font configDirectory es).Heard := by
  refine Runs.run_inv _ (I := Heard) ?_ {} es ?_
  · intro p e h
    cases e with
    | run w => exact h.moves (next_moves runner display font configDirectory p w)
    | signal s => exact h.handleSignal s
  · intro a b hsplit
    exact absurd hsplit (by simp)

/-! ### What the application was configured with -/

end Process

/-- The directory read last in a log. -/
def lastRead (log : List Entry) : Option Directory :=
  Runs.run (fun dir e => match e with
    | .read dir' => some dir'
    | _ => dir) none log

theorem lastRead_concat (log : List Entry) (e : Entry) :
    lastRead (log ++ [e]) = match e with
      | .read dir => some dir
      | _ => lastRead log := by
  rw [lastRead, Runs.run_append]
  rfl

/-- What follows a reading decides the one read last. -/
theorem lastRead_append {log log' : List Entry} {dir : Directory} (h : lastRead log' = some dir) :
    lastRead (log ++ log') = some dir := by
  induction log' using List.reverseRecOn generalizing dir with
  | nil => exact nomatch h
  | append_singleton log' e ih =>
    rw [← List.append_assoc, lastRead_concat]
    rw [lastRead_concat] at h
    cases e with
    | read dir' => exact h
    | heard s => exact ih h
    | tested => exact ih h
    | polled poll => exact ih h

theorem exists_lastRead {log : List Entry} (h : ∃ e ∈ log, e.isRead = true) :
    ∃ dir, lastRead log = some dir := by
  induction log using List.reverseRecOn with
  | nil =>
    obtain ⟨e, he, -⟩ := h
    exact nomatch he
  | append_singleton log e ih =>
    rw [lastRead_concat]
    obtain ⟨e', he', hread⟩ := h
    cases e with
    | read dir => exact ⟨dir, rfl⟩
    | _ =>
      refine ih ⟨e', ?_, hread⟩
      rcases List.mem_append.mp he' with hmem | hmem
      · exact hmem
      · rw [List.mem_singleton.mp hmem] at hread
        exact nomatch hread

theorem lastRead_performed {log : List Entry} : ∀ {dir : Directory} {is : List AppInput},
    performed log = .reload dir :: is → lastRead log = some (lastDirectory dir is) := by
  induction log using List.reverseRecOn with
  | nil => exact fun h => nomatch h
  | append_singleton log e ih =>
    intro dir is h
    rw [lastRead_concat]
    rw [performed_append] at h
    cases e with
    | heard s => exact ih (by simpa [performed] using h)
    | tested => exact ih (by simpa [performed] using h)
    | polled poll =>
      have hone : performed [.polled poll] = [.step poll] := rfl
      rw [hone] at h
      cases hlog : performed log with
      | nil =>
        rw [hlog] at h
        exact nomatch h
      | cons i is' =>
        rw [hlog, List.cons_append] at h
        obtain ⟨rfl, rfl⟩ := List.cons.inj h
        rw [lastDirectory, Runs.run_append]
        have hread := ih hlog
        exact hread
    | read dir' =>
      have hone : performed [.read dir'] = [.reload dir'] := rfl
      rw [hone] at h
      cases hlog : performed log with
      | nil =>
        rw [hlog] at h
        obtain ⟨hdir, rfl⟩ := List.cons.inj h
        rw [AppInput.reload.inj hdir]
        rfl
      | cons i is' =>
        rw [hlog, List.cons_append] at h
        obtain ⟨rfl, rfl⟩ := List.cons.inj h
        rw [lastDirectory, Runs.run_append]
        rfl

namespace Process

variable {δ : Type*} [IDisplay δ] (runner : CommandRunner) (display : δ) (font : FontRenderer)
  (configDirectory : Str)

/-- A SIGHUP comes before a poll; the directory is read in the next round. -/
def hupBeforePoll (w : World) : List Event :=
  [.run w, .run w, .run w, .signal .hup, .run w, .run w, .run w, .run w, .run w, .run w]

end Process

/-- The polls to come before the flag is tested. -/
def Pc.polls : Pc → ℕ
  | .testReload | .clearReload | .load | .step => 1
  | .construct | .testShutdown | .returned => 0

/-- The readings of the directory to come before the flag is tested. -/
def Pc.readings : Pc → ℕ
  | .construct | .testReload | .clearReload | .load => 1
  | .testShutdown | .step | .returned => 0

/-- The statements to come, at most, once the flag is set. -/
def Pc.left : Pc → ℕ
  | .testReload => 5
  | .clearReload => 4
  | .load => 3
  | .construct | .step => 2
  | .testShutdown => 1
  | .returned => 0

namespace Process

variable {δ : Type*} {p p' : Process δ} {log : List Entry}

/-- The process winds up after `log`: it has polled and read at most once, with what is to
come. -/
structure Winding (log : List Entry) (p : Process δ) : Prop where
  requested : p.shutdownRequested = true
  rest : ∃ b, p.log = log ++ b ∧ b.countP Entry.isPolled + p.pc.polls ≤ 1 ∧
    b.countP Entry.isRead + p.pc.readings ≤ 1

/-- A statement costs what it polls and reads. -/
def Pc.Pays (c c' : Pc) (es : List Entry) : Prop :=
  es.countP Entry.isPolled + c'.polls ≤ c.polls ∧ es.countP Entry.isRead + c'.readings ≤ c.readings

theorem Winding.push (h : Winding log p) (es : List Entry)
    (hrequested : p'.shutdownRequested = p.shutdownRequested) (hlog : p'.log = p.log ++ es)
    (hpays : Pc.Pays p.pc p'.pc es) : Winding log p' := by
  obtain ⟨hflag, b, hb, hpolled, hread⟩ := h
  obtain ⟨hpolls, hreadings⟩ := hpays
  refine ⟨hrequested.trans hflag, b ++ es, ?_, ?_, ?_⟩
  · rw [hlog, hb, List.append_assoc]
  · rw [List.countP_append]
    omega
  · rw [List.countP_append]
    omega

theorem Winding.handleSignal (h : Winding log p) (s : Signal) : Winding log (p.handleSignal s) := by
  obtain ⟨hpc, -, hlog⟩ := handleSignal_fields p s
  have hrequested : (p.handleSignal s).shutdownRequested = p.shutdownRequested := by
    cases s with
    | hup => rfl
    | int => exact h.requested.symm
    | term => exact h.requested.symm
  refine h.push [.heard s] hrequested hlog ?_
  rw [hpc]
  exact ⟨(Nat.zero_add _).le, (Nat.zero_add _).le⟩

variable [IDisplay δ] {runner : CommandRunner} {display : δ} {font : FontRenderer}
  {configDirectory : Str}

/-- A statement of a process that winds up. -/
theorem Winding.moves {w : World} (h : Winding log p)
    (hm : Moves runner display font configDirectory p w p') :
    Winding log p' ∧ p'.pc.left ≤ p.pc.left - 1 := by
  cases hm with
  | construct hpc =>
    refine ⟨h.push [.read w.dir] rfl rfl ?_, ?_⟩ <;> rw [hpc]
    · exact ⟨le_rfl, le_rfl⟩
    · exact le_rfl
  | shutdown hpc _ =>
    refine ⟨h.push [] rfl (List.append_nil _).symm ?_, ?_⟩ <;> rw [hpc]
    · exact ⟨le_rfl, le_rfl⟩
    · exact le_rfl
  | goOn _ hclear => exact nomatch h.requested.symm.trans hclear
  | reload hpc _ =>
    refine ⟨h.push [.tested] rfl rfl ?_, ?_⟩ <;> rw [hpc]
    · exact ⟨le_rfl, le_rfl⟩
    · exact le_rfl
  | noReload hpc _ =>
    refine ⟨h.push [.tested] rfl rfl ?_, ?_⟩ <;> rw [hpc]
    · exact ⟨le_rfl, Nat.zero_le _⟩
    · exact Nat.le_of_ble_eq_true rfl
  | clearReload hpc =>
    refine ⟨h.push [] rfl (List.append_nil _).symm ?_, ?_⟩ <;> rw [hpc]
    · exact ⟨le_rfl, le_rfl⟩
    · exact le_rfl
  | load hpc =>
    refine ⟨h.push [.read w.dir] rfl rfl ?_, ?_⟩ <;> rw [hpc]
    · exact ⟨le_rfl, le_rfl⟩
    · exact le_rfl
  | step hpc =>
    refine ⟨h.push [.polled w.poll] rfl rfl ?_, ?_⟩ <;> rw [hpc]
    · exact ⟨le_rfl, le_rfl⟩
    · exact le_rfl
  | returned hpc =>
    refine ⟨h, ?_⟩
    rw [hpc]
    exact le_rfl

theorem Winding.run (runner : CommandRunner) (display : δ) (font : FontRenderer)
    (configDirectory : Str) (es : List Event) (h : Winding log p) :
    Winding log (Runs.run (feed runner display font configDirectory) p es) ∧
      (Runs.run (feed runner display font configDirectory) p es).pc.left ≤
        p.pc.left - es.countP Event.isRun := by
  induction es generalizing p with
  | nil => exact ⟨h, le_rfl⟩
  | cons e es ih =>
    cases e with
    | run w =>
      obtain ⟨hnext, hleft⟩ := h.moves (next_moves runner display font configDirectory p w)
      obtain ⟨hrun, hdone⟩ := ih hnext
      have hcount : (Event.run w :: es).countP Event.isRun = es.countP Event.isRun + 1 :=
        List.countP_cons_of_pos rfl
      refine ⟨hrun, ?_⟩
      rw [hcount]
      have hfeed : Runs.run (feed runner display font configDirectory) p (.run w :: es) =
        Runs.run (feed runner display font configDirectory)
          (p.next runner display font configDirectory w) es := rfl
      rw [hfeed]
      omega
    | signal s =>
      obtain ⟨hrun, hdone⟩ := ih (h.handleSignal s)
      have hcount : (Event.signal s :: es).countP Event.isRun = es.countP Event.isRun :=
        List.countP_cons_of_neg Bool.false_ne_true
      rw [(handleSignal_fields p s).1] at hdone
      refine ⟨hrun, ?_⟩
      rw [hcount]
      exact hdone

theorem Pc.left_le (pc : Pc) : pc.left ≤ 5 := by
  cases pc <;> decide

theorem Pc.polls_le (pc : Pc) : pc.polls ≤ 1 := by
  cases pc <;> decide

theorem Pc.readings_le (pc : Pc) : pc.readings ≤ 1 := by
  cases pc <;> decide

variable (runner display font configDirectory)

/-- **No request to shut down is lost.** Whatever comes before whichever statement: after
SIGINT or SIGTERM the input is polled and the directory read at most once more, and within five
statements `run` has returned. -/
theorem shutdown_served (es es' : List Event) {s : Signal} (hs : s ≠ .hup) :
    let p := after runner display font configDirectory es
    let p' := after runner display font configDirectory (es ++ .signal s :: es')
    (∃ b, p'.log = p.log ++ .heard s :: b ∧ b.countP Entry.isPolled ≤ 1 ∧ b.countP Entry.isRead ≤ 1) ∧
      (5 ≤ es'.countP Event.isRun → p'.pc = .returned) := by
  intro p p'
  obtain ⟨hpc, -, hlog⟩ := handleSignal_fields p s
  have hstart : Winding (p.log ++ [.heard s]) (p.handleSignal s) := by
    refine ⟨?_, [], by rw [hlog, List.append_nil], ?_, ?_⟩
    · cases s with
      | hup => exact absurd rfl hs
      | int => rfl
      | term => rfl
    · exact (Nat.zero_add _).le.trans (Pc.polls_le _)
    · exact (Nat.zero_add _).le.trans (Pc.readings_le _)
  have hp' : p' = Runs.run (feed runner display font configDirectory) (p.handleSignal s) es' :=
    Runs.run_append _ _ _ _
  obtain ⟨⟨-, b, hb, hpolled, hread⟩, hleft⟩ := hstart.run runner display font configDirectory es'
  rw [← hp'] at hb hpolled hread hleft
  refine ⟨⟨b, ?_, by omega, by omega⟩, fun hrun => ?_⟩
  · rw [hb, List.append_assoc]
    rfl
  · have hzero : p'.pc.left = 0 := by
      have := Pc.left_le (p.handleSignal s).pc
      omega
    cases hpc' : p'.pc with
    | returned => rfl
    | _ =>
      rw [hpc'] at hzero
      exact nomatch hzero

/-- SIGTERM comes while the application is constructed. -/
theorem shutdown_served_construct :
    (after (fun _ _ => 0) (MockDisplay.new ⟨1, 1, 4⟩) ⟨fun _ => 0⟩ []
      ([] ++ .signal .term :: .replicate 5 (.run ⟨Application.noFiles, ⟨[], 0⟩⟩))).pc = .returned := by
  have hserved := shutdown_served (fun _ _ => 0) (MockDisplay.new ⟨1, 1, 4⟩) ⟨fun _ => 0⟩ [] []
    (.replicate 5 (.run ⟨Application.noFiles, ⟨[], 0⟩⟩)) (s := .term) nofun
  exact hserved.2 le_rfl

end Process
end RunLoop
end Launchpad
