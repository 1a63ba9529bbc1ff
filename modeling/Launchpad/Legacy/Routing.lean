/-
# Which file a key is written to

The legacy program routes a key by its name (`isFivewayName`), the new one by its
code (`LinuxKeyInjector.isFivewayCode`). For a command made of names of the
default keys both write the codes of the names, line by line (`legacy_writes`,
`new_writes`), and every code but those of the Kindle 3 five-way to the same file
(`fivewayName_defaultKeys`). So they write the same lines to the same files if and
only if no name is one of those three, or no file is open (`routing_iff`).
-/
import Launchpad.Legacy.SendKeys

namespace Launchpad
namespace Legacy

open KeyCodes

/-! ### Lines written to two files -/

/-- The line of every code, each written to its file. -/
def route (opened : ProcFile → Bool) (file : RawKeyCode → ProcFile) (line : RawKeyCode → Str)
    (codes : List RawKeyCode) : List ProcWrite :=
  codes.flatMap fun c => writeTo opened (file c) (line c)

theorem countP_eq_imp {α : Type*} {p q : α → Bool} : ∀ {l : List α}, (∀ x ∈ l, p x = true → q x = true) →
    l.countP p = l.countP q → ∀ x ∈ l, q x = true → p x = true
  | y :: l, himp, hcount, x, hx, hq => by
    have hrest : l.countP p ≤ l.countP q :=
      List.countP_mono_left fun z hz => himp z (List.mem_cons_of_mem y hz)
    have hy := himp y List.mem_cons_self
    rw [List.countP_cons, List.countP_cons] at hcount
    by_cases hpy : p y = true
    · rw [if_pos hpy, if_pos (hy hpy)] at hcount
      rcases List.mem_cons.mp hx with rfl | hx
      · exact hpy
      · exact countP_eq_imp (fun z hz => himp z (List.mem_cons_of_mem y hz)) (by omega) x hx hq
    · by_cases hqy : q y = true
      · rw [if_neg hpy, if_pos hqy] at hcount
        omega
      · rw [if_neg hpy, if_neg hqy] at hcount
        rcases List.mem_cons.mp hx with rfl | hx
        · exact absurd hq hqy
        · exact countP_eq_imp (fun z hz => himp z (List.mem_cons_of_mem y hz)) (by omega) x hx hq

variable {opened : ProcFile → Bool} {file file' : RawKeyCode → ProcFile} {line : RawKeyCode → Str}
  {codes : List RawKeyCode}

/-- An open file has a line for every code that is routed to it. -/
theorem countP_route {f : ProcFile} (hf : opened f = true) :
    (route opened file line codes).countP (fun w => w.file = f) = codes.countP fun c => file c = f := by
  have hone : ∀ c, (writeTo opened (file c) (line c)).countP (fun w => w.file = f) =
      if file c = f then 1 else 0 := by
    intro c
    unfold writeTo
    by_cases hfile : file c = f
    · rw [hfile, if_pos hf, if_pos rfl]
      simp
    · rw [if_neg hfile]
      split_ifs
      · simp [hfile]
      · rfl
  induction codes with
  | nil => rfl
  | cons c codes ih =>
    have hcons : route opened file line (c :: codes) =
        writeTo opened (file c) (line c) ++ route opened file line codes := rfl
    rw [hcons, List.countP_append, hone, ih, List.countP_cons, Nat.add_comm]
    simp only [decide_eq_true_eq]

theorem ProcFile.eq_of_iff {f g g' : ProcFile} (h : g = f ↔ g' = f) : g = g' := by
  cases f <;> cases g <;> cases g' <;> simp_all

/-- Two routes, of which the first has more on the five-way, agree if and only if
no file is open or every code goes to the same file. -/
theorem route_eq_iff (hmore : ∀ c ∈ codes, file' c = .fiveway → file c = .fiveway) :
    route opened file line codes = route opened file' line codes ↔
      (∀ f, opened f = false) ∨ ∀ c ∈ codes, file c = file' c := by
  constructor
  · intro heq
    by_cases hclosed : ∀ f, opened f = false
    · exact Or.inl hclosed
    refine Or.inr fun c hc => ?_
    obtain ⟨f, hf⟩ := not_forall.mp hclosed
    rw [Bool.not_eq_false] at hf
    have hcount := congrArg (List.countP fun w => decide (w.file = f)) heq
    rw [countP_route hf, countP_route hf] at hcount
    cases f with
    | fiveway =>
      have hback := countP_eq_imp (fun c hc h => decide_eq_true (hmore c hc (of_decide_eq_true h)))
        hcount.symm c hc
      exact ProcFile.eq_of_iff ⟨fun h => of_decide_eq_true (hback (decide_eq_true h)), hmore c hc⟩
    | keypad =>
      have hless : ∀ c ∈ codes, file c = .keypad → file' c = .keypad := by
        intro c hc hfile
        cases hfile' : file' c with
        | keypad => rfl
        | fiveway => exact absurd (hmore c hc hfile') (by rw [hfile]; decide)
      have hback := countP_eq_imp (fun c hc h => decide_eq_true (hless c hc (of_decide_eq_true h)))
        hcount c hc
      exact ProcFile.eq_of_iff ⟨hless c hc, fun h => of_decide_eq_true (hback (decide_eq_true h))⟩
  · rintro (hclosed | hsame)
    · simp [route, writeTo, hclosed]
    · unfold route
      apply List.flatMap_congr
      intro c hc
      rw [hsame c hc]

/-! ### The two programs -/

/-- The codes of names of the default keys. -/
def codesOf (names : List Str) : List RawKeyCode :=
  names.map fun n => (KeyTable.new.findCode n).getD 0

/-- The file `send_key` writes a code to. -/
def legacyFile (code : RawKeyCode) : ProcFile := if isFivewayName code then .fiveway else .keypad

/-- The file `inject_key` writes a code to. -/
def newFile (code : RawKeyCode) : ProcFile :=
  if LinuxKeyInjector.isFivewayCode code then .fiveway else .keypad

/-- The line of a code sent on its own. -/
def sendLine (code : RawKeyCode) : Str := "send ".toList ++ decimal code ++ "\n".toList

theorem sendKey_normal (s : KeySender) (code : RawKeyCode) :
    s.sendKey code .normal = writeTo s.opened (legacyFile code) (sendLine code) := by
  unfold KeySender.sendKey legacyFile
  split_ifs
  · rfl
  · rfl

theorem injectKey_normal (i : LinuxKeyInjector) {code : RawKeyCode} (hcode : 0 ≤ code.toInt) :
    i.injectKey code .normal = writeTo i.opened (newFile code) (sendLine code) := by
  have hlt : code.toInt < 4294967296 := lt_trans code.toInt_lt (by decide)
  have hdecimal : LinuxKeyInjector.decimal code = decimal code := by
    rw [LinuxKeyInjector.decimal, Int.emod_eq_of_lt hcode hlt]
    rfl
  have hline : "send ".toList ++ LinuxKeyInjector.decimal code ++ "\n".toList = sendLine code := by
    rw [hdecimal]
    rfl
  unfold LinuxKeyInjector.injectKey newFile
  split_ifs
  · rw [LinuxKeyInjector.writeToFiveway, hline]
  · rw [← hline]
    rfl

/-- A name of the table has a code, which is not negative. -/
theorem findCode_registered {w : Str} (h : KeyTable.Registered w) :
    ∃ k ∈ KeyTable.defaultKeys ++ KeyTable.aliasKeys, KeyTable.normalizeName w =
      KeyTable.normalizeName k.2 ∧ KeyTable.new.findCode w = some k.1 ∧ 0 ≤ k.1.toInt := by
  have hcodes : ∀ k ∈ KeyTable.defaultKeys ++ KeyTable.aliasKeys, 0 ≤ k.1.toInt := by decide +kernel
  obtain ⟨k, hk, hname⟩ := h
  exact ⟨k, hk, hname, KeyTable.findCode_new hk hname, hcodes k hk⟩

variable (s : KeySender) (layout : Words.Layout isspace)

theorem legacy_writes (hnames : ∀ w ∈ layout.words, KeyTable.Registered w) :
    processSendkeysCommand s layout.text = if layout.text.length < maxPath then
      some (route s.opened legacyFile sendLine (codesOf layout.words)) else none := by
  have hplain : ∀ w ∈ layout.words, Words.IsWord isBlank w ∧ '"' ∉ w :=
    fun w hw => plain_of_registered (hnames w hw)
  have hwords : Words.words isBlank layout.text = layout.words :=
    (layout.widen fun _ => isBlank_of_isspace).words_text fun w hw => (hplain w hw).1
  have hquote : '"' ∉ layout.text := by
    have hspace : isspace '"' = false := by decide
    intro hmem
    unfold Words.Layout.text at hmem
    rw [List.mem_append, List.mem_flatMap] at hmem
    rcases hmem with hlead | ⟨i, hi, hitem⟩
    · rw [layout.sep_of_mem_lead _ hlead] at hspace
      exact nomatch hspace
    · rcases List.mem_append.mp hitem with hword | hgap
      · exact (hplain i.1 (List.mem_map_of_mem hi)).2 hword
      · rw [layout.sep_of_mem_gap i hi _ hgap] at hspace
        exact nomatch hspace
  have htokens : layout.words.flatMap (sendToken s) =
      route s.opened legacyFile sendLine (codesOf layout.words) := by
    unfold route codesOf
    rw [List.flatMap_map]
    apply List.flatMap_congr
    intro w hw
    obtain ⟨k, -, -, hcode, -⟩ := findCode_registered (hnames w hw)
    rw [sendToken, findInputKeyCode_eq, hcode]
    exact sendKey_normal s k.1
  unfold processSendkeysCommand
  rw [sendkeysLoop_eq s _ _ hquote, hwords, htokens]

variable (i : LinuxKeyInjector) (e : ActionExecutor)

theorem new_writes (htable : e.keyTable = .new) (hnames : ∀ w ∈ layout.words, KeyTable.Registered w)
    (before : List Launchpad.Call) (displayName : Str) :
    (e.execute before ⟨displayName, .sendKeys layout.text⟩).flatMap i.writes =
      route i.opened newFile sendLine (codesOf layout.words) := by
  have hplain : ∀ w ∈ layout.words, Words.IsWord isspace w ∧ '"' ∉ w := by
    intro w hw
    obtain ⟨k, -, -, hcode, -⟩ := findCode_registered (hnames w hw)
    exact plainNames_new w (by rw [hcode]; rfl)
  have hwords : Words.words isspace layout.text = layout.words :=
    layout.words_text fun w hw => (hplain w hw).1
  have hnotify : (e.notify [.hideStatus]).flatMap i.writes = [] := by
    unfold ActionExecutor.notify
    split_ifs <;> rfl
  show (e.executeSendKeys layout.text).flatMap i.writes = _
  unfold ActionExecutor.executeSendKeys route codesOf
  rw [List.flatMap_append, hnotify, List.append_nil, hwords, List.flatMap_assoc, List.flatMap_map]
  apply List.flatMap_congr
  intro w hw
  obtain ⟨k, -, -, hcode, hpos⟩ := findCode_registered (hnames w hw)
  rw [SendToken.sendToken_of_noQuote (hplain w hw).2, htable, hcode]
  have hkey : i.injectKey k.1 .normal = writeTo i.opened (newFile k.1) (sendLine k.1) :=
    injectKey_normal i hpos
  simpa [LinuxKeyInjector.writes] using hkey

/-! ### The keys of the Kindle 3 five-way -/

/-- The name, in any letter case, of one of the keys that only the legacy program
takes for keys of the five-way. -/
def IsKindle3Fiveway (w : Str) : Prop :=
  ∃ n ∈ ["k3_FW_Up".toList, "k3_FW_Down".toList, "k3_FW_Press".toList],
    KeyTable.normalizeName w = KeyTable.normalizeName n

instance (w : Str) : Decidable (IsKindle3Fiveway w) := inferInstanceAs (Decidable (∃ n ∈ _, _))

/-- The two tests on the default keys. -/
theorem fivewayName_defaultKeys : ∀ k ∈ KeyTable.defaultKeys ++ KeyTable.aliasKeys,
    (newFile k.1 = .fiveway → legacyFile k.1 = .fiveway) ∧
      (legacyFile k.1 = newFile k.1 ↔ ¬ IsKindle3Fiveway k.2) := by
  set_option maxRecDepth 10000 in decide +kernel

theorem file_eq_iff {w : Str} (h : KeyTable.Registered w) :
    (newFile ((KeyTable.new.findCode w).getD 0) = .fiveway →
      legacyFile ((KeyTable.new.findCode w).getD 0) = .fiveway) ∧
    (legacyFile ((KeyTable.new.findCode w).getD 0) = newFile ((KeyTable.new.findCode w).getD 0) ↔
      ¬ IsKindle3Fiveway w) := by
  obtain ⟨k, hk, hname, hcode, -⟩ := findCode_registered h
  have hsame : IsKindle3Fiveway w ↔ IsKindle3Fiveway k.2 := by
    unfold IsKindle3Fiveway
    rw [hname]
  rw [hcode, hsame]
  exact fivewayName_defaultKeys k hk

/-- **Routing.** For names of the default keys, however set apart, the new program
writes the same lines to the same files as the legacy one if and only if the text
fits the legacy buffer and no name is one of the Kindle 3 five-way, or no file
is open. -/
theorem routing_iff (translate : Char → RawKeyCode × SendMode) (runner : CommandRunner)
    (statusNotifier : Bool) (before : List Launchpad.Call) (displayName : Str)
    (hnames : ∀ w ∈ layout.words, KeyTable.Registered w) :
    processSendkeysCommand s layout.text =
        some (((⟨runner, statusNotifier, .new⟩ : ActionExecutor).execute before
          ⟨displayName, .sendKeys layout.text⟩).flatMap
            (⟨s.opened, translate⟩ : LinuxKeyInjector).writes) ↔
      layout.text.length < maxPath ∧
        ((∀ f, s.opened f = false) ∨ ∀ w ∈ layout.words, ¬ IsKindle3Fiveway w) := by
  rw [legacy_writes s layout hnames, new_writes layout _ _ rfl hnames]
  by_cases hlength : layout.text.length < maxPath
  · rw [if_pos hlength, Option.some.injEq, and_iff_right hlength]
    have hmore : ∀ c ∈ codesOf layout.words, newFile c = .fiveway → legacyFile c = .fiveway := by
      intro c hc
      obtain ⟨w, hw, rfl⟩ := List.mem_map.mp hc
      exact (file_eq_iff (hnames w hw)).1
    rw [route_eq_iff hmore, codesOf, List.forall_mem_map]
    apply or_congr_right
    exact forall₂_congr fun w hw => (file_eq_iff (hnames w hw)).2
  · rw [if_neg hlength]
    exact iff_of_false nofun fun hand => hlength hand.1

/-- Both files are open. -/
def stockSender : KeySender := ⟨fun _ => true, fun _ => 0, fun _ => .normal⟩

/-- A key of the five-way and one of the keypad. -/
def upHome : Words.Layout isspace :=
  ⟨[], [("fw_up".toList, " ".toList), ("Home".toList, "\n".toList)], by decide, by decide, by decide⟩

theorem routing_upHome : processSendkeysCommand stockSender upHome.text =
    some (((⟨fun _ _ => 0, true, .new⟩ : ActionExecutor).execute []
      ⟨"up".toList, .sendKeys upHome.text⟩).flatMap
        (⟨fun _ => true, fun _ => (0, .normal)⟩ : LinuxKeyInjector).writes) :=
  (routing_iff stockSender upHome (fun _ => (0, .normal)) (fun _ _ => 0) true [] "up".toList
    (List.forall_mem_cons.mpr ⟨⟨(kpkeyFwUp, "FW_Up".toList), by decide +kernel, by decide⟩,
      List.forall_mem_singleton.mpr ⟨(kpkeyHome, "Home".toList), by decide +kernel, by decide⟩⟩)).mpr
    ⟨by decide, Or.inr (by decide)⟩

/-- Up, on the five-way of a Kindle 3. -/
def kindle3Up : Words.Layout isspace :=
  ⟨[], [("k3_FW_Up".toList, [])], by decide, by decide, by decide⟩

/-- The legacy program writes `send 103` to the five-way, the new one to the keypad. -/
theorem not_routing_kindle3Up :
    ¬ ∀ (s : KeySender) (layout : Words.Layout isspace) (translate : Char → RawKeyCode × SendMode)
      (runner : CommandRunner) (statusNotifier : Bool) (before : List Launchpad.Call) (displayName : Str),
      (∀ w ∈ layout.words, KeyTable.Registered w) → layout.text.length < maxPath →
      processSendkeysCommand s layout.text =
        some (((⟨runner, statusNotifier, .new⟩ : ActionExecutor).execute before
          ⟨displayName, .sendKeys layout.text⟩).flatMap
            (⟨s.opened, translate⟩ : LinuxKeyInjector).writes) := by
  intro hall
  have hnames : ∀ w ∈ kindle3Up.words, KeyTable.Registered w :=
    List.forall_mem_singleton.mpr ⟨(k3keyFwUp, "k3_FW_Up".toList), by decide +kernel, rfl⟩
  have hlength : kindle3Up.text.length < maxPath := by decide
  have heq := hall stockSender kindle3Up (fun _ => (0, .normal)) (fun _ _ => 0) true [] [] hnames hlength
  rw [legacy_writes _ _ hnames, new_writes _ _ _ rfl hnames, if_pos hlength] at heq
  exact absurd heq (by decide +kernel)

end Legacy
end Launchpad
