/-
# The matcher on other hardware

A Kindle 3 reports other codes for some keys than a K2 or a DX, and
`get_substitute_code` maps the ones to the others. The matcher applies it to the
keys it collects, but compares the introducer and the trailer with the code as
it is read. So a stream and its translation are answered alike exactly when
those two comparisons do not see the translation (`Stable`): a stable code is
neither replaced nor stands for another.
-/
import Launchpad.SequenceMatcher

namespace Launchpad

open KeyCodes MatcherInput

namespace KeyTable

/-- The codes that are replaced. -/
def k3Codes : List RawKeyCode :=
  [k3keyAa, k3keySym, k3keyHome, k3keyBack, k3keyPgfwd, k3keyLpgbck, k3keyLpgfwd, k3keyVplus,
    k3keyVminus, k3keyFwUp, k3keyFwDown, k3keyFwPress]

variable (table : KeyTable)

theorem getSubstituteCode_of_notMem {code : RawKeyCode} (h : code ∉ k3Codes) :
    table.getSubstituteCode code = code := by
  simp only [k3Codes, List.mem_cons, List.not_mem_nil, or_false, not_or] at h
  simp only [getSubstituteCode, h, if_false]

/-- A substitute is not replaced again. -/
theorem getSubstituteCode_idem (code : RawKeyCode) :
    table.getSubstituteCode (table.getSubstituteCode code) = table.getSubstituteCode code := by
  by_cases h : code ∈ k3Codes
  · have hall : k3Codes.all fun c => KeyTable.new.getSubstituteCode
        (KeyTable.new.getSubstituteCode c) == KeyTable.new.getSubstituteCode c := by decide
    exact beq_iff_eq.mp (List.all_eq_true.mp hall code h)
  · rw [getSubstituteCode_of_notMem table h, getSubstituteCode_of_notMem table h]

/-- The code is told from any other before and after the substitution alike. -/
def Stable (code : RawKeyCode) : Prop := ∀ c, table.getSubstituteCode c = code ↔ c = code

end KeyTable

/-- The input with its code substituted. -/
def MatcherInput.substitute (table : KeyTable) : MatcherInput → MatcherInput
  | .key code type => .key (table.getSubstituteCode code) type
  | .timeout => .timeout

namespace SequenceMatcher

variable {config : MatcherConfig} {table : KeyTable} {m : SequenceMatcher}

/-- The answers to a stream, from the start. -/
def answersTo (config : MatcherConfig) (is : List MatcherInput) : List MatcherResult :=
  Runs.answers feed (new config none) is

/-- Every stream and its translation are answered alike. -/
def ModelIndependent (config : MatcherConfig) (table : KeyTable) : Prop :=
  ∀ is : List MatcherInput, answersTo config (is.map (substitute table)) = answersTo config is

/-- The codes collected are those of a K2, when a table is configured. -/
theorem substituteCode_of_isSome (table : KeyTable) (h : config.keyTable.isSome) (code : RawKeyCode) :
    substituteCode config code = table.getSubstituteCode code := by
  obtain ⟨t, ht⟩ := Option.isSome_iff_exists.mp h
  unfold substituteCode
  rw [ht]
  rfl

/-- With stable introducer and trailer, an input and its translation are one to
the matcher. -/
theorem feed_substitute (htable : m.config.keyTable.isSome)
    (hintroducer : table.Stable m.config.introducer) (htrailer : table.Stable m.config.trailer)
    (i : MatcherInput) : m.feed (i.substitute table) = m.feed i := by
  cases i with
  | timeout => rfl
  | key code type =>
    simp only [MatcherInput.substitute, feed, processKeyEvent]
    cases m.context.state <;> cases type
    · simp only [handleIdlePress, hintroducer code]
    · simp only [handleIdleRelease, hintroducer code]
    · simp only [handleCapturingPress, htrailer code,
        substituteCode_of_isSome table htable, table.getSubstituteCode_idem]
    · rfl

theorem answers_substitute : ∀ (is : List MatcherInput) (m : SequenceMatcher),
    m.config.keyTable.isSome → table.Stable m.config.introducer → table.Stable m.config.trailer →
      Runs.answers feed m (is.map (substitute table)) = Runs.answers feed m is
  | [], _, _, _, _ => rfl
  | i :: is, m, htable, hintroducer, htrailer => by
    have hconfig := feed_config m i
    have ih := answers_substitute is (m.feed i).1 (by rwa [hconfig]) (by rwa [hconfig])
      (by rwa [hconfig])
    rw [List.map_cons, Runs.answers, Runs.answers, feed_substitute htable hintroducer htrailer, ih]

/-! ### Streams that tell the codes apart -/

/-- A tap starts a capture if it is the introducer's. -/
theorem answersTo_tap (c : RawKeyCode) :
    answersTo config [press c, release c] =
      [{}, if c = config.introducer then { type := .startCapture } else {}] := by
  by_cases h : c = config.introducer
  · simp [answersTo, Runs.answers, feed, processKeyEvent, handleIdlePress, handleIdleRelease,
      new, h]
  · simp [answersTo, Runs.answers, feed, processKeyEvent, handleIdlePress, handleIdleRelease,
      new, h]

theorem answersTo_capture (c : RawKeyCode) :
    answersTo config [press config.introducer, release config.introducer, press c] =
      [{}, { type := .startCapture }, if c = config.trailer then { type := .sequenceComplete } else
        { type := .keyAppended, sequence := [substituteCode config c] }] := by
  by_cases h : c = config.trailer
  · simp [answersTo, Runs.answers, feed, processKeyEvent, handleIdlePress, handleIdleRelease,
      handleCapturingPress, new, h]
  · simp [answersTo, Runs.answers, feed, processKeyEvent, handleIdlePress, handleIdleRelease,
      handleCapturingPress, new, h]

/-- A tap tells apart what the substitution does to the introducer. -/
theorem ModelIndependent.introducer_stable (h : ModelIndependent config table) :
    table.Stable config.introducer := by
  intro c
  have heq := (answersTo_tap _).symm.trans ((h [press c, release c]).trans (answersTo_tap c))
  by_cases hs : table.getSubstituteCode c = config.introducer
  · by_cases hc : c = config.introducer
    · exact iff_of_true hs hc
    · simp [hs, hc] at heq
  · by_cases hc : c = config.introducer
    · simp only [if_neg hs, if_pos hc] at heq
      simp at heq
    · exact iff_of_false hs hc

/-- A capture of one key and its translation. -/
theorem ModelIndependent.capture_eq (h : ModelIndependent config table) (c : RawKeyCode) :
    (if table.getSubstituteCode c = config.trailer then { type := .sequenceComplete } else
        { type := .keyAppended,
          sequence := [substituteCode config (table.getSubstituteCode c)] } : MatcherResult) =
      if c = config.trailer then { type := .sequenceComplete } else
        { type := .keyAppended, sequence := [substituteCode config c] } := by
  have hfixed : table.getSubstituteCode config.introducer = config.introducer :=
    (h.introducer_stable config.introducer).mpr rfl
  have heq := h [press config.introducer, release config.introducer, press c]
  simp only [List.map_cons, List.map_nil, press, release, substitute, hfixed] at heq
  have hcapture := (answersTo_capture _).symm.trans (heq.trans (answersTo_capture c))
  simpa using hcapture

/-- So the second key of a capture tells the trailer apart. -/
theorem ModelIndependent.trailer_stable (h : ModelIndependent config table) :
    table.Stable config.trailer := by
  intro c
  have heq := h.capture_eq c
  by_cases hs : table.getSubstituteCode c = config.trailer
  · by_cases hc : c = config.trailer
    · exact iff_of_true hs hc
    · simp [hs, hc] at heq
  · by_cases hc : c = config.trailer
    · rw [if_neg hs, if_pos hc] at heq
      simp at heq
    · exact iff_of_false hs hc

/-- Without a table the codes are collected as they are read. -/
theorem ModelIndependent.keyTable_isSome (h : ModelIndependent config table) :
    config.keyTable.isSome := by
  have hne : table.getSubstituteCode k3keyHome ≠ k3keyHome := by
    intro heq
    exact absurd heq (show KeyTable.new.getSubstituteCode k3keyHome ≠ k3keyHome by decide)
  have heq := h.capture_eq k3keyHome
  have hstable := h.trailer_stable k3keyHome
  by_cases hc : k3keyHome = config.trailer
  · exact absurd ((hstable.mpr hc).trans hc.symm) hne
  · rw [if_neg hc, if_neg (hstable.not.mpr hc)] at heq
    cases htable : config.keyTable with
    | some t => rfl
    | none =>
      simp only [substituteCode, htable, MatcherResult.mk.injEq, List.cons.injEq, and_true,
        true_and] at heq
      exact absurd heq hne

/-- A configuration behaves alike on both hardwares exactly when it has a table
and its introducer and its trailer are stable. -/
theorem modelIndependent_iff : ModelIndependent config table ↔
    config.keyTable.isSome ∧ table.Stable config.introducer ∧ table.Stable config.trailer :=
  ⟨fun h => ⟨h.keyTable_isSome, h.introducer_stable, h.trailer_stable⟩,
    fun h is => answers_substitute is (new config none) h.1 h.2.1 h.2.2⟩

/-- With Home as introducer, the Home key of a K2 starts a capture and that of a
K3 does not. -/
theorem not_modelIndependent_home :
    ¬ ModelIndependent ⟨kpkeyHome, kpkeyEnter, some .new⟩ .new := by
  intro h
  have hne : answersTo ⟨kpkeyHome, kpkeyEnter, some .new⟩
        ([press k3keyHome, release k3keyHome].map (substitute .new)) ≠
      answersTo ⟨kpkeyHome, kpkeyEnter, some .new⟩ [press k3keyHome, release k3keyHome] := by
    decide
  exact hne (h [press k3keyHome, release k3keyHome])

end SequenceMatcher
end Launchpad
