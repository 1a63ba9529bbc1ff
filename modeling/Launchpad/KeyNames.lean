/-
# Key names

The two maps of a `KeyTable` are inverse where no name is registered for two
codes (`Inverse`): the name of a code is then found again, in any letter case.
Registering a new name keeps that (`Inverse.registerKey`), and the default names
differ, so what is written of the names of a sequence is parsed to it
(`names_round_trip`), however the names are set apart.
-/
import Launchpad.SendKeys

namespace Launchpad

open KeyCodes

namespace KeyTable

variable {t : KeyTable} {code : RawKeyCode} {name w : Str}

/-- The name of the code, in any letter case. -/
def Spells (t : KeyTable) (w : Str) (code : RawKeyCode) : Prop :=
  ∃ name, t.findName code = some name ∧ normalizeName w = normalizeName name

/-- The name of a code is found again. -/
def Inverse (t : KeyTable) : Prop := ∀ code name, t.findName code = some name → t.findCode name = some code

/-- The name is that of a default key, in any letter case. -/
def Registered (w : Str) : Prop := ∃ k ∈ defaultKeys ++ aliasKeys, normalizeName w = normalizeName k.2

/-! ### Registering keys -/

theorem findCode_registerKey (t : KeyTable) (code : RawKeyCode) (name w : Str) :
    (t.registerKey code name).findCode w =
      if normalizeName w = normalizeName name then some code else t.findCode w := by
  unfold findCode registerKey
  by_cases h : normalizeName w = normalizeName name
  · rw [if_pos h, h]
    exact AList.lookup_insert _
  · rw [if_neg h]
    exact AList.lookup_insert_ne h

theorem findName_registerKey (t : KeyTable) (code c : RawKeyCode) (name : Str) :
    (t.registerKey code name).findName c = if c = code then some name else t.findName c := by
  unfold findName registerKey
  by_cases h : c = code
  · rw [if_pos h, h]
    exact AList.lookup_insert _
  · rw [if_neg h]
    exact AList.lookup_insert_ne h

/-- A name that is new takes no other name's place. -/
theorem Inverse.registerKey (h : t.Inverse) (hnew : t.findCode name = none) :
    (t.registerKey code name).Inverse := by
  intro c n hname
  rw [findName_registerKey] at hname
  rw [findCode_registerKey]
  by_cases hc : c = code
  · rw [if_pos hc] at hname
    rw [if_pos (congrArg normalizeName (Option.some.inj hname).symm), hc]
  · rw [if_neg hc] at hname
    have hcode : t.findCode n = some c := h c n hname
    have hother : normalizeName n ≠ normalizeName name := by
      intro hsame
      unfold findCode at hcode hnew
      rw [hsame, hnew] at hcode
      exact nomatch hcode
    rw [if_neg hother, hcode]

theorem Inverse.registerKeys : ∀ (keys : List (RawKeyCode × Str)) {t : KeyTable}, t.Inverse →
    keys.Pairwise (fun k k' => normalizeName k'.2 ≠ normalizeName k.2) →
    (∀ k ∈ keys, t.findCode k.2 = none) → (t.registerKeys keys).Inverse
  | [], _, h, _, _ => h
  | k :: keys, t, h, hdistinct, hnew => by
    obtain ⟨hfirst, hrest⟩ := List.pairwise_cons.mp hdistinct
    have hnext : (t.registerKey k.1 k.2).Inverse := h.registerKey (hnew k List.mem_cons_self)
    refine Inverse.registerKeys keys hnext hrest fun k' hk' => ?_
    rw [findCode_registerKey, if_neg (hfirst k' hk')]
    exact hnew k' (List.mem_cons_of_mem k hk')

theorem findCode_registerKeys_of_notMem (keys : List (RawKeyCode × Str)) (t : KeyTable)
    (h : ∀ k ∈ keys, normalizeName w ≠ normalizeName k.2) :
    (t.registerKeys keys).findCode w = t.findCode w := by
  induction keys generalizing t with
  | nil => rfl
  | cons k keys ih =>
    show ((t.registerKey k.1 k.2).registerKeys keys).findCode w = t.findCode w
    rw [ih _ fun k' hk' => h k' (List.mem_cons_of_mem k hk'), findCode_registerKey,
      if_neg (h k List.mem_cons_self)]

/-- A name keeps its code if no name after it is the same. -/
theorem findCode_registerKeys_of_mem : ∀ (keys : List (RawKeyCode × Str)) (t : KeyTable)
    {k : RawKeyCode × Str}, keys.Pairwise (fun k k' => normalizeName k'.2 ≠ normalizeName k.2) →
    k ∈ keys → (t.registerKeys keys).findCode k.2 = some k.1
  | k :: keys, t, k', hdistinct, hk' => by
    obtain ⟨hfirst, hrest⟩ := List.pairwise_cons.mp hdistinct
    show ((t.registerKey k.1 k.2).registerKeys keys).findCode k'.2 = some k'.1
    rcases List.mem_cons.mp hk' with rfl | hk'
    · rw [findCode_registerKeys_of_notMem _ _ fun k hk => (hfirst k hk).symm, findCode_registerKey,
        if_pos rfl]
    · exact findCode_registerKeys_of_mem keys _ hrest hk'

/-! ### The default keys -/

theorem new_eq : new = (⟨∅, ∅⟩ : KeyTable).registerKeys (defaultKeys ++ aliasKeys) :=
  (List.foldl_append ..).symm

theorem pairwise_defaultKeys : (defaultKeys ++ aliasKeys).Pairwise
    fun k k' => normalizeName k'.2 ≠ normalizeName k.2 := by
  set_option maxRecDepth 10000 in decide +kernel

theorem inverse_new : new.Inverse := by
  rw [new_eq]
  exact Inverse.registerKeys _ (fun _ _ hname => nomatch hname) pairwise_defaultKeys fun _ _ => rfl

theorem findCode_congr {w w' : Str} (h : normalizeName w = normalizeName w') :
    t.findCode w = t.findCode w' := by
  unfold findCode
  rw [h]

theorem findCode_new {k : RawKeyCode × Str} (hk : k ∈ defaultKeys ++ aliasKeys)
    (hw : normalizeName w = normalizeName k.2) : new.findCode w = some k.1 := by
  rw [findCode_congr hw, new_eq]
  exact findCode_registerKeys_of_mem _ _ pairwise_defaultKeys hk

theorem findCode_new_eq_none : new.findCode w = none ↔ ¬ Registered w := by
  constructor
  · rintro hnone ⟨k, hk, hsame⟩
    rw [findCode_new hk hsame] at hnone
    exact nomatch hnone
  · intro hnot
    rw [new_eq, findCode_registerKeys_of_notMem _ _ fun k hk hsame => hnot ⟨k, hk, hsame⟩]
    rfl

theorem Inverse.findCode (h : t.Inverse) (hw : t.Spells w code) : t.findCode w = some code := by
  obtain ⟨name, hname, hsame⟩ := hw
  rw [findCode_congr hsame, h code name hname]

end KeyTable

namespace ActionParser

/-- **Names and sequences.** Names of the codes of a sequence, in any letter case
and however set apart, are parsed to it; and a text is not parsed if and only if
it has no words, or one that is no name. -/
theorem names_round_trip (text : Str) :
    (∀ (s : KeySequence) (layout : Words.Layout isspace), s ≠ [] →
      List.Forall₂ KeyTable.new.Spells layout.words s → parseSequence layout.text .new = some s) ∧
    (parseSequence text .new = none ↔ Words.words isspace text = [] ∨
      ∃ w ∈ Words.words isspace text, ¬ KeyTable.Registered w) := by
  constructor
  · intro s layout hs hnames
    have hcodes : List.Forall₂ (fun w c => KeyTable.new.findCode w = some c) layout.words s :=
      hnames.imp fun _ _ hw => KeyTable.inverse_new.findCode hw
    have hword : ∀ w ∈ layout.words, Words.IsWord isspace w := by
      have hboth : List.Forall₂ (fun w c => Words.IsWord isspace w ∧ KeyTable.new.findCode w = some c)
          layout.words s := by
        refine hcodes.imp fun w c hc => ⟨(plainNames_new w ?_).1, hc⟩
        rw [hc]
        rfl
      exact ((List.forall₂_and_left _ _).mp hboth).1
    have hwords : Words.words isspace layout.text = layout.words := layout.words_text hword
    apply parseSequence_eq_some hs
    rw [hwords]
    exact hcodes
  · rw [parseSequence_eq_none_iff]
    unfold Unresolved
    simp only [KeyTable.findCode_new_eq_none]

/-- Two names in other letter cases. -/
theorem names_round_trip_typed :
    parseSequence "  FW_up\tLK3_>\n".toList .new = some [kpkeyFwUp, k3keyLpgfwd] :=
  (names_round_trip []).1 [kpkeyFwUp, k3keyLpgfwd]
    ⟨"  ".toList, [("FW_up".toList, "\t".toList), ("LK3_>".toList, "\n".toList)], by decide +kernel,
      by decide +kernel, by decide +kernel⟩ (by decide +kernel)
    (.cons ⟨"FW_Up".toList, by decide +kernel, by decide +kernel⟩
      (.cons ⟨"lk3_>".toList, by decide +kernel, by decide +kernel⟩ .nil))

end ActionParser
end Launchpad
