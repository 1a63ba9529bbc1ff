/-
# Keys registered later

`register_key` enters a code and a name in the two maps of a `KeyTable`. Where the
code had another name, or the name another code, the old entry stays in the map
that is keyed by what is new, and the two maps contradict each other. They stay
inverse to each other through any registrations exactly when no two of them, those
of the constructor included, share the code and not the name or the name and not
the code (`bidirectional_iff`).
-/
import Launchpad.KeyNames
import Launchpad.Pairings

namespace Launchpad
namespace KeyTable

/-- The two maps are inverse to each other, up to letter case. -/
structure Bidirectional (t : KeyTable) : Prop where
  code_of_name : ∀ code name, t.findName code = some name → t.findCode name = some code
  name_of_code : ∀ name code, t.findCode name = some code →
    ∃ name', t.findName code = some name' ∧ normalizeName name' = normalizeName name

/-- Two registrations have the same code exactly when they have the same name. -/
def SameKey (k k' : RawKeyCode × Str) : Prop := k.1 = k'.1 ↔ normalizeName k.2 = normalizeName k'.2

instance (k k' : RawKeyCode × Str) : Decidable (SameKey k k') := inferInstanceAs (Decidable (_ ↔ _))

/-- What a registration enters in the maps. -/
def entry (k : RawKeyCode × Str) : RawKeyCode × Str := (k.1, normalizeName k.2)

/-- The table after registrations from the empty one. -/
def ofKeys (keys : List (RawKeyCode × Str)) : KeyTable := (⟨∅, ∅⟩ : KeyTable).registerKeys keys

theorem ofKeys_concat (keys : List (RawKeyCode × Str)) (k : RawKeyCode × Str) :
    ofKeys (keys ++ [k]) = (ofKeys keys).registerKey k.1 k.2 := List.foldl_concat ..

theorem findCode_ofKeys (keys : List (RawKeyCode × Str)) (w : Str) :
    (ofKeys keys).findCode w = Pairings.left (keys.map entry) (normalizeName w) := by
  induction keys using List.reverseRecOn with
  | nil => rfl
  | append_singleton keys k ih =>
    rw [ofKeys_concat, findCode_registerKey, List.map_append, List.map_singleton, Pairings.left_concat, ih]
    rfl

theorem findName_ofKeys (keys : List (RawKeyCode × Str)) (code : RawKeyCode) :
    ((ofKeys keys).findName code).map normalizeName = Pairings.right (keys.map entry) code := by
  induction keys using List.reverseRecOn with
  | nil => rfl
  | append_singleton keys k ih =>
    rw [ofKeys_concat, findName_registerKey, List.map_append, List.map_singleton,
      Pairings.right_concat, ← ih]
    by_cases hcode : code = k.1
    · rw [if_pos hcode]
      exact (if_pos hcode).symm
    · rw [if_neg hcode]
      exact (if_neg hcode).symm

/-- The maps are inverse as the entries are. -/
theorem bidirectional_ofKeys (keys : List (RawKeyCode × Str)) :
    (ofKeys keys).Bidirectional ↔ Pairings.Inverse (keys.map entry) := by
  have hname : ∀ code n, Pairings.right (keys.map entry) code = some n ↔
      ∃ name, (ofKeys keys).findName code = some name ∧ normalizeName name = n := fun code n => by
    rw [← findName_ofKeys, Option.map_eq_some_iff]
  constructor
  · intro h code n
    rw [hname]
    constructor
    · rintro ⟨name, hcode, rfl⟩
      rw [← findCode_ofKeys]
      exact h.code_of_name code name hcode
    · intro hleft
      obtain ⟨w, rfl⟩ : ∃ w, normalizeName w = n := by
        obtain ⟨p, hp, -⟩ := Option.map_eq_some_iff.mp hleft
        have hmem := List.mem_reverse.mp (List.mem_of_find?_eq_some hp)
        obtain ⟨k, -, rfl⟩ := List.mem_map.mp hmem
        have hk : (entry k).2 = n := by simpa using List.find?_some hp
        exact ⟨k.2, hk⟩
      rw [← findCode_ofKeys] at hleft
      exact h.name_of_code w code hleft
  · intro h
    refine ⟨fun code name hcode => ?_, fun name code hcode => ?_⟩
    · rw [findCode_ofKeys]
      exact (h code _).mp ((hname code _).mpr ⟨name, hcode, rfl⟩)
    · rw [findCode_ofKeys] at hcode
      exact (hname code _).mp ((h code _).mpr hcode)

theorem agree_defaultKeys : ((defaultKeys ++ aliasKeys).map entry).Pairwise Pairings.Agree := by
  set_option maxRecDepth 10000 in decide +kernel

/-- **When the maps stay inverse.** After every one of the registrations, exactly when
any two of them, the default ones included, have the same code if and only if they
have the same name. -/
theorem bidirectional_iff (keys : List (RawKeyCode × Str)) :
    (∀ pre, pre <+: keys → (new.registerKeys pre).Bidirectional) ↔
      (defaultKeys ++ aliasKeys ++ keys).Pairwise SameKey := by
  have hnew : ∀ pre, new.registerKeys pre = ofKeys (defaultKeys ++ aliasKeys ++ pre) := fun pre => by
    rw [new_eq]
    exact (List.foldl_append ..).symm
  have hpre : (∀ pre, pre <+: keys → (new.registerKeys pre).Bidirectional) ↔
      ∀ pre, pre <+: keys.map entry →
        Pairings.Inverse ((defaultKeys ++ aliasKeys).map entry ++ pre) := by
    constructor
    · intro h pre hpre
      obtain ⟨keys', hkeys, rfl⟩ := List.prefix_map_iff.mp hpre
      rw [← List.map_append, ← bidirectional_ofKeys, ← hnew]
      exact h keys' hkeys
    · intro h pre hpre
      rw [hnew, bidirectional_ofKeys, List.map_append]
      exact h _ (hpre.map entry)
  rw [hpre, Pairings.inverse_prefixes_iff agree_defaultKeys, ← List.map_append, List.pairwise_map]
  rfl

/-- The name of the shift key registered for another code. -/
theorem not_bidirectional_shift :
    ¬ (new.registerKeys [(200, "Shift".toList)]).Bidirectional := by
  intro h
  have hname : (new.registerKeys [(200, "Shift".toList)]).findName 42 = some "Shift".toList := by
    decide +kernel
  exact absurd (h.code_of_name 42 _ hname) (by decide +kernel)

end KeyTable
end Launchpad
