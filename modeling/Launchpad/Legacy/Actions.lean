/-
# The legacy action table

The actions of `src/launchpad.c` and the lookup of a captured sequence in
them. A `struct action` keeps its key codes in a `short` array with a length;
`sequence` is the part in use.
-/
import Launchpad.KeyTable

namespace Launchpad
namespace Legacy

open KeyCodes

/-- The longest hotkey sequence, `MAXSEQ`. -/
def maxSeq : ℕ := 8

inductive ActionType
  | sendKeys
  | shellCommand
  | kindleKeys
  | kindleScript
  deriving DecidableEq

/-- `struct action`. -/
structure Action where
  type : ActionType
  sequence : List RawKeyCode
  command : Str
  dispname : Str
  deriving DecidableEq

/-- What `find_sequence_action` returns when it is not `NULL`: an action, or
the pointer `-1` that stands for the built-in screenshot. -/
inductive FoundAction
  | action (a : Action)
  | screenshot
  deriving DecidableEq

/-- The first action of that sequence; failing that, the screenshot for the
introducer's Shift followed by two more. -/
def findSequenceAction (actions : List Action) (seq : List RawKeyCode) : Option FoundAction :=
  match actions.find? (·.sequence = seq) with
  | some a => some (.action a)
  | none => if seq = [kpkeyShift, kpkeyShift] then some .screenshot else none

/-- `default_key_alias`: the codes of Kindle 3 keys and of the same keys on the
other models. -/
def defaultKeyAlias : List (ℤ × ℤ) :=
  [(190, 90),    -- K3KEY_AA, KPKEY_AA
   (126, 94),    -- K3KEY_SYM, KPKEY_SYM
   (102, 98),    -- K3KEY_HOME, KPKEY_HOME
   (158, 91),    -- K3KEY_BACK, KPKEY_BACK
   (191, 124),   -- K3KEY_PGFWD, KPKEY_PGFWD
   (193, 109),   -- K3KEY_LPGBCK, KPKEY_PGBCK
   (104, 124),   -- K3KEY_LPGFWD, KPKEY_PGFWD
   (115, 115),   -- K3KEY_VPLUS, KPKEY_VPLUS
   (114, 114),   -- K3KEY_VMINUS, KPKEY_VMINUS
   (103, 122),   -- K3KEY_FW_UP, KPKEY_FW_UP
   (108, 123),   -- K3KEY_FW_DOWN, KPKEY_FW_DOWN
   (194, 92)]    -- K3KEY_FW_PRESS, KPKEY_FW_PRESS

def getKeySubstituteCode (code : ℤ) : ℤ := (defaultKeyAlias.lookup code).getD code

theorem lookup_getD_cons {α β : Type*} [DecidableEq α] (x a : α) (b d : β) (l : List (α × β)) :
    (((a, b) :: l).lookup x).getD d = if x = a then b else (l.lookup x).getD d := by
  by_cases h : x = a
  · subst h; simp
  · have hb : (x == a) = false := by simpa using h
    simp only [List.lookup_cons, hb, if_neg h]

/-- Both programs substitute alike. -/
theorem getKeySubstituteCode_eq (table : KeyTable) (code : RawKeyCode) :
    Int16.ofInt (getKeySubstituteCode code.toInt) = table.getSubstituteCode code := by
  have htable : defaultKeyAlias = [(k3keyAa, kpkeyAa), (k3keySym, kpkeySym), (k3keyHome, kpkeyHome),
      (k3keyBack, kpkeyBack), (k3keyPgfwd, kpkeyPgfwd), (k3keyLpgbck, kpkeyPgbck),
      (k3keyLpgfwd, kpkeyPgfwd), (k3keyVplus, kpkeyVplus), (k3keyVminus, kpkeyVminus),
      (k3keyFwUp, kpkeyFwUp), (k3keyFwDown, kpkeyFwDown), (k3keyFwPress, kpkeyFwPress)].map
        fun p => (p.1.toInt, p.2.toInt) := by decide
  have hlookup : ∀ l : List (RawKeyCode × RawKeyCode),
      Int16.ofInt (((l.map fun p => (p.1.toInt, p.2.toInt)).lookup code.toInt).getD code.toInt) =
        (l.lookup code).getD code := by
    intro l
    induction l with
    | nil => simp
    | cons p l ih =>
      obtain ⟨a, b⟩ := p
      rw [List.map_cons, lookup_getD_cons, lookup_getD_cons, apply_ite Int16.ofInt, ih]
      simp [Int16.toInt_inj]
  rw [getKeySubstituteCode, htable, hlookup]
  simp only [lookup_getD_cons, List.lookup_nil, Option.getD_none, KeyTable.getSubstituteCode]

end Legacy
end Launchpad
