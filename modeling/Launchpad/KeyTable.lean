/-
# Keys: symbolic names and codes

`KeyTable` of `src/domain/key_definition.cpp`: two maps between evdev codes
and key names, filled with the default names when it is built, and the
substitution that takes a Kindle 3 code to the code the same key has on the
other models. Names are looked up without regard to letter case.
-/
import Mathlib.Data.List.AList
import Launchpad.Units

namespace Launchpad

/-! ### Key codes -/

namespace KeyCodes

abbrev kpkey1 : RawKeyCode := 2
abbrev kpkey2 : RawKeyCode := 3
abbrev kpkey3 : RawKeyCode := 4
abbrev kpkey4 : RawKeyCode := 5
abbrev kpkey5 : RawKeyCode := 6
abbrev kpkey6 : RawKeyCode := 7
abbrev kpkey7 : RawKeyCode := 8
abbrev kpkey8 : RawKeyCode := 9
abbrev kpkey9 : RawKeyCode := 10
abbrev kpkey0 : RawKeyCode := 11
abbrev kpkeyQ : RawKeyCode := 16
abbrev kpkeyW : RawKeyCode := 17
abbrev kpkeyE : RawKeyCode := 18
abbrev kpkeyR : RawKeyCode := 19
abbrev kpkeyT : RawKeyCode := 20
abbrev kpkeyY : RawKeyCode := 21
abbrev kpkeyU : RawKeyCode := 22
abbrev kpkeyI : RawKeyCode := 23
abbrev kpkeyO : RawKeyCode := 24
abbrev kpkeyP : RawKeyCode := 25
abbrev kpkeyA : RawKeyCode := 30
abbrev kpkeyS : RawKeyCode := 31
abbrev kpkeyD : RawKeyCode := 32
abbrev kpkeyF : RawKeyCode := 33
abbrev kpkeyG : RawKeyCode := 34
abbrev kpkeyH : RawKeyCode := 35
abbrev kpkeyJ : RawKeyCode := 36
abbrev kpkeyK : RawKeyCode := 37
abbrev kpkeyL : RawKeyCode := 38
abbrev kpkeyDel : RawKeyCode := 14
abbrev kpkeyZ : RawKeyCode := 44
abbrev kpkeyX : RawKeyCode := 45
abbrev kpkeyC : RawKeyCode := 46
abbrev kpkeyV : RawKeyCode := 47
abbrev kpkeyB : RawKeyCode := 48
abbrev kpkeyN : RawKeyCode := 49
abbrev kpkeyM : RawKeyCode := 50
abbrev kpkeyDot : RawKeyCode := 52
abbrev kpkeySlash : RawKeyCode := 53
abbrev kpkeyEnter : RawKeyCode := 28
abbrev kpkeyShift : RawKeyCode := 42
abbrev kpkeyAlt : RawKeyCode := 56
abbrev kpkeySpace : RawKeyCode := 57
abbrev kpkeyAa : RawKeyCode := 90
abbrev kpkeySym : RawKeyCode := 94
abbrev kpkeyVplus : RawKeyCode := 115
abbrev kpkeyVminus : RawKeyCode := 114
abbrev kpkeyHome : RawKeyCode := 98
abbrev kpkeyPgbck : RawKeyCode := 109
abbrev kpkeyPgfwd : RawKeyCode := 124
abbrev kpkeyMenu : RawKeyCode := 139
abbrev kpkeyBack : RawKeyCode := 91
abbrev kpkeyFwLeft : RawKeyCode := 105
abbrev kpkeyFwRight : RawKeyCode := 106
abbrev kpkeyFwUp : RawKeyCode := 122
abbrev kpkeyFwDown : RawKeyCode := 123
abbrev kpkeyFwPress : RawKeyCode := 92
abbrev k3keyAa : RawKeyCode := 190
abbrev k3keySym : RawKeyCode := 126
abbrev k3keyHome : RawKeyCode := 102
abbrev k3keyBack : RawKeyCode := 158
abbrev k3keyPgfwd : RawKeyCode := 191
abbrev k3keyLpgbck : RawKeyCode := 193
abbrev k3keyLpgfwd : RawKeyCode := 104
abbrev k3keyVplus : RawKeyCode := 115
abbrev k3keyVminus : RawKeyCode := 114
abbrev k3keyFwUp : RawKeyCode := 103
abbrev k3keyFwDown : RawKeyCode := 108
abbrev k3keyFwPress : RawKeyCode := 194

end KeyCodes

open KeyCodes

/-! ### The table -/

/-- The maps of `KeyTable`; names are keyed in lower case. -/
structure KeyTable where
  nameToCode : AList fun _ : Str => RawKeyCode
  codeToName : AList fun _ : RawKeyCode => Str

namespace KeyTable

def normalizeName (name : Str) : Str := name.map tolower

def registerKey (t : KeyTable) (code : RawKeyCode) (name : Str) : KeyTable where
  nameToCode := t.nameToCode.insert (normalizeName name) code
  codeToName := t.codeToName.insert code name

def findCode (t : KeyTable) (name : Str) : Option RawKeyCode :=
  t.nameToCode.lookup (normalizeName name)

def findName (t : KeyTable) (code : RawKeyCode) : Option Str := t.codeToName.lookup code

def getSubstituteCode (_ : KeyTable) (code : RawKeyCode) : RawKeyCode :=
  if code = k3keyAa then kpkeyAa else
  if code = k3keySym then kpkeySym else
  if code = k3keyHome then kpkeyHome else
  if code = k3keyBack then kpkeyBack else
  if code = k3keyPgfwd then kpkeyPgfwd else
  if code = k3keyLpgbck then kpkeyPgbck else
  if code = k3keyLpgfwd then kpkeyPgfwd else
  if code = k3keyVplus then kpkeyVplus else
  if code = k3keyVminus then kpkeyVminus else
  if code = k3keyFwUp then kpkeyFwUp else
  if code = k3keyFwDown then kpkeyFwDown else
  if code = k3keyFwPress then kpkeyFwPress else
  code

/-- The keys of `populate_defaults`. -/
def defaultKeys : List (RawKeyCode × Str) :=
  [(kpkey1, "1".toList), (kpkey2, "2".toList), (kpkey3, "3".toList), (kpkey4, "4".toList),
   (kpkey5, "5".toList), (kpkey6, "6".toList), (kpkey7, "7".toList), (kpkey8, "8".toList),
   (kpkey9, "9".toList), (kpkey0, "0".toList), (kpkeyQ, "Q".toList), (kpkeyW, "W".toList),
   (kpkeyE, "E".toList), (kpkeyR, "R".toList), (kpkeyT, "T".toList), (kpkeyY, "Y".toList),
   (kpkeyU, "U".toList), (kpkeyI, "I".toList), (kpkeyO, "O".toList), (kpkeyP, "P".toList),
   (kpkeyA, "A".toList), (kpkeyS, "S".toList), (kpkeyD, "D".toList), (kpkeyF, "F".toList),
   (kpkeyG, "G".toList), (kpkeyH, "H".toList), (kpkeyJ, "J".toList), (kpkeyK, "K".toList),
   (kpkeyL, "L".toList), (kpkeyDel, "Del".toList), (kpkeyZ, "Z".toList), (kpkeyX, "X".toList),
   (kpkeyC, "C".toList), (kpkeyV, "V".toList), (kpkeyB, "B".toList), (kpkeyN, "N".toList),
   (kpkeyM, "M".toList), (kpkeyDot, "Dot".toList), (kpkeySlash, "Slash".toList),
   (kpkeyEnter, "Enter".toList), (kpkeyShift, "Shift".toList), (kpkeyAlt, "Alt".toList),
   (kpkeySpace, "Space".toList), (kpkeyAa, "aA".toList), (kpkeySym, "Sym".toList),
   (kpkeyVplus, "VPlus".toList), (kpkeyVminus, "VMinus".toList), (kpkeyHome, "Home".toList),
   (kpkeyPgbck, "<".toList), (kpkeyPgfwd, ">".toList), (kpkeyMenu, "Menu".toList),
   (kpkeyBack, "Back".toList), (kpkeyFwLeft, "FW_Left".toList), (kpkeyFwRight, "FW_Right".toList),
   (kpkeyFwUp, "FW_Up".toList), (kpkeyFwDown, "FW_Down".toList),
   (kpkeyFwPress, "FW_Press".toList)]

/-- The keys of `populate_aliases`. -/
def aliasKeys : List (RawKeyCode × Str) :=
  [(k3keyAa, "k3_aA".toList), (k3keySym, "k3_Sym".toList), (k3keyHome, "k3_Home".toList),
   (k3keyBack, "k3_Back".toList), (k3keyPgfwd, "k3_>".toList), (k3keyLpgbck, "lk3_<".toList),
   (k3keyLpgfwd, "lk3_>".toList), (k3keyFwUp, "k3_FW_Up".toList),
   (k3keyFwDown, "k3_FW_Down".toList), (k3keyFwPress, "k3_FW_Press".toList)]

/-- `register_key` for every key of the list. -/
def registerKeys (t : KeyTable) (keys : List (RawKeyCode × Str)) : KeyTable :=
  keys.foldl (fun t k => t.registerKey k.1 k.2) t

def populateAliases (t : KeyTable) : KeyTable := t.registerKeys aliasKeys

def populateDefaults (t : KeyTable) : KeyTable := (t.registerKeys defaultKeys).populateAliases

/-- The constructor `KeyTable()`. -/
def new : KeyTable := populateDefaults ⟨∅, ∅⟩

end KeyTable
end Launchpad
