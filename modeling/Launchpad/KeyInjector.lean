/-
# Key injection

`LinuxKeyInjector` of `src/hal/linux_key_injector.cpp`: keys are sent by writing
command lines to two device files, one of the keypad and one of the five-way. A
file that could not be opened is not written to.
-/
import Launchpad.ActionExecutor

namespace Launchpad

open KeyCodes

/-- The files `/proc/keypad` and `/proc/fiveway`. -/
inductive ProcFile
  | keypad
  | fiveway
  deriving DecidableEq

/-- A call of `write`. -/
structure ProcWrite where
  file : ProcFile
  line : Str
  deriving DecidableEq

/-- A line is written, if the file is open. -/
def writeTo (opened : ProcFile → Bool) (file : ProcFile) (line : Str) : List ProcWrite :=
  if opened file then [⟨file, line⟩] else []

/-- The commands of the keypad, by mode. -/
def SendMode.command : SendMode → Str
  | .normal => "send".toList
  | .shift => "sendshift".toList
  | .alt => "sendalt".toList

/-- The injector: which files its constructor could open, and the code and mode
its callers' `AsciiTranslator` has for a character. -/
structure LinuxKeyInjector where
  opened : ProcFile → Bool
  translate : Char → RawKeyCode × SendMode

namespace LinuxKeyInjector

variable (i : LinuxKeyInjector)

def isFivewayCode (code : RawKeyCode) : Bool :=
  code == kpkeyFwLeft || code == kpkeyFwRight || code == kpkeyFwUp || code == kpkeyFwDown ||
    code == kpkeyFwPress

/-- The conversion `%u` of a code, which is promoted to an `int`. -/
def decimal (code : RawKeyCode) : Str := (toString (code.toInt % 4294967296)).toList

def writeToFiveway (code : RawKeyCode) : List ProcWrite :=
  writeTo i.opened .fiveway ("send ".toList ++ decimal code ++ "\n".toList)

def writeToKeypad (code : RawKeyCode) (mode : SendMode) : List ProcWrite :=
  writeTo i.opened .keypad (mode.command ++ " ".toList ++ decimal code ++ "\n".toList)

def injectKey (code : RawKeyCode) (mode : SendMode) : List ProcWrite :=
  if isFivewayCode code then i.writeToFiveway code else i.writeToKeypad code mode

def injectAsciiChar (c : Char) : List ProcWrite :=
  let mapping := i.translate c
  if mapping.1 ≠ 0 then i.injectKey mapping.1 mapping.2 else []

/-- What a call writes. -/
def writes : Call → List ProcWrite
  | .injectKey code mode => i.injectKey code mode
  | .injectAsciiChar c => i.injectAsciiChar c
  | _ => []

end LinuxKeyInjector
end Launchpad
