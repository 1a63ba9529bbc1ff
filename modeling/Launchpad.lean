import Launchpad.Runs
import Launchpad.Cells
import Launchpad.Words
import Launchpad.Bytes
import Launchpad.Bmp
import Launchpad.Units
import Launchpad.KeyTable
import Launchpad.SequenceMatcher
import Launchpad.Capture
import Launchpad.Hardware
import Launchpad.Legacy.Actions
import Launchpad.Legacy.IniFile
import Launchpad.Legacy.IniTables
import Launchpad.Legacy.IniText
import Launchpad.Legacy.IniMemory
import Launchpad.Legacy.IniScan
import Launchpad.Legacy.IniBounds
import Launchpad.Legacy.IniRoom
import Launchpad.Legacy.IniRows
import Launchpad.Legacy.IniLookup
import Launchpad.Legacy.IniSections
import Launchpad.Legacy.Hotkeys
import Launchpad.Legacy.Refines
import Launchpad.Legacy.CaptureBuffer
import Launchpad.Action
import Launchpad.ActionExecutor
import Launchpad.SendKeys
import Launchpad.Effects
import Launchpad.Config.IniParser
import Launchpad.Config.IniText
import Launchpad.Config.ConfigScanner
import Launchpad.Layers
import Launchpad.Config.Precedence
import Launchpad.Display
import Launchpad.StatusBar
import Launchpad.Overlay
import Launchpad.Application
import Launchpad.CaptureMode
import Launchpad.Screen
import Launchpad.Bindings
import Launchpad.RceServer
import Launchpad.Flock
import Launchpad.PidLock
import Launchpad.Reload
import Launchpad.KindleDisplay
import Launchpad.ScreenshotWriter
import Launchpad.Framebuffer
import Launchpad.OutStream
import Launchpad.ScreenshotFile
import Launchpad.Session
import Launchpad.Legacy.Headers
import Launchpad.Legacy.IniAgree
import Launchpad.Legacy.Registration
import Launchpad.RoundRobin
import Launchpad.EvdevInput
import Launchpad.EvdevGrab
import Launchpad.HotInterval
import Launchpad.KeyNames
import Launchpad.KeyInjector
import Launchpad.Legacy.SendKeys
import Launchpad.Legacy.Routing
import Launchpad.Legacy.IdleTicks
import Launchpad.Legacy.Introducer
import Launchpad.CStrings
import Launchpad.Legacy.KeyDefs
import Launchpad.Legacy.Settings
import Launchpad.Legacy.AsciiTab
import Launchpad.Pairings
import Launchpad.KeyPairs
import Launchpad.Legacy.Rce
import Launchpad.Blocks
import Launchpad.Legacy.Pixop
import Launchpad.Legacy.StatusBar
import Launchpad.Legacy.Screenshot
import Launchpad.Legacy.KindleScript
import Launchpad.Legacy.SendKeysBuffer
import Launchpad.Interrupts
import Launchpad.Legacy.AlarmRaces
import Launchpad.Segments
import Launchpad.TypedActions
import Launchpad.Legacy.Lifecycle
import Launchpad.Legacy.SelectLoop
import Launchpad.UpdatePackage
