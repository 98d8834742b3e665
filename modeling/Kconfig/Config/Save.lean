import Kconfig.Config.Contents
import Kconfig.Config.Load
/-!
Writing configurations, headers and minimal configurations.

A file that already holds what would be written is left alone. A configuration that is replaced can
be kept under the same name with `.old` after it.
-/
namespace Kconfig.Configuring

/-- Whether a file holds a text. A file that cannot be opened holds none; one that does not decode
is an error. -/
def holdsText (path text : String) : Configuring Bool := do
  match (← get).host.files.read path with
  | .error _ =>
    checkPath path
    return false
  | .ok content =>
    match content.decoded.read (text.length + 1) with
    | .ok s => return s == text.toList
    | .error _ => throw .undecodable

/-- Writes a text unless the file holds it; tells whether it was written. -/
def writeIfChanged (path text : String) : Configuring Bool := do
  if ← holdsText path text then return false
  writeFile path text
  return true

def configStyle (header : Option String) : Configuring FileStyle := do
  let settings := (← get).settings
  return ⟨settings.configPrefix, header.getD settings.configHeader⟩

def headerStyle (header : Option String) : Configuring FileStyle := do
  let settings := (← get).settings
  return ⟨settings.configPrefix, header.getD settings.headerHeader⟩

/-- The text of the configuration. -/
def configText (header : Option String) : Configuring String := do
  follow ((← get).model.configText (← configStyle header))

/-- The text of the C header. -/
def headerText (header : Option String) : Configuring String := do
  follow ((← get).model.headerText (← headerStyle header))

/-- The text of the minimal configuration. -/
def minimalText (header : Option String) : Configuring String := do
  follow ((← get).model.minimalText (← configStyle header))

/-- Writes the configuration, and tells what happened. -/
def saveConfig (name header : Option String) (keepsOld : Bool) : Configuring String := do
  let path := name.getD (standardName (← get).host)
  let text ← configText header
  if ← holdsText path text then return s!"No change to configuration in '{path}'"
  if keepsOld then
    modify fun c => { c with host.files := c.host.files.rename path (path ++ ".old") }
  writeFile path text
  return s!"Configuration saved to '{path}'"

/-- Writes the C header, and tells what happened. -/
def saveHeader (name header : Option String) : Configuring String := do
  let standard := ((← get).host.lookup? "KCONFIG_AUTOHEADER").getD "include/generated/autoconf.h"
  let path := name.getD standard
  if ← writeIfChanged path (← headerText header) then return s!"Kconfig header saved to '{path}'"
  return s!"No change to Kconfig header in '{path}'"

/-- Writes the minimal configuration, and tells what happened. -/
def saveMinimal (path : String) (header : Option String) : Configuring String := do
  if ← writeIfChanged path (← minimalText header) then
    return s!"Minimal configuration saved to '{path}'"
  return s!"No change to minimal configuration in '{path}'"

end Kconfig.Configuring
