import Lockstep.Files.Folder
import Lockstep.Report.Basic
import Lockstep.Settings.Text
/-!
Checking files by path, with settings that may come from a file too.
-/

set_option autoImplicit false
set_option relaxedAutoImplicit false

namespace Lockstep

abbrev TextLookup : Type := String → Except ReadFailure String

inductive FileFailure where
  | source (path : String) (cause : ReadFailure)
  | settings (path : String) (cause : ReadFailure)
  | settingsText (path : String) (cause : JsonFault)
deriving DecidableEq, Repr

namespace FileFailure

def message : FileFailure → String
  | source path _ => "cannot read '" ++ path ++ "'"
  | settings path _ => "cannot read config '" ++ path ++ "'"
  | settingsText path _ => "invalid config '" ++ path ++ "'"

def cause : FileFailure → String
  | source _ cause => cause.message
  | settings _ cause => cause.message
  | settingsText _ cause => cause.message

def chain (f : FileFailure) : String := f.message ++ ": " ++ f.cause

end FileFailure

def loadSettings (read : TextLookup) (path : String) : Except FileFailure Settings := do
  let text ← (read path).mapError (FileFailure.settings path)
  (Settings.ofText text).mapError (FileFailure.settingsText path)

def checkFile (read : TextLookup) (settings : Settings) (path : String) :
    Except FileFailure Checked := do
  let text ← (read path).mapError (FileFailure.source path)
  return checkSource settings path text

end Lockstep
