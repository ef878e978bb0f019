import Unitrace.Lib.ByteString

/-!
# Conditional collection

`UniController` decides for every call whether it is collected, from a flag that
pause and resume set and from the environment of the process.
-/
namespace Unitrace.Itt.Control

open Unitrace.Lib.ByteString

/-- `setenv` with overwriting: the first entry of the name is replaced, or a new entry
is appended. `head` is the name with its equals sign. -/
def setEntry (head value : Bytes) : List Bytes → List Bytes
  | [] => [head ++ value]
  | entry :: rest =>
    if head.isPrefixOf entry then (head ++ value) :: rest else entry :: setEntry head value rest

structure UniController where
  conditionalCollection : Bool
  ittPaused : Bool
  /-- The entries of `environ`, or `none` for a null pointer. -/
  environ : Option (List Bytes)

def enableCollection : Bytes := lit "PTI_ENABLE_COLLECTION="

/-- The value of the last entry of the variable. -/
def lastValue (entries : List Bytes) : Option Bytes :=
  (entries.reverse.find? fun entry => enableCollection.isPrefixOf entry).map fun entry =>
    entry.drop enableCollection.length

def UniController.isCollectionEnabled (c : UniController) : Bool :=
  if c.conditionalCollection then
    if c.ittPaused then false
    else
      match c.environ with
      | none => true
      | some entries =>
        match lastValue entries with
        | none => false
        | some value => value.head? != some 48
  else true

def UniController.setEnv (c : UniController) (value : Bytes) : UniController :=
  { c with environ := some (setEntry enableCollection value (c.environ.getD [])) }

def UniController.ittPause (c : UniController) : UniController :=
  { c with ittPaused := true }.setEnv (lit "0")

def UniController.ittResume (c : UniController) : UniController :=
  { c with ittPaused := false }.setEnv (lit "1")

end Unitrace.Itt.Control
