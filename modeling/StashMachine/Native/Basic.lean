import StashMachine.Machine.Registers

/-!
# StashMachine.Native.Basic — code supplied from outside

Methods without a body run native code.  It runs inside the frame of the call, where its parameters
are bound, and leaves its result on the stash.
-/

namespace StashMachine

/-- Where native code comes from. -/
inductive Origin
  | builtIn | plugin
deriving DecidableEq

/-- A piece of native code. -/
structure Native where
  origin : Origin
  call : Step Unit

/-- Native code by the key `Class::name(T1,T2): R`. -/
abbrev Natives := List (String × Native)

namespace Natives

/-- No native code. -/
def empty : Natives := []

/-- The code registered under a key. -/
def get? (n : Natives) (key : String) : Option Native := n.lookup key

/-- Whether code is registered under a key. -/
def contains (n : Natives) (key : String) : Bool := (n.get? key).isSome

/-- Registers code, in place of what the key had before. -/
def register (n : Natives) (key : String) (code : Native) : Natives :=
  (key, code) :: n.filter (fun entry => entry.1 != key)

end Natives

end StashMachine
