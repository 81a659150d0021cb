import KvMem.Foundation.FixedWidth

/-! # Shared data types

Status values, versions of a key, file names, and the machine limits the checks
of the engine refer to. A path that a message ends in is left out of the text.
-/

namespace KvMem

inductive Status where
  | ok
  | notFound (message : String)
  | ioError (message : String)
  | corruption (message : String)
  | invalidArgument (message : String)
  deriving DecidableEq, Repr

structure VersionedEntry where
  key : Bytes
  sequence : Nat
  value : Bytes
  deleted : Bool
  deriving DecidableEq, Repr

/-- The files of a database directory. Names the engine never writes are `other`. -/
inductive FileName where
  | current
  | currentTmp
  | manifest
  | wal (number : Nat)
  | sst (number : Nat)
  | sstTmp (number : Nat)
  | other (name : Bytes)
  deriving DecidableEq, Repr

def maxUInt32 : Nat := 2 ^ 32 - 1

def maxUInt64 : Nat := 2 ^ 64 - 1

def ascii (s : String) : Bytes := s.toList.map fun c => Fin.ofNat 256 c.toNat

def text (bytes : Bytes) : String := String.ofList (bytes.map fun b => Char.ofNat b.val)

end KvMem
