/-
Requests to a mounted file system and runs of them.  `Request.Contract` is
what the callers of the entry points promise about the arguments.
-/
import Fs5600.Operations

namespace Fs5600

open EffectProgram Program

inductive Call where
  | init
  | getattr (path : CString)
  | readdir (path : CString)
  | create (path : CString) (mode : UInt32)
  | mkdir (path : CString) (mode : UInt32)
  | unlink (path : CString)
  | rmdir (path : CString)
  | rename (srcPath dstPath : CString)
  | chmod (path : CString) (mode : UInt32)
  | utime (path : CString) (modtime : Int)
  | truncate (path : CString) (len : Int)
  | read (path : CString) (len : Nat) (offset : Int)
  | write (path : CString) (buf : List UInt8) (offset : Int)
  | statfs

structure Request where
  ctx : Context
  call : Call

/-- What a call hands back besides an early error return. -/
inductive Reply where
  | code (result : Int)
  | null (result : UInt64)
  | attr (stat : Stat)
  | listing (result : Int) (filled : List (Name × Stat))
  | data (result : Int) (bytes : List UInt8)
  | vfs (stat : StatVfs)
deriving DecidableEq

def Request.perform (request : Request) : Fs Reply :=
  match request.call with
  | .init => do pure (.null (← fsInit))
  | .getattr path => do pure (.attr (← fsGetattr path))
  | .readdir path => do
      let (result, filled) ← fsReaddir path
      pure (.listing result filled)
  | .create path mode => do pure (.code (← fsCreate request.ctx path mode))
  | .mkdir path mode => do pure (.code (← fsMkdir request.ctx path mode))
  | .unlink path => do pure (.code (← fsUnlink path))
  | .rmdir path => do pure (.code (← fsRmdir path))
  | .rename srcPath dstPath => do pure (.code (← fsRename srcPath dstPath))
  | .chmod path mode => do pure (.code (← fsChmod path mode))
  | .utime path modtime => do pure (.code (← fsUtime path modtime))
  | .truncate path len => do pure (.code (← fsTruncate path len))
  | .read path len offset => do
      let (result, bytes) ← fsRead path len offset
      pure (.data result bytes)
  | .write path buf offset => do
      pure (.code (← fsWrite request.ctx path buf offset))
  | .statfs => do pure (.vfs (← fsStatfs))

/-- Serve the requests in order; an error return ends its own call only. -/
def serve : List Request → World → Option (List (Except Int Reply) × World)
  | [], world => some ([], world)
  | request :: requests, world =>
      match run request.perform world with
      | none => none
      | some (reply, world') =>
          (serve requests world').map fun rest => (reply :: rest.1, rest.2)

theorem serve_cons {request : Request} {world world' : World}
    {reply : Except Int Reply} (requests : List Request)
    (hrun : run request.perform world = some (reply, world')) :
    serve (request :: requests) world =
      (serve requests world').map fun rest => (reply :: rest.1, rest.2) := by
  rw [serve, hrun]

/-- Arguments within the contract of the entry points.  `create` gets the
type bits of a regular file and `mkdir` none; removing and creating calls
name something below the root; a write ends within the 1019 pointers of an
inode; lengths of `truncate` fit an `int`. -/
def Call.Contract : Call → Prop
  | .create path mode => components path ≠ [] ∧ mode &&& sIfmt = sIfreg
  | .mkdir path mode => components path ≠ [] ∧ mode &&& sIfmt = 0
  | .unlink path => components path ≠ []
  | .rmdir path => components path ≠ []
  | .truncate _ len => len < 2147483648
  | .read _ len offset =>
      1 ≤ len ∧ 0 ≤ offset ∧ offset + len < 9223372036854775808
  | .write _ buf offset =>
      1 ≤ buf.length ∧ 0 ≤ offset ∧ offset + buf.length ≤ 4173824
  | _ => True

instance (call : Call) : Decidable call.Contract :=
  match call with
  | .create path mode => inferInstanceAs
      (Decidable (components path ≠ [] ∧ mode &&& sIfmt = sIfreg))
  | .mkdir path mode => inferInstanceAs
      (Decidable (components path ≠ [] ∧ mode &&& sIfmt = 0))
  | .unlink path | .rmdir path =>
      inferInstanceAs (Decidable (components path ≠ []))
  | .truncate _ len => inferInstanceAs (Decidable (len < 2147483648))
  | .read _ len offset => inferInstanceAs (Decidable
      (1 ≤ len ∧ 0 ≤ offset ∧ offset + len < 9223372036854775808))
  | .write _ buf offset => inferInstanceAs (Decidable
      (1 ≤ buf.length ∧ 0 ≤ offset ∧ offset + buf.length ≤ 4173824))
  | .init | .getattr _ | .readdir _ | .rename _ _ | .chmod _ _ | .utime _ _
  | .statfs => .isTrue trivial

end Fs5600
