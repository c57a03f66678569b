/-
What the file system is for: a tree of directories and files in a limited
number of blocks, and the replies that it may give.  Nothing here is about
inodes, slots, pointers or bitmaps.
-/
import Fs5600.Tree

namespace Fs5600

open MachineWord NameTree

/-- `counted` says whether the numbers that `statfs` reports are exact. -/
structure FileSystem where
  tree : FileTree
  free : Nat
  capacity : Nat
  counted : Bool

namespace FileSystem

variable (fs : FileSystem)

/-- The reply to a mutating call, and what it leaves: a call that is refused
changes nothing. -/
def answer :
    Except Int (Int × FileSystem) → Except Int Reply × FileSystem
  | .error status => (.error status, fs)
  | .ok (result, fs') => (.ok (.code result), fs')

def newAttributes (ctx : Context) (mode : UInt32) : Attributes where
  mode := mode
  uid := .ofNat ctx.uid.toNat
  gid := .ofNat ctx.gid.toNat
  ctime := wordOfInt (ctx.time 0)
  mtime := wordOfInt (ctx.time 1)

open Classical in
/-- A directory takes at most 128 names. -/
noncomputable def make (path : List Name) (object : Object) :
    Except Int (Int × FileSystem) :=
  match fs.tree.lookup path.dropLast with
  | .error status => .error status
  | .ok (.leaf _ _) => .error (-eNotDir)
  | .ok (.branch _) =>
      if fs.tree path ≠ none then .error (-eExist)
      else if 128 ≤ (children fs.tree path.dropLast).ncard ∨
        fs.free < objectCost object then .error (-eNoSpc)
      else .ok (0, { fs with
        tree := put fs.tree path object
        free := fs.free - objectCost object })

/-- What is left when an object goes. -/
def without (path : List Name) (object : Object) : FileSystem :=
  { fs with
    tree := erase fs.tree path
    free := fs.free + objectCost object }

def unlink (path : List Name) : Except Int (Int × FileSystem) :=
  match fs.tree.lookup path with
  | .error status => .error status
  | .ok (.branch _) => .error (-eIsDir)
  | .ok (.leaf attributes content) =>
      .ok (0, fs.without path (.leaf attributes content))

open Classical in
noncomputable def rmdir (path : List Name) : Except Int (Int × FileSystem) :=
  match fs.tree.lookup path with
  | .error status => .error status
  | .ok (.leaf _ _) => .error (-eNotDir)
  | .ok (.branch attributes) =>
      if children fs.tree path ≠ ∅ then .error (-eNotEmpty)
      else .ok (0, fs.without path (.branch attributes))

open Classical in
/-- An object gets a new name in its own directory. -/
noncomputable def rename (source target : List Name) :
    Except Int (Int × FileSystem) :=
  match fs.tree.lookup source with
  | .error status => .error status
  | .ok _ =>
      if fs.tree target ≠ none then .error (-eExist)
      else if target.length ≠ source.length then .error (-eInval)
      else if source.dropLast ≠ target.dropLast then .error (-eInval)
      else .ok (0, { fs with tree := move fs.tree source target })

def chmod (path : List Name) (mode : UInt32) :
    Except Int (Int × FileSystem) :=
  match fs.tree.lookup path with
  | .error status => .error status
  | .ok object =>
      .ok (0, { fs with
        tree := put fs.tree path (updateAttributes (fun attributes =>
          { attributes with mode :=
            (attributes.mode &&& ~~~permissionsMask) |||
              (mode &&& permissionsMask) }) object) })

def utime (path : List Name) (modtime : Int) :
    Except Int (Int × FileSystem) :=
  match fs.tree.lookup path with
  | .error status => .error status
  | .ok (.branch _) => .error (-eIsDir)
  | .ok (.leaf attributes content) =>
      .ok (0, { fs with
        tree := put fs.tree path
          (.leaf { attributes with mtime := wordOfInt modtime } content) })

/-- A file is cut, or stretched within its last block; what comes into view
there is not specified. -/
def truncate (path : List Name) (len : Int) (tail : Nat → UInt8) :
    Except Int (Int × FileSystem) :=
  if len < 0 then .error (-eInval)
  else
    match fs.tree.lookup path with
    | .error status => .error status
    | .ok (.branch _) => .error (-eIsDir)
    | .ok (.leaf attributes content) =>
        if blockCount len.toNat > blockCount content.length then
          .error (-eInval)
        else .ok (0, { fs with
          tree := put fs.tree path (.leaf attributes
            (content.take len.toNat ++
              (List.range (len.toNat - content.length)).map tail))
          free := fs.free +
            (blockCount content.length - blockCount len.toNat) })

/-- The free blocks that a longer file needs. -/
def growth (content : List UInt8) (stop : Nat) : Nat :=
  blockCount stop - blockCount content.length

def write (ctx : Context) (path : List Name) (buf : List UInt8)
    (offset : Int) : Except Int (Int × FileSystem) :=
  let stop := offset.toNat + buf.length
  match fs.tree.lookup path with
  | .error status => .error status
  | .ok (.branch _) => .error (-eIsDir)
  | .ok (.leaf attributes content) =>
      if offset > content.length then .error (-eInval)
      else if fs.free < growth content stop then .error (-eNoSpc)
      else .ok (buf.length, { fs with
        tree := put fs.tree path
          (.leaf { attributes with mtime := wordOfInt (ctx.time 0) }
            (content.take offset.toNat ++ buf ++ content.drop stop))
        free := fs.free - growth content stop
        counted := fs.counted &&
          decide (blockCount content.length ≤ blockCount stop) })

def getattr (path : List Name) : Except Int Reply :=
  (fs.tree.lookup path).map fun object => .attr (objectStat object)

def read (path : List Name) (len : Nat) (offset : Int) : Except Int Reply :=
  match fs.tree.lookup path with
  | .error status => .error status
  | .ok (.branch _) => .error (-eIsDir)
  | .ok (.leaf _ content) =>
      let bytes := (content.drop offset.toNat).take len
      .ok (.data bytes.length bytes)

/-- A directory is listed in any order, each name once. -/
def Lists (path : List Name) (reply : Except Int Reply) : Prop :=
  match fs.tree.lookup path with
  | .error status => reply = .error status
  | .ok (.leaf _ _) => reply = .error (-eNotDir)
  | .ok (.branch _) => ∃ filled, reply = .ok (.listing 0 filled) ∧
      (filled.map Prod.fst).Nodup ∧
      ∀ name stat, (name, stat) ∈ filled ↔
        ∃ object, fs.tree (path ++ [name]) = some object ∧
          stat = objectStat object

structure Reports (stat : StatVfs) : Prop where
  bsize : stat.bsize = 4096
  blocks : stat.blocks.toNat = fs.capacity - 2
  namemax : stat.namemax = 27
  bfree : fs.counted = true → stat.bfree.toNat = fs.free
  bavail : fs.counted = true → stat.bavail.toNat = fs.free

/-- The replies that a request may get, and what it leaves. -/
def Allows (request : Request) (reply : Except Int Reply)
    (fs' : FileSystem) : Prop :=
  match request.call with
  | .init => reply = .ok (.null 0) ∧ fs' = { fs with counted := true }
  | .getattr path => reply = fs.getattr (parse path) ∧ fs' = fs
  | .readdir path => fs.Lists (parse path) reply ∧ fs' = fs
  | .create path mode => (reply, fs') = fs.answer
      (fs.make (parse path) (.leaf (newAttributes request.ctx mode) []))
  | .mkdir path mode => (reply, fs') = fs.answer
      (fs.make (parse path)
        (.branch (newAttributes request.ctx (mode ||| sIfdir))))
  | .unlink path => (reply, fs') = fs.answer (fs.unlink (parse path))
  | .rmdir path => (reply, fs') = fs.answer (fs.rmdir (parse path))
  | .rename srcPath dstPath =>
      (reply, fs') = fs.answer (fs.rename (parse srcPath) (parse dstPath))
  | .chmod path mode => (reply, fs') = fs.answer (fs.chmod (parse path) mode)
  | .utime path modtime =>
      (reply, fs') = fs.answer (fs.utime (parse path) modtime)
  | .truncate path len => ∃ tail,
      (reply, fs') = fs.answer (fs.truncate (parse path) len tail)
  | .read path len offset =>
      reply = fs.read (parse path) len offset ∧ fs' = fs
  | .write path buf offset =>
      (reply, fs') = fs.answer (fs.write request.ctx (parse path) buf offset)
  | .statfs => (∃ stat, reply = .ok (.vfs stat) ∧ fs.Reports stat) ∧ fs' = fs

/-! What a call that succeeds has found. -/

section

variable {fs} {fs' : FileSystem} {path : List Name} {result : Int}

theorem answer_eq_ok {outcome : Except Int (Int × FileSystem)}
    {reply : Reply} (hanswer : (.ok reply, fs') = fs.answer outcome) :
    ∃ result, outcome = .ok (result, fs') ∧ reply = .code result := by
  cases outcome with
  | error status => cases hanswer
  | ok after =>
      cases hanswer
      exact ⟨after.1, rfl, rfl⟩

theorem make_eq_ok {object : Object}
    (hmake : fs.make path object = .ok (result, fs')) :
    fs.tree path = none ∧ objectCost object ≤ fs.free ∧ result = 0 ∧
      fs' = { fs with
        tree := put fs.tree path object
        free := fs.free - objectCost object } := by
  rw [make] at hmake
  split at hmake
  · cases hmake
  · cases hmake
  · split at hmake
    · cases hmake
    · split at hmake
      · cases hmake
      · next hfresh hroom =>
          rw [not_or, not_lt] at hroom
          cases hmake
          exact ⟨not_not.mp hfresh, hroom.2, rfl, rfl⟩

theorem unlink_eq_ok (hwf : WellFormed fs.tree) :
    fs.unlink path = .ok (result, fs') ↔
      ∃ attributes content,
        fs.tree path = some (.leaf attributes content) ∧ result = 0 ∧
          fs' = fs.without path (.leaf attributes content) := by
  rw [unlink]
  cases hlookup : fs.tree.lookup path with
  | error status =>
      refine iff_of_false (fun h => by cases h) ?_
      rintro ⟨attributes, content, hobject, -, -⟩
      rw [← FileTree.lookup_eq_ok hwf, hlookup] at hobject
      cases hobject
  | ok object =>
      rw [FileTree.lookup_eq_ok hwf] at hlookup
      rw [hlookup]
      cases object with
      | branch attributes => simp
      | leaf attributes content =>
          simp only [Except.ok.injEq, Prod.mk.injEq, Option.some.injEq,
            Node.leaf.injEq]
          constructor
          · rintro ⟨rfl, rfl⟩
            exact ⟨_, _, ⟨rfl, rfl⟩, rfl, rfl⟩
          · rintro ⟨_, _, ⟨rfl, rfl⟩, rfl, rfl⟩
            exact ⟨rfl, rfl⟩

theorem rmdir_eq_ok (hwf : WellFormed fs.tree) :
    fs.rmdir path = .ok (result, fs') ↔
      ∃ attributes, fs.tree path = some (.branch attributes) ∧
        children fs.tree path = ∅ ∧ result = 0 ∧
          fs' = fs.without path (.branch attributes) := by
  rw [rmdir]
  cases hlookup : fs.tree.lookup path with
  | error status =>
      refine iff_of_false (fun h => by cases h) ?_
      rintro ⟨attributes, hobject, -, -⟩
      rw [← FileTree.lookup_eq_ok hwf, hlookup] at hobject
      cases hobject
  | ok object =>
      rw [FileTree.lookup_eq_ok hwf] at hlookup
      rw [hlookup]
      cases object with
      | leaf attributes content => simp
      | branch attributes =>
          by_cases hempty : children fs.tree path = ∅
          · simp only [hempty, ne_eq, not_true_eq_false, if_false,
              Except.ok.injEq, Prod.mk.injEq, Option.some.injEq,
              Node.branch.injEq, true_and]
            constructor
            · rintro ⟨rfl, rfl⟩
              exact ⟨_, rfl, rfl, rfl⟩
            · rintro ⟨_, rfl, rfl, rfl⟩
              exact ⟨rfl, rfl⟩
          · simp [hempty]

theorem rename_eq_ok (hwf : WellFormed fs.tree) {target : List Name} :
    fs.rename path target = .ok (result, fs') ↔
      fs.tree path ≠ none ∧ fs.tree target = none ∧
        target.length = path.length ∧ path.dropLast = target.dropLast ∧
        result = 0 ∧
          fs' = { fs with tree := move fs.tree path target } := by
  rw [rename]
  cases hlookup : fs.tree.lookup path with
  | error status =>
      refine iff_of_false (fun h => by cases h) ?_
      rintro ⟨hsome, -⟩
      obtain ⟨object, hobject⟩ := Option.ne_none_iff_exists'.mp hsome
      rw [← FileTree.lookup_eq_ok hwf, hlookup] at hobject
      cases hobject
  | ok object =>
      rw [FileTree.lookup_eq_ok hwf] at hlookup
      have hsome : fs.tree path ≠ none := by
        rw [hlookup]
        exact Option.some_ne_none _
      dsimp only
      by_cases hfresh : fs.tree target = none
      swap
      · simp [hfresh]
      by_cases hlength : target.length = path.length
      swap
      · simp [hfresh, hlength]
      by_cases hparent : path.dropLast = target.dropLast
      swap
      · simp [hfresh, hlength, hparent]
      simp only [hfresh, hlength, hparent, hsome, ne_eq, not_true_eq_false,
        not_false_eq_true, if_false, Except.ok.injEq, Prod.mk.injEq, true_and]
      exact and_congr eq_comm eq_comm

theorem chmod_eq_ok (hwf : WellFormed fs.tree) {mode : UInt32}
    (hchmod : fs.chmod path mode = .ok (result, fs')) :
    ∃ object, fs.tree path = some object ∧ result = 0 ∧
      fs' = { fs with
        tree := put fs.tree path
          (updateAttributes (fun attributes => { attributes with mode :=
            (attributes.mode &&& ~~~permissionsMask) |||
              (mode &&& permissionsMask) }) object) } := by
  rw [chmod] at hchmod
  split at hchmod
  · cases hchmod
  · next object hlookup =>
      cases hchmod
      exact ⟨object, (FileTree.lookup_eq_ok hwf).mp hlookup, rfl, rfl⟩

theorem utime_eq_ok (hwf : WellFormed fs.tree) {modtime : Int}
    (hutime : fs.utime path modtime = .ok (result, fs')) :
    ∃ attributes content,
      fs.tree path = some (.leaf attributes content) ∧ result = 0 ∧
        fs' = { fs with
          tree := put fs.tree path
            (.leaf { attributes with mtime := wordOfInt modtime }
              content) } := by
  rw [utime] at hutime
  split at hutime
  · cases hutime
  · cases hutime
  · next attributes content hlookup =>
      cases hutime
      exact ⟨attributes, content, (FileTree.lookup_eq_ok hwf).mp hlookup,
        rfl, rfl⟩

theorem truncate_eq_ok (hwf : WellFormed fs.tree) {len : Int}
    {tail : Nat → UInt8}
    (htruncate : fs.truncate path len tail = .ok (result, fs')) :
    ∃ attributes content,
      fs.tree path = some (.leaf attributes content) ∧ 0 ≤ len ∧
        blockCount len.toNat ≤ blockCount content.length ∧ result = 0 ∧
        fs' = { fs with
          tree := put fs.tree path (.leaf attributes
            (content.take len.toNat ++
              (List.range (len.toNat - content.length)).map tail))
          free := fs.free +
            (blockCount content.length - blockCount len.toNat) } := by
  rw [truncate] at htruncate
  split at htruncate
  · cases htruncate
  next hlen =>
    split at htruncate
    · cases htruncate
    · cases htruncate
    · next attributes content hlookup =>
        split at htruncate
        · cases htruncate
        · next hle =>
            cases htruncate
            exact ⟨attributes, content,
              (FileTree.lookup_eq_ok hwf).mp hlookup, not_lt.mp hlen,
              not_lt.mp hle, rfl, rfl⟩

theorem write_eq_ok (hwf : WellFormed fs.tree) {ctx : Context}
    {buf : List UInt8} {offset : Int}
    (hwrite : fs.write ctx path buf offset = .ok (result, fs')) :
    ∃ attributes content,
      fs.tree path = some (.leaf attributes content) ∧
        growth content (offset.toNat + buf.length) ≤ fs.free ∧
        result = buf.length ∧
        fs'.tree = put fs.tree path
          (.leaf { attributes with mtime := wordOfInt (ctx.time 0) }
            (content.take offset.toNat ++ buf ++
              content.drop (offset.toNat + buf.length))) ∧
        fs'.free =
          fs.free - growth content (offset.toNat + buf.length) := by
  rw [write] at hwrite
  split at hwrite
  · cases hwrite
  · cases hwrite
  · next attributes content hlookup =>
      split at hwrite
      · cases hwrite
      · split at hwrite
        · cases hwrite
        · next hfree =>
            cases hwrite
            exact ⟨attributes, content,
              (FileTree.lookup_eq_ok hwf).mp hlookup, not_lt.mp hfree, rfl,
              rfl, rfl⟩

end

end FileSystem

end Fs5600
