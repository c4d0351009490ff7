import Xv6.Fs.Path

/-! # Creating, linking and unlinking

`create`, `sys_link` and `sys_unlink` of `kernel/sysfile.c`, for a process with the given current
directory.
-/

namespace Xv6.Fs
set_option autoImplicit false

section
variable (sb : Superblock) (cwd : InodeId)

/-- The part of `create` after `ialloc`: the new inode is filled and entered; whether this worked.
-/
def createLink (dp ip : InodeId) (name : List UInt8) (type : BitVec 16) : FsProg Bool := do
  let d ← inode dp
  let x ← inode ip
  if type = T_DIR then
    if ← dirlink sb ip dot x.inum then
      if ← dirlink sb ip dotdot d.inum then
        dirlink sb dp name x.inum
      else return false
    else return false
  else dirlink sb dp name x.inum

def createFail (dp ip : InodeId) : FsProg (Option InodeId) := do
  setCopy ip fun c => { c with nlink := 0 }
  iupdate sb ip
  iunlockput sb ip
  iunlockput sb dp
  return none

def createNew (dp ip : InodeId) (name : List UInt8) (type major minor : BitVec 16) :
    FsProg (Option InodeId) := do
  ilock sb ip
  setCopy ip fun c => { c with major := major, minor := minor, nlink := 1 }
  iupdate sb ip
  if ← createLink sb dp ip name type then
    if type = T_DIR then
      setCopy dp fun c => { c with nlink := c.nlink + 1 }
      iupdate sb dp
    iunlockput sb dp
    return some ip
  else createFail sb dp ip

def create (path : List UInt8) (type major minor : BitVec 16) : FsProg (Option InodeId) := do
  match ← nameiparent sb cwd path with
  | none => return none
  | some (dp, name) =>
    ilock sb dp
    match ← dirlookup sb dp name with
    | some (ip, _) =>
      iunlockput sb dp
      ilock sb ip
      let x ← inode ip
      if type = T_FILE ∧ (x.copy.type = T_FILE ∨ x.copy.type = T_DEVICE) then return some ip
      else
        iunlockput sb ip
        return none
    | none =>
      let d ← inode dp
      match ← ialloc sb d.dev type with
      | none =>
        iunlockput sb dp
        return none
      | some ip => createNew sb dp ip name type major minor

def linkBad (ip : InodeId) : FsProg ℤ := do
  ilock sb ip
  setCopy ip fun c => { c with nlink := c.nlink - 1 }
  iupdate sb ip
  iunlockput sb ip
  return -1

def linkNew (ip : InodeId) (new : List UInt8) : FsProg ℤ := do
  match ← nameiparent sb cwd new with
  | none => linkBad sb ip
  | some (dp, name) =>
    ilock sb dp
    let d ← inode dp
    let x ← inode ip
    if d.dev ≠ x.dev then
      iunlockput sb dp
      linkBad sb ip
    else if ← dirlink sb dp name x.inum then
      iunlockput sb dp
      iput sb ip
      return 0
    else
      iunlockput sb dp
      linkBad sb ip

def link (old new : List UInt8) : FsProg ℤ := do
  match ← namei sb cwd old with
  | none => return -1
  | some ip =>
    ilock sb ip
    let x ← inode ip
    if x.copy.type = T_DIR then
      iunlockput sb ip
      return -1
    else
      setCopy ip fun c => { c with nlink := c.nlink + 1 }
      iupdate sb ip
      iunlock ip
      linkNew sb cwd ip new

def isdiremptyLoop (dp : InodeId) : ℕ → ℕ → FsProg Bool
  | 0, _ => return true
  | n + 1, k => do
    let de ← readDirent sb dp (k * sizeofDirent) "isdirempty: readi"
    if de.inum ≠ 0 then return false else isdiremptyLoop dp n (k + 1)

def isdirempty (dp : InodeId) : FsProg Bool := do
  let x ← inode dp
  isdiremptyLoop sb dp (entries x.copy.size - 2) 2

/-- The entry is cleared and the counts are changed; `type` is the type of `ip`. -/
def unlinkEntry (dp ip : InodeId) (k : ℕ) (type : BitVec 16) : FsProg ℤ := do
  if ← writeDirent sb dp (k * sizeofDirent) .zero then
    if type = T_DIR then
      setCopy dp fun c => { c with nlink := c.nlink - 1 }
      iupdate sb dp
    iunlockput sb dp
    setCopy ip fun c => { c with nlink := c.nlink - 1 }
    iupdate sb ip
    iunlockput sb ip
    return 0
  else panic "unlink: writei"

def unlinkFound (dp ip : InodeId) (k : ℕ) : FsProg ℤ := do
  ilock sb ip
  let x ← inode ip
  if x.copy.nlink.toInt < 1 then panic "unlink: nlink < 1"
  else
    let empty ← if x.copy.type = T_DIR then isdirempty sb ip else pure true
    if empty then unlinkEntry sb dp ip k x.copy.type
    else
      iunlockput sb ip
      iunlockput sb dp
      return -1

def unlink (path : List UInt8) : FsProg ℤ := do
  match ← nameiparent sb cwd path with
  | none => return -1
  | some (dp, name) =>
    ilock sb dp
    if namecmp name dot ∨ namecmp name dotdot then
      iunlockput sb dp
      return -1
    else
      match ← dirlookup sb dp name with
      | none =>
        iunlockput sb dp
        return -1
      | some (ip, k) => unlinkFound sb dp ip k

end
end Xv6.Fs
