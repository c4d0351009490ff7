import Xv6.Fs.Inode

/-! # Directories and path names

The directory and name layers of `kernel/fs.c`. A string is the list of its bytes before the NUL.
-/

namespace Xv6.Fs
set_option autoImplicit false

/-! ## Names -/

def dot : List UInt8 := [46]

def dotdot : List UInt8 := [46, 46]

def slash : UInt8 := 47

/-- `namecmp` is 0. Only the first `DIRSIZ` bytes count. -/
def namecmp (s t : List UInt8) : Bool := s.take DIRSIZ = t.take DIRSIZ

/-- The rest of the path and the next element, if there is one. -/
def skipelem (path : List UInt8) : Option (List UInt8 × List UInt8) :=
  let s := path.dropWhile (· = slash)
  if s = [] then none
  else
    let name := s.takeWhile (· ≠ slash)
    some ((s.dropWhile (· ≠ slash)).dropWhile (· = slash), name.take DIRSIZ)

section
variable (sb : Superblock)

/-! ## Directories -/

def readDirent (dp : InodeId) (off : ℕ) (msg : String) : FsProg Dirent := do
  let (r, l) ← readi sb dp (fun _ => true) off sizeofDirent
  if r ≠ sizeofDirent then panic msg else return .ofBytes l

def writeDirent (dp : InodeId) (off : ℕ) (de : Dirent) : FsProg Bool := do
  let r ← writei sb dp (fun k => de.toBytes.getD k 0) (fun _ => none) off sizeofDirent
  return r = sizeofDirent

/-- The loop of `dirlookup` from entry `k` on, with `n` entries to go: the number of the entry and
the inode number in it. -/
def dirlookupLoop (dp : InodeId) (name : List UInt8) : ℕ → ℕ → FsProg (Option (ℕ × ℕ))
  | 0, _ => return none
  | n + 1, k => do
    let de ← readDirent sb dp (k * sizeofDirent) "dirlookup read"
    if de.inum ≠ 0 ∧ namecmp name de.name then return some (k, de.inum)
    else dirlookupLoop dp name n (k + 1)

def entries (size : ℕ) : ℕ := (size + sizeofDirent - 1) / sizeofDirent

def dirlookup (dp : InodeId) (name : List UInt8) : FsProg (Option (InodeId × ℕ)) := do
  let x ← inode dp
  if x.copy.type ≠ T_DIR then panic "dirlookup not DIR"
  else
    match ← dirlookupLoop sb dp name (entries x.copy.size) 0 with
    | some (k, inum) =>
      let ip ← iget x.dev inum
      return some (ip, k)
    | none => return none

/-- The number of the first empty entry, or of the one after the last. -/
def dirlinkLoop (dp : InodeId) : ℕ → ℕ → FsProg ℕ
  | 0, k => return k
  | n + 1, k => do
    let de ← readDirent sb dp (k * sizeofDirent) "dirlink read"
    if de.inum = 0 then return k else dirlinkLoop dp n (k + 1)

def dirlink (dp : InodeId) (name : List UInt8) (inum : ℕ) : FsProg Bool := do
  match ← dirlookup sb dp name with
  | some (ip, _) =>
    iput sb ip
    return false
  | none =>
    let x ← inode dp
    let k ← dirlinkLoop sb dp (entries x.copy.size) 0
    writeDirent sb dp (k * sizeofDirent) ⟨inum, name⟩

/-! ## Paths -/

/-- The loop of `namex`; `fuel` bounds the number of elements. -/
def namexLoop (nameiparent : Bool) : ℕ → InodeId → List UInt8 → List UInt8 →
    FsProg (Option (InodeId × List UInt8))
  | 0, _, _, _ => return none
  | fuel + 1, ip, path, name =>
    match skipelem path with
    | some (path, name) => do
      ilock sb ip
      let x ← inode ip
      if x.copy.type ≠ T_DIR then
        iunlockput sb ip
        return none
      else if nameiparent ∧ path = [] then
        iunlock ip
        return some (ip, name)
      else
        match ← dirlookup sb ip name with
        | none =>
          iunlockput sb ip
          return none
        | some (next, _) =>
          iunlockput sb ip
          namexLoop nameiparent fuel next path name
    | none => do
      if nameiparent then
        iput sb ip
        return none
      else return some (ip, name)

def namex (cwd : InodeId) (path : List UInt8) (nameiparent : Bool) :
    FsProg (Option (InodeId × List UInt8)) := do
  let ip ← if path.head? = some slash then iget ROOTDEV ROOTINO else idup cwd
  namexLoop sb nameiparent (path.length + 1) ip path []

def namei (cwd : InodeId) (path : List UInt8) : FsProg (Option InodeId) := do
  let r ← namex sb cwd path false
  return r.map Prod.fst

def nameiparent (cwd : InodeId) (path : List UInt8) : FsProg (Option (InodeId × List UInt8)) :=
  namex sb cwd path true

end
end Xv6.Fs
