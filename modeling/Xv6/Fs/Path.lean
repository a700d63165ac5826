import Xv6.Fs.Inode

/-!
# Directories and paths

The upper half of `kernel/fs.c`.
-/

set_option autoImplicit false

namespace Xv6.Fs

variable {μ : Type} (sb : Superblock) (M : Memory μ)

/-! ## Directories -/

/-- The loop of `dirlookup`, with at most `k` entries left. -/
def dirlookupFrom (p : Fin NPROC) (dp : Fin NINODE) (name : List UInt8) :
    Nat → Nat → Kern (State μ) (Option (Fin NINODE × Nat))
  | 0, _ => pure none
  | k + 1, off => do
    let (r, de) ← readi sb M p dp .kernel off 16
    if r ≠ 16 then
      panic "dirlookup read"
    else if direntInum de = 0 then
      dirlookupFrom p dp name k (off + 16)
    else if namecmp name (direntName de) = 0 then
      -- entry matches path element
      let ip ← getInode dp
      let i ← iget ip.dev (direntInum de)
      return some (i, off)
    else
      dirlookupFrom p dp name k (off + 16)

/-- `dirlookup(dp, name, poff)`: the inode and the offset of the entry.  There is an entry at every
multiple of 16 below the size. -/
def dirlookup (p : Fin NPROC) (dp : Fin NINODE) (name : List UInt8) :
    Kern (State μ) (Option (Fin NINODE × Nat)) := do
  let ip ← getInode dp
  if ip.type ≠ T_DIR then
    panic "dirlookup not DIR"
  else
    dirlookupFrom sb M p dp name ((ip.size + 15) / 16) 0

/-- The loop of `dirlink`, with at most `k` entries left: the offset of an empty one, or the end. -/
def emptyDirent (p : Fin NPROC) (dp : Fin NINODE) : Nat → Nat → Kern (State μ) Nat
  | 0, off => pure off
  | k + 1, off => do
    let (r, de) ← readi sb M p dp .kernel off 16
    if r ≠ 16 then
      panic "dirlink read"
    else if direntInum de = 0 then
      return off
    else
      emptyDirent p dp k (off + 16)

/-- `dirlink(dp, name, inum)`. -/
def dirlink (p : Fin NPROC) (dp : Fin NINODE) (name : List UInt8) (inum : Nat) :
    Kern (State μ) Int := do
  match ← dirlookup sb M p dp name with
  | some (i, _) =>
    -- the name is present
    iput sb p i
    return -1
  | none =>
    let ip ← getInode dp
    let off ← emptyDirent sb M p dp ((ip.size + 15) / 16) 0
    let r ← writei sb M p dp (.kernel (dirent inum name)) off 16
    if r ≠ 16 then
      return -1
    else
      return 0

/-! ## Paths -/

/-- A pointer to an inode; the kernel traps on the null pointer. -/
def deref (ip : Option (Fin NINODE)) : Kern (State μ) (Fin NINODE) :=
  match ip with
  | some i => pure i
  | none => panic "kerneltrap"

/-- The loop of `namex`: the inode, and the last element if the parent is asked for.  Each round
takes an element off the path, so there are at most as many as the path has bytes. -/
def namexFrom (p : Fin NPROC) (nameiparent : Bool) :
    Nat → Fin NINODE → List UInt8 → Kern (State μ) (Option (Fin NINODE × List UInt8))
  | 0, _, _ => diverge
  | k + 1, i, path => do
    match skipelem path with
    | none =>
      if nameiparent then
        iput sb p i
        return none
      else
        return some (i, [])
    | some (name, path) =>
      ilock sb p i
      let ip ← getInode i
      if ip.type ≠ T_DIR then
        iunlockput sb p i
        return none
      else if nameiparent ∧ path = [] then
        -- stop one level early
        iunlock p i
        return some (i, name)
      else
        match ← dirlookup sb M p i name with
        | none =>
          iunlockput sb p i
          return none
        | some (next, _) =>
          iunlockput sb p i
          namexFrom p nameiparent k next path

/-- `namex(path, nameiparent, name)`. -/
def namex (p : Fin NPROC) (path : List UInt8) (nameiparent : Bool) :
    Kern (State μ) (Option (Fin NINODE × List UInt8)) := do
  if path.head? = some SLASH then
    let i ← iget ROOTDEV ROOTINO
    namexFrom sb M p nameiparent (path.length + 1) i path
  else
    let s ← get
    let i ← deref (s.proc p).cwd
    idup i
    namexFrom sb M p nameiparent (path.length + 1) i path

/-- `namei(path)`. -/
def namei (p : Fin NPROC) (path : List UInt8) : Kern (State μ) (Option (Fin NINODE)) := do
  let r ← namex sb M p path false
  return r.map Prod.fst

/-- `nameiparent(path, name)`. -/
def nameiparent (p : Fin NPROC) (path : List UInt8) :
    Kern (State μ) (Option (Fin NINODE × List UInt8)) :=
  namex sb M p path true

end Xv6.Fs
