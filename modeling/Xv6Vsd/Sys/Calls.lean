import Xv6Vsd.Sys.File

/-!
# System calls (`sysfile.c`, `syschroot.c`, `exec.c`, `proc.c`)

`p` is the calling process. An argument that `argstr` or `argint` cannot fetch is `none`. The local
`ip` of `sys_mkdir`, `sys_mknod` and `sys_chdir` is not initialised: `junk` is what it holds then,
the null pointer or a pointer whose `dev` reads as the given number.
-/

namespace Xv6Vsd

open Prog

abbrev Path : Type := List UInt8

/-! ## Descriptors -/

def argfd (p : Nat) (fd : Option Int) : K (Option Nat) := do
  match fd with
  | none => pure none
  | some fd =>
    let f ← peek fun s => if 0 ≤ fd ∧ fd < nofile then (s.proc p).ofile fd.toNat else none
    onlyIf (f = none) do seterr p "the file is not open"
    pure f

def fdalloc (p f : Nat) : K (Option Nat) := do
  let fd ← tau fun s =>
    match (List.range nofile).find? fun fd => ((s.proc p).ofile fd).isNone with
    | some fd =>
      let x := s.proc p
      .ok (some fd) (s.setProc p { x with ofile := Function.update x.ofile fd (some f) })
    | none => .ok none s
  onlyIf (fd = none) do seterr p "cannot allocate file"
  pure fd

def sysDup (p : Nat) (fd : Option Int) : K Int := do
  match ← argfd p fd with
  | none => pure (-1)
  | some f =>
    match ← fdalloc p f with
    | none => pure (-1)
    | some fd =>
      filedup f
      pure fd

def sysRead (p : Nat) (fd : Option Int) (n : Option UInt32) (pipe : Int) : K Int := do
  match ← argfd p fd, n with
  | some f, some n => Prod.fst <$> fileread p f n pipe
  | _, _ => pure (-1)

def sysWrite (p : Nat) (fd : Option Int) (addr : Nat → UInt8) (n : Option Int) (pipe : Int) : K Int := do
  match ← argfd p fd, n with
  | some f, some n => filewrite p f addr n pipe
  | _, _ => pure (-1)

/-- Both the offset and the direction are fetched from the third argument. -/
def sysSeek (p : Nat) (fd : Option Int) (n : Option UInt32) : K Int := do
  match ← argfd p fd, n with
  | some f, some n => fileseek p f n n.toInt32.toInt
  | _, _ => pure (-1)

def sysClose (p : Nat) (fd : Option Int) : K Int := do
  match ← argfd p fd, fd with
  | some f, some fd =>
    modProc p fun x => { x with ofile := Function.update x.ofile fd.toNat none }
    fileclose f
    pure 0
  | _, _ => pure (-1)

/-! ## Links -/

def sysLink (p : Nat) (old new : Option Path) : K Int := do
  match old, new with
  | some old, some new =>
    match ← nameiDirect p old with
    | none =>
      seterr p "cannot find file"
      pure (-1)
    | some ip =>
      beginOp ip.dev
      ilock ip
      let x ← inode ip
      if x.din.type = tDir then
        iunlockput ip
        endOp ip.dev
        seterr p "cannot make links of directories"
        pure (-1)
      else
        modDin ip fun d => { d with nlink := d.nlink + 1 }
        iupdate ip
        iunlock ip
        match ← nameiparent p new with
        | (none, _) =>
          seterr p "target inode has no parent"
          bad ip
        | (some dp, name) =>
          ilock dp
          let linked ← (if dp.dev ≠ ip.dev then pure (-1) else dirlink dp name ip.inum)
          if linked < 0 then
            iunlockput dp
            seterr p "can not link across devices"
            bad ip
          else
            iunlockput dp
            iput ip
            endOp ip.dev
            pure 0
  | _, _ => pure (-1)
where
  bad (ip : IRef) : K Int := do
    ilock ip
    modDin ip fun d => { d with nlink := d.nlink - 1 }
    iupdate ip
    iunlockput ip
    endOp ip.dev
    pure (-1)

def isdiremptyFrom (dp : IRef) : (fuel off : Nat) → K Bool
  | 0, _ => pure true
  | fuel + 1, off => do
    let x ← inode dp
    if off < x.din.size.toNat then
      let de ← readDirent dp off "isdirempty: readi"
      if de.inum ≠ 0 then pure false else isdiremptyFrom dp fuel (off + 16)
    else pure true

def isdirempty (dp : IRef) : K Bool := do
  let x ← inode dp
  isdiremptyFrom dp (x.din.size.toNat / 16 + 1) (2 * 16)

def sysUnlink (p : Nat) (path : Option Path) : K Int := do
  match path with
  | none => pure (-1)
  | some path =>
    match ← nameiparentDirect p path with
    | (none, _) =>
      seterr p "target inode has no parent"
      pure (-1)
    | (some dp, name) =>
      beginOp dp.dev
      ilock dp
      -- Cannot unlink "." or "..".
      if namecmp name dot || namecmp name dotdot then
        seterr p "unable to create links . and .."
        bad dp
      else
        match ← dirlookup dp name with
        | none =>
          seterr p "cannot find file"
          bad dp
        | some (ip, off) =>
          ilock ip
          let x ← inode ip
          let denied ← peek fun s => checkinodeperm s p x.din .unlink
          if denied ≠ 0 then
            seterr p "cannot unlink file"
            bad dp -- the inode stays locked
          else
            if x.din.nlink < 1 then panic "unlink: nlink < 1"
            else
              let full ← (if x.din.type = tDir then (!·) <$> isdirempty ip else pure false)
              if full then
                iunlockput ip
                seterr p "directory not empty"
                bad dp
              else erase dp ip off
where
  erase (dp ip : IRef) (off : Nat) : K Int := do
    let n ← writei dp (fun _ => 0) (UInt32.ofNat off) 16
    if n ≠ 16 then panic "unlink: writei"
    else
      let x ← inode ip
      onlyIf (x.din.type = tDir) do
        modDin dp fun d => { d with nlink := d.nlink - 1 }
        iupdate dp
      iunlockput dp
      modDin ip fun d => { d with nlink := d.nlink - 1 }
      iupdate ip
      iunlockput ip
      endOp dp.dev
      pure 0
  bad (dp : IRef) : K Int := do
    iunlockput dp
    endOp dp.dev
    pure (-1)

/-! ## Creation -/

/-- `create` finds the name in use: a file may be opened, anything else is refused. -/
def createOld (dp ip : IRef) (type : Int16) : K (Option IRef) := do
  iunlockput dp
  ilock ip
  let x ← inode ip
  if type = tFile ∧ x.din.type = tFile then pure (some ip)
  else
    iunlockput ip
    pure none

def newInode (p dev : Nat) (type major minor : Int16) : K (Option IRef) := do
  match ← ialloc dev type with
  | none => pure none
  | some ip =>
    ilock ip
    let uid ← peek fun s => (s.proc p).uid
    modDin ip fun d => { d with
      major := major, minor := minor, nlink := 1, owner := Int16.ofInt uid, perms := 19 }
    iupdate ip
    pure (some ip)

def mkdots (dp ip : IRef) : K Bool := do
  modDin dp fun d => { d with nlink := d.nlink + 1 } -- for ".."
  iupdate dp
  -- No ip->nlink++ for ".": avoid cyclic ref count.
  let n ← dirlink ip dot ip.inum
  if n < 0 then pure false
  else
    let n ← dirlink ip dotdot dp.inum
    pure (!(n < 0))

/-- `create` makes a new inode in the locked directory `dp`. Without a free inode, and when the
entries of a directory cannot be made, it returns with its locks held. -/
def createNew (p : Nat) (dp : IRef) (name : List UInt8) (type major minor : Int16) : K (Option IRef) := do
  match ← newInode p dp.dev type major minor with
  | none =>
    seterr p "filesystem full: could not alloc inode"
    pure none
  | some ip =>
    let dots ← (if type = tDir then mkdots dp ip else pure true) -- Create . and .. entries.
    if dots = false then
      seterr p "unable to create links . and .."
      pure none
    else
      let linked ← dirlink dp name ip.inum
      if linked < 0 then panic "create: dirlink"
      else
        iunlockput dp
        pure (some ip)

def create (p : Nat) (path : Path) (type major minor : Int16) : K (Option IRef) := do
  match ← nameiparentDirect p path with
  | (none, _) => pure none
  | (some dp, name) =>
    beginOp dp.dev
    ilock dp
    match ← dirlookup dp name with
    | some (ip, _) => createOld dp ip type
    | none => createNew p dp name type major minor

abbrev oRdonly : UInt32 := 0
abbrev oWronly : UInt32 := 1
abbrev oRdwr : UInt32 := 2
abbrev oCreate : UInt32 := 0x200

def canread (s : Kernel) (p : Nat) (d : Dinode) (omode : UInt32) : Bool :=
  checkinodeperm s p d .read = 0 ∧ (¬ omode &&& oWronly = oWronly ∨ omode &&& oRdwr = oRdwr)

def canwrite (s : Kernel) (p : Nat) (d : Dinode) (omode : UInt32) : Bool :=
  checkinodeperm s p d .write = 0 ∧ (omode &&& oWronly = oWronly ∨ omode &&& oRdwr = oRdwr)

def openInode (p : Nat) (path : Path) (omode : UInt32) : K (Option IRef) := do
  if omode &&& oCreate ≠ 0 then
    -- for this branch the begin_op starts in create
    match ← create p path tFile 0 0 with
    | none =>
      seterr p "cannot open file"
      pure none
    | some ip => pure (some ip)
  else
    match ← nameiDirect p path with
    | none =>
      seterr p "cannot find file"
      pure none
    | some ip =>
      beginOp ip.dev
      ilock ip
      let x ← inode ip
      let denied ← peek fun s => checkinodeperm s p x.din .open
      if denied ≠ 0 then
        seterr p "not allowed"
        iunlockput ip
        endOp ip.dev
        pure none
      else if x.din.type = tDir ∧ omode ≠ oRdonly then
        iunlockput ip
        endOp ip.dev
        seterr p "file is unwriteable"
        pure none
      else pure (some ip)

def openFile (p : Nat) (ip : IRef) (omode : UInt32) : K Int := do
  match ← filealloc with
  | none => full
  | some f =>
    match ← fdalloc p f with
    | none =>
      fileclose f
      full
    | some fd =>
      iunlock ip
      endOp ip.dev
      let y ← inode ip
      poke fun s => s.setFile f ((s.file f).map fun x =>
        ⟨.inode, x.ref, canread s p y.din omode, canwrite s p y.din omode, ip, 0⟩)
      pure fd
where
  full : K Int := do
    iunlockput ip
    endOp ip.dev
    seterr p "cannot allocate file"
    pure (-1)

def sysOpen (p : Nat) (path : Option Path) (omode : Option UInt32) : K Int := do
  match path, omode with
  | some path, some omode =>
    match ← openInode p path omode with
    | none => pure (-1)
    | some ip => openFile p ip omode
  | _, _ => pure (-1)

/-- A failed `sys_mkdir` or `sys_mknod`, whose `ip` is null or `junk`. -/
def noCreate (p : Nat) (ip : Option Nat) : K Int := do
  ifSome ip endOp
  seterr p "cannot create file"
  pure (-1)

def sysMkdir (p : Nat) (path : Option Path) (junk : Option Nat) : K Int := do
  match path with
  | none => noCreate p junk
  | some path =>
    match ← create p path tDir 0 0 with
    | none => noCreate p none
    | some ip =>
      iunlockput ip
      endOp ip.dev
      pure 0

def sysMknod (p : Nat) (path : Option Path) (major minor : Option Int32) (junk : Option Nat) : K Int := do
  let uid ← peek fun s => (s.proc p).uid
  if uid > -1 then
    seterr p "not allowed"
    pure (-1)
  else
    match path, major, minor with
    | some path, some major, some minor =>
      match ← create p path tDev major.toInt16 minor.toInt16 with
      | none => noCreate p none
      | some ip =>
        modDin ip fun d => { d with perms := 3 }
        iunlockput ip
        endOp ip.dev
        pure 0
    | _, _, _ => noCreate p junk

/-! ## Directories of a process -/

def sysChdir (p : Nat) (path : Option Path) (junk : Option Nat) : K Int := do
  match path with
  | none =>
    ifSome junk endOp
    seterr p "cannot find file"
    pure (-1)
  | some path =>
    match ← nameiDirect p path with
    | none =>
      seterr p "cannot find file"
      pure (-1)
    | some ip =>
      beginOp ip.dev
      ilock ip
      let x ← inode ip
      if x.din.type ≠ tDir then
        iunlockput ip
        endOp ip.dev
        seterr p "file is the wrong type"
        pure (-1)
      else
        iunlock ip
        match ← peek fun s => (s.proc p).cwd with
        | none => trap
        | some cwd =>
          iput cwd
          endOp ip.dev
          modProc p fun x => { x with cwd := some ip }
          pure 0

def jailPath (path : Path) : Path := if path.getLast? = some slash then path else path ++ [slash]

def chroot (p : Nat) (path : Path) : K Int := do
  let x ← peek fun s => s.proc p
  if x.injail then pure (-1)
  else if x.uid ≠ -1 then pure (-1)
  else if path.head? ≠ some slash then pure (-1)
  else
    match ← nameiDirect p path with
    | none => pure (-1)
    | some rp =>
      let root ← peek fun s => s.rootdir
      if rp.inum = root.inum then
        modProc p fun x => { x with rootdir := none }
        pure 0
      else
        beginOp rp.dev
        ilock rp
        if 122 ≤ path.length + 1 then bad rp
        else
          let y ← inode rp
          if y.din.type ≠ tDir then bad rp
          else
            modProc p fun x => { x with rdirpath := jailPath path }
            let old ← peek fun s => (s.proc p).rootdir
            ifSome old iput
            let _ ← idup (some rp)
            modProc p fun x => { x with rootdir := some rp, cwd := some rp, injail := true }
            endOp rp.dev -- the inode stays locked
            pure 0
where
  bad (rp : IRef) : K Int := do
    iunlockput rp
    endOp rp.dev
    pure (-1)

def sysChroot (p : Nat) (path : Option Path) : K Int := do
  match path with
  | none => pure (-1)
  | some path => chroot p path

def sysChperms (p : Nat) (fname : Option Path) (rmode perms : Option Int32) : K Int := do
  match fname, rmode, perms with
  | some fname, some rmode, some perms =>
    match ← nameiDirect p fname with
    | none =>
      seterr p "cannot find file"
      pure (-1)
    | some ip =>
      beginOp ip.dev
      ilock ip
      let x ← inode ip
      if rmode = 0 then
        iunlockput ip
        endOp ip.dev
        pure x.din.perms.toNat
      else if rmode = 1 then
        let denied ← peek fun s =>
          decide (x.din.owner.toInt ≠ (s.proc p).uid ∧ !s.singleuser ∧ (s.proc p).uid ≠ -1)
        if denied then
          seterr p "not allowed"
          iunlockput ip
          endOp ip.dev
          pure (-1)
        else
          modDin ip fun d => { d with perms := perms.toUInt32.toUInt8 }
          iupdate ip
          iunlockput ip
          endOp ip.dev
          pure 0
      else
        iunlockput ip
        endOp ip.dev
        seterr p "unknown arguments given to system call"
        pure (-1)
  | _, _, _ => pure (-1)

end Xv6Vsd
