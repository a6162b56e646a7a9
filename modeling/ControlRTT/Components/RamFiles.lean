import ControlRTT.Components.DfsPath
import ControlRTT.Lib.CInt
import ControlRTT.Lib.Runs

/-! # The files of the RAM file system (dfs_ramfs.c, dfs_file.c)

A RAM file system has one directory: what follows the mount point in a path is the name of a file,
kept in 32 bytes of its entry. A file that is created gets its name without the slash that the
search for it skips, but a file that is renamed gets it with the slash. The file system is mounted
in one place. -/
namespace ControlRTT.Components.RamFiles
open ControlRTT.Lib.CString ControlRTT.Lib.Runs MountTable NormalizedPath DfsPath

inductive DfsError where
  | badf
  | nomem
  | inval
  | busy
  | noent
  | nosys
  | nospc
  | exist
  | xdev
  deriving DecidableEq, Repr

structure Flags where
  creat : Bool := false
  wronly : Bool := false
  trunc : Bool := false
  append : Bool := false
  directory : Bool := false

/-- `struct dfs_fd`; its operations are those of the file system at `fs`, and its `data` is a
directory entry if that is the RAM file system. -/
structure Fd where
  fs : Nat
  path : Path
  data : Nat := 0
  size : Nat := 0
  pos : Nat := 0

/-! ## The RAM file system -/

/-- `RAMFS_NAME_MAX` -/
def nameMax : Nat := 32

/-- `strncpy`, which does not terminate a name that fills the array. -/
def strncpy (src : Path) (n : Nat) : List Char := (src ++ List.replicate n nul).take n

/-- `struct ramfs_dirent`; `data` is the block that its pointer points to. -/
structure Dirent where
  name : List Char
  data : List UInt8 := []
  size : Nat := 0

/-- `struct dfs_ramfs`: the entries by their addresses, and those that are in the list of the
root. -/
structure Ramfs where
  dirents : Nat → Dirent
  list : List Nat
  fresh : Nat

/-- The address of the entry of the root. -/
def root : Nat := 0

/-- The block of `rt_memheap_realloc`, of which the new bytes are what was there before. -/
def realloc (data : List UInt8) (size : Nat) (junk : Nat → UInt8) : List UInt8 :=
  (List.range size).map fun i => data.getD i (junk i)

/-- The bytes after some of them have been overwritten. -/
def overlay (data : List UInt8) (pos : Nat) (buf : List UInt8) : List UInt8 :=
  data.take pos ++ buf ++ data.drop (pos + buf.length)

def Ramfs.setDirent (ramfs : Ramfs) (d : Nat) (dirent : Dirent) : Ramfs :=
  { ramfs with dirents := Function.update ramfs.dirents d dirent }

/-- `dfs_ramfs_create` -/
def dfsRamfsCreate : Ramfs where
  dirents := fun _ => { name := strncpy ['.'] nameMax }
  list := []
  fresh := root + 1

/-- A write to the data of an entry; `none` if it goes behind the block. -/
def Ramfs.memcpy (ramfs : Ramfs) (file : Fd) (buf : List UInt8) : Option (Ramfs × Fd × Nat) :=
  let dirent := ramfs.dirents file.data
  if buf = [] ∨ file.pos + buf.length ≤ dirent.data.length then
    some (ramfs.setDirent file.data { dirent with data := overlay dirent.data file.pos buf },
      { file with pos := file.pos + buf.length }, buf.length)
  else none

/-- `dfs_ramfs_write`; `none` if it uses memory that is not the entry's. -/
def dfsRamfsWrite (ramfs : Ramfs) (file : Fd) (buf : List UInt8) (memory : Bool)
    (junk : Nat → UInt8) : Option (Ramfs × Fd × Nat) :=
  if file.data ≠ root ∧ file.data ∉ ramfs.list then none
  else if file.size < (buf.length + file.pos) % 2 ^ 32 then
    if memory then
      let size := (buf.length + file.pos) % 2 ^ 32
      let dirent := ramfs.dirents file.data
      (ramfs.setDirent file.data
        { dirent with data := realloc dirent.data size junk, size := size }).memcpy
          { file with size := size } buf
    else some (ramfs, file, 0)
  else ramfs.memcpy file buf

/-- `O_TRUNC` -/
def Ramfs.truncate (ramfs : Ramfs) (flags : Flags) (d : Nat) : Ramfs :=
  if flags.trunc then ramfs.setDirent d { ramfs.dirents d with data := [], size := 0 } else ramfs

/-- A new entry, behind the root in the list. -/
def Ramfs.insert (ramfs : Ramfs) (path : Path) : Ramfs where
  dirents := Function.update ramfs.dirents ramfs.fresh
    { name := strncpy (path.dropWhile (· = '/')) nameMax }
  list := ramfs.fresh :: ramfs.list
  fresh := ramfs.fresh + 1

section
variable (behind : Dirent → List Char) (ramfs : Ramfs)

/-- `dirent->name` as a string; `behind` is what follows it in memory. -/
def Ramfs.nameAt (d : Nat) : Path := text nul ((ramfs.dirents d).name ++ behind (ramfs.dirents d))

def dfsRamfsLookup (path : Path) : Option Nat :=
  let subpath := path.dropWhile (· = '/')
  if subpath = [] then some root
  else ramfs.list.find? fun d => ramfs.nameAt behind d = subpath

/-- `dfs_ramfs_open`; `none` if it follows a null pointer. -/
def dfsRamfsOpen (path : Option Path) (flags : Flags) (memory : Bool) :
    Option (Ramfs × Except DfsError Nat) :=
  if flags.directory ∧ flags.creat then some (ramfs, .error .nospc)
  else path.map fun path =>
    match dfsRamfsLookup behind ramfs path with
    | some d =>
      if flags.directory then (ramfs, .ok d)
      else if d = root then (ramfs, .error .noent)
      else (ramfs.truncate flags d, .ok d)
    | none =>
      if flags.directory then (ramfs, .error .noent)
      else if flags.creat ∨ flags.wronly then
        if memory then ((ramfs.insert path).truncate flags ramfs.fresh, .ok ramfs.fresh)
        else (ramfs, .error .nomem)
      else (ramfs, .error .noent)

/-- `dfs_ramfs_unlink`; `none` if the entry of the root is freed. -/
def dfsRamfsUnlink (path : Path) : Option (Ramfs × Except DfsError Nat) :=
  match dfsRamfsLookup behind ramfs path with
  | none => some (ramfs, .error .noent)
  | some d => if d = root then none else some ({ ramfs with list := ramfs.list.erase d }, .ok 0)

/-- `dfs_ramfs_rename`; `none` if it follows a null pointer. -/
def dfsRamfsRename (oldpath newpath : Option Path) : Option (Ramfs × Except DfsError Nat) :=
  newpath.bind fun newpath =>
    match dfsRamfsLookup behind ramfs newpath with
    | some _ => some (ramfs, .error .exist)
    | none => oldpath.map fun oldpath =>
      match dfsRamfsLookup behind ramfs oldpath with
      | none => (ramfs, .error .noent)
      | some d =>
        (ramfs.setDirent d { ramfs.dirents d with name := strncpy newpath nameMax }, .ok 0)

end

/-! ## The layer above -/

/-- The mounted file systems, of which the one at `index` is a RAM file system; `fullpath` is
`DFS_FS_FLAG_FULLPATH`. -/
structure Mounted where
  table : List Filesystem
  fullpath : FilesystemOps → Bool
  index : Nat
  path : Path
  ops : FilesystemOps
  devId : Option Nat
  entry : table[index]? = some ⟨devId, some path, some ops⟩
  flag : fullpath ops = false
  normal : Normal path

/-- `dfs_subdir` -/
def dfsSubdir (directory filename : Path) : Option Path :=
  if directory.length = filename.length then none
  else if filename[directory.length]? ≠ some '/' ∧ directory.length ≠ 0 then
    some (filename.drop (directory.length - 1))
  else some (filename.drop directory.length)

structure Open where
  fd : Nat
  path : CPath
  flags : Flags
  workingDirectory : Option CPath := none
  memory : Bool := true
  isOpenMemory : Bool := true
  pathMemory : Bool := true
  direntMemory : Bool := true
  other : Except DfsError Unit := .ok ()

structure Write where
  fd : Nat
  buf : List UInt8
  memory : Bool := true
  junk : Nat → UInt8 := fun _ => 0
  other : Except DfsError Nat := .ok 0

structure Close where
  fd : Nat
  other : Except DfsError Unit := .ok ()

structure Unlink where
  path : CPath
  workingDirectory : Option CPath := none
  memory : Bool := true
  isOpenMemory : Bool := true
  other : Except DfsError Nat := .ok 0

structure Rename where
  oldpath : CPath
  newpath : CPath
  workingDirectory : Option CPath := none
  oldMemory : Bool := true
  newMemory : Bool := true
  other : Except DfsError Nat := .ok 0

/-- The calls; `memory` says which copies can be allocated, and `other` what another file system
answers. -/
inductive Event where
  | open (o : Open)
  | write (w : Write)
  | close (c : Close)
  | unlink (u : Unlink)
  | rename (r : Rename)

structure State where
  ramfs : Ramfs
  fds : List (Option Fd)
  fault : Bool := false

section
variable (m : Mounted)

def Mounted.pathAt (i : Nat) : Path := ((m.table[i]?).bind Filesystem.path).getD []

def Mounted.opsAt (i : Nat) : Option FilesystemOps := (m.table[i]?).bind Filesystem.ops

/-- `fd_is_open` -/
def Mounted.fdIsOpen (fds : List (Option Fd)) (workingDirectory : Option CPath) (memory : Bool)
    (pathname : Path) : Bool :=
  match dfsNormalizePath (workingDirectory.map CPath.chars) memory pathname with
  | none => false
  | some fullpath =>
    match dfsFilesystemLookup m.table fullpath with
    | none => false
    | some i =>
      let mountpath :=
        if m.pathAt i = ['/'] then fullpath else fullpath.drop (m.pathAt i).length
      fds.any fun fd => fd.any fun fd => m.opsAt fd.fs = m.opsAt i ∧ fd.path = mountpath

/-- `fd->path` of a file that is opened. -/
def Mounted.fdPath (i : Nat) (fullpath : Path) : Path :=
  if (m.opsAt i).any m.fullpath then fullpath
  else (dfsSubdir (m.pathAt i) fullpath).getD ['/']

variable (behind : Dirent → List Char) (s : State)

/-- The descriptor after `dfs_ramfs_open`. -/
def State.opened (o : Open) (i : Nat) (path : Path) (r : Ramfs × Except DfsError Nat) :
    State × Except DfsError Nat :=
  match r.2 with
  | .error e => ({ s with ramfs := r.1 }, .error e)
  | .ok d =>
    let size := (r.1.dirents d).size
    let pos := if o.flags.append then size else 0
    ({ s with ramfs := r.1, fds := s.fds.set o.fd (some ⟨i, path, d, size, pos⟩) }, .ok o.fd)

/-- `open` -/
def dfsFileOpen (o : Open) : Option (State × Except DfsError Nat) :=
  match dfsNormalizePath (o.workingDirectory.map CPath.chars) o.memory o.path.chars with
  | none => some (s, .error .nomem)
  | some fullpath =>
    if m.fdIsOpen s.fds o.workingDirectory o.isOpenMemory fullpath then some (s, .error .busy)
    else
      match dfsFilesystemLookup m.table fullpath with
      | none => some (s, .error .noent)
      | some i =>
        let path := m.fdPath i fullpath
        if i = m.index then
          (dfsRamfsOpen behind s.ramfs (if o.pathMemory then some path else none) o.flags
            o.direntMemory).map (s.opened o i path)
        else
          match o.other with
          | .error e => some (s, .error e)
          | .ok () =>
            some ({ s with fds := s.fds.set o.fd (some { fs := i, path }) }, .ok o.fd)

/-- `write` -/
def dfsFileWrite (w : Write) : Option (State × Except DfsError Nat) :=
  match s.fds[w.fd]? with
  | some (some file) =>
    if file.fs = m.index then
      (dfsRamfsWrite s.ramfs file w.buf w.memory w.junk).map fun r =>
        ({ s with ramfs := r.1, fds := s.fds.set w.fd (some r.2.1) }, .ok r.2.2)
    else some (s, w.other)
  | _ => some (s, .error .badf)

/-- `close` -/
def dfsFileClose (c : Close) : Option (State × Except DfsError Nat) :=
  match s.fds[c.fd]? with
  | some (some file) =>
    match if file.fs = m.index then .ok () else c.other with
    | .error e => some (s, .error e)
    | .ok () => some ({ s with fds := s.fds.set c.fd none }, .ok 0)
  | _ => some (s, .error .badf)

/-- `unlink` -/
def dfsFileUnlink (u : Unlink) : Option (State × Except DfsError Nat) :=
  match dfsNormalizePath (u.workingDirectory.map CPath.chars) u.memory u.path.chars with
  | none => some (s, .error .inval)
  | some fullpath =>
    match dfsFilesystemLookup m.table fullpath with
    | none => some (s, .error .noent)
    | some i =>
      if m.fdIsOpen s.fds u.workingDirectory u.isOpenMemory fullpath then some (s, .error .busy)
      else if i = m.index then
        (dfsRamfsUnlink behind s.ramfs ((dfsSubdir (m.pathAt i) fullpath).getD ['/'])).map fun r =>
          ({ s with ramfs := r.1 }, r.2)
      else some (s, u.other)

/-- `rename`; without a file system for both paths a null pointer is followed. -/
def dfsFileRename (r : Rename) : Option (State × Except DfsError Nat) :=
  match dfsNormalizePath (r.workingDirectory.map CPath.chars) r.oldMemory r.oldpath.chars,
    dfsNormalizePath (r.workingDirectory.map CPath.chars) r.newMemory r.newpath.chars with
  | some oldfullpath, some newfullpath =>
    if dfsFilesystemLookup m.table oldfullpath = dfsFilesystemLookup m.table newfullpath then
      (dfsFilesystemLookup m.table oldfullpath).bind fun i =>
        if i = m.index then
          (dfsRamfsRename behind s.ramfs (dfsSubdir (m.pathAt i) oldfullpath)
            (dfsSubdir (m.pathAt i) newfullpath)).map fun r => ({ s with ramfs := r.1 }, r.2)
        else some (s, r.other)
    else some (s, .error .xdev)
  | _, _ => some (s, .error .noent)

def exec : Event → Option (State × Except DfsError Nat)
  | .open o => dfsFileOpen m behind s o
  | .write w => dfsFileWrite m s w
  | .close c => dfsFileClose m s c
  | .unlink u => dfsFileUnlink m behind s u
  | .rename r => dfsFileRename m behind s r

end

/-! ## What the files are -/

/-- The file at each path, the contents of each file, and the file and position of each
descriptor. -/
structure Spec where
  files : Path → Option Nat
  contents : Nat → List UInt8
  fresh : Nat
  fds : Nat → Option (Nat × Nat)

/-- The path of a file in the RAM file system. -/
def Mounted.Below (m : Mounted) (p : Path) : Prop :=
  dfsFilesystemLookup m.table p = some m.index ∧ p ≠ m.path

instance (m : Mounted) (p : Path) : Decidable (m.Below p) := inferInstanceAs (Decidable (_ ∧ _))

/-- The normalised path, if it is the one of a file. -/
def Mounted.key (m : Mounted) (workingDirectory : Option CPath) (path : CPath) : Option Path :=
  (dfsNormalizePath (workingDirectory.map CPath.chars) true path.chars).filter m.Below

namespace Spec

/-- A file is created where there is none. -/
def «open» (t : Spec) (o : Open) (p : Path) : Spec :=
  match t.files p with
  | some f =>
    let contents :=
      if o.flags.trunc ∧ !o.flags.directory then Function.update t.contents f [] else t.contents
    let pos := if o.flags.append then (contents f).length else 0
    { t with contents, fds := Function.update t.fds o.fd (some (f, pos)) }
  | none =>
    { files := Function.update t.files p (some t.fresh)
      contents := Function.update t.contents t.fresh []
      fresh := t.fresh + 1
      fds := Function.update t.fds o.fd (some (t.fresh, 0)) }

def write (t : Spec) (w : Write) (n : Nat) : Spec :=
  match t.fds w.fd with
  | some (f, pos) =>
    { t with
      contents := Function.update t.contents f (overlay (t.contents f) pos (w.buf.take n))
      fds := Function.update t.fds w.fd (some (f, pos + n)) }
  | none => t

/-- What a successful call makes of the files. -/
def step (m : Mounted) (t : Spec) (e : Event) (n : Nat) : Spec :=
  match e with
  | .open o => (m.key o.workingDirectory o.path).elim t (t.open o)
  | .write w => t.write w n
  | .close c => { t with fds := Function.update t.fds c.fd none }
  | .unlink u => (m.key u.workingDirectory u.path).elim t fun p =>
    { t with files := Function.update t.files p none }
  | .rename r =>
    match m.key r.workingDirectory r.oldpath, m.key r.workingDirectory r.newpath with
    | some p, some q =>
      { t with files := Function.update (Function.update t.files q (t.files p)) p none }
    | _, _ => t

def answer (m : Mounted) (t : Spec) (e : Event) : Except DfsError Nat → Spec
  | .error _ => t
  | .ok n => t.step m e n

end Spec

/-- `fd_new` takes a free entry. -/
def possible (s : State) : Event → Bool
  | .open o => (s.fds[o.fd]?).any Option.isNone
  | _ => true

def step (m : Mounted) (behind : Dirent → List Char) (st : State × Spec) (e : Event) :
    Option (State × Spec) :=
  if possible st.1 e then
    some (match exec m behind st.1 e with
      | none => ({ st.1 with fault := true }, st.2)
      | some (s, result) => (s, st.2.answer m e result))
  else none

/-- An empty file system, and `n` entries for descriptors. -/
def start (n : Nat) : State × Spec :=
  (⟨dfsRamfsCreate, List.replicate n none, false⟩,
    ⟨fun _ => none, fun _ => [], root + 1, fun _ => none⟩)

/-- The file that is found at a path. -/
def State.find (s : State) (m : Mounted) (behind : Dirent → List Char) (p : Path) : Option Nat :=
  (dfsSubdir m.path p).bind (dfsRamfsLookup behind s.ramfs)

/-- What is in a file. -/
def State.contents (s : State) (f : Nat) : List UInt8 :=
  (s.ramfs.dirents f).data.take (s.ramfs.dirents f).size

/-- Every path leads to its file, with what has been written to it; names are terminated. -/
structure Agrees (m : Mounted) (behind : Dirent → List Char) (st : State × Spec) : Prop where
  sound : st.1.fault = false
  find : ∀ workingDirectory path p, m.key workingDirectory path = some p →
    st.1.find m behind p = st.2.files p
  contents : ∀ p f, st.2.files p = some f → st.1.contents f = st.2.contents f
  terminated : ∀ d ∈ st.1.ramfs.list, nul ∈ (st.1.ramfs.dirents d).name

/-- The steps that keep the files as they should be. -/
def Good (m : Mounted) (behind : Dirent → List Char) (st : State × Spec) : Event → Prop
  | .open o => ∀ fullpath,
    dfsNormalizePath (o.workingDirectory.map CPath.chars) o.memory o.path.chars = some fullpath →
    dfsFilesystemLookup m.table fullpath = some m.index →
    m.fdIsOpen st.1.fds o.workingDirectory o.isOpenMemory fullpath = false →
      m.fdIsOpen st.1.fds o.workingDirectory true fullpath = false ∧
      (o.pathMemory = false → o.flags.directory ∧ o.flags.creat) ∧
      (st.1.find m behind fullpath = none → fullpath ≠ m.path → o.flags.creat ∨ o.flags.wronly →
        o.flags.directory = false → o.direntMemory = true →
          ((m.fdPath m.index fullpath).dropWhile (· = '/')).length < nameMax)
  | .write w => ∀ file, st.1.fds[w.fd]? = some (some file) → file.fs = m.index →
    file.pos + w.buf.length < 2 ^ 32 ∧
      (file.data = root → file.pos + w.buf.length ≤ file.size →
        file.pos + w.buf.length ≤ (st.1.ramfs.dirents root).data.length)
  | .close _ => True
  | .unlink u => ∀ fullpath,
    dfsNormalizePath (u.workingDirectory.map CPath.chars) u.memory u.path.chars = some fullpath →
    dfsFilesystemLookup m.table fullpath = some m.index →
    m.fdIsOpen st.1.fds u.workingDirectory u.isOpenMemory fullpath = false →
      m.fdIsOpen st.1.fds u.workingDirectory true fullpath = false ∧ fullpath ≠ m.path
  | .rename r => ∀ oldfullpath newfullpath,
    dfsNormalizePath (r.workingDirectory.map CPath.chars) r.oldMemory r.oldpath.chars =
      some oldfullpath →
    dfsNormalizePath (r.workingDirectory.map CPath.chars) r.newMemory r.newpath.chars =
      some newfullpath →
    dfsFilesystemLookup m.table oldfullpath = dfsFilesystemLookup m.table newfullpath →
      dfsFilesystemLookup m.table oldfullpath ≠ none ∧
        (dfsFilesystemLookup m.table oldfullpath = some m.index → newfullpath ≠ m.path ∧
          (st.1.find m behind newfullpath = none →
            oldfullpath ≠ m.path ∧ st.1.find m behind oldfullpath = none))

-- the instance for `open` has more parts than the default allows
set_option synthInstance.maxSize 1000 in
instance (m : Mounted) (behind : Dirent → List Char) (st : State × Spec) :
    DecidablePred (Good m behind st)
  | .open o => decidable_of_iff (∀ fullpath ∈
      dfsNormalizePath (o.workingDirectory.map CPath.chars) o.memory o.path.chars, _) Iff.rfl
  | .write w => decidable_of_iff (∀ entry ∈ st.1.fds[w.fd]?, ∀ file ∈ entry,
      file.fs = m.index → _) ⟨fun h file hfile => h _ hfile file rfl, fun h _ hentry file hfile =>
        h file (hfile ▸ hentry)⟩
  | .close _ => isTrue trivial
  | .unlink u => decidable_of_iff (∀ fullpath ∈
      dfsNormalizePath (u.workingDirectory.map CPath.chars) u.memory u.path.chars, _) Iff.rfl
  | .rename r => decidable_of_iff
      (∀ oldfullpath ∈
        dfsNormalizePath (r.workingDirectory.map CPath.chars) r.oldMemory r.oldpath.chars,
      ∀ newfullpath ∈
        dfsNormalizePath (r.workingDirectory.map CPath.chars) r.newMemory r.newpath.chars, _)
      ⟨fun h old new hold => h old hold new, fun h old hold new => h old new hold⟩

/-! ## The names of paths -/

/-- What the path of a file is below the mount point. -/
def Mounted.nameOf (m : Mounted) (p : Path) : Path :=
  ((dfsSubdir m.path p).getD []).dropWhile (· = '/')

section
variable {m : Mounted} {p q : Path}

/-- The loop returns an entry whose mount point it has taken. -/
theorem accepts_of_lookupFrom {rest : List Filesystem} {n len i : Nat} {fs : Option Nat}
    (h : lookupFrom p rest n fs len = some i) :
    fs = some i ∨ ∃ k fspath, i = n + k ∧ (rest[k]?).bind Filesystem.path = some fspath ∧
      Accepts fspath p := by
  induction rest generalizing n fs len with
  | nil => exact .inl h
  | cons iter rest ih =>
    have hskip : ∀ {fs' : Option Nat} {len' : Nat},
        lookupFrom p rest (n + 1) fs' len' = some i → fs' = some i ∨ ∃ k fspath, i = n + k ∧
          ((iter :: rest)[k]?).bind Filesystem.path = some fspath ∧ Accepts fspath p := by
      intro fs' len' h'
      refine (ih h').imp_right ?_
      rintro ⟨k, fspath, hi, hpath, hacc⟩
      exact ⟨k + 1, fspath, by omega, hpath, hacc⟩
    unfold lookupFrom at h
    split at h
    · rename_i fspath ops hpath hops
      split at h
      · exact hskip h
      · rename_i htake
        rw [not_or, not_not] at htake
        rcases hskip h with hfs | hlater
        · refine .inr ⟨0, fspath, (Option.some.inj hfs).symm, ?_, htake.2⟩
          rw [List.getElem?_cons_zero, Option.bind_some, hpath]
        · exact .inr hlater
    · exact hskip h

theorem Mounted.path_entry (m : Mounted) :
    (m.table[m.index]?).bind Filesystem.path = some m.path := by
  rw [m.entry]
  rfl

theorem Mounted.pathAt_index (m : Mounted) : m.pathAt m.index = m.path := by
  unfold Mounted.pathAt
  rw [m.path_entry]
  rfl

theorem Mounted.opsAt_index (m : Mounted) : m.opsAt m.index = some m.ops := by
  unfold Mounted.opsAt
  rw [m.entry]
  rfl

theorem accepts_of_lookup (h : dfsFilesystemLookup m.table p = some m.index) :
    Accepts m.path p := by
  rcases accepts_of_lookupFrom h with hnone | ⟨k, fspath, hk, hpath, hacc⟩
  · cases hnone
  · rw [Nat.zero_add] at hk
    rw [← hk, m.path_entry] at hpath
    exact Option.some.inj hpath ▸ hacc

theorem fdPath_index (m : Mounted) (p : Path) :
    m.fdPath m.index p = (dfsSubdir m.path p).getD ['/'] := by
  unfold Mounted.fdPath
  rw [m.opsAt_index, Option.any_some, m.flag, m.pathAt_index]
  rfl

theorem Mounted.one_lt_length (m : Mounted) (hroot : m.path ≠ ['/']) : 1 < m.path.length := by
  obtain ⟨rest, hrest⟩ := List.head?_eq_some_iff.mp m.normal.head
  cases rest with
  | nil => exact absurd hrest hroot
  | cons c rest => simp [hrest]

/-- What stands in front of the slash before a name. -/
def Mounted.base (m : Mounted) : Path := if m.path = ['/'] then [] else m.path

theorem Mounted.Below.split (hp : Normal p) (h : m.Below p) :
    ∃ name, name ≠ [] ∧ name.head? ≠ some '/' ∧ p = m.base ++ '/' :: name := by
  obtain ⟨hlookup, hne⟩ := h
  obtain ⟨⟨rest, rfl⟩, hsep⟩ := accepts_of_lookup hlookup
  have hrest : rest ≠ [] := by
    rintro rfl
    exact hne (List.append_nil _)
  have hinfix := hp.not_infix
  unfold Mounted.base
  by_cases hroot : m.path = ['/']
  · rw [hroot] at hinfix ⊢
    refine ⟨rest, hrest, fun hhead => hinfix ?_, rfl⟩
    obtain ⟨later, rfl⟩ := List.head?_eq_some_iff.mp hhead
    exact ⟨[], later, rfl⟩
  · have hlen := m.one_lt_length hroot
    have hpos := List.length_pos_of_ne_nil hrest
    rw [List.length_append, List.getElem?_append_right (Nat.le_refl _), Nat.sub_self] at hsep
    have hslash : rest[0]? = some '/' := by
      by_contra hother
      exact hsep ⟨hlen, by omega, hother⟩
    obtain ⟨name, rfl⟩ := List.head?_eq_some_iff.mp (List.head?_eq_getElem?.trans hslash)
    rw [if_neg hroot]
    refine ⟨name, ?_, fun hhead => hinfix ?_, rfl⟩
    · rintro rfl
      refine hp.getLast ?_ (by simp)
      intro heq
      have hone := congrArg List.length heq
      rw [List.length_append, List.length_singleton] at hone
      omega
    · obtain ⟨later, rfl⟩ := List.head?_eq_some_iff.mp hhead
      exact ⟨m.path, later, by simp⟩

theorem subdir_of_split {name : Path} (hname : name ≠ []) (hhead : name.head? ≠ some '/')
    (hp : p = m.base ++ '/' :: name) : dfsSubdir m.path p = some ('/' :: name) ∧
      (if m.path = ['/'] then p else p.drop m.path.length) = '/' :: name := by
  have hpos := List.length_pos_of_ne_nil hname
  subst hp
  unfold Mounted.base dfsSubdir
  by_cases hroot : m.path = ['/']
  · rw [hroot, if_pos rfl, if_pos rfl]
    have hlen : ['/'].length ≠ ([] ++ '/' :: name).length := by
      rw [List.nil_append, List.length_singleton, List.length_cons]
      omega
    have hnext : ([] ++ '/' :: name)[['/'].length]? ≠ some '/' := by
      rw [List.head?_eq_getElem?] at hhead
      simpa using hhead
    rw [if_neg hlen, if_pos ⟨hnext, by simp⟩]
    exact ⟨rfl, rfl⟩
  · rw [if_neg hroot, if_neg hroot]
    have hlen : m.path.length ≠ (m.path ++ '/' :: name).length := by
      simp
    rw [if_neg hlen, if_neg (by simp), List.drop_left]
    exact ⟨rfl, rfl⟩

/-- A path of a file, as the functions of both layers take it apart. -/
theorem Mounted.Below.name (hp : Normal p) (h : m.Below p) :
    dfsSubdir m.path p = some ('/' :: m.nameOf p) ∧ m.nameOf p ≠ [] ∧
      (m.nameOf p).head? ≠ some '/' ∧ p = m.base ++ '/' :: m.nameOf p ∧
      (if m.path = ['/'] then p else p.drop m.path.length) = '/' :: m.nameOf p := by
  obtain ⟨name, hne, hhead, hsplit⟩ := h.split hp
  obtain ⟨hsub, hmount⟩ := subdir_of_split hne hhead hsplit
  have hname : m.nameOf p = name := by
    unfold Mounted.nameOf
    rw [hsub, Option.getD_some, List.dropWhile_cons_of_pos (by simp)]
    cases name with
    | nil => exact absurd rfl hne
    | cons c name => exact List.dropWhile_cons_of_neg (by simpa using hhead)
  rw [hname]
  exact ⟨hsub, hne, hhead, hsplit, hmount⟩

theorem dropWhile_nameOf (hp : Normal p) (hb : m.Below p) :
    ('/' :: m.nameOf p).dropWhile (· = '/') = m.nameOf p := by
  obtain ⟨-, hne, hhead, -, -⟩ := hb.name hp
  obtain ⟨c, name, hname⟩ := List.exists_cons_of_ne_nil hne
  rw [hname] at hhead ⊢
  rw [List.dropWhile_cons_of_pos (by simp), List.dropWhile_cons_of_neg (by simpa using hhead)]

/-- Different paths have different names. -/
theorem nameOf_inj (hp : Normal p) (hq : Normal q) (hbp : m.Below p) (hbq : m.Below q)
    (h : m.nameOf p = m.nameOf q) : p = q := by
  rw [(hbp.name hp).2.2.2.1, (hbq.name hq).2.2.2.1, h]

theorem normal_of_lookup {wd : Option Path} {memory : Bool} {filename : Path}
    (h : dfsNormalizePath wd memory filename = some p)
    (hlookup : dfsFilesystemLookup m.table p = some m.index) : Normal p := by
  refine normal_of_normalize h ?_
  obtain ⟨⟨rest, rfl⟩, -⟩ := accepts_of_lookup hlookup
  obtain ⟨path, hpath⟩ := List.head?_eq_some_iff.mp m.normal.head
  rw [hpath]
  rfl

theorem key_eq_some {wd : Option CPath} {path : CPath} (h : m.key wd path = some p) :
    m.Below p ∧ Normal p ∧ nul ∉ p := by
  obtain ⟨hnormalize, hbelow⟩ := Option.filter_eq_some_iff.mp h
  have hbelow : m.Below p := of_decide_eq_true hbelow
  exact ⟨hbelow, normal_of_lookup hnormalize hbelow.1, nul_notMem_normalize hnormalize⟩

end

/-! ## Names -/

/-- The name of an entry, if it is terminated. -/
def Ramfs.fileName (ramfs : Ramfs) (d : Nat) : Path := text nul (ramfs.dirents d).name

/-- The entries of the list are the files, under their names and with their contents. -/
structure Names (m : Mounted) (ramfs : Ramfs) (files : Path → Option Nat)
    (contents : Nat → List UInt8) (fresh : Nat) : Prop where
  nodup : ramfs.list.Nodup
  range : ∀ d ∈ ramfs.list, root < d ∧ d < ramfs.fresh
  pos : root < ramfs.fresh
  fresh : fresh = ramfs.fresh
  terminated : ∀ d ∈ ramfs.list, nul ∈ (ramfs.dirents d).name
  files : ∀ p d, files p = some d ↔
    (Normal p ∧ m.Below p) ∧ d ∈ ramfs.list ∧ ramfs.fileName d = m.nameOf p
  contents : ∀ d ∈ ramfs.list, (ramfs.dirents d).data = contents d ∧
    (ramfs.dirents d).size = (contents d).length

theorem text_append_of_mem {buf rest : List Char} (h : nul ∈ buf) :
    text nul (buf ++ rest) = text nul buf := by
  obtain ⟨front, back, rfl, hfront⟩ := List.eq_append_cons_of_mem h
  rw [List.append_assoc, List.cons_append, text_append_nul hfront, text_append_nul hfront]

/-- A name that does not fill the array. -/
theorem strncpy_spec {src : Path} {n : Nat} (hsrc : nul ∉ src) (hlen : src.length < n) :
    nul ∈ strncpy src n ∧ text nul (strncpy src n) = src := by
  obtain ⟨k, rfl⟩ : ∃ k, n = src.length + (k + 1) := ⟨n - src.length - 1, by omega⟩
  have heq : strncpy src (src.length + (k + 1)) = src ++ nul :: List.replicate k nul := by
    unfold strncpy
    rw [List.take_length_add_append, List.take_replicate, Nat.min_eq_left (by omega)]
    rfl
  rw [heq]
  exact ⟨by simp, text_append_nul hsrc _⟩

@[simp] theorem setDirent_self (ramfs : Ramfs) (d : Nat) (dirent : Dirent) :
    (ramfs.setDirent d dirent).dirents d = dirent := Function.update_self _ _ _

@[simp] theorem setDirent_of_ne {d d' : Nat} (h : d' ≠ d) (ramfs : Ramfs) (dirent : Dirent) :
    (ramfs.setDirent d dirent).dirents d' = ramfs.dirents d' := Function.update_of_ne h _ _

@[simp] theorem setDirent_list (ramfs : Ramfs) (d : Nat) (dirent : Dirent) :
    (ramfs.setDirent d dirent).list = ramfs.list := rfl

section
variable {m : Mounted} {behind : Dirent → List Char} {ramfs ramfs' : Ramfs}
  {files : Path → Option Nat} {contents : Nat → List UInt8} {fresh d : Nat} {p : Path}

namespace Names

theorem nameAt (h : Names m ramfs files contents fresh) (hd : d ∈ ramfs.list) :
    ramfs.nameAt behind d = ramfs.fileName d := text_append_of_mem (h.terminated d hd)

theorem fresh_notMem (h : Names m ramfs files contents fresh) : ramfs.fresh ∉ ramfs.list :=
  fun hfresh => Nat.lt_irrefl _ (h.range _ hfresh).2

/-- The list is searched for a file. -/
theorem lookup (h : Names m ramfs files contents fresh) (hp : Normal p) (hb : m.Below p) :
    dfsRamfsLookup behind ramfs ('/' :: m.nameOf p) = files p := by
  unfold dfsRamfsLookup
  dsimp only
  rw [dropWhile_nameOf hp hb, if_neg (hb.name hp).2.1]
  cases hfind : ramfs.list.find? fun d => ramfs.nameAt behind d = m.nameOf p with
  | none =>
    cases hfile : files p with
    | none => rfl
    | some d =>
      obtain ⟨-, hd, hname⟩ := (h.files p d).mp hfile
      have hnot := List.find?_eq_none.mp hfind d hd
      rw [h.nameAt hd, hname] at hnot
      exact absurd (decide_eq_true rfl) hnot
  | some d =>
    have hd := List.mem_of_find?_eq_some hfind
    have hname := List.find?_some hfind
    rw [h.nameAt hd] at hname
    exact ((h.files p d).mpr ⟨⟨hp, hb⟩, hd, of_decide_eq_true hname⟩).symm

/-- Entries outside the list do not matter. -/
theorem congr (h : Names m ramfs files contents fresh) (hlist : ramfs'.list = ramfs.list)
    (hfresh : ramfs'.fresh = ramfs.fresh)
    (hsame : ∀ d ∈ ramfs.list, ramfs'.dirents d = ramfs.dirents d) :
    Names m ramfs' files contents fresh where
  nodup := hlist ▸ h.nodup
  range := fun d hd => by
    rw [hfresh]
    exact h.range d (hlist ▸ hd)
  pos := hfresh ▸ h.pos
  fresh := h.fresh.trans hfresh.symm
  terminated := fun d hd => by
    rw [hlist] at hd
    rw [hsame d hd]
    exact h.terminated d hd
  files := fun p d => by
    rw [h.files, hlist]
    refine and_congr_right fun _ => and_congr_right fun hd => ?_
    unfold Ramfs.fileName
    rw [hsame d hd]
  contents := fun d hd => by
    rw [hlist] at hd
    rw [hsame d hd]
    exact h.contents d hd

/-- The contents of a file change. -/
theorem setData (h : Names m ramfs files contents fresh) (data : List UInt8) :
    Names m (ramfs.setDirent d { ramfs.dirents d with data, size := data.length }) files
      (Function.update contents d data) fresh := by
  have hname : ∀ d', ((ramfs.setDirent d { ramfs.dirents d with data, size := data.length }).dirents
      d').name = (ramfs.dirents d').name := by
    intro d'
    by_cases heq : d' = d
    · rw [heq, setDirent_self]
    · rw [setDirent_of_ne heq]
  refine ⟨h.nodup, h.range, h.pos, h.fresh, fun d' hd' => ?_, fun p d' => ?_, fun d' hd' => ?_⟩
  · rw [hname]
    exact h.terminated d' hd'
  · rw [h.files, setDirent_list]
    unfold Ramfs.fileName
    rw [hname]
  · by_cases heq : d' = d
    · subst heq
      rw [setDirent_self, Function.update_self]
      exact ⟨rfl, rfl⟩
    · rw [setDirent_of_ne heq, Function.update_of_ne heq]
      exact h.contents d' hd'

/-- A file is created. -/
theorem insert (h : Names m ramfs files contents fresh) (hp : Normal p) (hb : m.Below p)
    (hnul : nul ∉ m.nameOf p) (hlen : (m.nameOf p).length < nameMax) (hnone : files p = none) :
    Names m (ramfs.insert ('/' :: m.nameOf p)) (Function.update files p (some fresh))
      (Function.update contents fresh []) (fresh + 1) := by
  obtain ⟨hterminated, htext⟩ := strncpy_spec hnul hlen
  have hself : ((ramfs.insert ('/' :: m.nameOf p)).dirents ramfs.fresh) =
      { name := strncpy (m.nameOf p) nameMax } := by
    unfold Ramfs.insert
    rw [dropWhile_nameOf hp hb]
    exact Function.update_self _ _ _
  have hother : ∀ d ∈ ramfs.list, (ramfs.insert ('/' :: m.nameOf p)).dirents d = ramfs.dirents d :=
    fun d hd => Function.update_of_ne (Nat.ne_of_lt (h.range d hd).2) _ _
  have hname : (ramfs.insert ('/' :: m.nameOf p)).fileName ramfs.fresh = m.nameOf p := by
    unfold Ramfs.fileName
    rw [hself]
    exact htext
  have hfresh := h.fresh
  subst hfresh
  refine ⟨List.nodup_cons.mpr ⟨h.fresh_notMem, h.nodup⟩, ?_, Nat.lt_succ_of_lt h.pos, rfl, ?_, ?_,
    ?_⟩
  · intro d hd
    rcases List.mem_cons.mp hd with rfl | hd
    · exact ⟨h.pos, Nat.lt_succ_self _⟩
    · exact ⟨(h.range d hd).1, Nat.lt_succ_of_lt (h.range d hd).2⟩
  · intro d hd
    rcases List.mem_cons.mp hd with rfl | hd
    · rw [hself]
      exact hterminated
    · rw [hother d hd]
      exact h.terminated d hd
  · intro q d
    by_cases hq : q = p
    · subst hq
      rw [Function.update_self]
      constructor
      · rintro hd
        obtain rfl := Option.some.inj hd
        exact ⟨⟨hp, hb⟩, List.mem_cons_self, hname⟩
      · rintro ⟨-, hd, heq⟩
        rcases List.mem_cons.mp hd with rfl | hd
        · rfl
        · unfold Ramfs.fileName at heq
          rw [hother d hd] at heq
          rw [(h.files q d).mpr ⟨⟨hp, hb⟩, hd, heq⟩] at hnone
          cases hnone
    · rw [Function.update_of_ne hq, h.files]
      refine and_congr_right fun hkey => ?_
      constructor
      · rintro ⟨hd, heq⟩
        unfold Ramfs.fileName at heq ⊢
        rw [hother d hd]
        exact ⟨List.mem_cons_of_mem _ hd, heq⟩
      · rintro ⟨hd, heq⟩
        rcases List.mem_cons.mp hd with rfl | hd
        · exact absurd (nameOf_inj hkey.1 hp hkey.2 hb (heq.symm.trans hname)) hq
        · unfold Ramfs.fileName at heq ⊢
          rw [hother d hd] at heq
          exact ⟨hd, heq⟩
  · intro d hd
    rcases List.mem_cons.mp hd with rfl | hd
    · rw [hself, Function.update_self]
      exact ⟨rfl, rfl⟩
    · rw [hother d hd, Function.update_of_ne (Nat.ne_of_lt (h.range d hd).2)]
      exact h.contents d hd

/-- A file is removed. -/
theorem erase (h : Names m ramfs files contents fresh) (hfile : files p = some d) :
    Names m { ramfs with list := ramfs.list.erase d } (Function.update files p none) contents
      fresh := by
  have hmem : ∀ d', d' ∈ ramfs.list.erase d ↔ d' ≠ d ∧ d' ∈ ramfs.list := fun d' =>
    h.nodup.mem_erase_iff
  refine ⟨h.nodup.erase d, fun d' hd' => h.range d' ((hmem d').mp hd').2, h.pos, h.fresh,
    fun d' hd' => h.terminated d' ((hmem d').mp hd').2, fun q d' => ?_,
    fun d' hd' => h.contents d' ((hmem d').mp hd').2⟩
  by_cases hq : q = p
  · subst hq
    rw [Function.update_self]
    constructor
    · rintro hnone
      cases hnone
    · rintro ⟨hkey, hd', hname⟩
      obtain ⟨hne, hd'⟩ := (hmem d').mp hd'
      rw [(h.files q d').mpr ⟨hkey, hd', hname⟩] at hfile
      exact absurd (Option.some.inj hfile) hne
  · rw [Function.update_of_ne hq, h.files]
    refine and_congr_right fun hkey => ⟨?_, ?_⟩
    · rintro ⟨hd', hname⟩
      refine ⟨(hmem d').mpr ⟨?_, hd'⟩, hname⟩
      rintro rfl
      obtain ⟨hkey', -, hname'⟩ := (h.files p d').mp hfile
      exact hq (nameOf_inj hkey.1 hkey'.1 hkey.2 hkey'.2 (hname.symm.trans hname'))
    · rintro ⟨hd', hname⟩
      exact ⟨((hmem d').mp hd').2, hname⟩

theorem truncate (h : Names m ramfs files contents fresh) (flags : Flags) :
    Names m (ramfs.truncate flags d) files
      (if flags.trunc then Function.update contents d [] else contents) fresh := by
  unfold Ramfs.truncate
  split
  · exact h.setData []
  · exact h

end Names

theorem truncate_of_ne {d' : Nat} (flags : Flags) (h : d' ≠ d) :
    (ramfs.truncate flags d).dirents d' = ramfs.dirents d' := by
  unfold Ramfs.truncate
  split
  · exact setDirent_of_ne h _ _
  · rfl

theorem truncate_list (flags : Flags) : (ramfs.truncate flags d).list = ramfs.list := by
  unfold Ramfs.truncate
  split <;> rfl

end

/-! ## Descriptors -/

/-- A descriptor of a file knows where the file is and how long it is. -/
def FdOk (m : Mounted) (ramfs : Ramfs) (entry : Option (Option Fd)) (spec : Option (Nat × Nat)) :
    Prop :=
  match entry with
  | some (some file) =>
    if file.fs = m.index then
      file.data = root ∧ spec = none ∨
        file.data ∈ ramfs.list ∧ file.path = '/' :: ramfs.fileName file.data ∧
          spec = some (file.data, file.pos) ∧ file.size = (ramfs.dirents file.data).size ∧
          file.pos ≤ file.size
    else spec = none
  | _ => spec = none

/-- No file has two descriptors. -/
structure Descs (m : Mounted) (ramfs : Ramfs) (fds : List (Option Fd))
    (spec : Nat → Option (Nat × Nat)) : Prop where
  each : ∀ i, FdOk m ramfs fds[i]? (spec i)
  single : ∀ i j d pos pos', spec i = some (d, pos) → spec j = some (d, pos') → i = j

section
variable {m : Mounted} {ramfs ramfs' : Ramfs} {fds : List (Option Fd)}
  {spec : Nat → Option (Nat × Nat)} {i d pos : Nat}

/-- Other entries do not matter for a descriptor. -/
theorem FdOk.frame {entry : Option (Option Fd)} {sp : Option (Nat × Nat)}
    (h : FdOk m ramfs entry sp) (hsame : ∀ d pos, sp = some (d, pos) → d ∈ ramfs.list →
      d ∈ ramfs'.list ∧ ramfs'.dirents d = ramfs.dirents d) : FdOk m ramfs' entry sp := by
  unfold FdOk at h ⊢
  split
  · rename_i file
    dsimp only at h
    split at h
    · rename_i hfs
      rw [if_pos hfs]
      refine h.imp_right ?_
      rintro ⟨hmem, hpath, hsp, hsize, hpos⟩
      obtain ⟨hmem', heq⟩ := hsame _ _ hsp hmem
      refine ⟨hmem', ?_, hsp, ?_, hpos⟩
      · unfold Ramfs.fileName
        rw [heq]
        exact hpath
      · rw [heq]
        exact hsize
    · rename_i hfs
      rw [if_neg hfs]
      exact h
  · rename_i hnot
    split at h
    · exact absurd rfl (hnot _)
    · exact h

namespace Descs

theorem frame (h : Descs m ramfs fds spec) (hsame : ∀ j d pos, spec j = some (d, pos) →
    d ∈ ramfs.list → d ∈ ramfs'.list ∧ ramfs'.dirents d = ramfs.dirents d) :
    Descs m ramfs' fds spec where
  each := fun j => (h.each j).frame fun d pos hsp hmem => hsame j d pos hsp hmem
  single := h.single

/-- One descriptor changes. -/
theorem set (h : Descs m ramfs fds spec) {entry : Option Fd} {sp : Option (Nat × Nat)}
    (hi : i < fds.length)
    (hsame : ∀ j ≠ i, ∀ d pos, spec j = some (d, pos) → d ∈ ramfs.list →
      d ∈ ramfs'.list ∧ ramfs'.dirents d = ramfs.dirents d)
    (hnew : FdOk m ramfs' (some entry) sp)
    (hsingle : ∀ d pos, sp = some (d, pos) → ∀ j ≠ i, ∀ pos', spec j ≠ some (d, pos')) :
    Descs m ramfs' (fds.set i entry) (Function.update spec i sp) := by
  constructor
  · intro j
    by_cases hj : j = i
    · subst hj
      rw [Function.update_self, List.getElem?_set_self hi]
      exact hnew
    · rw [Function.update_of_ne hj, List.getElem?_set_ne (Ne.symm hj)]
      exact (h.each j).frame fun d pos hsp hmem => hsame j hj d pos hsp hmem
  · intro j k d pos pos' hj hk
    by_cases hji : j = i
    · subst hji
      rw [Function.update_self] at hj
      by_contra hne
      rw [Function.update_of_ne (Ne.symm hne)] at hk
      exact hsingle d pos hj k (Ne.symm hne) pos' hk
    · rw [Function.update_of_ne hji] at hj
      by_cases hki : k = i
      · subst hki
        rw [Function.update_self] at hk
        exact absurd hj (hsingle d pos' hk j hji pos)
      · rw [Function.update_of_ne hki] at hk
        exact h.single j k d pos pos' hj hk

/-- What a descriptor is open on is there. -/
theorem mem (h : Descs m ramfs fds spec) (hi : spec i = some (d, pos)) : d ∈ ramfs.list ∧
    ∃ file, fds[i]? = some (some file) ∧ file.fs = m.index ∧
      file.path = '/' :: ramfs.fileName d := by
  have heach := h.each i
  rw [hi] at heach
  unfold FdOk at heach
  split at heach
  · rename_i file hfile
    split at heach
    · rename_i hfs
      rcases heach with ⟨-, hnone⟩ | ⟨hmem, hpath, hsome, -, -⟩
      · cases hnone
      · obtain ⟨rfl, -⟩ := Prod.mk.inj (Option.some.inj hsome)
        exact ⟨hmem, file, hfile, hfs, hpath⟩
    · cases heach
  · cases heach

/-- A file that `fd_is_open` does not find has no descriptor. -/
theorem of_not_open (h : Descs m ramfs fds spec) {wd : Option CPath} {p : Path} (hp : Normal p)
    (hb : m.Below p) (hname : ramfs.fileName d = m.nameOf p)
    (hopen : m.fdIsOpen fds wd true p = false) (j pos : Nat) : spec j ≠ some (d, pos) := by
  intro hj
  obtain ⟨-, file, hfile, hfs, hpath⟩ := h.mem hj
  unfold Mounted.fdIsOpen at hopen
  rw [hp.normalize] at hopen
  dsimp only at hopen
  rw [hb.1] at hopen
  dsimp only at hopen
  rw [m.pathAt_index, (hb.name hp).2.2.2.2] at hopen
  have hnot := List.any_eq_false.mp hopen _ (List.mem_of_getElem? hfile)
  rw [Option.any_some, hfs, hpath, hname] at hnot
  exact hnot (decide_eq_true ⟨rfl, rfl⟩)

end Descs

end

/-! ## Writes -/

section
variable {data buf : List UInt8} {pos : Nat}

@[simp] theorem length_overlay (hpos : pos ≤ data.length) :
    (overlay data pos buf).length = max data.length (pos + buf.length) := by
  unfold overlay
  rw [List.length_append, List.length_append, List.length_take, List.length_drop]
  omega

@[simp] theorem overlay_nil : overlay data pos [] = data := by
  simp [overlay]

@[simp] theorem length_realloc (size : Nat) (junk : Nat → UInt8) :
    (realloc data size junk).length = size := by
  simp [realloc]

/-- What is new in the block is overwritten. -/
theorem overlay_realloc (hpos : pos ≤ data.length) (hlen : data.length ≤ buf.length + pos)
    (junk : Nat → UInt8) :
    overlay (realloc data (buf.length + pos) junk) pos buf = overlay data pos buf := by
  have htake : (realloc data (buf.length + pos) junk).take pos = data.take pos := by
    refine List.ext_getElem (by simp; omega) fun i hi hi' => ?_
    rw [List.length_take, List.length_take] at *
    simp [realloc, List.getElem?_eq_getElem (show i < data.length by omega)]
  unfold overlay
  rw [htake, List.drop_eq_nil_of_le (by simp; omega), List.drop_eq_nil_of_le (by omega)]

end

section
variable {ramfs : Ramfs} {file : Fd} {buf : List UInt8}

theorem setDirent_setDirent (ramfs : Ramfs) (d : Nat) (x y : Dirent) :
    (ramfs.setDirent d x).setDirent d y = ramfs.setDirent d y := by
  unfold Ramfs.setDirent
  rw [Function.update_idem]

/-- A write to a file is done whole or not at all. -/
theorem dfsRamfsWrite_file (hd : file.data ∈ ramfs.list)
    (hsize : file.size = (ramfs.dirents file.data).size)
    (hlen : (ramfs.dirents file.data).size = (ramfs.dirents file.data).data.length)
    (hpos : file.pos ≤ file.size) (hwrap : file.pos + buf.length < 2 ^ 32) (memory : Bool)
    (junk : Nat → UInt8) :
    dfsRamfsWrite ramfs file buf memory junk = some (ramfs, file, 0) ∨
      ∃ new, new = overlay (ramfs.dirents file.data).data file.pos buf ∧
        dfsRamfsWrite ramfs file buf memory junk =
          some (ramfs.setDirent file.data
            { ramfs.dirents file.data with data := new, size := new.length },
            { file with size := new.length, pos := file.pos + buf.length }, buf.length) := by
  have hposlen : file.pos ≤ (ramfs.dirents file.data).data.length := by omega
  have hmod : (buf.length + file.pos) % 2 ^ 32 = buf.length + file.pos :=
    Nat.mod_eq_of_lt (by omega)
  unfold dfsRamfsWrite
  rw [if_neg (fun hfreed => hfreed.2 hd), hmod]
  by_cases hlt : file.size < buf.length + file.pos
  · rw [if_pos hlt]
    cases memory with
    | false => exact .inl rfl
    | true =>
      refine .inr ⟨_, rfl, ?_⟩
      have hroom : file.pos + buf.length ≤ buf.length + file.pos := by omega
      unfold Ramfs.memcpy
      rw [if_pos rfl]
      dsimp only
      rw [setDirent_self, setDirent_setDirent, length_realloc, if_pos (.inr hroom),
        overlay_realloc hposlen (by omega), length_overlay hposlen, Nat.max_eq_right (by omega),
        Nat.add_comm file.pos]
  · rw [if_neg hlt]
    refine .inr ⟨_, rfl, ?_⟩
    unfold Ramfs.memcpy
    dsimp only
    rw [if_pos (.inr (by omega)), length_overlay hposlen, Nat.max_eq_left (by omega), ← hlen,
      ← hsize]

/-- A write to the root itself leaves the files alone. -/
theorem dfsRamfsWrite_root (hroot : file.data = root) (hwrap : file.pos + buf.length < 2 ^ 32)
    (hroom : file.pos + buf.length ≤ file.size →
      file.pos + buf.length ≤ (ramfs.dirents root).data.length) (memory : Bool)
    (junk : Nat → UInt8) :
    ∃ dirent file' n, dfsRamfsWrite ramfs file buf memory junk =
      some (ramfs.setDirent root dirent, file', n) ∧ file'.fs = file.fs ∧ file'.data = root := by
  have hmod : (buf.length + file.pos) % 2 ^ 32 = buf.length + file.pos :=
    Nat.mod_eq_of_lt (by omega)
  unfold dfsRamfsWrite
  rw [if_neg (fun hfreed => hfreed.1 hroot), hmod]
  by_cases hlt : file.size < buf.length + file.pos
  · rw [if_pos hlt]
    cases memory with
    | false =>
      refine ⟨ramfs.dirents root, file, 0, ?_, rfl, hroot⟩
      unfold Ramfs.setDirent
      rw [Function.update_eq_self]
      rfl
    | true =>
      have hroom : file.pos + buf.length ≤ buf.length + file.pos := by omega
      unfold Ramfs.memcpy
      rw [if_pos rfl]
      dsimp only
      rw [setDirent_self, setDirent_setDirent, length_realloc, if_pos (.inr hroom), hroot]
      exact ⟨_, _, _, rfl, rfl, rfl⟩
  · rw [if_neg hlt]
    unfold Ramfs.memcpy
    dsimp only
    rw [hroot, if_pos (.inr (hroom (by omega)))]
    exact ⟨_, _, _, rfl, rfl, rfl⟩

end

end ControlRTT.Components.RamFiles
