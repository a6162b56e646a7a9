import ControlRTT.Lib.Runs
import ControlRTT.Lib.SlotTable

/-! # Mounted file systems (dfs_fs.c, dfs.c)

A file system is mounted on a normalised path. Whether the path is mounted already is asked with
the path as the caller spells it, so another spelling of a mount point is mounted a second time.
Otherwise mount points are different, a call that fails leaves the table as it was, and the file
system of a path is the one with the longest mount point on its way (`mounts_along_iff`). -/
namespace ControlRTT.Components.MountTable
open ControlRTT.Lib.Runs ControlRTT.Lib.SlotTable

abbrev Path := List Char

/-! ## Normalised paths -/

/-- Where the loop of `dfs_normalize_path` is in its source. -/
inductive Place where
  | beginning
  | behindSlash
  | inName
  deriving DecidableEq, Repr

/-- The label `up_one`; what has been written is kept last character first. -/
def upOne : List Char → Option (List Char)
  | [] => none
  | _ :: dst => some (dst.dropWhile (· ≠ '/'))

/-- The loop. The slashes behind a name are skipped one by one. -/
def normalizeFrom : Place → List Char → List Char → Option (List Char)
  | _, dst, [] => some dst
  | place, dst, c :: src =>
    if c = '/' then
      if place = .behindSlash then normalizeFrom .behindSlash dst src
      else normalizeFrom .behindSlash ('/' :: dst) src
    else if place ≠ .inName ∧ c = '.' then
      match src with
      | [] => some dst
      | '/' :: src => normalizeFrom .behindSlash dst src
      | ['.'] => upOne dst
      | '.' :: '/' :: src => (upOne dst).bind fun dst => normalizeFrom .behindSlash dst src
      | src => normalizeFrom .inName (c :: dst) src
    else normalizeFrom .inName (c :: dst) src

/-- A slash at the end goes, and nothing becomes the root. -/
def endPath (dst : List Char) : Path :=
  if dst = [] then ['/']
  else if dst.head? = some '/' ∧ dst.length ≠ 1 then dst.tail.reverse
  else dst.reverse

/-- `dfs_normalize_path(NULL, filename)`; there is a working directory with `DFS_USING_WORKDIR`,
and `memory` says whether the path can be allocated. -/
def dfsNormalizePath (workingDirectory : Option Path) (memory : Bool) (filename : Path) :
    Option Path :=
  let fullpath :=
    if filename.head? = some '/' then some filename
    else workingDirectory.map (· ++ '/' :: filename)
  if memory then (fullpath.bind (normalizeFrom .beginning [])).map endPath else none

theorem endPath_ne_nil (dst : List Char) : endPath dst ≠ [] := by
  unfold endPath
  split
  · exact List.cons_ne_nil _ _
  · rename_i hne
    obtain ⟨c, dst, rfl⟩ := List.exists_cons_of_ne_nil hne
    split
    · rename_i hslash
      intro hnil
      have hlen : dst.length ≠ 0 := fun hzero => hslash.2 (congrArg (· + 1) hzero)
      exact hlen (by rw [← List.length_reverse, show dst.reverse = [] from hnil, List.length_nil])
    · simp

theorem normalize_ne_nil {wd : Option Path} {memory : Bool} {filename p : Path}
    (h : dfsNormalizePath wd memory filename = some p) : p ≠ [] := by
  unfold dfsNormalizePath at h
  obtain ⟨-, h⟩ := Option.ite_none_right_eq_some.mp h
  obtain ⟨dst, -, rfl⟩ := Option.map_eq_some_iff.mp h
  exact endPath_ne_nil dst

/-! ## The table -/

/-- `struct dfs_filesystem_ops`: its name, and whether it can mount and unmount. -/
structure FilesystemOps where
  name : List Char
  mount : Bool
  unmount : Bool
  deriving DecidableEq, Repr

/-- `struct dfs_filesystem`; its `data` is the file system's own. -/
structure Filesystem where
  devId : Option Nat := none
  path : Option Path := none
  ops : Option FilesystemOps := none
  deriving DecidableEq, Repr

/-- The arguments of `dfs_mount`, and what the devices and file systems do. -/
structure Mount where
  deviceName : Option (List Char)
  path : Path
  filesystemtype : List Char
  workingDirectory : Option Path := none
  memory : Bool := true
  found : Option Nat := none
  directory : Bool := true
  deviceOpens : Bool := true
  mounts : Bool := true

structure Unmount where
  specialfile : Path
  workingDirectory : Option Path := none
  memory : Bool := true
  unmounts : Bool := true

inductive MountError where
  | nodev
  | nosys
  | notdir
  | inval
  | nospc
  | failed
  deriving DecidableEq, Repr

def Mount.fullpath (m : Mount) : Option Path := dfsNormalizePath m.workingDirectory m.memory m.path

def Unmount.fullpath (u : Unmount) : Option Path :=
  dfsNormalizePath u.workingDirectory u.memory u.specialfile

def Mount.findType (m : Mount) (types : List (Option FilesystemOps)) : Option FilesystemOps :=
  (types.find? fun o => o.any (·.name = m.filesystemtype)).join

/-- The path need not exist for the root and the devices. -/
def Mount.Exists (m : Mount) (fullpath : Path) : Prop :=
  fullpath = ['/'] ∨ fullpath = ['/', 'd', 'e', 'v'] ∨ m.directory

instance (m : Mount) (fullpath : Path) : Decidable (m.Exists fullpath) :=
  inferInstanceAs (Decidable (_ ∨ _))

variable (types : List (Option FilesystemOps))

/-- `dfs_mount` up to where it registers the file system: the entry, and what is put there. -/
def mountEntry (t : List Filesystem) (m : Mount) : Except MountError (Nat × Filesystem) :=
  if m.deviceName.isSome ∧ m.found.isNone then .error .nodev
  else
    match m.findType types with
    | none => .error .nodev
    | some ops =>
      if !ops.mount then .error .nosys
      else
        match m.fullpath with
        | none => .error .notdir
        | some fullpath =>
          if ¬m.Exists fullpath then .error .notdir
          else if t.any fun fs => fs.ops.isSome && fs.path = some m.path then .error .inval
          else
            match t.findIdx? fun fs => fs.ops.isNone with
            | none => .error .nospc
            | some i =>
              .ok (i, ⟨m.deviceName.bind fun _ => m.found, some fullpath, some ops⟩)

/-- `filesystem_table` afterwards, and the result. -/
def dfsMount (t : List Filesystem) (m : Mount) : List Filesystem × Except MountError Unit :=
  match mountEntry types t m with
  | .error e => (t, .error e)
  | .ok (i, fs) =>
    let t := t.set i fs
    if fs.devId.isSome ∧ !m.deviceOpens then (t.set i {}, .error .failed)
    else if !m.mounts then (t.set i {}, .error .failed)
    else (t, .ok ())

/-- The table afterwards, and whether the result is 0. -/
def dfsUnmount (t : List Filesystem) (u : Unmount) : List Filesystem × Bool :=
  match u.fullpath with
  | none => (t, false)
  | some fullpath =>
    match t.findIdx? fun fs => fs.path = some fullpath with
    | none => (t, false)
    | some i =>
      if ((t[i]?.bind Filesystem.ops).any (·.unmount)) ∧ u.unmounts then (t.set i {}, true)
      else (t, false)

/-- A mount point that the loop of `dfs_filesystem_lookup` takes: it begins the path, and a
separator follows. -/
def Accepts (fspath path : Path) : Prop :=
  fspath <+: path ∧ ¬(1 < fspath.length ∧ fspath.length < path.length ∧
    path[fspath.length]? ≠ some '/')

instance (fspath path : Path) : Decidable (Accepts fspath path) :=
  inferInstanceAs (Decidable (_ ∧ _))

def lookupFrom (path : Path) :
    List Filesystem → Nat → Option Nat → Nat → Option Nat
  | [], _, fs, _ => fs
  | iter :: rest, i, fs, prefixlen =>
    match iter.path, iter.ops with
    | some fspath, some _ =>
      if fspath.length < prefixlen ∨ ¬Accepts fspath path then
        lookupFrom path rest (i + 1) fs prefixlen
      else lookupFrom path rest (i + 1) (some i) fspath.length
    | _, _ => lookupFrom path rest (i + 1) fs prefixlen

/-- The index of the entry that is returned. -/
def dfsFilesystemLookup (t : List Filesystem) (path : Path) : Option Nat :=
  lookupFrom path t 0 none 0

inductive Event where
  | mount (m : Mount)
  | unmount (u : Unmount)

def step (t : List Filesystem) : Event → Option (List Filesystem)
  | .mount m => some (dfsMount types t m).1
  | .unmount u => some (dfsUnmount t u).1

/-- `DFS_FILESYSTEMS_MAX` empty entries. -/
def start (n : Nat) : List Filesystem := List.replicate n {}

/-! ## What is asked of the table -/

def paths (t : List Filesystem) : List (Option Path) := t.map Filesystem.path

/-- The components of the one are the first ones of the other. -/
def OnTheWay (mountPoint path : Path) : Prop :=
  mountPoint = ['/'] ∨ mountPoint = path ∨ mountPoint ++ ['/'] <+: path

/-- The entry is the one with the longest mount point on the way, or there is none. -/
def Longest (t : List Filesystem) (path : Path) : Option Nat → Prop
  | some i => ∃ m, At (paths t) i m ∧ OnTheWay m path ∧
      ∀ j m', At (paths t) j m' → OnTheWay m' path → j ≠ i → m'.length < m.length
  | none => ∀ j m, At (paths t) j m → ¬OnTheWay m path

structure Sound (t : List Filesystem) : Prop where
  distinct : Distinct (paths t)
  lookup : ∀ path : Path, path.head? = some '/' → Longest t path (dfsFilesystemLookup t path)

def Failed (t : List Filesystem) : Event → Prop
  | .mount m => (dfsMount types t m).2 ≠ .ok ()
  | .unmount u => (dfsUnmount t u).2 = false

def Keeps (t : List Filesystem) (e : Event) : Prop :=
  ∀ t', step types t e = some t' → (Failed types t e → t' = t) ∧ Sound t'

/-- Nothing but the check of the mount points keeps the file system from being mounted. -/
def Possible (t : List Filesystem) (m : Mount) (fullpath : Path) : Prop :=
  m.fullpath = some fullpath ∧ m.Exists fullpath ∧ (m.deviceName.isSome → m.found.isSome) ∧
    (∃ ops, m.findType types = some ops ∧ ops.mount) ∧ (∃ fs ∈ t, fs.ops = none) ∧
    (m.deviceName.isSome → m.deviceOpens) ∧ m.mounts

/-- A path that is a mount point when it is normalised is spelled as a mount point, or the mount is
not possible anyway. -/
def Spelled (t : List Filesystem) : Event → Prop
  | .mount m => ∀ fullpath, Possible types t m fullpath → some fullpath ∈ paths t →
      some m.path ∈ paths t
  | .unmount _ => True

/-! ## The invariant -/

structure Inv (t : List Filesystem) : Prop where
  distinct : Distinct (paths t)
  empty : ∀ fs ∈ t, fs.ops = none → fs = {}
  mounted : ∀ fs ∈ t, ∀ ops, fs.ops = some ops → ∃ p, fs.path = some p ∧ p ≠ []

omit types

theorem at_paths {t : List Filesystem} {i : Nat} {p : Path} :
    At (paths t) i p ↔ ∃ fs, t[i]? = some fs ∧ fs.path = some p := by
  unfold At paths
  rw [List.getElem?_map, Option.map_eq_some_iff]

theorem mem_paths {t : List Filesystem} {p : Path} :
    some p ∈ paths t ↔ ∃ i, At (paths t) i p := List.mem_iff_getElem?

theorem inv_start (n : Nat) : Inv (start n) := by
  have hfs : ∀ fs ∈ start n, fs = {} := fun fs hfs => List.eq_of_mem_replicate hfs
  refine ⟨fun i j p hi _ => ?_, fun fs h _ => hfs fs h, fun fs h ops hops => ?_⟩
  · obtain ⟨fs, hget, hpath⟩ := at_paths.mp hi
    rw [hfs fs (List.mem_of_getElem? hget)] at hpath
    cases hpath
  · rw [hfs fs h] at hops
    cases hops

section
variable {types : List (Option FilesystemOps)} {t : List Filesystem} {path : Path}

theorem Inv.path_eq_none (h : Inv t) {fs : Filesystem} (hfs : fs ∈ t) (hops : fs.ops = none) :
    fs.path = none := by
  rw [h.empty fs hfs hops]

theorem Inv.ne_nil (h : Inv t) {i : Nat} {p : Path} (hp : At (paths t) i p) : p ≠ [] := by
  obtain ⟨fs, hget, hpath⟩ := at_paths.mp hp
  have hmem := List.mem_of_getElem? hget
  cases hops : fs.ops with
  | none =>
    rw [h.path_eq_none hmem hops] at hpath
    cases hpath
  | some ops =>
    obtain ⟨q, hq, hne⟩ := h.mounted fs hmem ops hops
    rw [hpath] at hq
    exact Option.some.inj hq ▸ hne

/-- An entry is taken or emptied. -/
theorem paths_set (t : List Filesystem) (i : Nat) (fs : Filesystem) :
    paths (t.set i fs) = (paths t).set i fs.path := List.map_set

theorem Inv.clear (h : Inv t) {i : Nat} (hi : i < t.length) : Inv (t.set i {}) := by
  have hlt : i < (paths t).length := by rwa [paths, List.length_map]
  refine ⟨?_, fun fs hfs hops => ?_, fun fs hfs ops hops => ?_⟩
  · rw [paths_set]
    exact h.distinct.clear hlt
  · obtain hfs | rfl := List.mem_or_eq_of_mem_set hfs
    · exact h.empty fs hfs hops
    · rfl
  · obtain hfs | rfl := List.mem_or_eq_of_mem_set hfs
    · exact h.mounted fs hfs ops hops
    · cases hops

theorem Inv.register (h : Inv t) {i : Nat} {fs : Filesystem} {p : Path} {ops : FilesystemOps}
    (hi : t[i]? = some {}) (hpath : fs.path = some p) (hops : fs.ops = some ops) (hne : p ≠ [])
    (hnew : some p ∉ paths t) : Inv (t.set i fs) := by
  have hlt : i < (paths t).length := by
    rw [paths, List.length_map]
    exact (List.getElem?_eq_some_iff.mp hi).1
  refine ⟨?_, fun fs' hfs hnone => ?_, fun fs' hfs ops' hops' => ?_⟩
  · rw [paths_set, hpath]
    refine h.distinct.placed (i := i) (fun j q => ?_) fun j hj => hnew (mem_paths.mpr ⟨j, hj⟩)
    rw [at_set hlt]
    constructor
    · rintro (⟨rfl, hq⟩ | ⟨-, hq⟩)
      · exact .inl ⟨rfl, (Option.some.inj hq).symm⟩
      · exact .inr hq
    · rintro (⟨rfl, rfl⟩ | hq)
      · exact .inl ⟨rfl, rfl⟩
      · refine .inr ⟨?_, hq⟩
        rintro rfl
        obtain ⟨fs', hget, hpath'⟩ := at_paths.mp hq
        obtain rfl := Option.some.inj (hi.symm.trans hget)
        cases hpath'
  · obtain hfs | rfl := List.mem_or_eq_of_mem_set hfs
    · exact h.empty fs' hfs hnone
    · cases hops.symm.trans hnone
  · obtain hfs | rfl := List.mem_or_eq_of_mem_set hfs
    · exact h.mounted fs' hfs ops' hops'
    · exact ⟨p, hpath, hne⟩

/-! ## Looking up a path -/

theorem accepts_iff_onTheWay {m : Path} (hne : m ≠ []) (habs : path.head? = some '/') :
    Accepts m path ↔ OnTheWay m path := by
  constructor
  · rintro ⟨⟨rest, rfl⟩, hsep⟩
    obtain ⟨c, m, rfl⟩ := List.exists_cons_of_ne_nil hne
    obtain rfl : c = '/' := Option.some.inj habs
    cases rest with
    | nil => exact .inr (.inl (List.append_nil _).symm)
    | cons d rest =>
      cases m with
      | nil => exact .inl rfl
      | cons e m =>
        have hd : ('/' :: e :: m ++ d :: rest)[('/' :: e :: m).length]? = some d := by
          rw [List.getElem?_append_right (Nat.le_refl _), Nat.sub_self]
          rfl
        have hslash : d = '/' := by
          by_contra hd'
          refine hsep ⟨?_, ?_, ?_⟩
          · simp
          · simp
          · rw [hd]
            exact fun heq => hd' (Option.some.inj heq)
        refine .inr (.inr ⟨rest, ?_⟩)
        rw [hslash, List.append_assoc, List.singleton_append]
  · rintro (rfl | rfl | ⟨rest, rfl⟩)
    · obtain ⟨rest, rfl⟩ := List.head?_eq_some_iff.mp habs
      exact ⟨⟨rest, rfl⟩, fun hlong => absurd hlong.1 (by simp)⟩
    · exact ⟨List.prefix_refl _, fun hlong => absurd hlong.2.1 (Nat.lt_irrefl _)⟩
    · refine ⟨⟨'/' :: rest, by simp⟩, fun hlong => hlong.2.2 ?_⟩
      rw [List.append_assoc, List.getElem?_append_right (Nat.le_refl _), Nat.sub_self]
      rfl

/-- Among the first `n` entries `fs` has the longest mount point that is taken. -/
def Best (t : List Filesystem) (path : Path) (n : Nat) : Option Nat → Nat → Prop
  | none, len => len = 0 ∧ ∀ j < n, ∀ m, At (paths t) j m → ¬Accepts m path
  | some i, len => ∃ m, At (paths t) i m ∧ Accepts m path ∧ m.length = len ∧
      ∀ j < n, ∀ m', At (paths t) j m' → Accepts m' path → m'.length ≤ len

theorem Best.succ {n len : Nat} {fs : Option Nat} (h : Best t path n fs len)
    (hn : ∀ m, At (paths t) n m → m.length < len ∨ ¬Accepts m path) :
    Best t path (n + 1) fs len := by
  cases fs with
  | none =>
    refine ⟨h.1, fun j hj m hm => ?_⟩
    obtain hj | rfl := Nat.lt_succ_iff_lt_or_eq.mp hj
    · exact h.2 j hj m hm
    · obtain hlt | hnot := hn m hm
      · rw [h.1] at hlt
        exact absurd hlt (Nat.not_lt_zero _)
      · exact hnot
  | some i =>
    obtain ⟨m, hm, hacc, hlen, hbest⟩ := h
    refine ⟨m, hm, hacc, hlen, fun j hj m' hm' hacc' => ?_⟩
    obtain hj | rfl := Nat.lt_succ_iff_lt_or_eq.mp hj
    · exact hbest j hj m' hm' hacc'
    · obtain hlt | hnot := hn m' hm'
      · exact Nat.le_of_lt hlt
      · exact absurd hacc' hnot

theorem Best.take {n len : Nat} {fs : Option Nat} {m : Path} (h : Best t path n fs len)
    (hm : At (paths t) n m) (hacc : Accepts m path) (hlen : len ≤ m.length) :
    Best t path (n + 1) (some n) m.length := by
  refine ⟨m, hm, hacc, rfl, fun j hj m' hm' hacc' => ?_⟩
  obtain hj | rfl := Nat.lt_succ_iff_lt_or_eq.mp hj
  · cases fs with
    | none => exact absurd hacc' (h.2 j hj m' hm')
    | some i =>
      obtain ⟨_, -, -, -, hbest⟩ := h
      exact Nat.le_trans (hbest j hj m' hm' hacc') hlen
  · exact Nat.le_of_eq (congrArg _ (hm'.unique hm))

/-- The loop keeps the best entry so far. -/
theorem lookupFrom_best (h : Inv t) {rest : List Filesystem} {n len : Nat} {fs : Option Nat}
    (hbest : Best t path n fs len) (hrest : t.drop n = rest) :
    ∃ len', Best t path t.length (lookupFrom path rest n fs len) len' := by
  induction rest generalizing n fs len with
  | nil =>
    have hn : t.length ≤ n := List.drop_eq_nil_iff.mp hrest
    refine ⟨len, ?_⟩
    cases fs with
    | none => exact ⟨hbest.1, fun j hj => hbest.2 j (Nat.lt_of_lt_of_le hj hn)⟩
    | some i =>
      obtain ⟨m, hm, hacc, hlen, hall⟩ := hbest
      exact ⟨m, hm, hacc, hlen, fun j hj => hall j (Nat.lt_of_lt_of_le hj hn)⟩
  | cons iter rest ih =>
    have hget : t[n]? = some iter := by
      rw [← List.head?_drop, hrest]
      rfl
    have hdrop : t.drop (n + 1) = rest := by
      rw [← List.tail_drop, hrest]
      rfl
    have hat : ∀ m, At (paths t) n m ↔ iter.path = some m := fun m => by
      rw [at_paths]
      constructor
      · rintro ⟨fs', hfs', hm⟩
        exact Option.some.inj (hget.symm.trans hfs') ▸ hm
      · exact fun hm => ⟨iter, hget, hm⟩
    have hmem := List.mem_of_getElem? hget
    unfold lookupFrom
    split
    · rename_i fspath _ hpath _
      have hm : At (paths t) n fspath := (hat fspath).mpr hpath
      split
      · rename_i hskip
        refine ih (hbest.succ fun m hm' => ?_) hdrop
        rw [hm'.unique hm]
        exact hskip
      · rename_i htake
        rw [not_or, Nat.not_lt, not_not] at htake
        exact ih (hbest.take hm htake.2 htake.1) hdrop
    · rename_i hnone
      refine ih (hbest.succ fun m hm => absurd ?_ (not_false)) hdrop
      have hpath := (hat m).mp hm
      cases hops : iter.ops with
      | none => cases (h.path_eq_none hmem hops).symm.trans hpath
      | some ops => exact hnone m ops hpath hops

theorem Inv.longest (h : Inv t) (habs : path.head? = some '/') :
    Longest t path (dfsFilesystemLookup t path) := by
  have hfirst : Best t path 0 none 0 := ⟨rfl, fun j hj => absurd hj (Nat.not_lt_zero j)⟩
  obtain ⟨len, hbest⟩ := lookupFrom_best h hfirst List.drop_zero
  have hin : ∀ {j m}, At (paths t) j m → j < t.length := fun hm => by
    have hlt := hm.lt
    rwa [paths, List.length_map] at hlt
  have hiff : ∀ {j m}, At (paths t) j m → (Accepts m path ↔ OnTheWay m path) := fun hm =>
    accepts_iff_onTheWay (h.ne_nil hm) habs
  unfold dfsFilesystemLookup
  generalize lookupFrom path t 0 none 0 = r at hbest
  cases r with
  | none => exact fun j m hm hway => hbest.2 j (hin hm) m hm ((hiff hm).mpr hway)
  | some i =>
    obtain ⟨m, hm, hacc, rfl, hall⟩ := hbest
    refine ⟨m, hm, (hiff hm).mp hacc, fun j m' hm' hway hj => ?_⟩
    have hacc' := (hiff hm').mpr hway
    refine Nat.lt_of_le_of_ne (hall j (hin hm') m' hm' hacc') fun heq => hj ?_
    have hsame : m' = m :=
      (List.prefix_of_prefix_length_le hacc'.1 hacc.1 (Nat.le_of_eq heq)).eq_of_length heq
    exact h.distinct j i m (hsame ▸ hm') hm

theorem Inv.sound (h : Inv t) : Sound t := ⟨h.distinct, fun _ habs => h.longest habs⟩

/-! ## Mounting and unmounting -/

theorem Inv.any_iff (h : Inv t) (p : Path) :
    (t.any fun fs => fs.ops.isSome && fs.path = some p) = true ↔ some p ∈ paths t := by
  rw [List.any_eq_true, paths, List.mem_map]
  refine exists_congr fun fs => and_congr_right fun hfs => ?_
  rw [Bool.and_eq_true, decide_eq_true_iff]
  refine and_iff_right_of_imp fun hpath => ?_
  cases hops : fs.ops with
  | none => cases (h.path_eq_none hfs hops).symm.trans hpath
  | some ops => rfl

/-- The call comes to an empty entry for a path that is not spelled as a mount point, or it was not
possible, or the path is spelled so. -/
theorem mountEntry_cases (h : Inv t) (types : List (Option FilesystemOps)) (m : Mount) :
    (∃ e, mountEntry types t m = .error e ∧
      ∀ fullpath, Possible types t m fullpath → some m.path ∈ paths t) ∨
    ∃ (i : Nat) (fullpath : Path) (ops : FilesystemOps),
      mountEntry types t m =
        .ok (i, ⟨m.deviceName.bind fun _ => m.found, some fullpath, some ops⟩) ∧
      m.fullpath = some fullpath ∧ m.Exists fullpath ∧
      (m.deviceName.isSome → m.found.isSome) ∧ m.findType types = some ops ∧ ops.mount ∧
      some m.path ∉ paths t ∧ t[i]? = some {} := by
  unfold mountEntry
  by_cases hdev : m.deviceName.isSome ∧ m.found.isNone
  · refine .inl ⟨.nodev, if_pos hdev, fun _ hp => ?_⟩
    have hfound := hp.2.2.1 hdev.1
    rw [Option.isNone_iff_eq_none.mp hdev.2] at hfound
    cases hfound
  rw [if_neg hdev]
  cases htype : m.findType types with
  | none =>
    refine .inl ⟨.nodev, rfl, fun _ hp => ?_⟩
    obtain ⟨ops, hops, -⟩ := hp.2.2.2.1
    cases htype.symm.trans hops
  | some ops =>
    dsimp only
    by_cases hmount : ops.mount = true
    swap
    · rw [if_pos (by simpa using hmount)]
      refine .inl ⟨.nosys, rfl, fun _ hp => ?_⟩
      obtain ⟨ops', hops, himpl⟩ := hp.2.2.2.1
      exact absurd (Option.some.inj (htype.symm.trans hops) ▸ himpl) hmount
    rw [if_neg (by simpa using hmount)]
    cases hfull : m.fullpath with
    | none =>
      refine .inl ⟨.notdir, rfl, fun _ hp => ?_⟩
      cases hfull.symm.trans hp.1
    | some fullpath =>
      dsimp only
      by_cases hexists : m.Exists fullpath
      swap
      · refine .inl ⟨.notdir, if_pos hexists, fun _ hp => ?_⟩
        exact absurd (Option.some.inj (hfull.symm.trans hp.1) ▸ hp.2.1) hexists
      rw [if_neg (not_not_intro hexists)]
      by_cases hraw : some m.path ∈ paths t
      · exact .inl ⟨.inval, if_pos ((h.any_iff m.path).mpr hraw), fun _ _ => hraw⟩
      rw [if_neg fun hany => hraw ((h.any_iff m.path).mp hany)]
      cases hfind : t.findIdx? fun fs => fs.ops.isNone with
      | none =>
        refine .inl ⟨.nospc, rfl, fun _ hp => ?_⟩
        obtain ⟨fs, hfs, hops⟩ := hp.2.2.2.2.1
        have hnone := List.findIdx?_eq_none_iff.mp hfind fs hfs
        rw [hops] at hnone
        cases hnone
      | some i =>
        obtain ⟨hlt, hfree, -⟩ := List.findIdx?_eq_some_iff_getElem.mp hfind
        have hempty := h.empty _ (List.getElem_mem hlt) (Option.isNone_iff_eq_none.mp hfree)
        refine .inr ⟨i, fullpath, ops, rfl, rfl, hexists, fun hname => ?_, rfl, hmount, hraw, ?_⟩
        · by_contra hnone
          exact hdev ⟨hname, by simpa using hnone⟩
        · rw [List.getElem?_eq_getElem hlt, hempty]

/-- An entry that has been taken is emptied again. -/
theorem set_set_empty {i : Nat} (hi : t[i]? = some {}) (fs : Filesystem) :
    (t.set i fs).set i {} = t := by
  obtain ⟨hlt, heq⟩ := List.getElem?_eq_some_iff.mp hi
  rw [List.set_set, ← heq, List.set_getElem_self]

/-- A call that fails leaves the table alone, and one that was possible fails where the path is
spelled as a mount point. Otherwise an empty entry gets the normalised path. -/
theorem dfsMount_cases (h : Inv t) (types : List (Option FilesystemOps)) (m : Mount) :
    (∃ e, dfsMount types t m = (t, .error e) ∧
      ∀ fullpath, Possible types t m fullpath → some m.path ∈ paths t) ∨
    ∃ (i : Nat) (fs : Filesystem) (fullpath : Path) (ops : FilesystemOps),
      dfsMount types t m = (t.set i fs, .ok ()) ∧ Possible types t m fullpath ∧
      some m.path ∉ paths t ∧ t[i]? = some {} ∧ fs.path = some fullpath ∧ fs.ops = some ops := by
  unfold dfsMount
  obtain ⟨e, hentry, hpossible⟩ | ⟨i, fullpath, ops, hentry, hfull, hexists, hfound, htype, hmount,
    hraw, hi⟩ := mountEntry_cases h types m
  · rw [hentry]
    exact .inl ⟨e, rfl, hpossible⟩
  · rw [hentry]
    dsimp only
    rw [set_set_empty hi]
    by_cases hopens : (m.deviceName.bind fun _ => m.found).isSome = true ∧ (!m.deviceOpens) = true
    · refine .inl ⟨.failed, if_pos hopens, fun _ hp => ?_⟩
      have hname : m.deviceName.isSome := by
        cases hname : m.deviceName with
        | none =>
          rw [hname] at hopens
          cases hopens.1
        | some name => rfl
      have hopen := hp.2.2.2.2.2.1 hname
      rw [hopen] at hopens
      cases hopens.2
    rw [if_neg hopens]
    cases hmounts : m.mounts with
    | false =>
      refine .inl ⟨.failed, rfl, fun _ hp => ?_⟩
      cases hmounts.symm.trans hp.2.2.2.2.2.2
    | true =>
      refine .inr ⟨i, _, fullpath, ops, rfl, ⟨hfull, hexists, hfound, ⟨ops, htype, hmount⟩,
        ⟨{}, List.mem_of_getElem? hi, rfl⟩, fun hname => ?_, hmounts⟩, hraw, hi, rfl, rfl⟩
      obtain ⟨name, hname'⟩ := Option.isSome_iff_exists.mp hname
      obtain ⟨dev, hdev⟩ := Option.isSome_iff_exists.mp (hfound hname)
      by_contra hclosed
      refine hopens ⟨?_, by simpa using hclosed⟩
      rw [hname', hdev]
      rfl

theorem dfsUnmount_cases (t : List Filesystem) (u : Unmount) :
    dfsUnmount t u = (t, false) ∨ ∃ i < t.length, dfsUnmount t u = (t.set i {}, true) := by
  unfold dfsUnmount
  split
  · exact .inl rfl
  · split
    · exact .inl rfl
    · rename_i i hfind
      split
      · exact .inr ⟨i, (List.findIdx?_eq_some_iff_getElem.mp hfind).1, rfl⟩
      · exact .inl rfl

theorem Inv.unmount (h : Inv t) (u : Unmount) : Inv (dfsUnmount t u).1 := by
  obtain heq | ⟨i, hi, heq⟩ := dfsUnmount_cases t u
  · rw [heq]
    exact h
  · rw [heq]
    exact h.clear hi

theorem Inv.step {t' : List Filesystem} {e : Event} (h : Inv t) (hspelled : Spelled types t e)
    (hstep : step types t e = some t') : Inv t' := by
  cases e with
  | mount m =>
    obtain rfl := Option.some.inj hstep
    obtain ⟨e, hmount, -⟩ | ⟨i, fs, fullpath, ops, hmount, hpossible, hraw, hi, hpath, hops⟩ :=
      dfsMount_cases h types m
    · rw [hmount]
      exact h
    · rw [hmount]
      exact h.register hi hpath hops (normalize_ne_nil hpossible.1)
        fun hin => hraw (hspelled fullpath hpossible hin)
  | unmount u =>
    obtain rfl := Option.some.inj hstep
    exact h.unmount u

theorem Inv.keeps_iff {t' : List Filesystem} {e : Event} (h : Inv t)
    (hstep : MountTable.step types t e = some t') : Keeps types t e ↔ Spelled types t e := by
  constructor
  · intro hkeeps
    cases e with
    | unmount => trivial
    | mount m =>
      intro fullpath hpossible hin
      have hsound := (hkeeps _ rfl).2
      obtain ⟨e, -, hspelled⟩ | ⟨i, fs, full, ops, hmount, hp, -, hi, hpath, -⟩ :=
        dfsMount_cases h types m
      · exact hspelled fullpath hpossible
      · obtain rfl := Option.some.inj (hp.1.symm.trans hpossible.1)
        rw [hmount] at hsound
        obtain ⟨j, hj⟩ := mem_paths.mp hin
        have hlt : i < (paths t).length := by
          rw [paths, List.length_map]
          exact (List.getElem?_eq_some_iff.mp hi).1
        have hdistinct := hsound.distinct
        rw [paths_set, hpath] at hdistinct
        have hne : j ≠ i := by
          rintro rfl
          obtain ⟨fs', hget, hpath'⟩ := at_paths.mp hj
          obtain rfl := Option.some.inj (hi.symm.trans hget)
          cases hpath'
        have hji : j = i := hdistinct j i full ((at_set hlt).mpr (.inr ⟨hne, hj⟩))
          ((at_set hlt).mpr (.inl ⟨rfl, rfl⟩))
        exact absurd hji hne
  · intro hspelled t'' hstep'
    refine ⟨fun hfailed => ?_, (h.step hspelled hstep').sound⟩
    cases e with
    | mount m =>
      obtain rfl := Option.some.inj hstep'
      obtain ⟨e, hmount, -⟩ | ⟨i, fs, full, ops, hmount, -⟩ := dfsMount_cases h types m
      · exact congrArg Prod.fst hmount
      · exact absurd (congrArg Prod.snd hmount) hfailed
    | unmount u =>
      obtain rfl := Option.some.inj hstep'
      obtain heq | ⟨i, -, heq⟩ := dfsUnmount_cases t u
      · exact congrArg Prod.fst heq
      · change (dfsUnmount t u).2 = false at hfailed
        rw [heq] at hfailed
        cases hfailed

end

end ControlRTT.Components.MountTable
